import Rollcall.Listing
import Rollcall.Proofs.Announce

/-!
# Listings are canonical

A listing stands in the order of announces and lists every instance once, by its oldest announce.
There is only one way to list given announces so, which makes a listing independent of the order in
which they were found: an announce taken out and put back stands where it stood.
-/

namespace Rollcall

namespace Announce

/-- Whether an announce does not stand after another one. -/
abbrev precedes (a b : Announce) : Bool := (order a b).isLE

private theorem order_eq_compareLex :
    order = compareLex (compareOn name) (compareLex (compareOn key) (compareOn instanceId)) := rfl

instance : Std.TransCmp order := by
  rw [order_eq_compareLex]
  infer_instance

/-- Announces in the same place of the order have the same key and the same instance. -/
theorem eq_of_precedes {a b : Announce} (hab : a.precedes b) (hba : b.precedes a) :
    a.key = b.key ∧ a.instanceId = b.instanceId := by
  have h : order a b = .eq := Std.OrientedCmp.isLE_antisymm hab hba
  simp only [order, Ordering.then_eq_eq, Std.LawfulEqOrd.compare_eq_iff_eq] at h
  exact h.2

/-- Announces before one another are named in increasing order. -/
theorem name_le_of_precedes {a b : Announce} (h : a.precedes b) : a.name ≤ b.name := by
  simp only [precedes, order, Ordering.isLE_then_iff_and] at h
  exact Nat.isLE_compare.mp h.1

/-- Where an announce stands: under which key, and for which instance. -/
def place (a : Announce) : String × String := (a.key, a.instanceId)

/-- Whether an announce has a lower name than another one, or the same name and a lower key. -/
def Older (a b : Announce) : Prop := a.name < b.name ∨ a.name = b.name ∧ a.key < b.key

private theorem compare_eq_lt {a b : String} : compare a b = .lt ↔ a < b :=
  compareOfLessAndEq_eq_lt

/-- Announces in order are older and younger, or under one key and in the order of the instances. -/
theorem older_or_of_precedes {a b : Announce} (h : a.precedes b)
    (hne : a.instanceId ≠ b.instanceId) :
    a.Older b ∨ (a.name = b.name ∧ a.key = b.key) ∧ a.instanceId < b.instanceId := by
  simp only [precedes, order, Ordering.isLE_then_iff_or, Std.LawfulEqOrd.compare_eq_iff_eq,
    Std.compare_eq_lt, compare_eq_lt] at h
  rcases h with hn | ⟨hn, hk | ⟨hk, hi⟩⟩
  · exact .inl (.inl hn)
  · exact .inl (.inr ⟨hn, hk⟩)
  · refine .inr ⟨⟨hn, hk⟩, ?_⟩
    rcases Ordering.isLE_iff_eq_lt_or_eq_eq.mp hi with hi | hi
    · exact compare_eq_lt.mp hi
    · exact absurd (Std.LawfulEqOrd.compare_eq_iff_eq.mp hi) hne

/-- An announce before another one is not younger than that. -/
theorem not_older_of_precedes {a b : Announce} (h : a.precedes b) : ¬b.Older a := by
  intro ho
  have hlt : order b a = .lt := by
    simp only [order, Ordering.then_eq_lt, Std.LawfulEqOrd.compare_eq_iff_eq,
      Std.compare_eq_lt, compare_eq_lt]
    exact ho.imp_right fun hk => ⟨hk.1, .inl hk.2⟩
  have hgt : order a b = .gt := Std.OrientedCmp.gt_of_lt hlt
  rw [precedes, hgt] at h
  cases h

/-- The place of an announce in the order is that of its key and its instance. -/
theorem order_congr {a a' b b' : Announce} (ha : a.place = a'.place) (hb : b.place = b'.place) :
    order a b = order a' b' := by
  obtain ⟨hak, hai⟩ := Prod.mk.inj ha
  obtain ⟨hbk, hbi⟩ := Prod.mk.inj hb
  have han : a.name = a'.name := by simp only [name, hak]
  have hbn : b.name = b'.name := by simp only [name, hbk]
  rw [order, order, han, hbn, hak, hbk, hai, hbi]

end Announce

namespace Listing

open Announce

/-- Announces in order, none of one instance twice. -/
structure Canonical (l : List Announce) : Prop where
  sorted : l.Pairwise fun a b => a.precedes b
  distinct : l.Pairwise fun a b => a.instanceId ≠ b.instanceId

theorem Canonical.sublist {l m : List Announce} (h : Canonical m) (hs : l.Sublist m) :
    Canonical l := ⟨h.sorted.sublist hs, h.distinct.sublist hs⟩

/-- In a canonical list an instance has one announce. -/
theorem Canonical.eq_of_instanceId {l : List Announce} (h : Canonical l) {a b : Announce}
    (ha : a ∈ l) (hb : b ∈ l) (he : a.instanceId = b.instanceId) : a = b := by
  have hp : l.Pairwise fun a b => a.instanceId = b.instanceId → a = b :=
    h.distinct.imp fun hn he => absurd he hn
  have hf : l.Pairwise fun b a => a.instanceId = b.instanceId → a = b :=
    h.distinct.imp fun hn he => absurd he.symm hn
  exact List.Pairwise.forall_of_forall_of_flip (fun _ _ _ => rfl) hp hf ha hb he

theorem Canonical.nodup {l : List Announce} (h : Canonical l) : l.Nodup :=
  h.distinct.imp fun hne he => hne (congrArg Announce.instanceId he)

theorem Canonical.nodup_instanceIds {l : List Announce} (h : Canonical l) :
    (l.map Announce.instanceId).Nodup := List.pairwise_map.mpr h.distinct

/-- Canonical lists with announces in the same places have them in the same order. -/
theorem Canonical.places_eq {l m : List Announce} (hl : Canonical l) (hm : Canonical m)
    (h : ∀ p, p ∈ l.map place ↔ p ∈ m.map place) : l.map place = m.map place := by
  have hnodup : ∀ {l : List Announce}, Canonical l → (l.map place).Nodup := fun hc =>
    List.pairwise_map.mpr (hc.distinct.imp fun hne he => hne (congrArg Prod.snd he))
  -- The order of places is that of any announces in them.
  have hsorted : ∀ {l : List Announce}, Canonical l → (l.map place).Pairwise fun p q =>
      ∀ a b : Announce, a.place = p → b.place = q → a.precedes b := fun hc =>
    List.pairwise_map.mpr (hc.sorted.imp fun hab a b ha hb => by
      rw [precedes, order_congr ha hb]; exact hab)
  refine List.Perm.eq_of_pairwise ?_ (hsorted hl) (hsorted hm)
    ((List.perm_ext_iff_of_nodup (hnodup hl) (hnodup hm)).mpr h)
  intro p q hp hq hpq hqp
  obtain ⟨a, _, rfl⟩ := List.mem_map.mp hp
  obtain ⟨b, _, rfl⟩ := List.mem_map.mp hq
  obtain ⟨hk, hi⟩ := eq_of_precedes (hpq a b rfl rfl) (hqp b a rfl rfl)
  exact Prod.ext hk hi

theorem firstOfEach_sublist (l : List Announce) : (firstOfEach l).Sublist l := by
  induction l with
  | nil => exact .slnil
  | cons a l ih => exact .cons_cons a ((List.filter_sublist).trans ih)

private theorem firstOfEach_distinct (l : List Announce) :
    (firstOfEach l).Pairwise fun a b => a.instanceId ≠ b.instanceId := by
  induction l with
  | nil => exact .nil
  | cons a l ih =>
    rw [firstOfEach, List.pairwise_cons]
    refine ⟨fun b hb => ?_, ih.filter _⟩
    have := (List.mem_filter.mp hb).2
    exact fun he => by simp [he] at this

/-- The first announce of each instance comes before the others of it. -/
theorem exists_first {l : List Announce} (h : l.Pairwise fun a b => a.precedes b) {b : Announce}
    (hb : b ∈ l) :
    ∃ a ∈ firstOfEach l, a.instanceId = b.instanceId ∧ a.precedes b := by
  induction l with
  | nil => simp at hb
  | cons c l ih =>
    rw [List.pairwise_cons] at h
    rcases List.mem_cons.mp hb with rfl | hb
    · exact ⟨b, by simp [firstOfEach], rfl, Std.ReflCmp.isLE_rfl⟩
    · by_cases hc : c.instanceId = b.instanceId
      · exact ⟨c, by simp [firstOfEach], hc, h.1 b hb⟩
      · obtain ⟨a, ha, hi, hp⟩ := ih h.2 hb
        have hne : a.instanceId ≠ c.instanceId := fun he => hc (he ▸ hi)
        exact ⟨a, by simp [firstOfEach, ha, hne], hi, hp⟩

private theorem firstOfEach_of_distinct {l : List Announce}
    (h : l.Pairwise fun a b => a.instanceId ≠ b.instanceId) : firstOfEach l = l := by
  induction l with
  | nil => rfl
  | cons a l ih =>
    rw [List.pairwise_cons] at h
    rw [firstOfEach, ih h.2, List.filter_eq_self.mpr]
    intro b hb
    simpa using Ne.symm (h.1 b hb)

private theorem insert_perm (a : Announce) (l : List Announce) : (insert a l).Perm (a :: l) := by
  induction l with
  | nil => exact .refl _
  | cons b l ih =>
    unfold insert
    split
    · exact .refl _
    · exact (ih.cons b).trans (.swap a b l)

private theorem sort_perm (l : List Announce) : (sort l).Perm l := by
  induction l with
  | nil => exact .refl _
  | cons a l ih => exact (insert_perm a _).trans (ih.cons a)

private theorem sorted_insert {a : Announce} {l : List Announce}
    (h : l.Pairwise fun a b => a.precedes b) :
    (insert a l).Pairwise fun a b => a.precedes b := by
  induction l with
  | nil => exact List.pairwise_singleton _ a
  | cons b l ih =>
    have hb := List.pairwise_cons.mp h
    unfold insert
    split
    · next hab =>
      refine List.pairwise_cons.mpr ⟨fun c hc => ?_, h⟩
      rcases List.mem_cons.mp hc with rfl | hc
      · exact hab
      · exact Std.TransCmp.isLE_trans hab (hb.1 c hc)
    · next hab =>
      have hba : b.precedes a := by
        have hs : order b a = (order a b).swap := Std.OrientedCmp.eq_swap
        rw [precedes, hs]
        cases ho : order a b <;> simp_all
      refine List.pairwise_cons.mpr ⟨fun c hc => ?_, ih hb.2⟩
      rcases List.mem_cons.mp ((insert_perm a l).subset hc) with rfl | hc
      · exact hba
      · exact hb.1 c hc

private theorem sorted_sort (l : List Announce) : (sort l).Pairwise fun a b => a.precedes b := by
  induction l with
  | nil => exact .nil
  | cons a l ih => exact sorted_insert ih

/-- A listing of any announces is canonical. -/
theorem canonical_ofList (l : List Announce) : Canonical (ofList l).entries where
  sorted := (sorted_sort l).sublist (firstOfEach_sublist _)
  distinct := firstOfEach_distinct _

/-- A listing lists announces that were found. -/
theorem mem_of_mem_ofList {l : List Announce} {a : Announce} (h : a ∈ (ofList l).entries) :
    a ∈ l := (sort_perm l).subset ((firstOfEach_sublist _).subset h)

/-- Of each instance found, a listing lists an announce before which none of it stands. -/
theorem exists_mem_ofList {l : List Announce} {b : Announce} (hb : b ∈ l) :
    ∃ a ∈ (ofList l).entries, a.instanceId = b.instanceId ∧ a.precedes b :=
  exists_first (sorted_sort l) ((sort_perm l).symm.subset hb)

/-- Canonical lists of the same announces are equal. -/
theorem Canonical.eq_of_perm {l m : List Announce} (hl : Canonical l) (hm : Canonical m)
    (h : l.Perm m) : l = m := by
  refine List.Perm.eq_of_pairwise (fun a b ha hb hab hba => ?_) hl.sorted hm.sorted h
  exact hm.eq_of_instanceId (h.subset ha) hb (eq_of_precedes hab hba).2

/-- Announces of different instances are all listed, in their order. -/
theorem entries_ofList_of_perm {l m : List Announce} (hm : Canonical m) (h : l.Perm m) :
    (ofList l).entries = m := by
  have hp : (sort l).Perm m := (sort_perm l).trans h
  have hd : (sort l).Pairwise fun a b => a.instanceId ≠ b.instanceId :=
    hp.symm.pairwise hm.distinct fun hn => Ne.symm hn
  have hc : Canonical (sort l) := ⟨sorted_sort l, hd⟩
  have hf : firstOfEach (sort l) = sort l :=
    firstOfEach_of_distinct hd
  exact hf.trans (hc.eq_of_perm hm hp)

/-- The announce found for an instance is listed and is the instance's. -/
theorem mem_of_get? {l : Listing} {id : String} {a : Announce} (h : l.get? id = some a) :
    a ∈ l.entries ∧ a.instanceId = id :=
  ⟨List.mem_of_find?_eq_some h, by simpa using List.find?_some h⟩

theorem contains_iff {l : Listing} {id : String} : l.contains id = true ↔ id ∈ l.instanceIds := by
  rw [contains, get?, List.find?_isSome, instanceIds, List.mem_map]
  simp

/-- In a canonical listing the announce of an instance is found. -/
theorem get?_of_mem {l : Listing} (hc : Canonical l.entries) {a : Announce}
    (ha : a ∈ l.entries) : l.get? a.instanceId = some a := by
  cases h : l.get? a.instanceId with
  | none =>
    have := List.find?_eq_none.mp h a ha
    simp at this
  | some b =>
    have hb := mem_of_get? h
    rw [hc.eq_of_instanceId hb.1 ha hb.2]

/-- The announce listed for an instance comes before every other one found of it. -/
theorem precedes_of_get?_ofList {l : List Announce} {id : String} {a b : Announce}
    (ha : (ofList l).get? id = some a) (hb : b ∈ l) (hid : b.instanceId = id) :
    a.precedes b := by
  obtain ⟨c, hc, hi, hp⟩ := exists_mem_ofList hb
  have hm := mem_of_get? ha
  rw [(canonical_ofList l).eq_of_instanceId hm.1 hc (by rw [hm.2, hi, hid])]
  exact hp

/-- What is listed without an instance is what is listed of the others. -/
theorem mem_without {l : Listing} {id : String} {a : Announce} :
    a ∈ (l.without id).entries ↔ a ∈ l.entries ∧ a.instanceId ≠ id := by
  simp [without]

/-- A listing without an instance is canonical. -/
theorem canonical_without {l : Listing} (h : Canonical l.entries) (id : String) :
    Canonical (l.without id).entries := h.sublist List.filter_sublist

private theorem perm_filter_append {l : List Announce} {a : Announce}
    (hd : l.Pairwise fun a b => a.instanceId ≠ b.instanceId) (ha : a ∈ l) :
    ((l.filter fun b => b.instanceId ≠ a.instanceId) ++ [a]).Perm l := by
  induction l with
  | nil => simp at ha
  | cons b l ih =>
    rw [List.pairwise_cons] at hd
    rcases List.mem_cons.mp ha with rfl | ha
    · have hf : (l.filter fun b => b.instanceId ≠ a.instanceId) = l := by
        rw [List.filter_eq_self]
        intro c hc
        simpa using Ne.symm (hd.1 c hc)
      rw [List.filter_cons_of_neg (by simp), hf]
      exact List.perm_append_singleton a l
    · rw [List.filter_cons_of_pos (by simpa using hd.1 a ha), List.cons_append]
      exact (ih hd.2 ha).cons b

/-- A listing is what it is without an announce of it, and that announce. -/
theorem perm_without_append {l : Listing} (hc : Canonical l.entries) {a : Announce}
    (ha : a ∈ l.entries) : ((l.without a.instanceId).entries ++ [a]).Perm l.entries :=
  perm_filter_append hc.distinct ha

/-- A listing has one announce of every instance that it lists. -/
theorem countP_instanceId {l : Listing} (hc : Canonical l.entries) {id : String}
    (h : l.contains id = true) : (l.entries.countP fun a => a.instanceId = id) = 1 := by
  obtain ⟨a, ha⟩ := Option.isSome_iff_exists.mp h
  obtain ⟨hm, rfl⟩ := mem_of_get? ha
  have hz : ((l.without a.instanceId).entries.countP fun b => b.instanceId = a.instanceId) = 0 := by
    rw [List.countP_eq_zero]
    intro b hb
    simpa using (mem_without.mp hb).2
  rw [← (perm_without_append hc hm).countP_eq, List.countP_append, hz]
  simp

/-- An announce taken out of a listing and put back stands where it stood. -/
theorem without_withAnnounce {l : Listing} (hc : Canonical l.entries) {id : String}
    (h : l.contains id = true) : (l.without id).withAnnounce (l.get? id) = l := by
  obtain ⟨a, ha⟩ := Option.isSome_iff_exists.mp h
  obtain ⟨hm, rfl⟩ := mem_of_get? ha
  have he : ((l.without a.instanceId).withAnnounce (l.get? a.instanceId)).entries = l.entries := by
    rw [withAnnounce, ha]
    exact entries_ofList_of_perm hc (perm_without_append hc hm)
  exact congrArg Listing.mk he

/-- Announces are read back from their nodes. -/
theorem readNodes_map_node {l : List Announce}
    (h : ∀ a ∈ l, Text.Decimal.isSigned64 a.data.propertiesIndex = true) :
    readNodes (l.map Announce.node) = .ok l := by
  have hf : (l.map Announce.node).filter (fun n => !n.dir && n.value.isSome) =
      l.map Announce.node := by
    rw [List.filter_eq_self]
    intro n hn
    obtain ⟨a, _, rfl⟩ := List.mem_map.mp hn
    rfl
  rw [readNodes, hf]
  clear hf
  induction l with
  | nil => rfl
  | cons a l ih =>
    rw [List.map_cons, List.mapM_cons, ofNode_node (h a (by simp)),
      ih fun b hb => h b (List.mem_cons_of_mem a hb)]
    rfl

/-- What is read of every element of a list, if all can be read. -/
theorem mapM_ok {α β ε : Type} {f : α → Except ε β} {l : List α} {m : List β}
    (h : l.mapM f = .ok m) :
    (∀ b ∈ m, ∃ a ∈ l, f a = .ok b) ∧ ∀ a ∈ l, ∃ b ∈ m, f a = .ok b := by
  induction l generalizing m with
  | nil =>
    rw [List.mapM_nil] at h
    cases h
    simp
  | cons a l ih =>
    rw [List.mapM_cons] at h
    cases hf : f a with
    | error e => simp [hf, bind, Except.bind] at h
    | ok b =>
      cases hl : l.mapM f with
      | error e => simp [hf, hl, bind, Except.bind] at h
      | ok m' =>
        simp only [hf, hl, bind, Except.bind, pure, Except.pure, Except.ok.injEq] at h
        subst h
        obtain ⟨hm, ha⟩ := ih hl
        constructor
        · intro c hc
          rcases List.mem_cons.mp hc with rfl | hc
          · exact ⟨a, by simp, hf⟩
          · obtain ⟨x, hx, hfx⟩ := hm c hc
            exact ⟨x, List.mem_cons_of_mem a hx, hfx⟩
        · intro x hx
          rcases List.mem_cons.mp hx with rfl | hx
          · exact ⟨b, by simp, hf⟩
          · obtain ⟨c, hc, hfx⟩ := ha x hx
            exact ⟨c, List.mem_cons_of_mem b hc, hfx⟩

/-- The announces read from nodes come from them, and every leaf with a value has one. -/
theorem mem_readNodes {nodes : List Store.Node} {found : List Announce}
    (h : readNodes nodes = .ok found) :
    (∀ a ∈ found, ∃ n ∈ nodes, Announce.ofNode n = .ok a) ∧
      ∀ n ∈ nodes, n.dir = false → n.value.isSome = true →
        ∃ a ∈ found, Announce.ofNode n = .ok a := by
  obtain ⟨hm, ha⟩ := mapM_ok h
  constructor
  · intro a hf
    obtain ⟨n, hn, hna⟩ := hm a hf
    exact ⟨n, (List.mem_filter.mp hn).1, hna⟩
  · intro n hn hd hv
    exact ha n (List.mem_filter.mpr ⟨hn, by rw [hd, hv]; rfl⟩)

/-- The listing of nodes lists the announces read from them. -/
theorem ofNodes_eq_ok {nodes : List Store.Node} {discard : Bool} {l : Listing}
    (h : ofNodes nodes discard = .ok l) :
    ∃ found, readNodes nodes = .ok found ∧
      l = ofList (found.filter fun a => !(discard && a.expired)) := by
  cases hr : readNodes nodes with
  | error e => simp [ofNodes, hr, bind, Except.bind] at h
  | ok found =>
    simp only [ofNodes, hr, bind, Except.bind, pure, Except.pure, Except.ok.injEq] at h
    exact ⟨found, rfl, h.symm⟩

/-- The listing of the nodes of a store is canonical. -/
theorem canonical_ofNodes {nodes : List Store.Node} {discard : Bool} {l : Listing}
    (h : ofNodes nodes discard = .ok l) : Canonical l.entries := by
  obtain ⟨found, _, rfl⟩ := ofNodes_eq_ok h
  exact canonical_ofList _

/-! ## The order in which announces were found -/

/-- Announces found in another order are listed in the same places. -/
theorem exists_same_place {l m : List Announce} (h : l.Perm m) {a : Announce}
    (ha : a ∈ (ofList l).entries) : ∃ b ∈ (ofList m).entries, b.place = a.place := by
  obtain ⟨b, hb, hbi, hba⟩ := exists_mem_ofList (h.subset (mem_of_mem_ofList ha))
  obtain ⟨c, hc, hci, hcb⟩ := exists_mem_ofList (h.symm.subset (mem_of_mem_ofList hb))
  have hca : c = a := (canonical_ofList l).eq_of_instanceId hc ha (hci.trans hbi)
  rw [hca] at hcb
  exact ⟨b, hb, Prod.ext (eq_of_precedes hba hcb).1 hbi⟩

/-- A listing lists the announces found in order, of every instance one that no other one of it is
older than, whatever the order in which they were found: in another order, the announces listed are
under the same keys, and they are the same ones if under one key no two of an instance differ. -/
theorem ofList_lists_oldest (l : List Announce) :
    ((ofList l).entries.Pairwise fun a b =>
      a.Older b ∨ (a.name = b.name ∧ a.key = b.key) ∧ a.instanceId < b.instanceId) ∧
    (∀ id, (ofList l).instanceIds.count id = if id ∈ l.map Announce.instanceId then 1 else 0) ∧
    (∀ a ∈ (ofList l).entries, a ∈ l ∧ ∀ b ∈ l, b.instanceId = a.instanceId → ¬b.Older a) ∧
    ∀ m, l.Perm m →
      (ofList l).entries.map place = (ofList m).entries.map place ∧
        ((∀ a ∈ l, ∀ b ∈ l, a.place = b.place → a = b) → ofList l = ofList m) := by
  have hc := canonical_ofList l
  refine ⟨?_, fun id => ?_, fun a ha => ?_, fun m hp => ?_⟩
  · exact hc.sorted.imp₂ (fun a b hab hne => older_or_of_precedes hab hne) hc.distinct
  · have hmem : id ∈ (ofList l).instanceIds ↔ id ∈ l.map Announce.instanceId := by
      rw [instanceIds, List.mem_map, List.mem_map]
      constructor
      · rintro ⟨a, ha, rfl⟩
        exact ⟨a, mem_of_mem_ofList ha, rfl⟩
      · rintro ⟨b, hb, rfl⟩
        obtain ⟨a, ha, hi, _⟩ := exists_mem_ofList hb
        exact ⟨a, ha, hi⟩
    have hn : (ofList l).instanceIds.Nodup := hc.nodup_instanceIds
    rw [hn.count]
    simp only [hmem]
  · refine ⟨mem_of_mem_ofList ha, fun b hb hi => not_older_of_precedes ?_⟩
    obtain ⟨c, hc', hci, hcb⟩ := exists_mem_ofList hb
    rwa [hc.eq_of_instanceId hc' ha (hci.trans hi)] at hcb
  · have hcm := canonical_ofList m
    refine ⟨hc.places_eq hcm fun p => ?_, fun hsame => ?_⟩
    · simp only [List.mem_map]
      constructor
      · rintro ⟨a, ha, rfl⟩
        exact exists_same_place hp ha
      · rintro ⟨b, hb, rfl⟩
        exact exists_same_place hp.symm hb
    · have hperm : (ofList l).entries.Perm (ofList m).entries := by
        rw [List.perm_ext_iff_of_nodup hc.nodup hcm.nodup]
        intro a
        constructor
        · intro ha
          obtain ⟨b, hb, hba⟩ := exists_same_place hp ha
          rwa [hsame b (hp.symm.subset (mem_of_mem_ofList hb)) a (mem_of_mem_ofList ha) hba] at hb
        · intro ha
          obtain ⟨b, hb, hba⟩ := exists_same_place hp.symm ha
          rwa [hsame b (mem_of_mem_ofList hb) a (hp.symm.subset (mem_of_mem_ofList ha)) hba] at hb
      exact congrArg Listing.mk (hc.eq_of_perm hcm hperm)

/-- Announces of two instances, the names of which are written in different ways. -/
def mixedAnnounces : List Announce := [
  ⟨"/e/+7", ⟨"x", "", "c", 0⟩, some 9, by decide⟩,
  ⟨"/e/12", ⟨"y", "", "c", 0⟩, none, by decide⟩,
  ⟨"/e/007", ⟨"x", "", "d", 2⟩, some 4, by decide⟩,
  ⟨"/e/007", ⟨"y", "", "c", 1⟩, some 0, by decide⟩,
  ⟨"/e/7", ⟨"x", "", "c", 0⟩, some 4, by decide⟩,
  ⟨"/e/007", ⟨"x", "", "d", 2⟩, some 4, by decide⟩]

/-- The announces in both directions give one listing. -/
theorem ofList_mixedAnnounces :
    mixedAnnounces.Perm mixedAnnounces.reverse ∧
      (∀ a ∈ mixedAnnounces, ∀ b ∈ mixedAnnounces, a.place = b.place → a = b) ∧
      (ofList mixedAnnounces).entries.map place = [("/e/+7", "x"), ("/e/007", "y")] ∧
      ofList mixedAnnounces = ofList mixedAnnounces.reverse := by
  have hp : mixedAnnounces.Perm mixedAnnounces.reverse := (List.reverse_perm _).symm
  have hsame : ∀ a ∈ mixedAnnounces, ∀ b ∈ mixedAnnounces, a.place = b.place → a = b := by decide
  exact ⟨hp, hsame, by decide,
    ((ofList_lists_oldest mixedAnnounces).2.2.2 mixedAnnounces.reverse hp).2 hsame⟩

end Listing

end Rollcall
