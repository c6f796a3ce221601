import Rollcall.Proofs.Ledger
import Rollcall.Proofs.Properties

/-!
# The property documents in the store

The documents of the instances stand on one shelf: a directory in which each instance has a leaf
under its own name. As long as nobody else writes there, a document is found as it was last written,
whether it is read alone or with all the others. What else the members ask of the store leaves the
shelf alone.
-/

namespace Rollcall

open Store

namespace Store

/-- Below the size of a word the signed number tells the index. -/
theorem signed_inj {m n : Nat} (hm : m < Text.Decimal.word64) (hn : n < Text.Decimal.word64)
    (h : signed m = signed n) : m = n := by
  have he := congrArg (· % (Text.Decimal.word64 : Int)) h
  simp only [signed, Int.bmod_emod] at he
  rw [Int.emod_eq_of_lt (by omega) (by omega), Int.emod_eq_of_lt (by omega) (by omega)] at he
  exact Int.ofNat_inj.mp he

end Store

/-- Whoever writes its document learns the index that the answer shows. -/
theorem Registry.outcome_publish {l : Registry.Layout} {id : String} {p : Properties} {a : Answer}
    {index : Int} (h : (publish l id p).outcome a = .ok index) :
    ∃ response, a = .ok response ∧
      index = (response.node.map fun n => signed n.modifiedIndex).getD 0 := by
  cases a with
  | ok response => exact ⟨response, rfl, (Except.ok.inj h).symm⟩
  | error f => cases f <;> cases h

/-- Whoever fails to write its document got no response. -/
theorem Registry.error_of_publish {l : Registry.Layout} {id : String} {p : Properties} {a : Answer}
    {f : Failure} (h : (publish l id p).outcome a = .error f) : ∃ g, a = .error g := by
  cases a with
  | ok response => cases h
  | error g => exact ⟨g, rfl⟩

namespace Registry.Layout

/-- The directory of the documents in the form in which the store knows it. -/
def shelf (l : Layout) : String := Path.normalize l.properties

/-- The key of an instance's document in the form in which the store knows it. -/
def document (l : Layout) (id : String) : String := Path.child l.shelf id

/-- Whether a key is the shelf or lies below it. -/
def isOnShelf (l : Layout) (key : String) : Bool := key = l.shelf || Path.isBelow l.shelf key

private theorem toList_properties (l : Layout) :
    l.properties.toList = l.root.toList ++ '/' :: 'p' :: "roperties".toList := by
  simp [properties]

private theorem exists_toList_properties (l : Layout) :
    ∃ cs, l.properties.toList = cs ++ ['s'] :=
  ⟨l.root.toList ++ "/propertie".toList, by simp [properties]⟩

theorem normalize_propertiesOf (l : Layout) {id : String} (h : Path.IsName id) :
    Path.normalize (l.propertiesOf id) = l.document id := by
  obtain ⟨cs, hcs⟩ := l.exists_toList_properties
  exact h.normalize_child hcs (by decide)

theorem document_injective (l : Layout) {a b : String} (h : l.document a = l.document b) : a = b :=
  Path.child_injective h

theorem isOnShelf_document (l : Layout) (id : String) : l.isOnShelf (l.document id) = true := by
  rw [isOnShelf, document, Path.isBelow_child, Bool.or_true]

theorem isOnShelf_of_isBelow (l : Layout) {key : String} (h : Path.isBelow l.shelf key = true) :
    l.isOnShelf key = true := by
  rw [isOnShelf, h, Bool.or_true]

/-- The shelf is not the key of a document. -/
theorem shelf_ne_document (l : Layout) (id : String) : l.shelf ≠ l.document id := by
  intro h
  have hl := congrArg (fun s => s.toList.length) h
  simp [document, Path.toList_child] at hl

theorem document_ne_empty (l : Layout) (id : String) : l.document id ≠ "" := by
  intro h
  have hl := congrArg (fun s => s.toList.length) h
  simp [document, Path.toList_child] at hl

/-- A key of another name below the root is off the shelf, with all that lies below it. -/
private theorem normalize_append_ne_of_isOnShelf (l : Layout) {key k : String} {c : Char}
    {rest : List Char} (h : key.toList = l.root.toList ++ '/' :: c :: rest) (hc : c ≠ '/')
    (hp : c ≠ 'p') (hk : l.isOnShelf k = true) (tail : List Char) :
    (Path.normalize key).toList ++ tail ≠ k.toList := by
  obtain ⟨tail', ht⟩ : ∃ tail', k.toList = l.shelf.toList ++ tail' := by
    simp only [isOnShelf, Bool.or_eq_true, decide_eq_true_eq] at hk
    rcases hk with rfl | hk
    · exact ⟨[], (List.append_nil _).symm⟩
    · obtain ⟨rest', hr⟩ := Path.isBelow_iff.mp hk
      exact ⟨_, hr⟩
  rw [ht]
  exact l.normalize_append_ne h hc l.toList_properties (by decide) hp tail tail'

/-- The announces are off the shelf. -/
theorem directory_append_ne (l : Layout) {k : String} (hk : l.isOnShelf k = true)
    (tail : List Char) : l.directory.toList ++ tail ≠ k.toList :=
  l.normalize_append_ne_of_isOnShelf l.toList_announces (by decide) (by decide) hk tail

/-- What is on the shelf is not below the directory of the announces. -/
theorem not_isBelow_directory (l : Layout) {k : String} (hk : l.isOnShelf k = true) :
    Path.isBelow l.directory k = false := by
  rw [Bool.eq_false_iff, ne_eq, Path.isBelow_iff]
  rintro ⟨tail, he⟩
  exact l.directory_append_ne hk _ he.symm

theorem normalize_clusterId_ne (l : Layout) {k : String} (hk : l.isOnShelf k = true) :
    Path.normalize l.clusterId ≠ k := by
  intro he
  exact l.normalize_append_ne_of_isOnShelf l.toList_clusterId (by decide) (by decide) hk []
    (by rw [List.append_nil, he])

theorem allocated_ne_of_isOnShelf (l : Layout) {k : String} (hk : l.isOnShelf k = true) (n : Nat) :
    Path.allocated l.directory n ≠ k := by
  intro he
  exact l.directory_append_ne hk _ (by rw [← he, Path.toList_allocated])

/-! ## What members ask leaves the shelf alone -/

theorem not_touches_claim (l : Layout) {k : String} (hk : l.isOnShelf k = true) (index : Nat)
    (candidate : String) : ¬Tree.Touches index k (Registry.claim l candidate).request :=
  l.normalize_clusterId_ne hk

theorem not_touches_announce (l : Layout) {k : String} (hk : l.isOnShelf k = true) (index : Nat)
    (d : Payload) (ttl : Nat) : ¬Tree.Touches index k (Registry.announce l d ttl).request :=
  l.allocated_ne_of_isOnShelf hk _

theorem not_touches_renew (l : Layout) {k : String} (hk : l.isOnShelf k = true) (index n : Nat)
    (d : Payload) (ttl : Nat) :
    ¬Tree.Touches index k (Registry.renew (Path.allocated l.directory n) d ttl).request := by
  intro h
  exact l.allocated_ne_of_isOnShelf hk n ((l.normalize_allocated n).symm.trans h)

theorem not_touches_withdraw (l : Layout) {k : String} (hk : l.isOnShelf k = true) (index n : Nat) :
    ¬Tree.Touches index k (Registry.withdraw (Path.allocated l.directory n)).request := by
  have hn := l.normalize_allocated n
  rintro (h | h)
  · exact l.allocated_ne_of_isOnShelf hk n (hn.symm.trans h)
  · obtain ⟨rest, hr⟩ := Path.isBelow_iff.mp (hn ▸ h)
    rw [Path.toList_allocated, List.append_assoc] at hr
    exact l.directory_append_ne hk _ hr.symm

theorem not_touches_publish (l : Layout) {id k : String} (hid : Path.IsName id)
    (hk : k ≠ l.document id) (index : Nat) (p : Properties) :
    ¬Tree.Touches index k (Registry.publish l id p).request := by
  intro h
  exact hk ((l.normalize_propertiesOf hid).symm.trans h).symm

end Registry.Layout

open Registry (Layout)

/-- What an instance's document says, and since when. -/
structure Edition where
  /-- The index of the write; 0 before the first. -/
  index : Nat
  properties : Properties
  deriving DecidableEq

/-- The edition in which the store holds an instance's document. -/
def Store.Tree.edition (t : Tree) (now : Nat) (l : Layout) (id : String) : Edition :=
  match t.live? now (l.document id) with
  | some e => ⟨e.modifiedIndex, (e.value.bind Properties.decode).getD ∅⟩
  | none => ⟨0, ∅⟩

theorem Store.Tree.edition_congr {t t' : Tree} {now now' : Nat} {l : Layout} {id : String}
    (h : t'.live? now' (l.document id) = t.live? now (l.document id)) :
    t'.edition now' l id = t.edition now l id := by
  rw [edition, h, edition]

/-- Whether the store is going to pretend that a key is not there. -/
def Store.Tree.pretends (t : Tree) : Bool := t.failures.head?.any Failure.isKeyNotFound

/-- A leaf that holds properties for good. -/
structure Store.Entry.Holds (e : Entry) (p : Properties) (index : Nat) : Prop where
  leaf : e.dir = false
  value : e.value = some p.encode
  unpinned : e.pinnedTtl = none
  lasting : e.expiresAt = none
  index_le : e.modifiedIndex ≤ index

theorem Store.Entry.Holds.edition {e : Entry} {p : Properties} {index now : Nat} {t : Tree}
    {l : Layout} {id : String} (h : e.Holds p index) (he : t.live? now (l.document id) = some e) :
    t.edition now l id = ⟨e.modifiedIndex, p⟩ := by
  rw [Tree.edition, he]
  simp only [h.value, Option.bind_some, Properties.decode_encode, Option.getD_some]

/-- On the shelf are documents of instances, and nothing else. -/
structure Shelf (l : Layout) (t : Tree) (now : Nat) : Prop where
  entry : ∀ {k : String} {e : Entry}, t.live? now k = some e → l.isOnShelf k = true →
    ∃ id p, Path.IsName id ∧ k = l.document id ∧ e.Holds p t.index

namespace Shelf

variable {l : Layout} {t t' : Tree} {now now' : Nat} {id : String}

theorem empty (l : Layout) (now : Nat) : Shelf l {} now where
  entry h _ := by simp [Tree.live?, EmptyCollection.emptyCollection, Dict.empty, Dict.find?] at h

/-- A document is as old as the store at most. -/
theorem index_edition_le (h : Shelf l t now) (id : String) :
    (t.edition now l id).index ≤ t.index := by
  cases he : t.live? now (l.document id) with
  | none =>
    rw [Tree.edition, he]
    exact Nat.zero_le _
  | some e =>
    obtain ⟨_, _, _, _, hp⟩ := h.entry he (l.isOnShelf_document id)
    rw [hp.edition he]
    exact hp.index_le

/-- A store in which the shelf is as it was. -/
theorem of_live?_eq (h : Shelf l t now) (hi : t.index ≤ t'.index)
    (hl : ∀ k, l.isOnShelf k = true → t'.live? now' k = t.live? now k) : Shelf l t' now' where
  entry he hk := by
    rw [hl _ hk] at he
    obtain ⟨id, p, hid, rfl, hp⟩ := h.entry he hk
    exact ⟨id, p, hid, rfl, { hp with index_le := Nat.le_trans hp.index_le hi }⟩

/-- Time leaves the shelf alone. -/
theorem live?_later (h : Shelf l t now) (hn : now ≤ now') {k : String}
    (hk : l.isOnShelf k = true) : t.live? now' k = t.live? now k := by
  cases he : t.live? now k with
  | some e =>
    obtain ⟨_, _, _, _, hp⟩ := h.entry he hk
    exact Tree.live?_lasting he hp.lasting now'
  | none => exact Tree.live?_later_eq_none hn he

/-! ## Documents that are read -/

/-- The answer to an operation that takes a missing key for an answer, if the store does not
pretend: the key is not there, or what was read tells the result. -/
private theorem outcome_get {α : Type} {key : String} {recursive sorted : Bool}
    {read : Except Refusal Response → Except Failure α} {x : α} (hf : t.pretends = false)
    (h : Registry.Operation.outcome
      { request := .get key recursive sorted, expects := Refusal.isKeyNotFound, read }
      (t.run now (.get key recursive sorted)).2 = .ok x) :
    ((t.purge now).present (Path.normalize key) = false ∧ ∃ r, read (.error r) = .ok x) ∨
      ∃ response, read (.ok response) = .ok x ∧
        (Path.normalize key = "" ∨ (t.purge now).present (Path.normalize key) = true) ∧
        response.node = some ((t.purge now).node now
          (if recursive then (t.purge now).height else 1) (Path.normalize key)) := by
  obtain ⟨f, rest, hfail, hr⟩ | ⟨refusal, _, hp, hr⟩ | ⟨t', response, _, hp, hr⟩ :=
    t.run_cases now (.get key recursive sorted)
  · rw [hr] at h
    unfold Registry.Operation.outcome Registry.Operation.accept at h
    split at h
    · next he => cases he
    · next r he =>
      cases he
      split at h
      · next hk =>
        have hk : r.isKeyNotFound = true := hk
        simp [Tree.pretends, hfail, Failure.isKeyNotFound, Failure.refusal?, hk] at hf
      · cases h
    · cases h
  · rw [hr] at h
    refine .inl ⟨Tree.get_eq_error hp, ?_⟩
    unfold Registry.Operation.outcome Registry.Operation.accept at h
    simp only at h
    split at h
    · exact ⟨refusal, h⟩
    · cases h
  · rw [hr] at h
    obtain ⟨-, hpresent, hnode⟩ := Tree.get_eq_ok hp
    exact .inr ⟨response, h, hpresent, hnode⟩

/-- A document that is not there is in no edition. -/
private theorem edition_of_not_present
    (hp : (t.purge now).present (l.document id) = false) : t.edition now l id = ⟨0, ∅⟩ := by
  rw [Tree.edition, Tree.live?_of_not_present hp]

/-- Nothing lies below a document. -/
private theorem live_of_present (h : Shelf l t now)
    (hp : (t.purge now).present (l.document id) = true) :
    ∃ e, t.live? now (l.document id) = some e := by
  rcases Tree.present_iff.mp hp with ⟨e, he⟩ | hc
  · rw [Tree.find?_purge] at he
    exact ⟨e, he⟩
  · obtain ⟨k, e, he, hk⟩ := Tree.hasChildren_iff.mp hc
    rw [Tree.find?_purge] at he
    have hb := Path.isBelow_trans (Path.isBelow_child l.shelf id) hk
    obtain ⟨id', _, hid, rfl, _⟩ := h.entry he (l.isOnShelf_of_isBelow hb)
    rw [Layout.document, Layout.document, hid.not_isBelow_child] at hk
    cases hk

/-- Whoever reads the document of an instance gets what it says. -/
theorem properties_of_propertiesOf (h : Shelf l t now) (hid : Path.IsName id)
    (hf : t.pretends = false) {p : Properties}
    (hok : (Registry.propertiesOf l id).outcome
      (t.run now (Registry.propertiesOf l id).request).2 = .ok p) :
    p = (t.edition now l id).properties := by
  rcases outcome_get hf hok with ⟨hp, r, hr⟩ | ⟨response, hread, hp, hnode⟩
  · rw [l.normalize_propertiesOf hid] at hp
    rw [edition_of_not_present hp]
    exact (Except.ok.inj hr).symm
  · rw [l.normalize_propertiesOf hid] at hp hnode
    obtain ⟨e, he⟩ := h.live_of_present (hp.resolve_left (l.document_ne_empty id))
    obtain ⟨_, p', _, _, hp'⟩ := h.entry he (l.isOnShelf_document id)
    rw [Tree.node_of_leaf _ _ _ (by rw [Tree.find?_purge, he]) hp'.leaf] at hnode
    obtain ⟨action, node, prevNode⟩ := response
    cases hnode
    simp only [Tree.leafNode, hp'.value, Registry.readProperties,
      Properties.decode_encode] at hread
    rw [hp'.edition he]
    exact (Except.ok.inj hread).symm

/-- The nodes on the shelf are those of the documents. -/
private theorem mem_nodes (h : Shelf l t now) {n : Node} :
    n ∈ ((t.purge now).node now (t.purge now).height l.shelf).nodes ↔
      ∃ id e, Path.IsName id ∧ t.live? now (l.document id) = some e ∧
        n = Tree.leafNode now (l.document id) e := by
  have hshelf : ∀ e, (t.purge now).entries.find? l.shelf = some e → e.dir = true := by
    intro e he
    rw [Tree.find?_purge] at he
    obtain ⟨id, _, _, hk, _⟩ := h.entry he (by simp [Layout.isOnShelf])
    exact absurd hk (l.shelf_ne_document id)
  have hleaf : ∀ {id e} levels, t.live? now (l.document id) = some e →
      (t.purge now).node now levels (l.document id) = Tree.leafNode now (l.document id) e := by
    intro id e levels he
    obtain ⟨_, _, _, _, hp⟩ := h.entry he (l.isOnShelf_document id)
    exact Tree.node_of_leaf _ _ _ (by rw [Tree.find?_purge, he]) hp.leaf
  obtain ⟨levels, hl⟩ : ∃ levels, (t.purge now).height = levels + 1 := ⟨_, rfl⟩
  rw [hl, Tree.nodes_of_dir _ _ _ hshelf, List.mem_map]
  constructor
  · rintro ⟨k, hk, rfl⟩
    obtain ⟨k', e, he, ht⟩ := Tree.mem_children_iff.mp hk
    rw [Tree.find?_purge] at he
    obtain ⟨id, _, hid, rfl, _⟩ :=
      h.entry he (l.isOnShelf_of_isBelow (Path.isBelow_of_toward? ht))
    rw [Layout.document, hid.toward?_child] at ht
    cases ht
    exact ⟨id, e, hid, he, hleaf levels he⟩
  · rintro ⟨id, e, hid, he, rfl⟩
    refine ⟨l.document id, Tree.mem_children_iff.mpr ⟨_, e, ?_, hid.toward?_child l.shelf⟩,
      hleaf levels he⟩
    rw [Tree.find?_purge]
    exact he

private theorem name_leafNode {e : Entry} (hid : Path.IsName id) :
    (Tree.leafNode now (l.document id) e).name = id := by
  rw [Node.name, Tree.leafNode, Layout.document, hid.lastPart_child, String.ofList_toList]

/-- What is read of the nodes on the shelf is what the documents say. -/
private theorem read_nodes (h : Shelf l t now) {nodes : List Node}
    (hn : ∀ n, n ∈ nodes ↔ ∃ id e, Path.IsName id ∧ t.live? now (l.document id) = some e ∧
      n = Tree.leafNode now (l.document id) e)
    {found : List (String × Properties)}
    (hread :
      (nodes.filterMap fun n => if n.dir then none else n.value.map fun x => (n.name, x)).mapM
        (fun d => do pure (d.1, ← Registry.readProperties d.2)) = .ok found) :
    (∀ x ∈ found, x.2 = (t.edition now l x.1).properties) ∧
      ∀ id e, Path.IsName id → t.live? now (l.document id) = some e → id ∈ found.map Prod.fst := by
  have hone : ∀ {id e}, Path.IsName id → t.live? now (l.document id) = some e →
      ∃ text, ((fun n : Node => if n.dir then none else n.value.map fun x => (n.name, x))
          (Tree.leafNode now (l.document id) e)) = some (id, text) ∧
        Registry.readProperties text = .ok (t.edition now l id).properties := by
    intro id e hid he
    obtain ⟨_, p, _, _, hp⟩ := h.entry he (l.isOnShelf_document id)
    refine ⟨p.encode, ?_, ?_⟩
    · simp only [name_leafNode hid]
      simp [Tree.leafNode, hp.value]
    · rw [Registry.readProperties, Properties.decode_encode, hp.edition he]
  obtain ⟨hm, ha⟩ := Listing.mapM_ok hread
  constructor
  · intro x hx
    obtain ⟨d, hd, hdx⟩ := hm x hx
    obtain ⟨n, hmem, hnd⟩ := List.mem_filterMap.mp hd
    obtain ⟨id, e, hid, he, rfl⟩ := (hn n).mp hmem
    obtain ⟨text, ht, hr⟩ := hone hid he
    cases ht.symm.trans hnd
    simp only [hr, bind, Except.bind, pure, Except.pure, Except.ok.injEq] at hdx
    rw [← hdx]
  · intro id e hid he
    obtain ⟨text, ht, hr⟩ := hone hid he
    obtain ⟨x, hx, hdx⟩ := ha (id, text)
      (List.mem_filterMap.mpr ⟨_, (hn _).mpr ⟨id, e, hid, he, rfl⟩, ht⟩)
    simp only [hr, bind, Except.bind, pure, Except.pure, Except.ok.injEq] at hdx
    exact List.mem_map.mpr ⟨x, hx, by rw [← hdx]⟩

/-- Whoever reads the documents of all instances gets what each says. -/
theorem properties_of_allProperties (h : Shelf l t now) (hid : Path.IsName id)
    (hf : t.pretends = false) {found : Dict String Properties}
    (hok : (Registry.allProperties l).outcome
      (t.run now (Registry.allProperties l).request).2 = .ok found) :
    (found.find? id).getD ∅ = (t.edition now l id).properties := by
  have hnone : ∀ {id}, t.live? now (l.document id) = none →
      (t.edition now l id).properties = ∅ := by
    intro id he
    rw [Tree.edition, he]
  rcases outcome_get hf hok with ⟨hp, r, hr⟩ | ⟨response, hread, hp, hnode⟩
  · cases hr
    cases he : t.live? now (l.document id) with
    | none =>
      rw [hnone he]
      rfl
    | some e =>
      have hc : (t.purge now).hasChildren l.shelf = true :=
        Tree.hasChildren_iff.mpr ⟨l.document id, e, by rw [Tree.find?_purge, he],
          Path.isBelow_child _ _⟩
      rw [Tree.present, ← Layout.shelf, hc, Bool.or_true] at hp
      cases hp
  · have hchildren : response.children =
        ((t.purge now).node now (t.purge now).height l.shelf).nodes := by
      rw [Response.children, hnode]
      rfl
    simp only [hchildren, bind, Except.bind] at hread
    split at hread
    · cases hread
    · next list hlist =>
      cases hread
      obtain ⟨htells, hall⟩ := h.read_nodes (fun _ => h.mem_nodes) hlist
      rw [Dict.find?_ofList (f := fun id => (t.edition now l id).properties) htells]
      split
      · rfl
      · next hmem =>
        cases he : t.live? now (l.document id) with
        | none =>
          rw [hnone he]
          rfl
        | some e => exact absurd (hall id e hid he) hmem

/-! ## Documents that are written -/

/-- Whoever writes its document and gets an answer has put it down in a new edition, and learns the
index. The other documents stay as they are. -/
theorem publish (h : Shelf l t now) (hid : Path.IsName id) {p : Properties} {index : Int}
    (hok : (Registry.publish l id p).outcome
      (t.run now (Registry.publish l id p).request).2 = .ok index) :
    let t' := (t.run now (Registry.publish l id p).request).1
    Shelf l t' now ∧ index = signed (t.index + 1) ∧ t'.index = t.index + 1 ∧
      t'.edition now l id = ⟨t.index + 1, p⟩ ∧
      ∀ id', id' ≠ id → t'.edition now l id' = t.edition now l id' := by
  intro t'
  obtain ⟨response, hresponse, hi'⟩ := Registry.outcome_publish hok
  obtain ⟨ht, hnode⟩ := Tree.run_put_of_ok hresponse
  rw [l.normalize_propertiesOf hid] at ht hnode
  have hother : ∀ {k}, k ≠ l.document id → t'.live? now k = t.live? now k := fun hk =>
    Tree.live?_run_of_not_touches (l.not_touches_publish hid hk t.index p)
  obtain ⟨e, he, hp, hi⟩ : ∃ e, t'.live? now (l.document id) = some e ∧ e.Holds p t'.index ∧
      e.modifiedIndex = t.index + 1 := by
    refine ⟨_, Tree.live?_eq_some.mpr ⟨(congrArg (·.entries.find? (l.document id)) ht).trans
      ((Tree.find?_write ..).trans (if_pos rfl)), ?_⟩, ⟨rfl, rfl, rfl, rfl, ?_⟩, rfl⟩
    · rfl
    · exact Nat.le_of_eq (congrArg Tree.index ht).symm
  have hindex : t'.index = t.index + 1 := congrArg Tree.index ht
  refine ⟨⟨fun {k x} hx hk => ?_⟩, ?_, hindex, ?_, fun id' hne => Tree.edition_congr (hother ?_)⟩
  · by_cases hkd : k = l.document id
    · subst hkd
      cases he.symm.trans hx
      exact ⟨id, p, hid, rfl, hp⟩
    · rw [hother hkd] at hx
      obtain ⟨id', p', hid', rfl, hp'⟩ := h.entry hx hk
      exact ⟨id', p', hid', rfl,
        { hp' with index_le := Nat.le_trans hp'.index_le (t.index_le_run now _) }⟩
  · have hleaf := t'.node_of_leaf now 0 (Tree.live?_eq_some.mp he).1 hp.leaf
    have hnode := hnode.trans (congrArg some hleaf)
    rw [hi', hnode, Option.map_some, Option.getD_some, Tree.leafNode, hi]
  · rw [hp.edition he, hi]
  · exact fun he => hne (l.document_injective he)

end Shelf

end Rollcall
