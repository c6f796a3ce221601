import Rollcall.Proofs.Editions

/-!
# Documents read alone and all at once

What the store tells of an instance is what its document says, and nothing if it has none.
Documents read one after another tell just that. To read all of them at once and look the instances
up comes to the same, but for two things: a document that cannot be read is in the way of all the
others, whoever wrote it; and below a leaf in place of their directory no documents are seen.
-/

namespace Rollcall

open Store
open Registry (Layout)

namespace Store.Tree

variable {t : Tree} {now : Nat} {key : String}

/-! ## Texts -/

/-- The text of a leaf. -/
def text? (t : Tree) (now : Nat) (key : String) : Option String :=
  ((t.live? now key).filter fun e => !e.dir).bind Entry.value

/-- Whether a leaf stands under a key. -/
def hasLeaf (t : Tree) (now : Nat) (key : String) : Bool := (t.live? now key).any fun e => !e.dir

theorem text?_purge (t : Tree) (now : Nat) (key : String) :
    (t.purge now).text? now key = t.text? now key := by
  rw [text?, live?_purge, text?]

theorem exists_live_of_text? {text : String} (h : t.text? now key = some text) :
    ∃ e, t.live? now key = some e ∧ e.dir = false ∧ e.value = some text := by
  obtain ⟨e, he, hv⟩ := Option.bind_eq_some_iff.mp h
  obtain ⟨he, hd⟩ := Option.filter_eq_some_iff.mp he
  exact ⟨e, he, by simpa using hd, hv⟩

/-- The node of a key shows the text of a leaf, and no other value. -/
theorem value_node (t : Tree) (now levels : Nat) (key : String) :
    ((t.purge now).node now levels key).value = t.text? now key := by
  rw [text?, ← find?_purge]
  cases he : (t.purge now).entries.find? key with
  | none =>
    rw [node_of_none _ _ _ he]
    rfl
  | some e =>
    cases hd : e.dir with
    | false =>
      rw [node_of_leaf _ _ _ he hd, Option.filter_some, hd]
      rfl
    | true =>
      rw [node_of_directory _ _ _ he hd, Option.filter_some, hd]
      rfl

end Store.Tree

namespace Registry

variable {l : Layout} {t : Tree} {now : Nat} {id : String} {ids : List String}

/-- Carry out an operation on a store. -/
def Operation.on {α : Type} (op : Operation α) (t : Tree) (now : Nat) :
    Tree × Except Failure α :=
  let (t, a) := t.run now op.request
  (t, op.outcome a)

/-- An operation that reads a key, and takes a missing one for an answer, reads the node that the
store has for it. -/
theorem Operation.on_get {α : Type} (hf : t.failures = []) (now : Nat) (key : String)
    (recursive sorted : Bool) (read : Except Refusal Response → Except Failure α) :
    Operation.on
      { request := .get key recursive sorted, expects := Refusal.isKeyNotFound, read } t now =
      (t.purge now,
        if Path.normalize key ≠ "" ∧ !(t.purge now).present (Path.normalize key) then
          read (.error ((t.purge now).absence (Path.normalize key)))
        else read (.ok {
          action := "get"
          node := some ((t.purge now).node now (if recursive then (t.purge now).height else 1)
            (Path.normalize key)) })) := by
  simp only [on, Tree.run_get hf]
  split
  · rfl
  · rfl

/-! ## One document after another -/

/-- What the store tells of an instance. -/
def told (l : Layout) (t : Tree) (now : Nat) (id : String) : Except Failure Properties :=
  match t.text? now (l.document id) with
  | some text => readProperties text
  | none => .ok ∅

/-- Whether a document of this name is there and cannot be read. -/
def Unreadable (l : Layout) (t : Tree) (now : Nat) (name : String) : Prop :=
  ∃ text, t.text? now (l.document name) = some text ∧ Properties.decode text = none

/-- What the store tells of an instance if its document can be read. -/
def content (l : Layout) (t : Tree) (now : Nat) (id : String) : Properties :=
  ((t.text? now (l.document id)).bind Properties.decode).getD ∅

theorem told_of_unreadable (h : Unreadable l t now id) :
    told l t now id = .error (.payload .invalidProperties) := by
  obtain ⟨text, ht, hd⟩ := h
  simp only [told, ht, readProperties, hd]

theorem told_of_not_unreadable (h : ¬Unreadable l t now id) :
    told l t now id = .ok (content l t now id) := by
  cases ht : t.text? now (l.document id) with
  | none => simp only [told, content, ht, Option.bind_none, Option.getD_none]
  | some text =>
    cases hd : Properties.decode text with
    | none => exact absurd ⟨text, ht, hd⟩ h
    | some p =>
      simp only [told, content, ht, readProperties, hd, Option.bind_some, Option.getD_some]

/-- A document fails in one way only. -/
theorem readProperties_eq_error {text : String} {f : Failure}
    (h : readProperties text = .error f) : f = .payload .invalidProperties := by
  unfold readProperties at h
  split at h
  · cases h
  · exact (Except.error.inj h).symm

theorem told_eq_error {f : Failure} (h : told l t now id = .error f) :
    f = .payload .invalidProperties := by
  unfold told at h
  split at h
  · exact readProperties_eq_error h
  · cases h

theorem told_purge (l : Layout) (t : Tree) (now : Nat) :
    told l (t.purge now) now = told l t now := by
  funext id
  rw [told, Tree.text?_purge, told]

theorem on_propertiesOf (hf : t.failures = []) (hid : Path.IsName id) (now : Nat) :
    (propertiesOf l id).on t now = (t.purge now, told l t now id) := by
  have hread : ∀ n : Node, (propertiesOf l id).read (.ok { action := "get", node := some n }) =
      match n.value with
      | some text => readProperties text
      | none => .ok ∅ := by
    rintro ⟨key, _ | text, dir, nodes⟩
    · rfl
    · rfl
  refine (Operation.on_get hf now _ false false (propertiesOf l id).read).trans
    (congrArg (Prod.mk _) ?_)
  rw [l.normalize_propertiesOf hid]
  split
  · next hp =>
    have hlive := Tree.live?_of_not_present (by simpa using hp.2)
    simp only [told, Tree.text?, hlive, Option.filter_none, Option.bind_none]
    rfl
  · rw [hread, Tree.value_node]
    rfl

/-- Read the documents of instances one after another, until one cannot be read. -/
def lookUpEach (l : Layout) (now : Nat) :
    List String → Tree → Tree × Except Failure (List Properties)
  | [], t => (t, .ok [])
  | id :: ids, t =>
    match (propertiesOf l id).on t now with
    | (t, .error f) => (t, .error f)
    | (t, .ok p) =>
      let (t, found) := lookUpEach l now ids t
      (t, found.map (p :: ·))

theorem lookUpEach_eq (hf : t.failures = []) (hids : ∀ id ∈ ids, Path.IsName id) :
    (lookUpEach l now ids t).2 = ids.mapM (told l t now) := by
  induction ids generalizing t with
  | nil => rfl
  | cons id ids ih =>
    have hrest := ih (t := t.purge now) hf fun x hx => hids x (.tail _ hx)
    rw [told_purge] at hrest
    rw [lookUpEach, on_propertiesOf hf (hids id (.head _)), List.mapM_cons]
    cases told l t now id with
    | error f => rfl
    | ok p =>
      simp only [bind, Except.bind]
      rw [hrest]
      cases ids.mapM (told l t now) <;> rfl

/-! ## All documents at once -/

/-- The documents in the place of documents, by their names. -/
def documents (l : Layout) (t : Tree) (now : Nat) : List (String × String) :=
  ((t.purge now).node now (t.purge now).height l.shelf).nodes.filterMap fun n =>
    if n.dir then none else n.value.map fun text => (n.name, text)

private theorem name_node_child {name : String} (h : '/' ∉ name.toList) (l : Layout) (t : Tree)
    (now levels : Nat) : (t.node now levels (l.document name)).name = name := by
  rw [Node.name, Tree.key_node, Layout.document, Path.lastPart_child h, String.ofList_toList]

private theorem documents_of_leaf (h : t.hasLeaf now l.shelf = true) : documents l t now = [] := by
  obtain ⟨e, he, hd⟩ := (Option.any_eq_true _ _).mp h
  rw [documents, Tree.nodes_of_leaf _ _ _ (by rw [Tree.find?_purge, he]) (by simpa using hd)]
  rfl

/-- Unless a leaf is in their place, these are the texts directly below it. -/
theorem mem_documents (h : t.hasLeaf now l.shelf = false) {name text : String} :
    (name, text) ∈ documents l t now ↔
      '/' ∉ name.toList ∧ t.text? now (l.document name) = some text := by
  have hdir : ∀ e, (t.purge now).entries.find? l.shelf = some e → e.dir = true := by
    intro e he
    rw [Tree.find?_purge] at he
    simpa [Tree.hasLeaf, he] using h
  obtain ⟨levels, hl⟩ : ∃ levels, (t.purge now).height = levels + 1 := ⟨_, rfl⟩
  rw [documents, hl, Tree.nodes_of_dir _ _ _ hdir, List.mem_filterMap]
  constructor
  · rintro ⟨n, hn, hnd⟩
    obtain ⟨k, hk, rfl⟩ := List.mem_map.mp hn
    obtain ⟨k', e, -, ht⟩ := Tree.mem_children_iff.mp hk
    obtain ⟨name', hs, rfl⟩ := Path.exists_child_of_toward? ht
    split at hnd
    · cases hnd
    · rw [Tree.value_node] at hnd
      obtain ⟨text', ht, he⟩ := Option.map_eq_some_iff.mp hnd
      cases (name_node_child hs l (t.purge now) now levels).symm.trans (congrArg Prod.fst he)
      cases congrArg Prod.snd he
      exact ⟨hs, ht⟩
  · rintro ⟨hs, ht⟩
    obtain ⟨e, he, -, -⟩ := Tree.exists_live_of_text? ht
    have hchild : l.document name ∈ (t.purge now).children l.shelf :=
      Tree.mem_children_iff.mpr ⟨_, e, (Tree.find?_purge ..).trans he, Path.toward?_child hs _⟩
    have hvalue := Tree.value_node t now levels (l.document name)
    refine ⟨_, List.mem_map_of_mem hchild, ?_⟩
    split
    · next hd =>
      rw [Tree.value_of_dir hd, ht] at hvalue
      cases hvalue
    · rw [hvalue, ht, name_node_child hs]
      rfl

/-- Where there is no directory there are no documents. -/
private theorem documents_of_not_present (h : (t.purge now).present l.shelf = false) :
    documents l t now = [] := by
  have hleaf : t.hasLeaf now l.shelf = false := by
    rw [Tree.hasLeaf, Tree.live?_of_not_present h]
    rfl
  refine List.eq_nil_iff_forall_not_mem.mpr fun d hd => ?_
  obtain ⟨e, he, -⟩ := Tree.exists_live_of_text? ((mem_documents hleaf).mp hd).2
  have hc : (t.purge now).hasChildren l.shelf = true :=
    Tree.hasChildren_iff.mpr ⟨l.document d.1, e, by rw [Tree.find?_purge, he],
      Path.isBelow_child _ _⟩
  rw [Tree.present_iff.mpr (.inr hc)] at h
  cases h

theorem on_allProperties (hf : t.failures = []) (l : Layout) (now : Nat) :
    (allProperties l).on t now = (t.purge now, do
      let found ← (documents l t now).mapM fun d => do pure (d.1, ← readProperties d.2)
      pure (Dict.ofList found)) := by
  refine (Operation.on_get hf now _ true true (allProperties l).read).trans
    (congrArg (Prod.mk _) ?_)
  split
  · next hp =>
    rw [documents_of_not_present (by rw [Layout.shelf]; simpa using hp.2)]
    rfl
  · rfl

/-- Read all documents, and look instances up among them. -/
def lookUpTogether (l : Layout) (now : Nat) (ids : List String) (t : Tree) :
    Tree × Except Failure (List Properties) :=
  let (t, found) := (allProperties l).on t now
  (t, found.map fun d => ids.map fun id => (d.find? id).getD ∅)

private theorem mapM_of_forall_ok {α β ε : Type} {f : α → Except ε β} {g : α → β} {as : List α}
    (h : ∀ a ∈ as, f a = .ok (g a)) : as.mapM f = .ok (as.map g) := by
  induction as with
  | nil => rfl
  | cons a as ih =>
    rw [List.mapM_cons, h a (.head _), ih fun b hb => h b (.tail _ hb)]
    rfl

/-- What can fail in one way only fails so as soon as something fails. -/
private theorem mapM_of_exists_error {α β ε : Type} {f : α → Except ε β} {e : ε} {as : List α}
    (h : ∀ a ∈ as, ∀ e', f a = .error e' → e' = e) {a : α} (ha : a ∈ as) (he : f a = .error e) :
    as.mapM f = .error e := by
  induction as with
  | nil => cases ha
  | cons b as ih =>
    rw [List.mapM_cons]
    cases hb : f b with
    | error e' =>
      rw [h b (.head _) e' hb]
      rfl
    | ok c =>
      have ha : a ∈ as := (List.mem_cons.mp ha).resolve_left fun hab => by
        rw [hab, hb] at he
        cases he
      rw [ih (fun x hx => h x (.tail _ hx)) ha]
      rfl

/-! ## Together and one by one -/

theorem lookUpEach_of_readable (hf : t.failures = []) (hids : ∀ id ∈ ids, Path.IsName id)
    (h : ∀ id ∈ ids, ¬Unreadable l t now id) :
    (lookUpEach l now ids t).2 = .ok (ids.map (content l t now)) := by
  rw [lookUpEach_eq hf hids]
  exact mapM_of_forall_ok fun id hm => told_of_not_unreadable (h id hm)

theorem lookUpEach_of_unreadable (hf : t.failures = []) (hids : ∀ id ∈ ids, Path.IsName id)
    (hm : id ∈ ids) (h : Unreadable l t now id) :
    (lookUpEach l now ids t).2 = .error (.payload .invalidProperties) := by
  rw [lookUpEach_eq hf hids]
  exact mapM_of_exists_error (fun _ _ _ he => told_eq_error he) hm (told_of_unreadable h)

theorem lookUpTogether_of_leaf (hf : t.failures = []) (h : t.hasLeaf now l.shelf = true)
    (ids : List String) : (lookUpTogether l now ids t).2 = .ok (ids.map fun _ => ∅) := by
  rw [lookUpTogether, on_allProperties hf, documents_of_leaf h]
  rfl

theorem lookUpTogether_of_readable (hf : t.failures = []) (hids : ∀ id ∈ ids, Path.IsName id)
    (hleaf : t.hasLeaf now l.shelf = false)
    (h : ∀ name, '/' ∉ name.toList → ¬Unreadable l t now name) :
    (lookUpTogether l now ids t).2 = .ok (ids.map (content l t now)) := by
  have hread : ∀ d ∈ documents l t now,
      (do pure (d.1, ← readProperties d.2) : Except Failure (String × Properties)) =
        .ok (d.1, content l t now d.1) := by
    intro d hd
    obtain ⟨hs, ht⟩ := (mem_documents hleaf).mp hd
    have htold := told_of_not_unreadable (h d.1 hs)
    simp only [told, ht] at htold
    rw [htold]
    rfl
  have htells : ∀ x ∈ (documents l t now).map (fun d => (d.1, content l t now d.1)),
      x.2 = content l t now x.1 := by
    intro x hx
    obtain ⟨d, -, rfl⟩ := List.mem_map.mp hx
    rfl
  rw [lookUpTogether, on_allProperties hf, mapM_of_forall_ok hread]
  refine congrArg Except.ok (List.map_congr_left fun id hid => ?_)
  rw [Dict.find?_ofList htells]
  split
  · rfl
  · next hm =>
    cases ht : t.text? now (l.document id) with
    | none =>
      rw [content, ht]
      rfl
    | some text =>
      have hd := (mem_documents hleaf).mpr ⟨(hids id hid).no_slash, ht⟩
      exact absurd (List.mem_map.mpr ⟨_, List.mem_map_of_mem hd, rfl⟩) hm

theorem lookUpTogether_of_unreadable (hf : t.failures = []) (hleaf : t.hasLeaf now l.shelf = false)
    {name : String} (hs : '/' ∉ name.toList) (h : Unreadable l t now name) (ids : List String) :
    (lookUpTogether l now ids t).2 = .error (.payload .invalidProperties) := by
  obtain ⟨text, ht, hd⟩ := h
  have hread : (documents l t now).mapM
      (fun d => (do pure (d.1, ← readProperties d.2) : Except Failure (String × Properties))) =
        .error (.payload .invalidProperties) := by
    refine mapM_of_exists_error (fun d _ e he => ?_) ((mem_documents hleaf).mpr ⟨hs, ht⟩) ?_
    · cases hr : readProperties d.2 with
      | error f =>
        rw [hr] at he
        cases he
        exact readProperties_eq_error hr
      | ok p =>
        rw [hr] at he
        cases he
    · simp only [readProperties, hd]
      rfl
  rw [lookUpTogether, on_allProperties hf, hread]
  rfl

/-- Together and one by one the same is found in these cases, and in no other ones. -/
theorem lookUpTogether_eq_iff (hf : t.failures = []) (hids : ∀ id ∈ ids, Path.IsName id) :
    (lookUpTogether l now ids t).2 = (lookUpEach l now ids t).2 ↔
      if t.hasLeaf now l.shelf then ∀ id ∈ ids, told l t now id = .ok ∅
      else (∃ name : String, '/' ∉ name.toList ∧ Unreadable l t now name) →
        ∃ id ∈ ids, Unreadable l t now id := by
  by_cases hwanted : ∃ id ∈ ids, Unreadable l t now id
  · obtain ⟨id, hm, hu⟩ := hwanted
    rw [lookUpEach_of_unreadable hf hids hm hu]
    split
    · next hleaf =>
      rw [lookUpTogether_of_leaf hf hleaf]
      refine iff_of_false nofun fun h => ?_
      cases (told_of_unreadable hu).symm.trans (h id hm)
    · next hleaf =>
      rw [lookUpTogether_of_unreadable hf (eq_false_of_ne_true hleaf) (hids id hm).no_slash hu]
      exact iff_of_true rfl fun _ => ⟨id, hm, hu⟩
  · have hreadable : ∀ id ∈ ids, ¬Unreadable l t now id := fun id hm hu => hwanted ⟨id, hm, hu⟩
    rw [lookUpEach_of_readable hf hids hreadable]
    split
    · next hleaf =>
      rw [lookUpTogether_of_leaf hf hleaf, Except.ok.injEq, List.map_inj_left]
      refine forall₂_congr fun id hm => ?_
      rw [told_of_not_unreadable (hreadable id hm), Except.ok.injEq, eq_comm]
    · next hleaf =>
      have hleaf := eq_false_of_ne_true hleaf
      by_cases hforeign : ∃ name : String, '/' ∉ name.toList ∧ Unreadable l t now name
      · obtain ⟨name, hs, hu⟩ := hforeign
        rw [lookUpTogether_of_unreadable hf hleaf hs hu]
        exact iff_of_false nofun fun h => hwanted (h ⟨name, hs, hu⟩)
      · rw [lookUpTogether_of_readable hf hids hleaf fun name hs hu => hforeign ⟨name, hs, hu⟩]
        exact iff_of_true rfl fun h => absurd h hforeign

end Registry

/-! ## What surveys fetch -/

namespace Survey

open Registry

variable {m : Member} {remote : Listing} {ids : List String}

/-- How a survey ends that finds these properties of the instances for which it asked, in their
order, or fails to. -/
def EndsWith (m : Member) (remote : Listing) (ids : List String)
    (found : Except Failure (List Properties)) (x : Member × Progress) : Prop :=
  match found with
  | .ok l => x.2 = .over (.ok true) ∧
      x.1.known = (publish m remote ids (Dict.ofList (ids.zip l))).known
  | .error f => x.2 = .over (.error (.store f)) ∧ x.1.known = m.known

private theorem find?_ofList_zip (g : String → Properties) {id : String} (h : id ∈ ids) :
    (Dict.ofList (ids.zip (ids.map g))).find? id = some (g id) := by
  have htells : ∀ e ∈ ids.zip (ids.map g), e.2 = g e.1 := by
    rw [← List.map_prod_left_eq_zip]
    intro e he
    obtain ⟨x, -, rfl⟩ := List.mem_map.mp he
    rfl
  rw [Dict.find?_ofList htells, List.map_fst_zip (by simp), if_pos h]

/-- What is published does not hang on what else was found. -/
theorem publish_congr {found found' : Dict String Properties}
    (h : ∀ id ∈ ids, (found.find? id).getD ∅ = (found'.find? id).getD ∅) :
    publish m remote ids found = publish m remote ids found' := by
  have hfold : ∀ kept : Dict String Properties,
      ids.foldl (fun d id => d.insert id ((found.find? id).getD ∅)) kept =
        ids.foldl (fun d id => d.insert id ((found'.find? id).getD ∅)) kept :=
    fun kept => List.foldl_ext _ _ kept fun d id hm => by rw [h id hm]
  simp only [publish, hfold]

/-- A survey that asks for one instance reads its document. -/
theorem endsWith_one (id : String) (a : Answer) :
    EndsWith m remote [id] (((propertiesOf m.layout id).outcome a).map fun p => [p])
      (answered m (.fetching remote [id]) a) := by
  simp only [answered, fetched, Terms.accept_eq]
  cases (propertiesOf m.layout id).outcome a with
  | error f => exact ⟨rfl, rfl⟩
  | ok p => exact ⟨rfl, rfl⟩

/-- A survey that asks for more or fewer instances than one asks for all documents. -/
theorem fetches_all (m : Member) (remote : Listing) (h : ids.length ≠ 1) :
    request m (.fetching remote ids) = (allProperties m.layout).request ∧
      ∀ a, fetched m ids a = m.accept (allProperties m.layout) a := by
  rcases ids with _ | ⟨id, _ | ⟨id', ids⟩⟩
  · exact ⟨rfl, fun _ => rfl⟩
  · exact absurd rfl h
  · exact ⟨rfl, fun _ => rfl⟩

/-- It looks the instances up among these. -/
theorem endsWith_all (h : ids.length ≠ 1) (a : Answer) :
    EndsWith m remote ids
      (((allProperties m.layout).outcome a).map fun d => ids.map fun id => (d.find? id).getD ∅)
      (answered m (.fetching remote ids) a) := by
  simp only [answered, (fetches_all m remote h).2, Terms.accept_eq]
  cases (allProperties m.layout).outcome a with
  | error f => exact ⟨rfl, rfl⟩
  | ok d =>
    have hsame : publish m remote ids d = publish m remote ids
        (Dict.ofList (ids.zip (ids.map fun id => (d.find? id).getD ∅))) :=
      publish_congr fun id hm => by
        rw [find?_ofList_zip _ hm]
        rfl
    exact ⟨rfl, (congrArg Member.known hsame :)⟩

/-- What a survey found shows in its end. -/
theorem EndsWith.unique {g g' : Except Failure (String → Properties)} {x : Member × Progress}
    (h : EndsWith m remote ids (g.map fun g => ids.map g) x)
    (h' : EndsWith m remote ids (g'.map fun g => ids.map g) x) :
    (g.map fun g => ids.map g) = g'.map fun g => ids.map g := by
  cases g with
  | error f =>
    cases g' with
    | error f' =>
      cases h.1.symm.trans h'.1
      rfl
    | ok g' => cases h.1.symm.trans h'.1
  | ok g =>
    cases g' with
    | error f' => cases h.1.symm.trans h'.1
    | ok g' =>
      refine congrArg Except.ok (List.map_congr_left fun id hm => ?_)
      have hk := congrArg (fun k : Known => k.remoteProperties.find? id) (h.2.symm.trans h'.2)
      simpa [find?_publish_eq, hm, find?_ofList_zip] using hk

private theorem exists_lookUpTogether_eq (l : Layout) (now : Nat) (ids : List String) (t : Tree) :
    ∃ g : Except Failure (String → Properties),
      (lookUpTogether l now ids t).2 = g.map fun g => ids.map g := by
  rw [lookUpTogether]
  rcases (allProperties l).on t now with ⟨t', f | d⟩
  · exact ⟨.error f, rfl⟩
  · exact ⟨.ok fun id => (d.find? id).getD ∅, rfl⟩

private theorem exists_lookUpEach_eq {l : Layout} {t : Tree} {now : Nat} (hf : t.failures = [])
    (hids : ∀ id ∈ ids, Path.IsName id) : ∃ g : Except Failure (String → Properties),
      (lookUpEach l now ids t).2 = g.map fun g => ids.map g := by
  by_cases h : ∃ id ∈ ids, Unreadable l t now id
  · obtain ⟨id, hm, hu⟩ := h
    exact ⟨.error _, lookUpEach_of_unreadable hf hids hm hu⟩
  · exact ⟨.ok _, lookUpEach_of_readable hf hids fun id hm hu => h ⟨id, hm, hu⟩⟩

private theorem lookUpEach_one (l : Layout) (now : Nat) (id : String) (t : Tree) :
    (lookUpEach l now [id] t).2 = ((propertiesOf l id).on t now).2.map fun p => [p] := by
  rw [lookUpEach]
  rcases (propertiesOf l id).on t now with ⟨t', f | p⟩
  · rfl
  · rfl

/-- A survey finds what the documents tell one by one if and only if it asks for one instance, or
together the same is found. -/
theorem endsWith_lookUpEach_iff {t : Tree} {now : Nat} (hf : t.failures = [])
    (hids : ∀ id ∈ ids, Path.IsName id) (m : Member) (remote : Listing) :
    EndsWith m remote ids (lookUpEach m.layout now ids t).2 (answered m (.fetching remote ids)
      (t.run now (request m (.fetching remote ids))).2) ↔
        ids.length = 1 ∨
          (lookUpTogether m.layout now ids t).2 = (lookUpEach m.layout now ids t).2 := by
  by_cases hone : ids.length = 1
  · obtain ⟨id, rfl⟩ := List.length_eq_one_iff.mp hone
    refine iff_of_true ?_ (.inl rfl)
    rw [lookUpEach_one]
    exact endsWith_one id _
  · have htogether : (lookUpTogether m.layout now ids t).2 =
        ((allProperties m.layout).outcome (t.run now (request m (.fetching remote ids))).2).map
          fun d => ids.map fun id => (d.find? id).getD ∅ := by
      rw [(fetches_all m remote hone).1]
      rfl
    have hall : EndsWith m remote ids _ (answered m (.fetching remote ids) _) :=
      endsWith_all hone (t.run now (request m (.fetching remote ids))).2
    rw [← htogether] at hall
    rw [or_iff_right hone]
    refine ⟨fun h => ?_, fun h => h ▸ hall⟩
    obtain ⟨g, hg⟩ := exists_lookUpTogether_eq m.layout now ids t
    obtain ⟨g', hg'⟩ := exists_lookUpEach_eq hf hids
    rw [hg] at hall ⊢
    rw [hg'] at h ⊢
    exact hall.unique h

end Survey

namespace Registry

open Survey (EndsWith answered request)

variable {l : Layout} {t : Tree} {now : Nat} {ids : List String}

/-- Whatever stands in a store, and whatever names are asked for: together and one by one the same
is found, with the same failure if any, unless a document that nobody asked for cannot be read while
those asked for can, or a leaf in the place of the documents hides something. A survey that asks for
one instance ends as if it had read the documents one by one, and one that asks for others does so in
the cases in which the same is found. -/
theorem lookups_agree_iff (hf : t.failures = []) (hids : ∀ id ∈ ids, Path.IsName id) :
    ((lookUpTogether l now ids t).2 = (lookUpEach l now ids t).2 ↔
      if t.hasLeaf now l.shelf then ∀ id ∈ ids, told l t now id = .ok ∅
      else (∃ name : String, '/' ∉ name.toList ∧ Unreadable l t now name) →
        ∃ id ∈ ids, Unreadable l t now id) ∧
    ∀ (m : Member) (remote : Listing), m.layout = l →
      (EndsWith m remote ids (lookUpEach l now ids t).2 (answered m (.fetching remote ids)
        (t.run now (request m (.fetching remote ids))).2) ↔
          ids.length = 1 ∨ (lookUpTogether l now ids t).2 = (lookUpEach l now ids t).2) := by
  refine ⟨lookUpTogether_eq_iff hf hids, fun m remote hl => ?_⟩
  subst hl
  exact Survey.endsWith_lookUpEach_iff hf hids m remote

/-- A store in which texts were put under keys, one after another. -/
def stocked (texts : List (String × String)) : Tree :=
  texts.foldl (fun t d => (t.run 0 (.put d.1 (some d.2) {})).1) {}

/-- One of the instances asked for has a document that cannot be read. -/
theorem lookups_of_spoilt :
    let t := stocked [("/d/properties/z", "role"), ("/d/properties/x", "\x7b\x7d"),
      ("/d/properties/y/1", "")]
    let ids := ["x", "y", "z"]
    t.failures = [] ∧ (∀ id ∈ ids, Path.IsName id) ∧
      (lookUpTogether ⟨"/d"⟩ 0 ids t).2 = (lookUpEach ⟨"/d"⟩ 0 ids t).2 := by
  intro t ids
  have hnames : ∀ id ∈ ids, id ≠ "" ∧ '/' ∉ id.toList := by decide
  have hids : ∀ id ∈ ids, Path.IsName id := fun id hm => ⟨(hnames id hm).1, (hnames id hm).2⟩
  have hz : Unreadable ⟨"/d"⟩ t 0 "z" := ⟨"role", by decide, by decide⟩
  refine ⟨rfl, hids, (lookups_agree_iff rfl hids).1.mpr ?_⟩
  rw [if_neg (by decide)]
  exact fun _ => ⟨"z", by decide, hz⟩

/-- A document that nobody asked for makes a difference, and so does a leaf in the place of the
documents. -/
theorem lookups_differ :
    let foreign := stocked [("/d/properties/z", "not json")]
    let covered := stocked [("/d/properties", "leaf"),
      ("/d/properties/x", "\x7b\"k\":\"v\"\x7d")]
    let ids := ["x", "y"]
    (lookUpEach ⟨"/d"⟩ 0 ids foreign).2 = .ok [∅, ∅] ∧
      (lookUpTogether ⟨"/d"⟩ 0 ids foreign).2 = .error (.payload .invalidProperties) ∧
      (lookUpEach ⟨"/d"⟩ 0 ids covered).2 = .ok [Dict.ofList [("k", "v")], ∅] ∧
      (lookUpTogether ⟨"/d"⟩ 0 ids covered).2 = .ok [∅, ∅] := by
  refine ⟨rfl, rfl, rfl, rfl⟩

end Registry

end Rollcall
