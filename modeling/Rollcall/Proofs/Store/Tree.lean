import Rollcall.Proofs.Dict
import Rollcall.Proofs.Duration
import Rollcall.Proofs.Store.Allocation
import Rollcall.Store.Tree

/-!
# What requests do to the store

A store is known by what is live in it: an overdue entry is as good as gone, whether or not it was
dropped already. A request that succeeds changes one key, or takes away a key with what lies below
it; a request that fails changes nothing that is live. The index only rises.
-/

namespace Rollcall.Store.Tree

open Store.Path

variable {t t' : Tree} {now : Nat} {key : String}

/-- What the store has under a key at an instant. -/
def live? (t : Tree) (now : Nat) (key : String) : Option Entry :=
  (t.entries.find? key).filter fun e => !e.expired now

/-- What is live was put down and is not overdue. -/
theorem live?_eq_some {e : Entry} :
    t.live? now key = some e ↔ t.entries.find? key = some e ∧ e.expired now = false := by
  rw [live?, Option.filter_eq_some_iff, Bool.not_eq_true']

/-- Without the overdue entries the store finds what is live. -/
theorem find?_purge (t : Tree) (now : Nat) (key : String) :
    (t.purge now).entries.find? key = t.live? now key := Dict.find?_filter _ _ _

/-- Dropping the overdue entries leaves what is live. -/
theorem live?_purge (t : Tree) (now : Nat) (key : String) :
    (t.purge now).live? now key = t.live? now key := by
  rw [live?, find?_purge, live?, Option.filter_filter]
  simp

/-- An entry that is not overdue was not overdue before. -/
theorem expired_mono {e : Entry} {now now' : Nat} (h : now ≤ now') (he : e.expired now' = false) :
    e.expired now = false := by
  rw [Entry.expired] at he ⊢
  cases hp : e.pinnedTtl with
  | some p => simp
  | none =>
    cases hx : e.expiresAt with
    | none => simp
    | some x =>
      simp only [hp, hx, Option.isNone_none, Option.any_some, Bool.true_and,
        decide_eq_false_iff_not] at he ⊢
      omega

/-- Time only takes away: what is live later is live now. -/
theorem live?_of_later {e : Entry} {later : Nat} (h : now ≤ later)
    (he : t.live? later key = some e) : t.live? now key = some e := by
  obtain ⟨hf, hx⟩ := live?_eq_some.mp he
  exact live?_eq_some.mpr ⟨hf, expired_mono h hx⟩

/-- What is not live will not become so. -/
theorem live?_later_eq_none {later : Nat} (h : now ≤ later) (hn : t.live? now key = none) :
    t.live? later key = none := by
  cases he : t.live? later key with
  | none => rfl
  | some e => cases hn.symm.trans (live?_of_later h he)

/-- A lasting entry stays live. -/
theorem live?_lasting {e : Entry} (h : t.live? now key = some e) (hl : e.expiresAt = none)
    (later : Nat) : t.live? later key = some e := by
  refine live?_eq_some.mpr ⟨(live?_eq_some.mp h).1, ?_⟩
  rw [Entry.expired, hl, Option.any_none, Bool.and_false]

/-- An entry that is not overdue shows seconds to live, if it shows any. -/
theorem ttl_pos {e : Entry} {s : Int} (hp : e.pinnedTtl = none) (he : e.expired now = false)
    (hs : e.ttl now = some s) : 0 < s := by
  rw [Entry.ttl, hp] at hs
  obtain ⟨x, hx, hs⟩ := Option.map_eq_some_iff.mp hs
  have hlt : 0 < x - now := by
    simp only [Entry.expired, hp, hx, Option.isNone_none, Option.any_some, Bool.true_and,
      decide_eq_false_iff_not] at he
    exact Nat.sub_pos_of_lt (Nat.not_le.mp he)
  have hc := Duration.ceil_seconds_pos hlt
  omega

/-- Keys lie below a directory when some entry does. -/
theorem hasChildren_iff {dir : String} :
    t.hasChildren dir = true ↔ ∃ k e, t.entries.find? k = some e ∧ isBelow dir k = true := by
  simp only [hasChildren, List.any_eq_true, Dict.mem_keys_iff]
  constructor
  · rintro ⟨k, ⟨e, he⟩, hk⟩
    exact ⟨k, e, he, hk⟩
  · rintro ⟨k, e, he, hk⟩
    exact ⟨k, ⟨e, he⟩, hk⟩

/-- A key is there when it has an entry or when keys lie below it. -/
theorem present_iff :
    t.present key = true ↔ (∃ e, t.entries.find? key = some e) ∨ t.hasChildren key = true := by
  rw [present, Bool.or_eq_true, Dict.contains_iff]

/-- What is not there is not live. -/
theorem live?_of_not_present (h : (t.purge now).present key = false) : t.live? now key = none := by
  cases he : t.live? now key with
  | none => rfl
  | some e =>
    rw [present_iff.mpr (.inl ⟨e, by rw [find?_purge, he]⟩)] at h
    cases h

/-- A write puts down one entry. -/
theorem find?_write (t : Tree) (now : Nat) (key k : String) (value : Option String)
    (ttl : Option Nat) (dir : Bool) :
    (t.write now key value ttl dir).entries.find? k =
      if k = key then some {
        value, dir, pinnedTtl := none, modifiedIndex := t.index + 1
        createdIndex := ((t.entries.find? key).map Entry.createdIndex).getD (t.index + 1)
        expiresAt := ttl.map fun s => now + Duration.ofSeconds s }
      else t.entries.find? k := Dict.find?_insert _ _ _ _

/-- The node in which a leaf is shown. -/
def leafNode (now : Nat) (key : String) (e : Entry) : Node where
  key
  value := e.value
  ttl := e.ttl now
  modifiedIndex := e.modifiedIndex
  createdIndex := e.createdIndex

/-- The node of a key that has an entry with a value. -/
theorem node_of_leaf (t : Tree) (now levels : Nat) {e : Entry}
    (he : t.entries.find? key = some e) (hd : e.dir = false) :
    t.node now levels key = leafNode now key e := by
  have hf : (t.entries.find? key).filter (fun e => !e.dir) = some e := by
    rw [he, Option.filter_some, hd]
    rfl
  cases levels <;> rw [node, hf, leafNode]

/-- The node of a key that has an entry of its own as a directory. -/
theorem node_of_directory (t : Tree) (now levels : Nat) {e : Entry}
    (he : t.entries.find? key = some e) (hd : e.dir = true) :
    t.node now levels key =
      { key, dir := true, ttl := e.ttl now, modifiedIndex := e.modifiedIndex
        createdIndex := e.createdIndex, nodes := (t.node now levels key).nodes } := by
  have hf : (t.entries.find? key).filter (fun e => !e.dir) = none := by
    rw [he, Option.filter_some, hd]
    rfl
  cases levels <;> rw [node, hf, he]

/-- The node of a key without an entry. -/
theorem node_of_none (t : Tree) (now levels : Nat) (he : t.entries.find? key = none) :
    t.node now levels key = { key, dir := true, nodes := (t.node now levels key).nodes } := by
  have hf : (t.entries.find? key).filter (fun e => !e.dir) = none := by rw [he]; rfl
  cases levels <;> rw [node, hf, he]

/-- A leaf shows nothing below it. -/
theorem nodes_of_leaf (t : Tree) (now levels : Nat) {e : Entry}
    (he : t.entries.find? key = some e) (hd : e.dir = false) :
    (t.node now levels key).nodes = [] := by
  rw [t.node_of_leaf now levels he hd]
  rfl

/-- A value is shown of a leaf only. -/
theorem value_of_node {now levels : Nat} {value : String}
    (h : (t.node now levels key).value = some value) :
    ∃ e, t.entries.find? key = some e ∧ e.dir = false ∧ e.value = some value := by
  cases he : t.entries.find? key with
  | none => cases levels <;> simp [node, he] at h
  | some e =>
    cases hd : e.dir with
    | false =>
      rw [t.node_of_leaf now levels he hd] at h
      exact ⟨e, rfl, hd, h⟩
    | true => cases levels <;> simp [node, he, Option.filter_some, hd] at h

theorem key_node (t : Tree) (now levels : Nat) (key : String) :
    (t.node now levels key).key = key := by
  cases he : t.entries.find? key with
  | none => rw [node_of_none _ _ _ he]
  | some e =>
    cases hd : e.dir with
    | false =>
      rw [node_of_leaf _ _ _ he hd]
      rfl
    | true => rw [node_of_directory _ _ _ he hd]

/-- The node of a directory shows no value. -/
theorem value_of_dir {levels : Nat} (h : (t.node now levels key).dir = true) :
    (t.node now levels key).value = none := by
  cases hv : (t.node now levels key).value with
  | none => rfl
  | some text =>
    obtain ⟨e, he, hd, -⟩ := value_of_node hv
    rw [node_of_leaf _ _ _ he hd] at h
    cases h

/-- What is no leaf shows the keys directly below it. -/
theorem nodes_of_dir (t : Tree) (now levels : Nat)
    (h : ∀ e, t.entries.find? key = some e → e.dir = true) :
    (t.node now (levels + 1) key).nodes = (t.children key).map (t.node now levels) := by
  have hf : (t.entries.find? key).filter (fun e => !e.dir) = none := by
    rw [Option.filter_eq_none_iff]
    intro e he
    simp [h e he]
  rw [node, hf]
  cases he : t.entries.find? key with
  | none => rfl
  | some e => rfl

/-- Without a level to go the node of a key shows nothing below it. -/
theorem nodes_zero (t : Tree) (now : Nat) (key : String) : (t.node now 0 key).nodes = [] := by
  rw [node]
  split
  · rfl
  · split <;> rfl

/-- What a node shows below it are nodes of keys, with a level less to go. -/
theorem exists_of_mem_nodes {levels : Nat} {n : Node}
    (h : n ∈ (t.node now (levels + 1) key).nodes) : ∃ k, t.node now levels k = n := by
  by_cases hd : ∀ e, t.entries.find? key = some e → e.dir = true
  · rw [nodes_of_dir t now levels hd] at h
    obtain ⟨k, -, hk⟩ := List.mem_map.mp h
    exact ⟨k, hk⟩
  · obtain ⟨e, he⟩ := not_forall.mp hd
    obtain ⟨he, hd⟩ := Classical.not_imp.mp he
    rw [t.nodes_of_leaf now _ he (Bool.not_eq_true _ ▸ hd)] at h
    cases h

/-- A key directly below a directory leads to a key that is there. -/
theorem mem_children_iff {dir k : String} :
    k ∈ t.children dir ↔ ∃ k' e, t.entries.find? k' = some e ∧ toward? dir k' = some k := by
  have hc : k ∈ t.children dir ↔ k ∈ t.entries.keys.filterMap (toward? dir) := by
    rw [children, Dict.mem_keys_ofList, List.map_map]
    simp
  rw [hc, List.mem_filterMap]
  constructor
  · rintro ⟨k', hm, hk⟩
    obtain ⟨e, he⟩ := (Dict.mem_keys_iff _ _).mp hm
    exact ⟨k', e, he, hk⟩
  · rintro ⟨k', e, he, hk⟩
    exact ⟨k', (Dict.mem_keys_iff _ _).mpr ⟨e, he⟩, hk⟩

/-- A key that is read is there, and the answer shows it with what lies below. -/
theorem get_eq_ok {recursive sorted : Bool} {r : Response}
    (h : t.perform now (.get key recursive sorted) = .ok (t', r)) :
    t' = t ∧ (normalize key = "" ∨ t.present (normalize key) = true) ∧
      r.node = some (t.node now (if recursive then t.height else 1) (normalize key)) := by
  rw [perform, get] at h
  split at h
  · cases h
  next hp =>
  simp only [Except.map, Except.ok.injEq, Prod.mk.injEq] at h
  obtain ⟨rfl, rfl⟩ := h
  refine ⟨rfl, ?_, rfl⟩
  by_cases hk : normalize key = ""
  · exact .inl hk
  · exact .inr (by simpa [hk] using hp)

/-- A key that cannot be read is not there. -/
theorem get_eq_error {recursive sorted : Bool} {refusal : Refusal}
    (h : t.perform now (.get key recursive sorted) = .error refusal) :
    t.present (normalize key) = false := by
  rw [perform, get] at h
  split at h
  · next hp => simpa using hp.2
  · cases h

/-- A write that succeeds is a write under the key, which had to be there if that was asked, and
does not turn a directory into a leaf; the answer shows the key. -/
theorem put_eq_ok {value : Option String} {o : WriteOptions} {r : Response}
    (h : t.put now key value o = .ok (t', r)) :
    t' = t.write now (normalize key) (if o.dir then none else some (value.getD "")) o.ttl o.dir ∧
      (o.prevExist = some true → t.present (normalize key) = true) ∧
      (t.isDir (normalize key) = true → o.dir = true) ∧
      r.node = some (t'.node now 0 (normalize key)) := by
  unfold put at h
  simp only [bind, Except.bind, pure, Except.pure, notFound, refuse, compareFailed] at h
  split at h
  · cases h
  next hthere =>
  split at h
  · cases h
  have hend : ¬(t.isDir (normalize key) = true ∧ (!o.dir) = true) ∧
      t' = t.write now (normalize key) (if o.dir then none else some (value.getD ""))
        o.ttl o.dir ∧ r.node = some (t'.node now 0 (normalize key)) := by
    split at h
    · split at h
      · cases h
      · split at h
        · cases h
        · split at h
          · cases h
          next hd =>
          simp only [Except.ok.injEq, Prod.mk.injEq] at h
          obtain ⟨rfl, rfl⟩ := h
          exact ⟨hd, rfl, rfl⟩
    · split at h
      · cases h
      next hd =>
      simp only [Except.ok.injEq, Prod.mk.injEq] at h
      obtain ⟨rfl, rfl⟩ := h
      exact ⟨hd, rfl, rfl⟩
  refine ⟨hend.2.1, fun he => ?_, fun hd => ?_, hend.2.2⟩
  · simpa [he] using hthere
  · simpa [hd] using hend.1

/-- A write that must not find the key and succeeds did not find it. -/
theorem absent_of_put {value : Option String} {o : WriteOptions} {r : Response}
    (h : t.put now key value o = .ok (t', r)) (ho : o.prevExist = some false) :
    t.present (normalize key) = false := by
  unfold put at h
  simp only [bind, Except.bind, notFound, refuse] at h
  split at h
  · cases h
  split at h
  · cases h
  next hthere => simpa [ho] using hthere

/-- A creation that succeeds is a write under an allocated key below what is no leaf. -/
theorem post_eq_ok {dir value : String} {ttl : Option Nat} {r : Response}
    (h : t.post now dir value ttl = .ok (t', r)) :
    t' = t.write now (allocated (normalize dir) (t.index + 1)) (some value) ttl false ∧
      r.node = some (t'.node now 0 (allocated (normalize dir) (t.index + 1))) ∧
      ∀ e, t.entries.find? (normalize dir) = some e → e.dir = true := by
  unfold post at h
  simp only [bind, Except.bind, pure, Except.pure, refuse] at h
  split at h
  · cases h
  next hd =>
  simp only [Except.ok.injEq, Prod.mk.injEq] at h
  obtain ⟨rfl, rfl⟩ := h
  refine ⟨rfl, rfl, ?_⟩
  intro e he
  simpa [he] using hd

/-- A deletion that succeeds takes away the key and what lies below it. -/
theorem delete_eq_ok {o : RemovalOptions} {r : Response} (h : t.delete now key o = .ok (t', r)) :
    t' = { t with
      index := t.index + 1
      entries := t.entries.filter fun k _ =>
        !(k = normalize key || isBelow (normalize key) k) } := by
  unfold delete at h
  simp only [bind, Except.bind, pure, Except.pure, notFound, refuse, compareFailed] at h
  split at h
  · cases h
  split at h
  · cases h
  split at h
  · cases h
  split at h
  · cases h
  split at h
  · cases h
  simp only [Except.ok.injEq, Prod.mk.injEq] at h
  exact h.1.symm

/-- A deletion that does not find its key is refused for a key that is not there. -/
theorem delete_eq_notFound {o : RemovalOptions} {refusal : Refusal}
    (h : t.delete now key o = .error refusal) (hn : refusal.isKeyNotFound = true) :
    t.present (normalize key) = false := by
  unfold delete at h
  simp only [bind, Except.bind, pure, Except.pure, notFound, refuse, compareFailed] at h
  split at h
  · next hp => simpa using hp
  -- The other refusals have other codes.
  split at h
  · cases h
    cases hn
  split at h
  · cases h
    cases hn
  split at h
  · cases h
    cases hn
  split at h
  · cases h
    cases hn
  · cases h

/-- A request is answered by a failure that was queued, refused, or carried out. -/
theorem run_cases (t : Tree) (now : Nat) (r : Request) :
    (∃ f rest, t.failures = f :: rest ∧ t.run now r = ({ t with failures := rest }, .error f)) ∨
      (∃ refusal, t.failures = [] ∧ (t.purge now).perform now r = .error refusal ∧
        t.run now r = (t.purge now, .error (.refused refusal))) ∨
      ∃ t' response, t.failures = [] ∧ (t.purge now).perform now r = .ok (t', response) ∧
        t.run now r = (t', .ok response) := by
  rw [run]
  cases hf : t.failures with
  | cons f rest => exact .inl ⟨f, rest, rfl, rfl⟩
  | nil =>
    cases hp : (t.purge now).perform now r with
    | error refusal => exact .inr (.inl ⟨refusal, rfl, rfl, by simp only [hp]⟩)
    | ok x => exact .inr (.inr ⟨x.1, x.2, rfl, rfl, by simp only [hp]⟩)

/-- The refusal that says that a key is not there. -/
def absence (t : Tree) (key : String) : Refusal where
  code := Refusal.keyNotFoundCode
  message := "Key not found"
  cause := key
  index := signed t.index

/-- A key that is read is answered with its node, or refused if nothing is there. -/
theorem run_get (hf : t.failures = []) (now : Nat) (key : String) (recursive sorted : Bool) :
    t.run now (.get key recursive sorted) = (t.purge now,
      if normalize key ≠ "" ∧ !(t.purge now).present (normalize key) then
        .error (.refused ((t.purge now).absence (normalize key)))
      else .ok {
        action := "get"
        node := some ((t.purge now).node now (if recursive then (t.purge now).height else 1)
          (normalize key)) }) := by
  by_cases h : normalize key ≠ "" ∧ !(t.purge now).present (normalize key)
  · simp only [run, hf, perform, get, if_pos h]
    rfl
  · simp only [run, hf, perform, get, if_neg h]
    rfl

/-- How an entry came to be put down by a request. -/
inductive Written (t : Tree) (now : Nat) (key : String) (e : Entry) : Request → Prop
  | put {name : String} {value : Option String} {o : WriteOptions} (hk : key = normalize name)
      (there : o.prevExist = some true → (t.purge now).present key = true)
      (leaf : (t.purge now).isDir key = true → o.dir = true)
      (he : e.dir = o.dir ∧ e.value = (if o.dir then none else some (value.getD "")) ∧
        e.pinnedTtl = none) : Written t now key e (.put name value o)
  | post {dir value : String} {ttl : Option Nat}
      (hk : key = allocated (normalize dir) (t.index + 1))
      (leaf : ∀ d, t.live? now (normalize dir) = some d → d.dir = true)
      (he : e.dir = false ∧ e.value = some value ∧ e.pinnedTtl = none) :
      Written t now key e (.post dir value ttl)

private theorem live?_write {k : String} {value : Option String} {ttl : Option Nat} {dir : Bool}
    {e : Entry} (h : ((t.purge now).write now key value ttl dir).live? now k = some e) :
    t.live? now k = some e ∨
      k = key ∧ e.dir = dir ∧ e.value = value ∧ e.pinnedTtl = none := by
  obtain ⟨hf, -⟩ := live?_eq_some.mp h
  rw [find?_write] at hf
  split at hf
  · next hk =>
    rw [← Option.some.inj hf]
    exact .inr ⟨hk, rfl, rfl, rfl⟩
  · rw [find?_purge] at hf
    exact .inl hf

/-- What is live after a request was live before, or was put down by the request. -/
theorem live?_run {r : Request} {e : Entry} (h : (t.run now r).1.live? now key = some e) :
    t.live? now key = some e ∨ Written t now key e r := by
  obtain ⟨f, rest, _, hr⟩ | ⟨refusal, _, _, hr⟩ | ⟨t', response, _, hp, hr⟩ := t.run_cases now r
  · rw [hr] at h
    exact .inl h
  · rw [hr, live?_purge] at h
    exact .inl h
  · rw [hr] at h
    cases r with
    | get name recursive sorted =>
      rw [(get_eq_ok hp).1, live?_purge] at h
      exact .inl h
    | put name value o =>
      obtain ⟨rfl, hthere, hleaf, -⟩ := put_eq_ok hp
      refine (live?_write h).imp_right fun hw => ?_
      exact .put hw.1 (hw.1 ▸ hthere) (hw.1 ▸ hleaf) hw.2
    | post dir value ttl =>
      obtain ⟨rfl, _, hleaf⟩ := post_eq_ok hp
      refine (live?_write h).imp_right fun hw => ?_
      exact .post hw.1 (fun d hd => hleaf d (by rwa [find?_purge])) hw.2
    | delete name o =>
      rw [delete_eq_ok hp] at h
      obtain ⟨hf, _⟩ := live?_eq_some.mp h
      rw [Dict.find?_filter, Option.filter_eq_some_iff, find?_purge] at hf
      exact .inl hf.1

/-- The index never falls. -/
theorem index_le_run (t : Tree) (now : Nat) (r : Request) : t.index ≤ (t.run now r).1.index := by
  obtain ⟨f, rest, _, hr⟩ | ⟨refusal, _, _, hr⟩ | ⟨t', response, _, hp, hr⟩ := t.run_cases now r
  · exact Nat.le_of_eq (by rw [hr])
  · exact Nat.le_of_eq (by rw [hr]; rfl)
  · rw [hr]
    cases r with
    | get name recursive sorted =>
      rw [(get_eq_ok hp).1]
      exact Nat.le_refl _
    | put name value o =>
      rw [(put_eq_ok hp).1]
      exact Nat.le_succ _
    | post dir value ttl =>
      rw [(post_eq_ok hp).1]
      exact Nat.le_succ _
    | delete name o =>
      rw [delete_eq_ok hp]
      exact Nat.le_succ _

/-- A request queues no failure. -/
theorem failures_run (h : t.failures = []) (now : Nat) (r : Request) :
    (t.run now r).1.failures = [] := by
  obtain ⟨f, rest, hf, -⟩ | ⟨_, _, _, hr⟩ | ⟨t', response, _, hp, hr⟩ := t.run_cases now r
  · cases h.symm.trans hf
  · rw [hr]
    exact h
  · rw [hr]
    cases r with
    | get name recursive sorted =>
      rw [(get_eq_ok hp).1]
      exact h
    | put name value o =>
      rw [(put_eq_ok hp).1]
      exact h
    | post dir value ttl =>
      rw [(post_eq_ok hp).1]
      exact h
    | delete name o =>
      rw [delete_eq_ok hp]
      exact h

/-- A request that is not answered by a response leaves what is live. -/
theorem live?_run_of_error {r : Request} {f : Failure} (h : (t.run now r).2 = .error f)
    (key : String) : (t.run now r).1.live? now key = t.live? now key := by
  obtain ⟨g, rest, _, hr⟩ | ⟨refusal, _, _, hr⟩ | ⟨t', response, _, hp, hr⟩ := t.run_cases now r
  · rw [hr]
    rfl
  · rw [hr, live?_purge]
  · rw [hr] at h
    cases h

/-- A write that is answered by a response wrote the key, and the answer shows it. -/
theorem run_put_of_ok {name : String} {value : Option String} {o : WriteOptions}
    {response : Response} (h : (t.run now (.put name value o)).2 = .ok response) :
    (t.run now (.put name value o)).1 = (t.purge now).write now (normalize name)
        (if o.dir then none else some (value.getD "")) o.ttl o.dir ∧
      response.node = some ((t.run now (.put name value o)).1.node now 0 (normalize name)) := by
  obtain ⟨g, rest, _, hr⟩ | ⟨refusal, _, _, hr⟩ | ⟨t', response', _, hp, hr⟩ :=
    t.run_cases now (.put name value o)
  · rw [hr] at h
    cases h
  · rw [hr] at h
    cases h
  · rw [hr] at h ⊢
    cases h
    exact ⟨(put_eq_ok hp).1, (put_eq_ok hp).2.2.2⟩

/-- A look at a key that shows a value shows that of a live leaf. -/
theorem live?_of_run_get {name : String} {recursive sorted : Bool} {response : Response}
    (h : (t.run now (.get name recursive sorted)).2 = .ok response) {value : String}
    (hv : response.node.bind Node.value = some value) :
    ∃ e, t.live? now (normalize name) = some e ∧ e.dir = false ∧ e.value = some value := by
  obtain ⟨g, rest, _, hr⟩ | ⟨refusal, _, _, hr⟩ | ⟨t', response', _, hp, hr⟩ :=
    t.run_cases now (.get name recursive sorted)
  · rw [hr] at h
    cases h
  · rw [hr] at h
    cases h
  · rw [hr] at h
    cases h
    rw [(get_eq_ok hp).2.2, Option.bind_some] at hv
    obtain ⟨e, he, hd, hev⟩ := value_of_node hv
    exact ⟨e, find?_purge t now _ ▸ he, hd, hev⟩

/-- A creation of a key that is answered by a response puts down a leaf where there was nothing. -/
theorem live?_run_put_new {name : String} {value : String} {response : Response}
    (h : (t.run now (.put name (some value) { prevExist := some false })).2 = .ok response) :
    t.live? now (normalize name) = none ∧
      ∃ e, (t.run now (.put name (some value) { prevExist := some false })).1.live? now
          (normalize name) = some e ∧
        e.dir = false ∧ e.value = some value ∧ e.expiresAt = none := by
  obtain ⟨g, rest, _, hr⟩ | ⟨refusal, _, _, hr⟩ | ⟨t', response', _, hp, hr⟩ :=
    t.run_cases now (.put name (some value) { prevExist := some false })
  · rw [hr] at h
    cases h
  · rw [hr] at h
    cases h
  · change (t.purge now).put now name (some value) { prevExist := some false } =
      .ok (t', response') at hp
    rw [hr]
    constructor
    · have ha := absent_of_put hp rfl
      cases hl : t.live? now (normalize name) with
      | none => rfl
      | some e =>
        rw [← find?_purge] at hl
        rw [present_iff.mpr (.inl ⟨e, hl⟩)] at ha
        cases ha
    · rw [(put_eq_ok hp).1, live?, find?_write, if_pos rfl]
      exact ⟨_, rfl, rfl, rfl, rfl⟩

/-- After a deletion the key is not there if the store answered that it was deleted or was not
found. -/
theorem absent_of_run_delete {name : String} {o : RemovalOptions} (hf : t.failures = [])
    (h : ∀ refusal, (t.run now (.delete name o)).2 = .error (.refused refusal) →
      refusal.isKeyNotFound = true) :
    (t.run now (.delete name o)).1.present (normalize name) = false := by
  obtain ⟨g, rest, hg, _⟩ | ⟨refusal, _, hp, hr⟩ | ⟨t', response, _, hp, hr⟩ :=
    t.run_cases now (.delete name o)
  · cases hf.symm.trans hg
  · rw [hr]
    exact delete_eq_notFound hp (h refusal (by rw [hr]))
  · rw [hr, delete_eq_ok hp]
    refine Bool.eq_false_iff.mpr fun hpresent => ?_
    rcases present_iff.mp hpresent with ⟨e, he⟩ | hc
    · simp [Dict.find?_filter] at he
    · obtain ⟨k, e, he, hk⟩ := hasChildren_iff.mp hc
      simp [Dict.find?_filter, hk] at he

/-- A creation that is answered by a response used up an index, and the answer shows the key. -/
theorem run_post_of_ok {dir value : String} {ttl : Option Nat} {response : Response}
    (h : (t.run now (.post dir value ttl)).2 = .ok response) :
    (t.run now (.post dir value ttl)).1.index = t.index + 1 ∧
      ∃ n, response.node = some n ∧ n.key = allocated (normalize dir) (t.index + 1) := by
  obtain ⟨g, rest, _, hr⟩ | ⟨refusal, _, _, hr⟩ | ⟨t', response', _, hp, hr⟩ :=
    t.run_cases now (.post dir value ttl)
  · rw [hr] at h
    cases h
  · rw [hr] at h
    cases h
  · rw [hr] at h ⊢
    cases h
    obtain ⟨rfl, hn, _⟩ := post_eq_ok hp
    refine ⟨rfl, _, hn, ?_⟩
    rw [node_of_leaf _ _ _ (by rw [find?_write, if_pos rfl]) rfl, leafNode]
    rfl

/-- Whether a request may change what is under a key, at an index of the store. -/
def Touches (index : Nat) (key : String) : Request → Prop
  | .get _ _ _ => False
  | .put name _ _ => normalize name = key
  | .post dir _ _ => allocated (normalize dir) (index + 1) = key
  | .delete name _ => normalize name = key ∨ isBelow (normalize name) key = true

private theorem live?_write_of_ne {k : String} (h : k ≠ key) (value : Option String)
    (ttl : Option Nat) (dir : Bool) :
    ((t.purge now).write now key value ttl dir).live? now k = t.live? now k := by
  rw [live?, find?_write, if_neg h, ← live?, live?_purge]

/-- A request leaves what is live under a key that it does not touch. -/
theorem live?_run_of_not_touches {r : Request} (h : ¬Touches t.index key r) :
    (t.run now r).1.live? now key = t.live? now key := by
  obtain ⟨f, rest, _, hr⟩ | ⟨refusal, _, _, hr⟩ | ⟨t', response, _, hp, hr⟩ := t.run_cases now r
  · rw [hr]
    rfl
  · rw [hr, live?_purge]
  · rw [hr]
    cases r with
    | get name recursive sorted => rw [(get_eq_ok hp).1, live?_purge]
    | put name value o =>
      rw [(put_eq_ok hp).1]
      exact live?_write_of_ne (Ne.symm h) _ _ _
    | post dir value ttl =>
      rw [(post_eq_ok hp).1]
      exact live?_write_of_ne (Ne.symm h) _ _ _
    | delete name o =>
      have hk : (!(key = normalize name || isBelow (normalize name) key)) = true := by
        simp only [Touches, not_or, Bool.not_eq_true] at h
        simp [Ne.symm h.1, h.2]
      rw [delete_eq_ok hp, live?, Dict.find?_filter, find?_purge, live?, Option.filter_filter,
        Option.filter_filter]
      simp [hk]

private theorem not_expired_of_lt {e : Entry} {x : Nat} (hx : e.expiresAt = some x) (h : now < x) :
    e.expired now = false := by
  rw [Entry.expired, hx, Option.any_some, decide_eq_false (Nat.not_le.mpr h), Bool.and_false]

private theorem lt_add_ofSeconds (now : Nat) {ttl : Nat} (h : 0 < ttl) :
    now < now + Duration.ofSeconds ttl := Nat.lt_add_of_pos_right (Nat.mul_pos h (by decide))

/-- A creation that is answered by a response puts down an entry for its time to live. -/
theorem live?_run_post {dir value : String} {ttl : Nat} (httl : 0 < ttl) {response : Response}
    (h : (t.run now (.post dir value (some ttl))).2 = .ok response) :
    ∃ e, (t.run now (.post dir value (some ttl))).1.live? now
        (allocated (normalize dir) (t.index + 1)) = some e ∧
      e.dir = false ∧ e.pinnedTtl = none ∧ e.expiresAt = some (now + Duration.ofSeconds ttl) := by
  obtain ⟨g, rest, _, hr⟩ | ⟨refusal, _, _, hr⟩ | ⟨t', response', _, hp, hr⟩ :=
    t.run_cases now (.post dir value (some ttl))
  · rw [hr] at h
    cases h
  · rw [hr] at h
    cases h
  · rw [hr]
    obtain ⟨rfl, -, -⟩ := post_eq_ok hp
    exact ⟨_, live?_eq_some.mpr ⟨(find?_write ..).trans (if_pos rfl),
      not_expired_of_lt rfl (lt_add_ofSeconds now httl)⟩, rfl, rfl, rfl⟩

/-- A store without queued failures answers a renewal of a live leaf by a response, and the entry
has a new time to live. -/
theorem run_renew (value : String) {ttl : Nat} (hf : t.failures = []) (hk : normalize key = key)
    (hne : key ≠ "") (httl : 0 < ttl) {e : Entry} (he : t.live? now key = some e)
    (hd : e.dir = false) :
    let r := Request.put key (some value) { ttl := some ttl, prevExist := some true }
    (∃ response, (t.run now r).2 = .ok response) ∧
      ∃ e', (t.run now r).1.live? now key = some e' ∧ e'.dir = false ∧ e'.pinnedTtl = none ∧
        e'.expiresAt = some (now + Duration.ofSeconds ttl) := by
  intro r
  have hfind : (t.purge now).entries.find? key = some e := by rw [find?_purge, he]
  have hpresent : (t.purge now).present key = true := present_iff.mpr (.inl ⟨e, hfind⟩)
  have hdir : (t.purge now).isDir key = false := by simp [isDir, hne, hfind, hd]
  have hput : ∃ response, (t.purge now).perform now r =
      .ok ((t.purge now).write now key (some value) (some ttl) false, response) := by
    simp only [r, perform, put, bind, Except.bind, pure, Except.pure, hk, hpresent, hdir]
    simp
  obtain ⟨response, hput⟩ := hput
  have hrun : t.run now r =
      ((t.purge now).write now key (some value) (some ttl) false, .ok response) := by
    rw [run, hf]
    simp only [hput]
  rw [hrun]
  exact ⟨⟨response, rfl⟩, _, live?_eq_some.mpr ⟨(find?_write ..).trans (if_pos rfl),
    not_expired_of_lt rfl (lt_add_ofSeconds now httl)⟩, rfl, rfl, rfl⟩

end Rollcall.Store.Tree
