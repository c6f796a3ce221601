import Rollcall.Proofs.Store.Tree

/-!
# What requests write

A request that is answered by a response uses up one index, unless it only reads, and one that is
not uses up none. What was put down by a request stands under its target and bears the index; the
other entries stand as they stood. A condition on an index is met by one entry only, the one that
bears it.
-/

namespace Rollcall.Store

open Store.Path

namespace Request

/-- Whether a request only reads. -/
def isRead : Request → Bool
  | .get .. => true
  | _ => false

/-- The key under which a request writes, at an index of the store. -/
def target? (index : Nat) : Request → Option String
  | .put name _ _ => some (normalize name)
  | .post dir _ _ => some (allocated (normalize dir) (index + 1))
  | _ => none

/-- Whether a request takes away what is under a key. -/
def Removes (key : String) : Request → Prop
  | .delete name _ => normalize name = key ∨ isBelow (normalize name) key = true
  | _ => False

/-- Whether a request is to change or delete a key only if its entry bears an index. -/
def Expects (key : String) (i : Nat) : Request → Prop
  | .put name _ o => normalize name = key ∧ o.prevIndex = some i
  | .delete name o => normalize name = key ∧ o.prevIndex = some i
  | _ => False

/-- Whether a request is to write a key only if it is not there. -/
def Creates (key : String) : Request → Prop
  | .put name _ o => normalize name = key ∧ o.prevExist = some false
  | _ => False

end Request

namespace Tree

variable {t t' : Tree} {now : Nat} {key : String} {r : Request} {response : Response}

/-- A request that is answered by a response was carried out, and no failure was queued. -/
theorem perform_of_run (h : (t.run now r).2 = .ok response) :
    t.failures = [] ∧ (t.purge now).perform now r = .ok ((t.run now r).1, response) := by
  obtain ⟨_, _, _, hr⟩ | ⟨_, _, _, hr⟩ | ⟨t', response', hf, hp, hr⟩ := t.run_cases now r
  · rw [hr] at h
    cases h
  · rw [hr] at h
    cases h
  · rw [hr] at h ⊢
    cases h
    exact ⟨hf, hp⟩

/-- A request that is not answered by a response uses up no index, and at most the failure that
answers it. -/
theorem run_of_error {f : Failure} (h : (t.run now r).2 = .error f) :
    (t.run now r).1.index = t.index ∧
      ((t.run now r).1.failures = t.failures ∨ t.failures = f :: (t.run now r).1.failures) := by
  obtain ⟨g, rest, hf, hr⟩ | ⟨_, _, _, hr⟩ | ⟨_, _, _, _, hr⟩ := t.run_cases now r
  · rw [hr] at h ⊢
    cases h
    exact ⟨rfl, .inr hf⟩
  · rw [hr]
    exact ⟨rfl, .inl rfl⟩
  · rw [hr] at h
    cases h

/-- A request that is answered by a response uses up one index, unless it only reads. -/
theorem index_run_of_ok (h : (t.run now r).2 = .ok response) :
    (t.run now r).1.index = t.index + if r.isRead then 0 else 1 := by
  obtain ⟨-, hp⟩ := perform_of_run h
  generalize (t.run now r).1 = t' at hp ⊢
  cases r with
  | get name recursive sorted => rw [(get_eq_ok hp).1]; rfl
  | put name value o => rw [(put_eq_ok hp).1]; rfl
  | post dir value ttl => rw [(post_eq_ok hp).1]; rfl
  | delete name o => rw [delete_eq_ok hp]; rfl

/-- An entry that a request put down: the store answered by a response, the entry stands under the
target, and it bears the new index, and as the index of its creation the new one or that of the
entry in whose place it stands. -/
structure Wrote (t : Tree) (now : Nat) (r : Request) (key : String) (e : Entry) : Prop where
  carried : ∃ response, (t.run now r).2 = .ok response
  target : r.target? t.index = some key
  modified : e.modifiedIndex = t.index + 1
  created : e.createdIndex = t.index + 1 ∨
    ∃ e', t.entries.find? key = some e' ∧ e.createdIndex = e'.createdIndex

/-- What put an entry down used up one index. -/
theorem Wrote.index_run {e : Entry} (h : t.Wrote now r key e) :
    (t.run now r).1.index = t.index + 1 := by
  obtain ⟨response, hok⟩ := h.carried
  rw [index_run_of_ok hok]
  have ht := h.target
  cases r with
  | get => cases ht
  | _ => rfl

private theorem find?_of_purge {e : Entry} (h : (t.purge now).entries.find? key = some e) :
    t.entries.find? key = some e := (live?_eq_some.mp (find?_purge t now key ▸ h)).1

private theorem find?_write_cases {k : String} {value : Option String} {ttl : Option Nat}
    {dir : Bool} {e : Entry}
    (h : ((t.purge now).write now key value ttl dir).entries.find? k = some e) :
    t.entries.find? k = some e ∨
      k = key ∧ e.modifiedIndex = t.index + 1 ∧ (e.createdIndex = t.index + 1 ∨
        ∃ e', t.entries.find? key = some e' ∧ e.createdIndex = e'.createdIndex) := by
  rw [find?_write] at h
  split at h
  · next hk =>
    obtain rfl := Option.some.inj h
    refine .inr ⟨hk, rfl, ?_⟩
    cases he : (t.purge now).entries.find? key with
    | none => exact .inl rfl
    | some e' => exact .inr ⟨e', find?_of_purge he, rfl⟩
  · exact .inl (find?_of_purge h)

/-- After a request an entry stood there before, or the request put it down. -/
theorem find?_run {e : Entry} (h : (t.run now r).1.entries.find? key = some e) :
    t.entries.find? key = some e ∨ t.Wrote now r key e := by
  obtain ⟨_, _, _, hr⟩ | ⟨_, _, _, hr⟩ | ⟨t', response, _, hp, hr⟩ := t.run_cases now r
  · rw [hr] at h
    exact .inl h
  · rw [hr] at h
    exact .inl (find?_of_purge h)
  · rw [hr] at h
    have hok : ∃ response, (t.run now r).2 = .ok response := ⟨response, by rw [hr]⟩
    cases r with
    | get name recursive sorted =>
      rw [(get_eq_ok hp).1] at h
      exact .inl (find?_of_purge h)
    | put name value o =>
      rw [(put_eq_ok hp).1] at h
      exact (find?_write_cases h).imp_right fun ⟨hk, hm, hc⟩ => ⟨hok, hk ▸ rfl, hm, hk ▸ hc⟩
    | post dir value ttl =>
      rw [(post_eq_ok hp).1] at h
      exact (find?_write_cases h).imp_right fun ⟨hk, hm, hc⟩ => ⟨hok, hk ▸ rfl, hm, hk ▸ hc⟩
    | delete name o =>
      rw [delete_eq_ok hp, Dict.find?_filter, Option.filter_eq_some_iff] at h
      exact .inl (find?_of_purge h.1)

/-- What is live after a request was live before, or the request put it down. -/
theorem live?_run_or_wrote {e : Entry} (h : (t.run now r).1.live? now key = some e) :
    t.live? now key = some e ∨ t.Wrote now r key e := by
  obtain ⟨hf, hx⟩ := live?_eq_some.mp h
  exact (find?_run hf).imp_left fun he => live?_eq_some.mpr ⟨he, hx⟩

private theorem find?_write_ne_none (t : Tree) (now : Nat) (value : Option String)
    (ttl : Option Nat) (dir : Bool) {k : String} {e : Entry} (h : t.entries.find? k = some e) :
    ∃ e', (t.write now key value ttl dir).entries.find? k = some e' := by
  rw [find?_write]
  split
  · exact ⟨_, rfl⟩
  · exact ⟨e, h⟩

/-- An entry that is live is not gone after a request, unless the request is a deletion that took it
away. -/
theorem find?_run_of_live {e : Entry} (h : t.live? now key = some e) :
    (∃ e', (t.run now r).1.entries.find? key = some e') ∨
      (∃ response, (t.run now r).2 = .ok response) ∧ r.Removes key := by
  have hl : (t.purge now).entries.find? key = some e := by rw [find?_purge, h]
  obtain ⟨_, _, _, hr⟩ | ⟨_, _, _, hr⟩ | ⟨t', response, _, hp, hr⟩ := t.run_cases now r
  · rw [hr]
    exact .inl ⟨e, (live?_eq_some.mp h).1⟩
  · rw [hr]
    exact .inl ⟨e, hl⟩
  · rw [hr]
    cases r with
    | get name recursive sorted =>
      rw [(get_eq_ok hp).1]
      exact .inl ⟨e, hl⟩
    | put name value o =>
      rw [(put_eq_ok hp).1]
      exact .inl (find?_write_ne_none _ _ _ _ _ hl)
    | post dir value ttl =>
      rw [(post_eq_ok hp).1]
      exact .inl (find?_write_ne_none _ _ _ _ _ hl)
    | delete name o =>
      by_cases hk : normalize name = key ∨ isBelow (normalize name) key = true
      · exact .inr ⟨⟨response, rfl⟩, hk⟩
      · refine .inl ⟨e, ?_⟩
        rw [not_or, Bool.not_eq_true] at hk
        rw [delete_eq_ok hp, Dict.find?_filter, hl, Option.filter_some]
        simp [Ne.symm hk.1, hk.2]

/-! ## Indices in answers -/

private theorem modifiedIndex_node (t : Tree) (now levels : Nat) (key : String) :
    (t.node now levels key).modifiedIndex =
      ((t.entries.find? key).map Entry.modifiedIndex).getD 0 := by
  cases he : t.entries.find? key with
  | none => rw [t.node_of_none now levels he]; rfl
  | some e =>
    cases hd : e.dir with
    | false => rw [t.node_of_leaf now levels he hd]; rfl
    | true => rw [t.node_of_directory now levels he hd]; rfl

private theorem modifiedIndex_write (t : Tree) (now : Nat) (key : String) (value : Option String)
    (ttl : Option Nat) (dir : Bool) (levels : Nat) :
    ((t.write now key value ttl dir).node now levels key).modifiedIndex = t.index + 1 := by
  rw [modifiedIndex_node, find?_write, if_pos rfl]
  rfl

/-- A deletion that succeeds found its key with the index that was asked, and its answer bears the
new index. -/
theorem index_of_delete {o : RemovalOptions} (h : t.delete now key o = .ok (t', response)) :
    (∀ i, o.prevIndex = some i → (t.node now 0 (normalize key)).modifiedIndex = i) ∧
      ∃ n, response.node = some n ∧ n.modifiedIndex = t.index + 1 := by
  unfold delete at h
  simp only [bind, Except.bind, pure, Except.pure, notFound, refuse, compareFailed] at h
  split at h
  · cases h
  split at h
  · cases h
  split at h
  · cases h
  split at h
  · cases h
  split at h
  · cases h
  next hi =>
  simp only [Except.ok.injEq, Prod.mk.injEq] at h
  obtain ⟨-, rfl⟩ := h
  refine ⟨fun i ho => ?_, _, rfl, rfl⟩
  simpa [ho] using hi

/-- A write that succeeds found an entry with the index that was asked. -/
theorem index_of_put {value : Option String} {o : WriteOptions}
    (h : t.put now key value o = .ok (t', response)) {i : Nat} (ho : o.prevIndex = some i) :
    ∃ e, t.entries.find? (normalize key) = some e ∧ e.modifiedIndex = i := by
  unfold put at h
  simp only [bind, Except.bind, pure, Except.pure, notFound, refuse, compareFailed] at h
  split at h
  · cases h
  split at h
  · cases h
  rw [if_pos (.inr (by rw [ho]; rfl))] at h
  split at h
  · cases h
  next e he =>
  split at h
  · cases h
  next hi =>
  rw [not_or, ho] at hi
  exact ⟨e, he, by simpa using hi.2⟩

/-- The answer to a request that does not only read bears the new index. -/
theorem modifiedIndex_of_run (h : (t.run now r).2 = .ok response) (hr : r.isRead = false) :
    ∃ n, response.node = some n ∧ n.modifiedIndex = t.index + 1 := by
  obtain ⟨-, hp⟩ := perform_of_run h
  cases r with
  | get name recursive sorted => cases hr
  | put name value o =>
    obtain ⟨ht, -, -, hn⟩ := put_eq_ok hp
    exact ⟨_, hn, by rw [ht]; exact modifiedIndex_write ..⟩
  | post dir value ttl =>
    obtain ⟨ht, hn, -⟩ := post_eq_ok hp
    exact ⟨_, hn, by rw [ht]; exact modifiedIndex_write ..⟩
  | delete name o => exact (index_of_delete hp).2

/-- A request that expects an index and is answered by a response found an entry that bears it. -/
theorem exists_of_expects {i : Nat} (h : (t.run now r).2 = .ok response) (hr : r.Expects key i)
    (hi : 1 ≤ i) : ∃ e, t.entries.find? key = some e ∧ e.modifiedIndex = i := by
  obtain ⟨-, hp⟩ := perform_of_run h
  cases r with
  | get name recursive sorted => exact hr.elim
  | post dir value ttl => exact hr.elim
  | put name value o =>
    obtain ⟨rfl, ho⟩ := hr
    obtain ⟨e, he, hm⟩ := index_of_put hp ho
    exact ⟨e, find?_of_purge he, hm⟩
  | delete name o =>
    obtain ⟨rfl, ho⟩ := hr
    have hn := (index_of_delete hp).1 i ho
    rw [modifiedIndex_node] at hn
    cases he : (t.purge now).entries.find? (normalize name) with
    | none =>
      rw [he] at hn
      simp only [Option.map_none, Option.getD_none] at hn
      omega
    | some e =>
      rw [he] at hn
      exact ⟨e, find?_of_purge he, hn⟩

/-- After a request that expects an index and is answered by a response the key bears the new index,
if it still has an entry. -/
theorem modifiedIndex_of_expects {i : Nat} {e : Entry} (h : (t.run now r).2 = .ok response)
    (hr : r.Expects key i) (he : (t.run now r).1.entries.find? key = some e) :
    e.modifiedIndex = t.index + 1 := by
  obtain ⟨-, hp⟩ := perform_of_run h
  cases r with
  | get name recursive sorted => exact hr.elim
  | post dir value ttl => exact hr.elim
  | put name value o =>
    rw [(put_eq_ok hp).1, find?_write, if_pos hr.1.symm] at he
    rw [← Option.some.inj he]
    rfl
  | delete name o =>
    rw [delete_eq_ok hp, Dict.find?_filter, Option.filter_eq_some_iff, ← hr.1] at he
    simp at he

/-! ## What was there -/

/-- A request that is to create its key and is answered by a response did not find it, and it is
there afterwards. -/
theorem entry_of_creates (h : (t.run now r).2 = .ok response) (hr : r.Creates key) :
    t.live? now key = none ∧ ∃ e, (t.run now r).1.entries.find? key = some e := by
  obtain ⟨-, hp⟩ := perform_of_run h
  cases r with
  | put name value o =>
    obtain ⟨rfl, ho⟩ := hr
    constructor
    · rw [← find?_purge]
      refine Option.eq_none_iff_forall_ne_some.mpr fun e he => ?_
      have ha := absent_of_put hp ho
      rw [present_iff.mpr (.inl ⟨e, he⟩)] at ha
      cases ha
    · rw [(put_eq_ok hp).1, find?_write, if_pos rfl]
      exact ⟨_, rfl⟩
  | _ => exact hr.elim

/-- A write of a leaf that had to be there and is answered by a response found a live leaf. -/
theorem live?_of_rewrite {name : String} {value : Option String} {o : WriteOptions}
    (h : (t.run now (.put name value o)).2 = .ok response) (he : o.prevExist = some true)
    (hd : o.dir = false) : ∃ e, t.live? now (normalize name) = some e ∧ e.dir = false := by
  obtain ⟨-, hp⟩ := perform_of_run h
  obtain ⟨-, hthere, hleaf, -⟩ := put_eq_ok hp
  have hdir : (t.purge now).isDir (normalize name) = false := by
    rw [Bool.eq_false_iff]
    intro hx
    rw [hleaf hx] at hd
    cases hd
  rw [isDir, Bool.or_eq_false_iff] at hdir
  rw [← find?_purge]
  cases hf : (t.purge now).entries.find? (normalize name) with
  | none =>
    rw [hf] at hdir
    rcases present_iff.mp (hthere he) with ⟨e, hpe⟩ | hc
    · rw [hf] at hpe
      cases hpe
    · rw [hc] at hdir
      cases hdir.2
  | some e =>
    rw [hf] at hdir
    exact ⟨e, rfl, hdir.2⟩

end Tree

end Rollcall.Store
