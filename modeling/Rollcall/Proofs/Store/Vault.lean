import Rollcall.Proofs.Store.Writes

/-!
# Vaults

A vault is a store kept in memory with the clock by which it goes. Requests are made of it, values
are looked at, seconds are pinned, failures are queued and time passes, in any order. What holds of
a vault at every moment is shown of one call, and a run is one call after another.
-/

namespace Rollcall.Store

open Store.Path

/-- A store with a clock. -/
structure Vault where
  tree : Tree := {}
  /-- Nanoseconds since the beginning. -/
  now : Nat := 0

namespace Vault

/-- A store that was just opened. -/
def opened (now : Nat) : Vault := { now }

/-- What is done to a store. -/
inductive Call
  | ask (r : Request)
  /-- Look at the value under exactly this key. -/
  | look (key : String)
  /-- Pin the seconds shown for exactly this key. -/
  | pin (key : String) (ttl : Int)
  /-- Queue a failure. -/
  | fail (f : Failure)
  | elapse (d : Duration)

/-- What comes back from a call. -/
inductive Reply
  | answer (a : Answer)
  | value (text : Option String)
  | pinned (there : Bool)
  | nothing

/-- A vault after a call, and the reply. -/
def call (v : Vault) : Call → Vault × Reply
  | .ask r =>
    let (tree, a) := v.tree.run v.now r
    ({ v with tree }, .answer a)
  | .look key =>
    let (tree, text) := v.tree.value v.now key
    ({ v with tree }, .value text)
  | .pin key ttl =>
    let (tree, there) := v.tree.pinTtl key ttl
    ({ v with tree }, .pinned there)
  | .fail f => ({ v with tree := v.tree.queueFailure f }, .nothing)
  | .elapse d => ({ v with now := v.now + d }, .nothing)

/-- A vault after calls one after another. -/
def run (v : Vault) (calls : List Call) : Vault := calls.foldl (fun v c => (v.call c).1) v

/-- What comes back from calls one after another. -/
def replies (v : Vault) : List Call → List Reply
  | [] => []
  | c :: calls => (v.call c).2 :: (v.call c).1.replies calls

variable {v : Vault} {c : Call} {key : String}

@[simp] theorem run_nil (v : Vault) : v.run [] = v := rfl

@[simp] theorem run_cons (v : Vault) (c : Call) (calls : List Call) :
    v.run (c :: calls) = (v.call c).1.run calls := rfl

theorem run_append (v : Vault) (calls calls' : List Call) :
    v.run (calls ++ calls') = (v.run calls).run calls' := List.foldl_append

/-- What every call of a run keeps holds after it. -/
theorem run_induction {P : Vault → Prop} {calls : List Call}
    (step : ∀ v, ∀ c ∈ calls, P v → P (v.call c).1) (h : P v) : P (v.run calls) := by
  induction calls generalizing v with
  | nil => exact h
  | cons c calls ih =>
    exact ih (fun v c hc => step v c (List.mem_cons_of_mem _ hc)) (step v c List.mem_cons_self h)

/-- The answer to a request that is made now. -/
def answer (v : Vault) (r : Request) : Answer := (v.tree.run v.now r).2

/-- The entry under a key, if it is live. -/
def live? (v : Vault) (key : String) : Option Entry := v.tree.live? v.now key

/-- Whether a key is there, as a live entry or as a directory of live entries. -/
def Has (v : Vault) (key : String) : Prop := (v.tree.purge v.now).present key = true

/-- Whether a key has an entry whose time is over. -/
def Overdue (v : Vault) (key : String) : Prop :=
  (v.tree.entries.find? key).any (fun e => e.expired v.now) = true

instance (v : Vault) (key : String) : Decidable (v.Overdue key) :=
  inferInstanceAs (Decidable (_ = true))

/-- Whether a call writes a key: it is a request that is answered by a response, and the key is its
target. -/
def Writes (v : Vault) (c : Call) (key : String) : Prop :=
  ∃ r response, c = .ask r ∧ v.answer r = .ok response ∧ r.target? v.tree.index = some key

/-- Whether every call of a run is as it should be at its moment. -/
def Always (P : Vault → Call → Prop) (v : Vault) : List Call → Prop
  | [] => True
  | c :: calls => P v c ∧ (v.call c).1.Always P calls

/-- Of a run, two requests that are answered by a response, with the calls before and between
them. -/
structure Succession (v : Vault) (calls before : List Call) (r : Request) (response : Response)
    (mid : List Call) (r' : Request) (response' : Response) : Prop where
  split : ∃ after, calls = before ++ .ask r :: (mid ++ .ask r' :: after)
  first : (v.run before).answer r = .ok response
  second : (v.run (before ++ .ask r :: mid)).answer r' = .ok response'

theorem always_append {P : Vault → Call → Prop} {calls calls' : List Call} :
    v.Always P (calls ++ calls') ↔ v.Always P calls ∧ (v.run calls).Always P calls' := by
  induction calls generalizing v with
  | nil => simp [Always]
  | cons c calls ih => simp only [List.cons_append, Always, ih, run_cons, and_assoc]

theorem overdue_iff :
    v.Overdue key ↔ ∃ e, v.tree.entries.find? key = some e ∧ e.expired v.now = true :=
  Option.any_eq_true ..

/-- An entry that is not overdue is live. -/
theorem live?_of_not_overdue (h : ¬v.Overdue key) : v.live? key = v.tree.entries.find? key := by
  rw [live?, Tree.live?]
  cases he : v.tree.entries.find? key with
  | none => rfl
  | some e =>
    have hx : e.expired v.now = false := Bool.eq_false_iff.mpr fun hx =>
      h (overdue_iff.mpr ⟨e, he, hx⟩)
    rw [Option.filter_some, hx]
    rfl

/-- An entry that is overdue is not live. -/
theorem live?_of_overdue (h : v.Overdue key) : v.live? key = none := by
  obtain ⟨e, he, hx⟩ := overdue_iff.mp h
  rw [live?, Tree.live?, he, Option.filter_some, hx]
  rfl

/-- A key is there when it has a live entry or when a key with one lies below it. -/
theorem has_iff :
    v.Has key ↔ (∃ e, v.live? key = some e) ∨
      ∃ k e, v.live? k = some e ∧ isBelow key k = true := by
  simp only [Has, Tree.present_iff, Tree.hasChildren_iff, Tree.find?_purge, live?]

/-- The index never falls. -/
theorem index_le_call (v : Vault) (c : Call) : v.tree.index ≤ (v.call c).1.tree.index := by
  cases c with
  | ask r => exact v.tree.index_le_run v.now r
  | _ => exact Nat.le_refl _

theorem index_le_run (v : Vault) (calls : List Call) :
    v.tree.index ≤ (v.run calls).tree.index := by
  induction calls generalizing v with
  | nil => exact Nat.le_refl _
  | cons c calls ih => exact Nat.le_trans (v.index_le_call c) (ih _)

/-- An entry after a call stood there before but for its pinned seconds, or the call put it down. -/
theorem find?_call {e : Entry} (h : (v.call c).1.tree.entries.find? key = some e) :
    (∃ e', v.tree.entries.find? key = some e' ∧ e'.modifiedIndex = e.modifiedIndex ∧
        e'.createdIndex = e.createdIndex) ∨
      ∃ r, c = .ask r ∧ v.tree.Wrote v.now r key e := by
  cases c with
  | ask r =>
    rcases Tree.find?_run h with he | hw
    · exact .inl ⟨e, he, rfl, rfl⟩
    · exact .inr ⟨r, rfl, hw⟩
  | look k =>
    refine .inl ⟨e, ?_, rfl, rfl⟩
    rw [call, Tree.value] at h
    exact (Tree.live?_eq_some.mp (Tree.find?_purge v.tree v.now key ▸ h)).1
  | pin k ttl =>
    rw [call, Tree.pinTtl] at h
    simp only [Dict.find?_modify] at h
    split at h
    · next hk =>
      obtain ⟨e', he', rfl⟩ := Option.map_eq_some_iff.mp h
      exact .inl ⟨e', hk ▸ he', rfl, rfl⟩
    · exact .inl ⟨e, h, rfl, rfl⟩
  | fail f => exact .inl ⟨e, h, rfl, rfl⟩
  | elapse d => exact .inl ⟨e, h, rfl, rfl⟩

/-- What is live after a call was live before, or the call wrote it, or its seconds were pinned. -/
theorem live?_call {e : Entry} (h : (v.call c).1.live? key = some e) :
    v.live? key = some e ∨ v.Writes c key ∨ ∃ ttl, c = .pin key ttl := by
  cases c with
  | ask r =>
    rcases Tree.live?_run_or_wrote h with he | hw
    · exact .inl he
    · obtain ⟨response, hok⟩ := hw.carried
      exact .inr (.inl ⟨r, response, rfl, hok, hw.target⟩)
  | look k =>
    rw [call, Tree.value, live?, Tree.live?_purge] at h
    exact .inl h
  | pin k ttl =>
    by_cases hk : key = k
    · exact .inr (.inr ⟨ttl, by rw [hk]⟩)
    · rw [call, Tree.pinTtl, live?, Tree.live?, Dict.find?_modify, if_neg hk] at h
      exact .inl h
  | fail f => exact .inl h
  | elapse d => exact .inl (Tree.live?_of_later (Nat.le_add_right v.now d) h)

/-- What is not live is not live after a call that does not write it, unless its seconds are pinned
when it is overdue. -/
theorem live?_call_eq_none (h : v.live? key = none) (hp : ∀ ttl, c = .pin key ttl → ¬v.Overdue key)
    (hw : ¬v.Writes c key) : (v.call c).1.live? key = none := by
  refine Option.eq_none_iff_forall_ne_some.mpr fun e he => ?_
  rcases live?_call he with hl | hl | ⟨ttl, rfl⟩
  · rw [h] at hl
    cases hl
  · exact hw hl
  · have hn : v.tree.entries.find? key = none := (live?_of_not_overdue (hp ttl rfl)).symm.trans h
    rw [call, Tree.pinTtl, live?, Tree.live?, Dict.find?_modify, if_pos rfl, hn] at he
    cases he

/-- A call leaves a key with an entry that is live, unless it is a deletion that takes it away. -/
theorem find?_call_of_live {e : Entry} (h : v.live? key = some e) :
    (∃ e', (v.call c).1.tree.entries.find? key = some e') ∨
      ∃ r response, c = .ask r ∧ v.answer r = .ok response ∧ r.Removes key := by
  obtain ⟨hf, -⟩ := Tree.live?_eq_some.mp h
  cases c with
  | ask r =>
    refine (Tree.find?_run_of_live h).imp_right ?_
    rintro ⟨⟨response, hok⟩, hr⟩
    exact ⟨r, response, rfl, hok, hr⟩
  | look k => exact .inl ⟨e, (Tree.find?_purge v.tree v.now key).trans h⟩
  | pin k ttl =>
    left
    rw [call, Tree.pinTtl]
    simp only [Dict.find?_modify]
    split
    · next hk => exact ⟨_, by rw [← hk, hf]; rfl⟩
    · exact ⟨e, hf⟩
  | fail f => exact .inl ⟨e, hf⟩
  | elapse d => exact .inl ⟨e, hf⟩

/-- A request that is answered by a response is at a lower index than all that follows, unless it
only reads. -/
theorem index_lt_run {r : Request} {response : Response} (h : v.answer r = .ok response)
    (hr : r.isRead = false) (calls : List Call) :
    v.tree.index < (v.run (.ask r :: calls)).tree.index := by
  have hone : (v.call (.ask r)).1.tree.index = v.tree.index + 1 := by
    have hi := Tree.index_run_of_ok h
    rw [hr] at hi
    exact hi
  calc v.tree.index
      < (v.call (.ask r)).1.tree.index := by omega
    _ ≤ (v.run (.ask r :: calls)).tree.index := index_le_run _ calls

namespace Succession

variable {calls before mid : List Call} {r r' : Request} {response response' : Response}

/-- Of two requests that do not only read the later one is carried out at a higher index. -/
theorem index_lt (h : v.Succession calls before r response mid r' response')
    (hr : r.isRead = false) :
    (v.run before).tree.index < (v.run (before ++ .ask r :: mid)).tree.index := by
  rw [run_append]
  exact index_lt_run h.first hr mid

/-- The later one is carried out at a lower index than the last. -/
theorem index_lt_last (h : v.Succession calls before r response mid r' response')
    (hr : r'.isRead = false) :
    (v.run (before ++ .ask r :: mid)).tree.index < (v.run calls).tree.index := by
  obtain ⟨after, rfl⟩ := h.split
  have hlt := index_lt_run h.second hr after
  rwa [← run_append, List.append_assoc, List.cons_append] at hlt

end Succession

end Vault

end Rollcall.Store
