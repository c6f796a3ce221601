import Rollcall.Proofs.Store.Vault

/-!
# Writes that count up

Every write and every deletion has an index of its own, higher than all before it, and what fails
leaves no trace. So an index names one state of a key: of the requests that are to change the key
only in that state one succeeds at most. And a key that was created has to go before it can be
created again.
-/

namespace Rollcall.Store.Vault

variable {v : Vault} {c : Call} {key : String}

/-- A vault in which no entry was written before it was created or bears an index to come. -/
def Dated (v : Vault) : Prop :=
  ∀ key e, v.tree.entries.find? key = some e →
    e.createdIndex ≤ e.modifiedIndex ∧ e.modifiedIndex ≤ v.tree.index

theorem dated_opened (now : Nat) : (opened now).Dated := by
  intro key e h
  cases h

theorem Dated.call (h : v.Dated) (c : Call) : (v.call c).1.Dated := by
  intro key e he
  rcases find?_call he with ⟨e', he', hm, hc⟩ | ⟨r, rfl, hw⟩
  · obtain ⟨hcm, hmi⟩ := h key e' he'
    exact ⟨hc ▸ hm ▸ hcm, hm ▸ Nat.le_trans hmi (v.index_le_call c)⟩
  · have hi : (v.call (.ask r)).1.tree.index = v.tree.index + 1 := hw.index_run
    rw [hw.modified, hi]
    refine ⟨?_, Nat.le_refl _⟩
    rcases hw.created with hc | ⟨e', he', hc⟩
    · exact Nat.le_of_eq hc
    · obtain ⟨hcm, hmi⟩ := h key e' he'
      omega

theorem Dated.run (h : v.Dated) (calls : List Call) : (v.run calls).Dated :=
  run_induction (fun _ c _ hv => hv.call c) h

/-- A vault in which a key has left behind the state that bears an index. -/
structure Past (v : Vault) (key : String) (i : Nat) : Prop where
  le : i ≤ v.tree.index
  lt : ∀ e, v.tree.entries.find? key = some e → i < e.modifiedIndex

theorem Past.call {i : Nat} (h : v.Past key i) (c : Call) : (v.call c).1.Past key i where
  le := Nat.le_trans h.le (v.index_le_call c)
  lt e he := by
    rcases find?_call he with ⟨e', he', hm, -⟩ | ⟨r, rfl, hw⟩
    · exact hm ▸ h.lt e' he'
    · rw [hw.modified]
      exact Nat.lt_succ_of_le h.le

theorem Past.run {i : Nat} (h : v.Past key i) (calls : List Call) : (v.run calls).Past key i :=
  run_induction (fun w c _ (hw : w.Past key i) => hw.call c) h

/-- A request that expects an index leaves the state that bears it behind. -/
theorem Dated.past (h : v.Dated) {r : Request} {response : Response} {i : Nat}
    (hok : v.answer r = .ok response) (hr : r.Expects key i) (hi : 1 ≤ i) :
    (v.call (.ask r)).1.Past key i := by
  obtain ⟨e, he, rfl⟩ := Tree.exists_of_expects hok hr hi
  have hle := (h key e he).2
  -- A deletion leaves no entry, and a write one that bears the new index.
  refine ⟨Nat.le_trans hle (v.index_le_call (.ask r)), fun e' he' => ?_⟩
  rw [Tree.modifiedIndex_of_expects hok hr he']
  exact Nat.lt_succ_of_le hle

/-- A request that expects an index fails once the state that bears it is left behind. -/
theorem Past.not_expects {r : Request} {response : Response} {i : Nat} (h : v.Past key i)
    (hok : v.answer r = .ok response) (hi : 1 ≤ i) : ¬r.Expects key i := by
  intro hr
  obtain ⟨e, he, hm⟩ := Tree.exists_of_expects hok hr hi
  have := h.lt e he
  omega

/-- A key with an entry that is not live after some calls was overdue at one moment, or was taken
away by a deletion. -/
theorem overdue_or_removed {calls : List Call} (h : ∃ e, v.tree.entries.find? key = some e)
    (hn : (v.run calls).live? key = none) :
    (∃ calls₁ calls₂, calls = calls₁ ++ calls₂ ∧ (v.run calls₁).Overdue key) ∨
      ∃ calls₁ r response calls₂, calls = calls₁ ++ .ask r :: calls₂ ∧ r.Removes key ∧
        (v.run calls₁).answer r = .ok response := by
  induction calls generalizing v with
  | nil =>
    refine .inl ⟨[], [], rfl, Classical.not_not.mp fun ho => ?_⟩
    obtain ⟨e, he⟩ := h
    have hl : v.live? key = some e := (live?_of_not_overdue ho).trans he
    rw [show v.live? key = none from hn] at hl
    cases hl
  | cons c calls ih =>
    by_cases ho : v.Overdue key
    · exact .inl ⟨[], c :: calls, rfl, ho⟩
    obtain ⟨e, he⟩ := h
    rcases find?_call_of_live (c := c) ((live?_of_not_overdue ho).trans he) with
      hstill | ⟨r, response, rfl, hok, hr⟩
    · rcases ih hstill hn with ⟨calls₁, calls₂, rfl, ho⟩ | ⟨calls₁, r, response, calls₂, rfl, hr⟩
      · exact .inl ⟨c :: calls₁, calls₂, rfl, ho⟩
      · exact .inr ⟨c :: calls₁, r, response, calls₂, rfl, hr⟩
    · exact .inr ⟨[], r, response, calls, rfl, hr, hok⟩

/-- Requests that fail change nothing that is live and use up no index; the others use up one each,
unless they only read, so no two of them bear the same. No entry bears an index to come. Of two
requests on one key that expect the same index one fails, and between two that create one key it was
overdue or taken away. -/
theorem run_counts_up (now : Nat) (calls : List Call) :
    let v := (opened now).run calls
    (∀ r f, v.answer r = .error f →
        (v.call (.ask r)).1.tree.index = v.tree.index ∧
        (∀ key, (v.call (.ask r)).1.live? key = v.live? key) ∧
        ((v.call (.ask r)).1.tree.failures = v.tree.failures ∨
          v.tree.failures = f :: (v.call (.ask r)).1.tree.failures)) ∧
      (∀ r response, v.answer r = .ok response →
        (v.call (.ask r)).1.tree.index = v.tree.index + if r.isRead then 0 else 1) ∧
      (∀ key e, v.tree.entries.find? key = some e →
        e.createdIndex ≤ e.modifiedIndex ∧ e.modifiedIndex ≤ v.tree.index) ∧
      ∀ before r response mid r' response',
        (opened now).Succession calls before r response mid r' response' →
        (r.isRead = false → r'.isRead = false → ∃ n n', response.node = some n ∧
          response'.node = some n' ∧ n.modifiedIndex < n'.modifiedIndex) ∧
        (∀ key i, 1 ≤ i → r.Expects key i → ¬r'.Expects key i) ∧
        ∀ key, r.Creates key → r'.Creates key →
          (∃ mid₁ mid₂, mid = mid₁ ++ mid₂ ∧
            ((opened now).run (before ++ .ask r :: mid₁)).Overdue key) ∨
          ∃ mid₁ d response'' mid₂, mid = mid₁ ++ .ask d :: mid₂ ∧ d.Removes key ∧
            ((opened now).run (before ++ .ask r :: mid₁)).answer d = .ok response'' := by
  refine ⟨fun r f h => ?_, fun r response h => Tree.index_run_of_ok h,
    (dated_opened now).run calls, fun before r response mid r' response' h => ⟨?_, ?_, ?_⟩⟩
  · have hf := Tree.run_of_error h
    exact ⟨hf.1, Tree.live?_run_of_error h, hf.2⟩
  · intro hr hr'
    obtain ⟨n, hn, hi⟩ := Tree.modifiedIndex_of_run h.first hr
    obtain ⟨n', hn', hi'⟩ := Tree.modifiedIndex_of_run h.second hr'
    have := h.index_lt hr
    exact ⟨n, n', hn, hn', by omega⟩
  · intro key i hi hr
    have hp := ((dated_opened now).run before).past h.first hr hi
    have hs := h.second
    rw [run_append, run_cons] at hs
    exact (hp.run mid).not_expects hs hi
  · intro key hr hr'
    have hs := h.second
    simp only [run_append, run_cons] at hs ⊢
    exact overdue_or_removed (Tree.entry_of_creates h.first hr).2 (Tree.entry_of_creates hs hr').1

/-- A leaf that is to be created, and that runs out after a second. -/
def creation : Request := .put "/k" (some "v") { ttl := some 1, prevExist := some false }

/-- A leaf that is to be changed while it bears the index 2. -/
def revision : Request := .put "/k" (some "w") { prevIndex := some 2 }

/-- A leaf that is to be deleted while it bears the index 2. -/
def removal : Request := .delete "/k" { prevIndex := some 2 }

/-- A leaf is created, runs out, is created again and changed. -/
def createdTwice : List Call :=
  [.ask creation, .elapse (Duration.ofSeconds 2), .ask creation, .ask revision]

theorem counts_up_of_createdTwice :
    let v := (opened 0).run createdTwice
    v.tree.index = 3 ∧ (∀ response, v.answer removal ≠ .ok response) ∧
      (∀ key, (v.call (.ask removal)).1.live? key = v.live? key) ∧
      ((∃ mid₁ mid₂, [.elapse (Duration.ofSeconds 2)] = mid₁ ++ mid₂ ∧
          ((opened 0).run (.ask creation :: mid₁)).Overdue "/k") ∨
        ∃ mid₁ d response mid₂,
          [.elapse (Duration.ofSeconds 2)] = mid₁ ++ .ask d :: mid₂ ∧ d.Removes "/k" ∧
          ((opened 0).run (.ask creation :: mid₁)).answer d = .ok response) := by
  refine ⟨rfl, fun response hok => ?_, ?_, ?_⟩
  · have hs := (run_counts_up 0 (createdTwice ++ [.ask removal])).2.2.2 (createdTwice.take 3)
      revision _ [] removal response ⟨⟨[], rfl⟩, rfl, hok⟩
    exact hs.2.1 "/k" 2 (by decide) ⟨rfl, rfl⟩ ⟨rfl, rfl⟩
  · exact ((run_counts_up 0 createdTwice).1 removal _ rfl).2.1
  · have hs := (run_counts_up 0 createdTwice).2.2.2 [] creation _
      [.elapse (Duration.ofSeconds 2)] creation _ ⟨⟨[.ask revision], rfl⟩, rfl, rfl⟩
    exact hs.2.2 "/k" ⟨rfl, rfl⟩ ⟨rfl, rfl⟩

end Rollcall.Store.Vault
