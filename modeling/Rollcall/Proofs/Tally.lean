import Rollcall.Proofs.Dict
import Rollcall.Step

/-!
# What a tally counts

The tally of a registry is known by what the store answered: it counts the answers that did not come
since the last one that came, and the refusals by code since the last success. A refusal that an
operation is prepared for is a success, and an answer that cannot be read is no answer and no
failure to count. Whatever the store answers, every answer is counted once.
-/

namespace Rollcall

open Store (Request Response Refusal Failure Answer)

namespace Registry

/-! ## The answers of a store -/

/-- Whether a request is made in the knowledge that it may be refused with a code: what is read or
removed may be missing, and what is claimed may be there. -/
def allowsFor : Request → (code : Nat) → Bool
  | .get .., code => code = Refusal.keyNotFoundCode
  | .delete .., code => code = Refusal.keyNotFoundCode
  | .put _ _ o, code => o.prevExist = some false && code = Refusal.existsCode
  | .post .., _ => false

/-- What an answer is for those who count. -/
inductive Verdict
  | success
  | refused (code : Nat)
  /-- No answer came. -/
  | lost
  deriving DecidableEq

/-- What the answer to a request is for those who count; one that cannot be read is nothing. -/
def verdict? (r : Request) : Answer → Option Verdict
  | .ok _ => some .success
  | .error (.refused refusal) =>
    some (if allowsFor r refusal.code then .success else .refused refusal.code)
  | .error (.transport _) => some .lost
  | .error (.payload _) => none

/-- The verdicts on requests that were answered one after another. -/
def verdicts (log : List (Request × Answer)) : List Verdict :=
  log.filterMap fun x => verdict? x.1 x.2

/-- Whether a verdict is a refusal with a code that passes a test. -/
def Verdict.isRefusal (p : Nat → Bool) : Verdict → Bool
  | .refused code => p code
  | _ => false

/-- How many answers did not come since the last one that came. -/
def lostSince (vs : List Verdict) : Nat := (vs.reverse.takeWhile (· = .lost)).length

/-- How many refusals with a code that passes a test came since the last success. -/
def refusedSince (p : Nat → Bool) (vs : List Verdict) : Nat :=
  (vs.reverse.takeWhile (· ≠ .success)).countP (Verdict.isRefusal p)

variable {vs : List Verdict} {p : Nat → Bool}

theorem lostSince_concat (vs : List Verdict) (v : Verdict) :
    lostSince (vs ++ [v]) = if v = .lost then lostSince vs + 1 else 0 := by
  rw [lostSince, List.reverse_concat, List.takeWhile_cons]
  by_cases hv : v = .lost <;> simp [hv, lostSince]

theorem refusedSince_concat (p : Nat → Bool) (vs : List Verdict) (v : Verdict) :
    refusedSince p (vs ++ [v]) =
      if v = .success then 0 else refusedSince p vs + if v.isRefusal p then 1 else 0 := by
  rw [refusedSince, List.reverse_concat, List.takeWhile_cons]
  by_cases hv : v = .success
  · simp [hv]
  · simp [hv, refusedSince, List.countP_cons]

theorem lostSince_le (vs : List Verdict) : lostSince vs ≤ vs.length := by
  have := (List.takeWhile_prefix (l := vs.reverse) (p := (· = Verdict.lost))).length_le
  rwa [List.length_reverse] at this

theorem refusedSince_le (p : Nat → Bool) (vs : List Verdict) : refusedSince p vs ≤ vs.length := by
  have := (List.takeWhile_prefix (l := vs.reverse) (p := (· ≠ Verdict.success))).length_le
  rw [List.length_reverse] at this
  exact Nat.le_trans List.countP_le_length this

/-! ## Counting -/

namespace Tally

theorem ofCode_refuse (t : Tally) (code c : Nat) :
    (t.refuse code).ofCode c = t.ofCode c + if c = code then 1 else 0 := by
  rw [ofCode, refuse, Dict.find?_insert]
  split
  · next h => rw [h]; rfl
  · rfl

private theorem foldl_add (p : Nat → Bool) (l : List (Nat × Nat)) (n : Nat) :
    l.foldl (fun n e => if p e.1 then n + e.2 else n) n =
      n + l.foldl (fun n e => if p e.1 then n + e.2 else n) 0 := by
  induction l generalizing n with
  | nil => rfl
  | cons e l ih =>
    rw [List.foldl_cons, List.foldl_cons, ih, ih (if p e.1 then 0 + e.2 else 0)]
    split <;> omega

/-- To count one more under a key adds it to the sum over the keys that pass a test. -/
private theorem foldl_insertEntry (p : Nat → Bool) (k : Nat) {l : List (Nat × Nat)}
    (h : l.Pairwise fun a b => compare a.1 b.1 = .lt) :
    (Dict.insertEntry k (((l.find? fun e => compare k e.1 == .eq).map Prod.snd).getD 0 + 1) l).foldl
        (fun n e => if p e.1 then n + e.2 else n) 0 =
      l.foldl (fun n e => if p e.1 then n + e.2 else n) 0 + if p k then 1 else 0 := by
  induction l with
  | nil => simp [Dict.insertEntry]
  | cons e l ih =>
    obtain ⟨k', v⟩ := e
    obtain ⟨hlt, hl⟩ := List.pairwise_cons.mp h
    rw [Dict.insertEntry]
    split
    · next hk =>
      have hnone : ((k', v) :: l).find? (fun x => compare k x.1 == .eq) = none := by
        refine List.find?_eq_none.mpr fun x hx => ?_
        rcases List.mem_cons.mp hx with rfl | hx
        · simp [hk]
        · simp [Std.TransCmp.lt_trans hk (hlt x hx)]
      rw [hnone, List.foldl_cons, foldl_add p ((k', v) :: l)]
      simp only [Option.map_none, Option.getD_none]
      split <;> omega
    · next hk =>
      obtain rfl : k = k' := Std.LawfulEqOrd.eq_of_compare hk
      rw [List.find?_cons_of_pos (by simp)]
      simp only [List.foldl_cons, Option.map_some, Option.getD_some]
      rw [foldl_add p l, foldl_add p l (if p k then 0 + v else 0)]
      split <;> omega
    · next hk =>
      rw [List.find?_cons_of_neg (by simp [hk])]
      simp only [List.foldl_cons]
      rw [foldl_add p, ih hl, foldl_add p l (if p k' then 0 + v else 0)]
      omega

theorem total_refuse (t : Tally) (code : Nat) (p : Nat → Bool) :
    (t.refuse code).total p = t.total p + if p code then 1 else 0 :=
  foldl_insertEntry p code t.refusals.sorted

/-- Whether a tally counts what stands in a list of verdicts. -/
structure Counts (t : Tally) (vs : List Verdict) : Prop where
  transport : t.transport = lostSince vs
  ofCode : ∀ code, t.ofCode code = refusedSince (· = code) vs
  total : ∀ p, t.total p = refusedSince p vs

theorem counts_nil : Counts {} [] := ⟨rfl, fun _ => rfl, fun _ => rfl⟩

variable {t : Tally}

theorem counts_succeed (t : Tally) (vs : List Verdict) :
    t.succeed.Counts (vs ++ [.success]) where
  transport := (lostSince_concat vs .success).symm
  ofCode _ := (refusedSince_concat _ vs .success).symm
  total p := (refusedSince_concat p vs .success).symm

theorem Counts.refuse (h : t.Counts vs) (code : Nat) :
    (t.refuse code).Counts (vs ++ [.refused code]) where
  transport := (lostSince_concat vs (.refused code)).symm
  ofCode c := by
    rw [ofCode_refuse, h.ofCode, refusedSince_concat,
      if_neg (nofun : Verdict.refused code ≠ .success)]
    simp only [Verdict.isRefusal, decide_eq_true_eq, eq_comm (a := code)]
  total p := by
    rw [total_refuse, h.total, refusedSince_concat,
      if_neg (nofun : Verdict.refused code ≠ .success)]
    rfl

theorem Counts.lose (h : t.Counts vs) (text : String) :
    (t.fail (.transport text)).Counts (vs ++ [.lost]) where
  transport := by
    rw [lostSince_concat, if_pos rfl, ← h.transport]
    rfl
  ofCode code := by
    rw [refusedSince_concat, if_neg (nofun : Verdict.lost ≠ .success)]
    exact h.ofCode code
  total p := by
    rw [refusedSince_concat, if_neg (nofun : Verdict.lost ≠ .success)]
    exact h.total p

end Tally

/-- Whether an operation is prepared for just the refusals that its request allows for. -/
def Operation.Prepared {α : Type} (op : Operation α) : Prop :=
  ∀ refusal, op.expects refusal = allowsFor op.request refusal.code

/-- An answer is counted once. -/
theorem Tally.Counts.accept {α : Type} {op : Operation α} {t : Tally}
    {log : List (Request × Answer)} (hop : op.Prepared) (h : t.Counts (verdicts log))
    (a : Answer) : (op.accept t a).1.Counts (verdicts (log ++ [(op.request, a)])) := by
  have hlog : verdicts (log ++ [(op.request, a)]) =
      verdicts log ++ (verdict? op.request a).toList := by
    rw [verdicts, List.filterMap_append]
    cases hv : verdict? op.request a <;> simp [verdicts, hv]
  rw [hlog]
  match a with
  | .ok response => exact counts_succeed t _
  | .error (.refused refusal) =>
    rw [Operation.accept, verdict?, hop refusal]
    split
    · exact counts_succeed t _
    · exact h.refuse refusal.code
  | .error (.transport text) => exact h.lose text
  | .error (.payload e) =>
    rw [verdict?, Option.toList_none, List.append_nil]
    exact h

/-! ## Errands -/

/-- What a registry is sent to the store for. -/
inductive Errand
  | announce (data : Payload) (ttl : Nat)
  | announces
  | renew (key : String) (data : Payload) (ttl : Nat)
  | withdraw (key : String)
  | publish (instanceId : String) (p : Properties)
  | propertiesOf (instanceId : String)
  | allProperties
  | clusterId
  | claim (candidate : String)

variable {σ α : Type} (ask : σ → Request → σ × Answer) (l : Layout)

/-- Carry out an operation with a store of any kind: the store and the tally after it, and the
result. -/
def Operation.carry (op : Operation α) (x : σ × Tally) : (σ × Tally) × Except Failure α :=
  let (s, a) := ask x.1 op.request
  let (t, r) := op.accept x.2 a
  ((s, t), r)

/-- The store and the tally after an errand. A claim that is refused because there is an id looks
this one up. -/
def Errand.run (x : σ × Tally) : Errand → σ × Tally
  | .announce data ttl => ((Registry.announce l data ttl).carry ask x).1
  | .announces => ((Registry.announces l).carry ask x).1
  | .renew key data ttl => ((Registry.renew key data ttl).carry ask x).1
  | .withdraw key => ((Registry.withdraw key).carry ask x).1
  | .publish id p => ((Registry.publish l id p).carry ask x).1
  | .propertiesOf id => ((Registry.propertiesOf l id).carry ask x).1
  | .allProperties => ((Registry.allProperties l).carry ask x).1
  | .clusterId => ((Registry.clusterId l).carry ask x).1
  | .claim candidate =>
    let y := (Registry.claim l candidate).carry ask x
    match y.2 with
    | .ok (.taken _) => ((Registry.clusterId l).carry ask y.1).1
    | _ => y.1

/-- The store and the tally after errands one after another. -/
def runErrands (x : σ × Tally) (es : List Errand) : σ × Tally := es.foldl (Errand.run ask l) x

/-- A store that keeps a record of what it was asked and what it answered. -/
def recorded (s : σ × List (Request × Answer)) (r : Request) :
    (σ × List (Request × Answer)) × Answer :=
  let (s', a) := ask s.1 r
  ((s', s.2 ++ [(r, a)]), a)

/-- The request that an errand begins with. -/
def Errand.request : Errand → Request
  | .announce data ttl => (Registry.announce l data ttl).request
  | .announces => (Registry.announces l).request
  | .renew key data ttl => (Registry.renew key data ttl).request
  | .withdraw key => (Registry.withdraw key).request
  | .publish id p => (Registry.publish l id p).request
  | .propertiesOf id => (Registry.propertiesOf l id).request
  | .allProperties => (Registry.allProperties l).request
  | .clusterId => (Registry.clusterId l).request
  | .claim candidate => (Registry.claim l candidate).request

/-- Whether an errand may find nothing: one that reads or withdraws. -/
def Errand.mayMiss : Errand → Prop
  | .announces | .withdraw _ | .propertiesOf _ | .allProperties | .clusterId => True
  | _ => False

/-- Whether an errand may come too late: a claim. -/
def Errand.mayMeet : Errand → Prop
  | .claim _ => True
  | _ => False

/-- A missing key is a success for an errand that may find nothing, and a key that is there for a
claim; every other refusal is one. -/
theorem allowsFor_request (e : Errand) (code : Nat) :
    allowsFor (e.request l) code = true ↔
      e.mayMiss ∧ code = Refusal.keyNotFoundCode ∨ e.mayMeet ∧ code = Refusal.existsCode := by
  cases e <;> simp [Errand.request, allowsFor, Errand.mayMiss, Errand.mayMeet, announce, announces,
    renew, withdraw, publish, propertiesOf, allProperties, clusterId, claim]

variable {ask l} {x : (σ × List (Request × Answer)) × Tally}

/-- Whether a tally counts what its store has recorded. -/
def Keeps (x : (σ × List (Request × Answer)) × Tally) : Prop := x.2.Counts (verdicts x.1.2)

theorem keeps_carry {op : Operation α} (hop : op.Prepared) (h : Keeps x) :
    Keeps (op.carry (recorded ask) x).1 := h.accept hop _

theorem keeps_run (h : Keeps x) (e : Errand) : Keeps (e.run (recorded ask) l x) := by
  have hid : (clusterId l).Prepared := fun _ => rfl
  cases e with
  | claim candidate =>
    have hclaim : (claim l candidate).Prepared := fun _ => rfl
    have hc : Keeps ((claim l candidate).carry (recorded ask) x).1 := keeps_carry hclaim h
    simp only [Errand.run]
    split
    -- The id that is there is looked up, which is an exchange of its own.
    · exact keeps_carry hid hc
    · exact hc
  | clusterId => exact keeps_carry hid h
  | _ => exact keeps_carry (fun _ => rfl) h

theorem keeps_runErrands (h : Keeps x) (es : List Errand) :
    Keeps (runErrands (recorded ask) l x es) := by
  induction es generalizing x with
  | nil => exact h
  | cons e es ih => exact ih (keeps_run h e)

/-- A member rests after an answer that did not come for as long as its tally says. -/
theorem recover_transport (m : Member) (text : String) :
    Step.recover m (.store (.transport text)) =
      Step.rest (m.transportBackOff.value m.tally.transport) (some .reset) := rfl

theorem recover_consensus (m : Member) {refusal : Refusal} (h : refusal.isConsensus = true) :
    Step.recover m (.store (.refused refusal)) =
      Step.rest (m.refusalBackOff.value (m.tally.total Refusal.isConsensusCode))
        (some .reset) := by
  have hm : refusal.isMalformedRequest = false := by
    simp only [Refusal.isConsensus, Refusal.isConsensusCode, Bool.and_eq_true,
      decide_eq_true_eq] at h
    simp only [Refusal.isMalformedRequest, Bool.and_eq_false_iff, decide_eq_false_iff_not]
    omega
  simp only [Step.recover, Step.errorPause, hm, h, Tally.consensus]
  rfl

/-- Whatever the store answers, after any errands the tally counts every answer once: the answers
that did not come since the last one that came, and the refusals with any one code and over any
codes since the last success. An answer that cannot be read counts for nothing, and a refusal for a
success if it says that something is missing that was to be read or withdrawn, or there that was to
be claimed. Below 2^32 answers the counts are words, and a member that recovers from an answer that
did not come or from a store that cannot agree within itself rests for the pause of just this
count. -/
theorem runErrands_counts (ask : σ → Request → σ × Answer) (l : Layout) (s : σ)
    (es : List Errand) :
    let x := runErrands (recorded ask) l ((s, []), {}) es
    let log := x.1.2
    let vs := verdicts log
    (x.2.transport = lostSince vs ∧ (∀ code, x.2.ofCode code = refusedSince (· = code) vs) ∧
        ∀ p, x.2.total p = refusedSince p vs) ∧
      (∀ (e : Errand) code, allowsFor (e.request l) code = true ↔
        e.mayMiss ∧ code = Refusal.keyNotFoundCode ∨ e.mayMeet ∧ code = Refusal.existsCode) ∧
      (log.length < Text.Decimal.word32 →
        x.2.transport < Text.Decimal.word32 ∧ (∀ code, x.2.ofCode code < Text.Decimal.word32) ∧
          ∀ p, x.2.total p < Text.Decimal.word32) ∧
      ∀ m : Member, m.tally = x.2 →
        (∀ text, Step.recover m (.store (.transport text)) =
          Step.rest (m.transportBackOff.value (lostSince vs)) (some .reset)) ∧
        ∀ refusal : Refusal, refusal.isConsensus = true →
          Step.recover m (.store (.refused refusal)) =
            Step.rest (m.refusalBackOff.value (refusedSince Refusal.isConsensusCode vs))
              (some .reset) := by
  intro x log vs
  have hk : x.2.Counts vs := keeps_runErrands (x := ((s, []), {})) Tally.counts_nil es
  have hle : vs.length ≤ log.length := List.length_filterMap_le ..
  refine ⟨⟨hk.transport, hk.ofCode, hk.total⟩, allowsFor_request l, fun hlog => ?_,
    fun m hm => ⟨fun text => ?_, fun refusal hr => ?_⟩⟩
  · have hword : vs.length < Text.Decimal.word32 := Nat.lt_of_le_of_lt hle hlog
    refine ⟨?_, fun code => ?_, fun p => ?_⟩
    · rw [hk.transport]
      exact Nat.lt_of_le_of_lt (lostSince_le vs) hword
    · rw [hk.ofCode]
      exact Nat.lt_of_le_of_lt (refusedSince_le _ vs) hword
    · rw [hk.total]
      exact Nat.lt_of_le_of_lt (refusedSince_le p vs) hword
  · rw [recover_transport, hm, hk.transport]
  · rw [recover_consensus m hr, hm, hk.total]

/-- A store that deals its answers out, and has none when they are used up. -/
def dealt (answers : List Answer) (_ : Request) : List Answer × Answer :=
  (answers.tail, answers.headD (.error (.transport "none left")))

/-- Answers to a claim of an id that is there, to the look at this id, and to what follows. -/
def troubles : List Answer :=
  [.error (.refused { code := 105 }), .error (.transport "lost"), .error (.refused { code := 300 }),
    .error (.payload .invalidAnnounce), .error (.refused { code := 301 }),
    .error (.refused { code := 105 }), .error (.transport "lost"), .error (.transport "lost")]

/-- The errands that have these answers: the first one takes two. -/
def troubled : List Errand :=
  let data : Payload := ⟨"a", "http://a", "c", 0⟩
  [.claim "c", .renew "/d/announces/1" data 9, .announces, .renew "/d/announces/1" data 9,
    .withdraw "/d/announces/1", .publish "a" ∅, .propertiesOf "a"]

theorem counts_of_troubled :
    let x := runErrands (recorded dealt) ⟨"/d"⟩ ((troubles, []), {}) troubled
    x.1.2.length = 8 ∧ x.2.transport = 2 ∧ x.2.ofCode 105 = 1 ∧
      x.2.total Refusal.isConsensusCode = 2 ∧ x.2.transport < Text.Decimal.word32 ∧
      ∀ m : Member, m.tally = x.2 →
        Step.recover m (.store (.transport "lost")) =
            Step.rest (m.transportBackOff.value 2) (some .reset) ∧
          Step.recover m (.store (.refused { code := 300 })) =
            Step.rest (m.refusalBackOff.value 2) (some .reset) := by
  intro x
  obtain ⟨⟨ht, hc, hp⟩, -, hw, hm⟩ := runErrands_counts dealt ⟨"/d"⟩ troubles troubled
  have hv : verdicts x.1.2 = [.success, .lost, .refused 300, .refused 301, .refused 105, .lost,
    .lost] := by decide +kernel
  have hlost : lostSince (verdicts x.1.2) = 2 := by rw [hv]; decide
  have hraft : refusedSince Refusal.isConsensusCode (verdicts x.1.2) = 2 := by rw [hv]; decide
  have hlen : x.1.2.length = 8 := by decide +kernel
  refine ⟨hlen, ht.trans hlost, (hc 105).trans (by rw [hv]; decide),
    (hp _).trans hraft, (hw (hlen ▸ by decide)).1, fun m hx => ⟨?_, ?_⟩⟩
  · rw [(hm m hx).1 "lost", hlost]
  · rw [(hm m hx).2 { code := 300 } (by decide), hraft]

end Registry

end Rollcall
