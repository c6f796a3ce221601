import Rollcall.Proofs.Terms

/-!
# How rounds fail

The rounds of the loops change the control of their member only by failing: a failed round raises
one event, which counts if the member runs and then ends the running, and the round is over.
-/

namespace Rollcall

open Store (Answer)

/-- The control after a round of a loop, by the event that the round raised. -/
def Control.afterRound {σ : Type} (c : Control σ) : Option Event → Control σ
  | some e => c.handleIf .running e
  | none => c

/-- No round disturbs a member that does not run. -/
theorem Control.afterRound_of_ne {σ : Type} {c : Control σ} (h : c.state ≠ .running)
    (e : Option Event) : c.afterRound e = c := by
  cases e with
  | none => rfl
  | some e => exact c.handleIf_of_ne e h

theorem Control.clusterId_afterRound {σ : Type} (c : Control σ) (e : Option Event) :
    (c.afterRound e).clusterId = c.clusterId := by
  cases e with
  | none => rfl
  | some e =>
    rw [afterRound, handleIf]
    split
    · rw [clusterId_handle]
    · rfl

namespace Renewal

/-- The event that a round raises by failing on an answer. -/
def failure (m : Member) (stage : Stage) (a : Answer) : Option Event :=
  match stage with
  | .sending p =>
    match (Registry.publish m.layout m.self.id p).outcome a with
    | .ok _ => if m.known.accepted.isNone then some (failureEvent .announceMissing) else none
    | .error f => some (failureEvent (.store f))
  | .renewing key data ttl =>
    match (Registry.renew key data ttl).outcome a with
    | .ok _ => none
    | .error f => some (failureEvent (.store f))

/-- No failure leaves a member running. -/
theorem next_failureEvent (e : MemberError) : State.running.next (failureEvent e) ≠ .running := by
  unfold failureEvent
  split
  · split <;> decide
  · decide
  · decide

private theorem failure_eq {m : Member} {stage : Stage} {a : Answer} {e : Event}
    (h : failure m stage a = some e) : ∃ x, e = failureEvent x := by
  cases stage with
  | sending p =>
    unfold failure at h
    simp only at h
    split at h
    · split at h
      · exact ⟨_, (Option.some.inj h).symm⟩
      · cases h
    · exact ⟨_, (Option.some.inj h).symm⟩
  | renewing key data ttl =>
    unfold failure at h
    simp only at h
    split at h
    · cases h
    · exact ⟨_, (Option.some.inj h).symm⟩

/-- What an answer does to the control: a round that fails on it is over, and its event counts while
the member runs. -/
theorem answered_failure (m : Member) (stage : Stage) (a : Answer) :
    (answered m stage a).1.control = m.control.afterRound (failure m stage a) ∧
      ((failure m stage a).isSome = true → ∃ d, (answered m stage a).2 = .over d) := by
  cases stage with
  | sending p =>
    simp only [failure, answered, Terms.accept_eq]
    cases (Registry.publish m.layout m.self.id p).outcome a with
    | error f => exact ⟨rfl, fun _ => ⟨_, rfl⟩⟩
    | ok index =>
      simp only [renew]
      cases m.known.accepted with
      | none => exact ⟨rfl, fun _ => ⟨_, rfl⟩⟩
      | some b => exact ⟨rfl, by simp⟩
  | renewing key data ttl =>
    simp only [failure, answered, Terms.accept_eq]
    cases (Registry.renew key data ttl).outcome a with
    | error f => exact ⟨rfl, fun _ => ⟨_, rfl⟩⟩
    | ok b => exact ⟨rfl, by simp⟩

/-- A round that begins leaves the control alone if a member that runs holds its announce. -/
theorem control_begin {m : Member} (h : m.isRunning = true → m.known.accepted.isSome = true) :
    (begin m).1.control = m.control := by
  unfold begin
  split
  · rfl
  · next hr =>
    split
    · obtain ⟨a, ha⟩ := Option.isSome_iff_exists.mp (h (by simpa using hr))
      simp only [renew, ha]
    · rfl

/-- Only a member that runs begins to ask. -/
theorem isRunning_of_begin {m : Member} {stage : Stage} (h : (begin m).2 = .wait stage) :
    m.isRunning = true := by
  unfold begin at h
  split at h
  · cases h
  · next hr => simpa using hr

end Renewal

namespace Survey

/-- The event that a round raises by failing on an answer. -/
def failure (m : Member) (stage : Stage) (a : Answer) : Option Event :=
  match (answered m stage a).2 with
  | .over (.error _) => some .reset
  | _ => none

private theorem control_compare (m : Member) (nodes : List Store.Node) :
    (compare m nodes).1.control = m.control := by
  unfold compare
  split
  · rfl
  · simp only
    split
    · rfl
    · split <;> rfl

private theorem control_answered (m : Member) (stage : Stage) (a : Answer) :
    (answered m stage a).1.control = m.control := by
  cases stage with
  | listing =>
    simp only [answered, Terms.accept_eq]
    split
    · exact control_compare _ _
    · rfl
  | fetching remote ids =>
    obtain ⟨t, ht⟩ := Terms.fetched_eq m ids a
    simp only [answered]
    split
    · rw [ht]
      rfl
    · rw [ht]
      rfl

/-- What an answer does to the control: a round that fails on it is over, and its event counts while
the member runs. -/
theorem roundAnswered_failure (m : Member) (stage : Stage) (a : Answer) :
    (roundAnswered m stage a).1.control = m.control.afterRound (failure m stage a) ∧
      ((failure m stage a).isSome = true → ∃ d, (roundAnswered m stage a).2 = .over d) := by
  have hc := control_answered m stage a
  unfold failure roundAnswered
  generalize answered m stage a = x at hc
  obtain ⟨m', stage' | r⟩ := x
  · exact ⟨hc, nofun⟩
  · rw [← hc]
    cases r with
    | error e => exact ⟨rfl, fun _ => ⟨_, rfl⟩⟩
    | ok b => cases b <;> exact ⟨rfl, nofun⟩

/-- A round that begins changes nothing but its own pauses. -/
theorem begin_eq (m : Member) : ∃ survey, (begin m).1 = { m with survey } := by
  unfold begin
  split
  · exact ⟨m.survey, rfl⟩
  · exact ⟨_, rfl⟩

theorem control_begin (m : Member) : (begin m).1.control = m.control := by
  obtain ⟨_, hb⟩ := begin_eq m
  rw [hb]

/-- Only a member that runs begins to ask. -/
theorem isRunning_of_begin {m : Member} {stage : Stage} (h : (begin m).2 = .wait stage) :
    m.isRunning = true := by
  unfold begin at h
  split at h
  · next hr => exact hr
  · cases h

end Survey

namespace Session

/-- Whether a round of a loop has asked the store and is not over. -/
def isAsking (s : Session) : Part → Bool
  | .renewal =>
    match s.renewal with
    | .asking _ => true
    | _ => false
  | .survey =>
    match s.survey with
    | .asking _ => true
    | _ => false
  | _ => false

/-- The event that the round of a loop raises by failing on an answer. -/
def failure (s : Session) (p : Part) (a : Answer) : Option Event :=
  match p with
  | .renewal =>
    match s.renewal with
    | .asking stage => Renewal.failure s.member stage a
    | _ => none
  | .survey =>
    match s.survey with
    | .asking stage => Survey.failure s.member stage a
    | _ => none
  | _ => none

variable {s : Session} {p : Part}

/-- Only a round that has asked the store fails on an answer, and no failure leaves a member
running. -/
theorem failure_spec {a : Answer} {e : Event} (h : s.failure p a = some e) :
    s.isAsking p = true ∧ State.running.next e ≠ .running := by
  cases p with
  | renewal =>
    unfold failure at h
    simp only at h
    split at h
    · next stage hs =>
      obtain ⟨x, rfl⟩ := Renewal.failure_eq h
      exact ⟨by simp [isAsking, hs], Renewal.next_failureEvent x⟩
    · cases h
  | survey =>
    unfold failure at h
    simp only at h
    split at h
    · next stage hs =>
      unfold Survey.failure at h
      split at h
      · cases h
        exact ⟨by simp [isAsking, hs], by decide⟩
      · cases h
    · cases h
  | display => cases h
  | runner g => cases h

private theorem control_afterRenewal (s : Session) (x : Member × Turn Renewal.Stage Duration) :
    (s.afterRenewal x).1.member.control = x.1.control := by
  obtain ⟨m, stage | d⟩ := x
  · rfl
  · rfl

private theorem control_afterSurvey (s : Session) (x : Member × Turn Survey.Stage Duration) :
    (s.afterSurvey x).1.member.control = x.1.control := by
  obtain ⟨m, stage | d⟩ := x
  · rfl
  · rfl

theorem isAsking_afterRenewal {x : Member × Turn Renewal.Stage Duration}
    (h : (s.afterRenewal x).1.isAsking p = true) :
    (p ≠ .renewal ∧ s.isAsking p = true) ∨ (p = .renewal ∧ ∃ stage, x.2 = .wait stage) := by
  obtain ⟨m, stage | d⟩ := x
  · cases p with
    | renewal => exact .inr ⟨rfl, stage, rfl⟩
    | _ => exact .inl ⟨nofun, h⟩
  · cases p with
    | renewal => cases h
    | _ => exact .inl ⟨nofun, h⟩

theorem isAsking_afterSurvey {x : Member × Turn Survey.Stage Duration}
    (h : (s.afterSurvey x).1.isAsking p = true) :
    (p ≠ .survey ∧ s.isAsking p = true) ∨ (p = .survey ∧ ∃ stage, x.2 = .wait stage) := by
  obtain ⟨m, stage | d⟩ := x
  · cases p with
    | survey => exact .inr ⟨rfl, stage, rfl⟩
    | _ => exact .inl ⟨nofun, h⟩
  · cases p with
    | survey => cases h
    | _ => exact .inl ⟨nofun, h⟩

/-- The loop of renewal goes on from the answer that it waits for. -/
theorem receive_renewal {stage : Renewal.Stage} (hs : s.renewal = .asking stage) (a : Answer) :
    s.receive .renewal a = s.afterRenewal (Renewal.answered s.member stage a) := by
  simp only [receive, hs]

/-- The loop of survey goes on from the answer that it waits for. -/
theorem receive_survey {stage : Survey.Stage} (hs : s.survey = .asking stage) (a : Answer) :
    s.receive .survey a = s.afterSurvey (Survey.roundAnswered s.member stage a) := by
  simp only [receive, hs]

/-- What an answer to a loop does to the control: a round that fails on it is over, and its event
counts while the member runs. -/
theorem receive_failure (s : Session) (hp : p ∈ loops) (a : Answer) :
    (s.receive p a).1.member.control = s.member.control.afterRound (s.failure p a) ∧
      ((s.failure p a).isSome = true → (s.receive p a).1.isAsking p = false) := by
  cases p with
  | display => exact ⟨rfl, nofun⟩
  | runner g => simp [loops] at hp
  | renewal =>
    cases hs : s.renewal with
    | asking stage =>
      obtain ⟨hc, hover⟩ := Renewal.answered_failure s.member stage a
      rw [receive_renewal hs]
      simp only [failure, hs, control_afterRenewal]
      refine ⟨hc, fun hf => Bool.eq_false_iff.mpr fun hask => ?_⟩
      obtain ⟨d, hd⟩ := hover hf
      rcases isAsking_afterRenewal hask with ⟨hne, _⟩ | ⟨_, stage', hw⟩
      · exact hne rfl
      · rw [hd] at hw
        cases hw
    | _ => simp [failure, receive, hs, Control.afterRound]
  | survey =>
    cases hs : s.survey with
    | asking stage =>
      obtain ⟨hc, hover⟩ := Survey.roundAnswered_failure s.member stage a
      rw [receive_survey hs]
      simp only [failure, hs, control_afterSurvey]
      refine ⟨hc, fun hf => Bool.eq_false_iff.mpr fun hask => ?_⟩
      obtain ⟨d, hd⟩ := hover hf
      rcases isAsking_afterSurvey hask with ⟨hne, _⟩ | ⟨_, stage', hw⟩
      · exact hne rfl
      · rw [hd] at hw
        cases hw
    | _ => simp [failure, receive, hs, Control.afterRound]

/-- Loops that go on without an answer leave the control alone, if a member that runs holds its
announce. -/
theorem control_proceed (hp : p ∈ loops)
    (h : s.member.isRunning = true → s.member.known.accepted.isSome = true) :
    (s.proceed p).1.member.control = s.member.control := by
  rcases s.proceed_cases p with he | he
  · rw [he]
  cases p with
  | runner g => simp [loops] at hp
  | display =>
    rcases he with he | he
    · rw [he]
    · obtain ⟨p, b, d, hd⟩ := Terms.display_eq s.member
      rw [he, hd]
  | renewal =>
    rcases he with he | he
    · rw [he]
    · rw [he, control_afterRenewal, Renewal.control_begin h]
  | survey =>
    obtain ⟨_, he | he⟩ := he
    · rw [he]
    · rw [he, control_afterSurvey, Survey.control_begin]

theorem isAsking_afterStep (s : Session) (g : Nat) (x : Member × Step.Progress) :
    (s.afterStep g x).1.isAsking p = s.isAsking p := by
  obtain ⟨m, w | e⟩ := x
  · rfl
  · rfl

end Session

end Rollcall
