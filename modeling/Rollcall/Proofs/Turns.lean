import Rollcall.Proofs.Waits

/-!
# The order of things in an attendance

The loop of renewal is there once there was a start, and it ends only after the member was told to
stop. A member announces itself by one runner at a time and holds no announce meanwhile. The
announce is removed when no renewal is to come any more. All of this holds whatever the store
answers.
-/

namespace Rollcall

open Store (Answer)
open Attendance (Keeps)

/-! ## The loop of renewal -/

/-- Where a loop stands whose round goes on in a way. -/
def Turn.loop {κ α : Type} : Turn κ α → Loop κ
  | .wait stage => .asking stage
  | .over _ => .resting

theorem Turn.loop_eq_asking {κ α : Type} {t : Turn κ α} {stage : κ}
    (h : t.loop = .asking stage) : t = .wait stage := by
  cases t with
  | wait k =>
    cases h
    rfl
  | «over» _ => cases h

namespace Renewal

/-- What a round comes to as far as the loop is concerned: the member is told to stop no sooner, the
pause is the one that was reached, and an announce is renewed so that it outlives the pause that
follows. -/
structure Outlives (m : Member) (x : Member × Turn Stage Duration) : Prop where
  stopping : x.1.stopping = m.stopping
  pause : ∀ {d : Duration}, x.2 = .over d → d = x.1.renewal.current
  ttl : ∀ {key : String} {d : Payload} {ttl : Nat},
    x.2 = .wait (.renewing key d ttl) → ttl = x.1.renewal.next.timeToLive

theorem outlives_begin (m : Member) : Outlives m (begin m) := by
  have hb := begins_begin m
  generalize begin m = x at hb ⊢
  cases hb with
  | renewing _ _ _ =>
    refine ⟨rfl, nofun, fun h => ?_⟩
    cases h
    rfl
  | sending _ _ => exact ⟨rfl, nofun, nofun⟩
  | _ =>
    refine ⟨rfl, fun h => ?_, nofun⟩
    cases h
    rfl

theorem outlives_answered (m : Member) (stage : Stage) (answer : Answer) :
    Outlives m (answered m stage answer) := by
  have ha := answers_answered m stage answer
  generalize answered m stage answer = x at ha ⊢
  cases ha with
  | sent _ _ _ =>
    refine ⟨rfl, nofun, fun h => ?_⟩
    cases h
    rfl
  | _ =>
    refine ⟨rfl, fun h => ?_, nofun⟩
    cases h
    rfl

end Renewal

theorem Control.started_afterRound {σ : Type} (c : Control σ) (e : Option Event) :
    (c.afterRound e).started = c.started := by
  cases e with
  | none => rfl
  | some e =>
    rw [afterRound, handleIf]
    split
    · rw [started_handle]
    · rfl

namespace Session

variable {s s' : Session} {p : Part} {input : Option Answer}

/-- Whether the loop of renewal was started and goes on. -/
def Renews (s : Session) : Prop := s.renewal ≠ .unstarted ∧ s.renewal ≠ .ended

/-- A runner's step does not start the session. -/
theorem started_afterStep (g : Nat) {x : Member × Step.Progress}
    (hc : ∃ id, x.1.control = { s.member.control with clusterId := id }) :
    (s.afterStep g x).1.member.control.started = s.member.control.started := by
  obtain ⟨id, hc⟩ := hc
  obtain ⟨m, w | e⟩ := x
  · show m.control.started = _
    rw [hc]
  · show (m.control.leave g e).started = _
    rw [Control.started_leave, hc]

/-- Whichever part goes on, a session was started or was not. -/
theorem Goes.started (h : s.Goes p input s') :
    s'.member.control.started = s.member.control.started := by
  by_cases hp : p ∈ loops
  · obtain ⟨e, he⟩ := h.control_loop hp
    rw [he, Control.started_afterRound]
  cases h with
  | still => rfl
  | runnerEnds _ => rfl
  | rested _ => exact s.member.control.started_leave _ _
  | begins _ _ => exact started_afterStep _ (Step.control_begin _ _)
  | answered _ => exact started_afterStep _ (Step.control_answered _ _ _)
  | _ => exact absurd (by simp [loops]) hp

/-- What the loop of renewal does that goes on without an answer: nothing, its end after it was told
to stop, or the next round. -/
theorem proceed_renewal (s : Session) :
    ((s.renewal = .ended ∨ ∃ stage, s.renewal = .asking stage) ∧ (s.proceed .renewal).1 = s ∧
        ∀ d, (s.proceed .renewal).2.1 ≠ .rest d) ∨
      (s.member.stopping = true ∧ (s.proceed .renewal).1 = { s with renewal := .ended } ∧
        ∀ d, (s.proceed .renewal).2.1 ≠ .rest d) ∨
      (s.renewal ≠ .ended ∧ (∀ stage, s.renewal ≠ .asking stage) ∧
        (s.proceed .renewal).1 = (s.afterRenewal (Renewal.begin s.member)).1 ∧
        (s.proceed .renewal).2.1 = (s.afterRenewal (Renewal.begin s.member)).2) := by
  unfold proceed
  split
  · next he => exact .inl ⟨.inl (by simpa [hasEnded] using he), rfl, by simp⟩
  next he =>
  have hended : s.renewal ≠ .ended := by simpa [hasEnded] using he
  split
  · next hask =>
    refine .inl ⟨.inr ?_, rfl, by simp⟩
    simp only [request?] at hask
    split at hask
    · next stage hs => exact ⟨stage, hs⟩
    · cases hask
  · next hask =>
    have hnone : ∀ stage, s.renewal ≠ .asking stage := fun stage hs => by
      simp [request?, hs] at hask
    simp only [proceedLoop]
    split
    · next hs => exact .inr (.inl ⟨hs, rfl, by simp⟩)
    · exact .inr (.inr ⟨hended, hnone, rfl, rfl⟩)

theorem renewal_afterRenewal (s : Session) (x : Member × Turn Renewal.Stage Duration) :
    (s.afterRenewal x).1.renewal = x.2.loop := by
  obtain ⟨m, stage | d⟩ := x
  · rfl
  · rfl

/-- A session in which the loop of renewal stands where it stood and knows what it wrote, and that
was told to stop if it was told before. -/
structure Besides (s s' : Session) : Prop where
  loop : s'.renewal = s.renewal
  backOff : s'.member.renewal = s.member.renewal
  stopping : s'.member.stopping = s.member.stopping
  index : s'.member.known.propertiesIndex = s.member.known.propertiesIndex
  sent : s'.member.sent = s.member.sent

private theorem besides_begin (g : Nat) (state : State) :
    s.Besides (s.afterStep g (Step.begin s.member state)).1 := by
  obtain ⟨c, hc⟩ := s.member_afterStep g (Step.begin s.member state)
  have hl : (s.afterStep g (Step.begin s.member state)).1.renewal = s.renewal := by
    cases Step.begin s.member state with
    | mk m p => cases p <;> rfl
  obtain ⟨_, _, _, he⟩ := Step.begin_eq s.member state
  rw [he] at hc
  exact ⟨hl, by rw [hc], by rw [hc], by rw [hc], by rw [hc]⟩

private theorem besides_answered (g : Nat) (asked : Asked) (answer : Answer) :
    s.Besides (s.afterStep g (Step.answered s.member asked answer)).1 := by
  obtain ⟨c, hc⟩ := s.member_afterStep g (Step.answered s.member asked answer)
  have hl : (s.afterStep g (Step.answered s.member asked answer)).1.renewal = s.renewal := by
    cases Step.answered s.member asked answer with
    | mk m p => cases p <;> rfl
  obtain ⟨_, _, _, _, he⟩ := Step.answered_eq s.member asked answer
  rw [he] at hc
  exact ⟨hl, by rw [hc], by rw [hc], by rw [hc], by rw [hc]⟩

private theorem besides_surveyed (stage : Survey.Stage) (answer : Answer) :
    s.Besides (s.afterSurvey (Survey.roundAnswered s.member stage answer)).1 := by
  obtain ⟨tally, remote, properties, survey, control, he⟩ :=
    Survey.roundAnswered_eq s.member stage answer
  have hl : (s.afterSurvey (Survey.roundAnswered s.member stage answer)).1.renewal =
      s.renewal := by
    cases Survey.roundAnswered s.member stage answer with
    | mk m turn => cases turn <;> rfl
  have hm := (s.member_afterSurvey (Survey.roundAnswered s.member stage answer)).trans he
  exact ⟨hl, by rw [hm], by rw [hm], by rw [hm]; rfl, by rw [hm]⟩

/-- The other parts leave the loop of renewal alone. -/
theorem Goes.besides (h : s.Goes p input s') (hp : p ≠ .renewal) : s.Besides s' := by
  cases h with
  | displays _ _ =>
    obtain ⟨_, _, _, hd⟩ := Terms.display_eq s.member
    rw [hd]
    exact ⟨rfl, rfl, rfl, rfl, rfl⟩
  | renewalEnds _ => exact absurd rfl hp
  | renews _ _ => exact absurd rfl hp
  | renewed _ => exact absurd rfl hp
  | surveys _ _ =>
    rw [Survey.begin]
    split
    · exact ⟨rfl, rfl, rfl, rfl, rfl⟩
    · exact ⟨rfl, rfl, rfl, rfl, rfl⟩
  | surveyed _ => exact besides_surveyed _ _
  | begins _ _ => exact besides_begin _ _
  | answered _ => exact besides_answered _ _ _
  | _ => exact ⟨rfl, rfl, rfl, rfl, rfl⟩

end Session

/-! ## The accepted announce -/

namespace Step

/-- A step that begins accepts no announce. -/
theorem accepted_begin {m : Member} {s : State} {a : Announce}
    (ha : (begin m s).1.known.accepted = some a) : m.known.accepted = some a := by
  have hb := begins_begin m s
  generalize begin m s = x at hb ha
  cases hb with
  | aside _ _ _ => exact ha
  | announce _ => cases ha
  | clear => exact ha

theorem accepted_begin_announce (m : Member) : (begin m .announce).1.known.accepted = none := by
  simp only [begin]
  split
  · rfl
  · rfl

/-- An announce is accepted when it is found under the key under which it was created, and then the
step is over. -/
theorem accepted_answered {m : Member} {asked : Asked} {answer : Answer} {a : Announce}
    (ha : (answered m asked answer).1.known.accepted = some a) :
    m.known.accepted = some a ∨
      asked = .confirming a.key ∧ (answered m asked answer).2 = .over (some .announced) := by
  have hb := answers_answered m asked answer
  generalize answered m asked answer = x at hb ha ⊢
  cases hb with
  | accepted _ _ _ hk =>
    cases ha
    exact .inr ⟨by rw [hk], rfl⟩
  | _ => exact .inl ha

/-- No step begins with an announce to be created or confirmed. -/
theorem begin_ne_announcing {m : Member} {s : State} {asked : Asked}
    (h : (begin m s).2 = .wait (.answer asked)) :
    (∀ d, asked ≠ .creating d) ∧ ∀ key, asked ≠ .confirming key := by
  have hplain : ∀ {p : Progress}, p = .wait (.answer asked) → Plain s p →
      (∀ d, asked ≠ .creating d) ∧ ∀ key, asked ≠ .confirming key := by
    rintro p rfl hp
    cases hp with
    | ask _ hcreating hconfirming => exact ⟨hcreating, hconfirming⟩
  have hb := begins_begin m s
  generalize begin m s = x at hb h
  cases hb with
  | aside _ _ hp => exact hplain h hp
  | announce hp => exact hplain h hp
  | clear => cases h

/-- A step asks for an announce to be created by what the member says of itself. -/
theorem payload_of_creating {m : Member} {asked : Asked} {answer : Answer} {d : Payload}
    (h : (answered m asked answer).2 = .wait (.answer (.creating d))) :
    ∃ id, d = m.payload id := by
  have hb := answers_answered m asked answer
  generalize answered m asked answer = x at hb h
  cases hb with
  | aside _ _ hp =>
    cases h
    cases hp with
    | ask _ hne _ => exact absurd rfl (hne d)
  | free _ _ _ =>
    cases h
    exact ⟨_, rfl⟩
  | _ => cases h

/-- A member is announced when it gets its announce confirmed. -/
theorem confirming_of_announced {m : Member} {asked : Asked} {answer : Answer}
    (h : (answered m asked answer).2 = .over (some .announced)) :
    ∃ key, asked = .confirming key := by
  have hb := answers_answered m asked answer
  generalize answered m asked answer = x at hb h
  cases hb with
  | aside _ _ hp =>
    cases h
    cases hp with
    | «over» hne _ => exact absurd rfl hne
  | accepted _ _ _ _ => exact ⟨_, rfl⟩
  | _ => cases h

/-- An announce is to be confirmed when it was created. -/
theorem created_of_confirming {m : Member} {asked : Asked} {answer : Answer} {key : String}
    (h : (answered m asked answer).2 = .wait (.answer (.confirming key))) :
    ∃ d a, asked = .creating d ∧ (Registry.announce m.layout d m.maxTtl).outcome answer = .ok a ∧
      a.key = key := by
  have hb := answers_answered m asked answer
  generalize answered m asked answer = x at hb h
  cases hb with
  | aside _ _ hp =>
    cases h
    cases hp with
    | ask _ _ hne => exact absurd rfl (hne key)
  | created _ ha =>
    cases h
    exact ⟨_, _, rfl, ha, rfl⟩
  | _ => cases h

end Step

/-- Of the announce that is accepted after a change, at least the key was accepted before. -/
structure Member.Retains (m m' : Member) : Prop where
  key : ∀ {a : Announce}, m'.known.accepted = some a →
    ∃ b, m.known.accepted = some b ∧ b.key = a.key

theorem Member.Retains.of_eq {m m' : Member} (h : m'.known.accepted = m.known.accepted) :
    m.Retains m' := ⟨fun ha => ⟨_, h ▸ ha, rfl⟩⟩

namespace Renewal

theorem retains_begin (m : Member) : m.Retains (begin m).1 := by
  have hb := begins_begin m
  generalize begin m = x at hb ⊢
  cases hb with
  | _ => exact .of_eq rfl

theorem retains_answered (m : Member) (stage : Stage) (answer : Answer) :
    m.Retains (answered m stage answer).1 := by
  have ha := answers_answered m stage answer
  generalize answered m stage answer = x at ha ⊢
  cases ha with
  | renewed tally hok =>
    rename_i key d ttl b
    refine ⟨fun {a} ha => ?_⟩
    have ha : (m.known.replaceIfHeld key b).accepted = some a := ha
    unfold Known.replaceIfHeld at ha
    split at ha
    · next hheld =>
      obtain ⟨c, hc, hk⟩ := (Option.any_eq_true _ _).mp hheld
      cases ha
      exact ⟨c, hc, (by simpa using hk : c.key = key).trans (Terms.renewed_eq hok).1.symm⟩
    · exact ⟨a, ha, rfl⟩
  | _ => exact .of_eq rfl

end Renewal

/-- What is accepted when a part has gone on was accepted before under its key, unless the part is a
runner that gets its announce confirmed. -/
theorem Session.Goes.accepted {s s' : Session} {p : Part} {input : Option Answer}
    (h : s.Goes p input s') {b : Announce} (hb : s'.member.known.accepted = some b) :
    (∃ c, s.member.known.accepted = some c ∧ c.key = b.key) ∨
      ∃ g answer, p = .runner g ∧ input = some answer ∧
        s.member.control.Waits g (.answer (.confirming b.key)) ∧
        (Step.answered s.member (.confirming b.key) answer).2 = .over (some .announced) := by
  cases h with
  | displays _ _ =>
    obtain ⟨_, _, _, hd⟩ := Terms.display_eq s.member
    rw [hd] at hb
    exact .inl ⟨b, hb, rfl⟩
  | renews _ _ =>
    rw [Session.member_afterRenewal] at hb
    exact .inl ((Renewal.retains_begin s.member).key hb)
  | renewed _ =>
    rw [Session.member_afterRenewal] at hb
    exact .inl ((Renewal.retains_answered s.member _ _).key hb)
  | surveys _ _ =>
    obtain ⟨_, he⟩ := Survey.begin_eq s.member
    rw [Session.member_afterSurvey, he] at hb
    exact .inl ⟨b, hb, rfl⟩
  | @surveyed stage answer _ =>
    obtain ⟨_, _, _, _, _, he⟩ := Survey.roundAnswered_eq s.member stage answer
    rw [Session.member_afterSurvey, he] at hb
    exact .inl ⟨b, hb, rfl⟩
  | @begins g _ _ =>
    obtain ⟨_, hc⟩ := s.member_afterStep g (Step.begin s.member s.member.control.state)
    rw [hc] at hb
    exact .inl ⟨b, Step.accepted_begin hb, rfl⟩
  | @answered g asked answer hact =>
    obtain ⟨_, hc⟩ := s.member_afterStep g (Step.answered s.member asked answer)
    rw [hc] at hb
    rcases Step.accepted_answered hb with ha | ⟨rfl, hover⟩
    · exact .inl ⟨b, ha, rfl⟩
    · exact .inr ⟨g, answer, rfl, rfl, Control.waits_of_activity hact, hover⟩
  | _ => exact .inl ⟨b, hb, rfl⟩

namespace Attendance

variable {a : Attendance}

private theorem accepted_withdraw (s : Session) :
    s.withdraw.1.member.known.accepted = none := by
  obtain ⟨_, hw⟩ := s.withdraw_eq
  rw [hw]
  rfl

/-- What is accepted after a move was accepted before under its key, or was just confirmed. -/
theorem accepted_move (x : Move) {b : Announce}
    (hb : (a.move x).session.member.known.accepted = some b) :
    (∃ c, a.session.member.known.accepted = some c ∧ c.key = b.key) ∨
      ∃ g answer, x = .receive (.part (.runner g)) answer ∧
        a.session.member.control.Waits g (.answer (.confirming b.key)) ∧
        (Step.answered a.session.member (.confirming b.key) answer).2 =
          .over (some .announced) := by
  have hpasses := a.passes_move x
  generalize a.move x = a' at hpasses hb
  cases hpasses with
  | goes hx _ hgoes =>
    rcases hgoes.accepted hb with hold | ⟨g, answer, rfl, rfl, hw, hover⟩
    · exact .inl hold
    · exact .inr ⟨g, answer, Move.eq_receive hx, hw, hover⟩
  | leaves _ _ _ => cases (accepted_withdraw _).symm.trans hb
  | removes _ _ => cases (accepted_withdraw _).symm.trans hb
  | _ => exact .inl ⟨b, hb, rfl⟩

/-- A member comes to run when it gets its announce confirmed. -/
theorem running_move {T : Terms} (hk : Keeps T a) (x : Move)
    (hr : (a.move x).session.member.control.state = .running) :
    a.session.member.control.state = .running ∨
      ∃ g key answer, x = .receive (.part (.runner g)) answer ∧
        a.session.member.control.Waits g (.answer (.confirming key)) := by
  by_cases hs : a.session.member.control.state = .running
  · exact .inl hs
  rcases (moved_move hk x).state with heq | ⟨e, hraised, hnext, -⟩
  · exact .inl (heq.symm.trans hr)
  · obtain rfl := (State.next_eq_running (hnext.symm.trans hr)).resolve_left hs
    refine .inr ?_
    cases hraised with
    | begun h => exact absurd rfl (Step.over_begin h).1
    | rested h =>
      obtain ⟨r, hr, -, ha⟩ := h
      rcases hk.member.waits r hr _ ha with hb | hb | hb <;> cases hb
    | answered hw h =>
      obtain ⟨key, rfl⟩ := Step.confirming_of_announced h
      exact ⟨_, key, _, rfl, hw⟩
    | failed hrun _ => exact absurd hrun hs

/-- An announce is to be confirmed after a move if it was before, or was just created. -/
theorem confirming_move {T : Terms} (hk : Keeps T a) (x : Move) {g : Nat} {key : String}
    (hw : (a.move x).session.member.control.Waits g (.answer (.confirming key))) :
    a.session.member.control.Waits g (.answer (.confirming key)) ∨
      ∃ d b answer, x = .receive (.part (.runner g)) answer ∧
        a.session.member.control.Waits g (.answer (.creating d)) ∧
        (Registry.announce a.session.member.layout d a.session.member.maxTtl).outcome answer =
          .ok b ∧ b.key = key := by
  rcases (moved_move hk x).waits hw with hold | ⟨-, hnew⟩
  · exact .inl hold
  · cases hnew with
    | proceed h => exact absurd rfl ((Step.begin_ne_announcing h.2.1).2 key)
    | receive h =>
      obtain ⟨asked, hasked, hgoes, -⟩ := h
      obtain ⟨d, b, rfl, hb, hkey⟩ := Step.created_of_confirming hgoes
      exact .inr ⟨d, b, _, rfl, hasked, hb, hkey⟩

/-- An announce is to be created after a move if it was before, or the member says it of itself. -/
theorem creating_move {T : Terms} (hk : Keeps T a) (x : Move) {g : Nat} {d : Payload}
    (hw : (a.move x).session.member.control.Waits g (.answer (.creating d))) :
    a.session.member.control.Waits g (.answer (.creating d)) ∨
      ∃ id, d = a.session.member.payload id := by
  rcases (moved_move hk x).waits hw with hold | ⟨-, hnew⟩
  · exact .inl hold
  · cases hnew with
    | proceed h => exact absurd rfl ((Step.begin_ne_announcing h.2.1).1 d)
    | receive h =>
      obtain ⟨_, _, hgoes, -⟩ := h
      exact .inr (Step.payload_of_creating hgoes)

/-- The announce was or is being removed at the end. -/
def HasLeft (a : Attendance) : Prop := a.farewell = .gone ∨ ∃ key, a.farewell = .removing key

theorem HasLeft.ne_staying (h : a.HasLeft) : a.farewell ≠ .staying := by
  rcases h with h | ⟨key, h⟩
  · rw [h]
    nofun
  · rw [h]
    nofun

/-- How far an attendance is: the loop of renewal is there once there was a start, ends only after
the member was told to stop, and has ended before the announce is removed. The announce that it asks
to renew is to outlive the pause that follows. -/
structure InTurn (a : Attendance) : Prop where
  unstarted : a.session.renewal = .unstarted ↔ a.session.member.control.started = false
  ended : a.session.renewal = .ended → a.session.member.stopping = true
  stopping : a.session.member.stopping = true → a.session.member.control.state = .stop
  leaving : a.farewell ≠ .staying → a.session.member.stopping = true
  waiting : ∀ {parts : List Part}, a.farewell = .waiting parts → a.session.Renews →
    .renewal ∈ parts
  left : a.HasLeft → ¬a.session.Renews
  outliving : ∀ {key : String} {d : Payload} {ttl : Nat},
    a.session.renewal = .asking (.renewing key d ttl) →
      ttl = a.session.member.renewal.next.timeToLive

theorem inTurn_ofConfig (c : Config) (naming : Option Naming) :
    (ofMember (Member.ofConfig c naming)).InTurn := by
  obtain ⟨contributors, he⟩ := Member.ofConfig_eq c naming
  exact {
    unstarted := ⟨fun _ => by rw [ofMember, Member.control_ofConfig], fun _ => rfl⟩
    ended := nofun
    stopping := fun h => by rw [he] at h; cases h
    leaving := fun h => absurd rfl h
    waiting := nofun
    left := nofun
    outliving := nofun }

variable {s : Session}

/-- The loop of renewal stands where it stood. -/
private theorem InTurn.beside (h : a.InTurn) (hb : a.session.Besides s)
    (hstarted : s.member.control.started = a.session.member.control.started)
    (hstop : a.session.member.control.state = .stop → s.member.control.state = .stop) :
    InTurn { a with session := s } where
  unstarted := by
    show s.renewal = .unstarted ↔ s.member.control.started = false
    rw [hb.loop, hstarted]
    exact h.unstarted
  ended hs := by
    show s.member.stopping = true
    rw [hb.stopping]
    exact h.ended (hb.loop ▸ hs)
  stopping hs := hstop (h.stopping (hb.stopping ▸ hs))
  leaving hf := hb.stopping.trans (h.leaving hf)
  waiting hf hr := h.waiting hf (by rwa [Session.Renews, hb.loop] at hr)
  left hf hr := h.left hf (by rwa [Session.Renews, hb.loop] at hr)
  outliving hs := by
    show _ = s.member.renewal.next.timeToLive
    rw [hb.backOff]
    exact h.outliving (hb.loop ▸ hs)

/-- The loop of renewal goes on. -/
private theorem InTurn.goesOn (h : a.InTurn) (hr : a.session.Renews) (hr' : s.Renews)
    (hstopping : s.member.stopping = a.session.member.stopping)
    (hstarted : s.member.control.started = a.session.member.control.started)
    (hstop : a.session.member.control.state = .stop → s.member.control.state = .stop)
    (houtliving : ∀ {key d ttl}, s.renewal = .asking (.renewing key d ttl) →
      ttl = s.member.renewal.next.timeToLive) :
    InTurn { a with session := s } where
  unstarted := by
    refine ⟨fun hs => absurd hs hr'.1, fun hs => ?_⟩
    exact absurd (h.unstarted.mpr (hstarted.symm.trans hs)) hr.1
  ended hs := absurd hs hr'.2
  stopping hs := hstop (h.stopping (hstopping ▸ hs))
  leaving hf := hstopping.trans (h.leaving hf)
  waiting hf _ := h.waiting hf hr
  left hf _ := h.left hf hr
  outliving := houtliving

/-- The loop of renewal goes on with its round. -/
private theorem InTurn.afterRenewal (h : a.InTurn) (hr : a.session.Renews)
    {x : Member × Turn Renewal.Stage Duration} (hx : Renewal.Outlives a.session.member x)
    (hstarted : x.1.control.started = a.session.member.control.started)
    (hstop : a.session.member.control.state = .stop → x.1.control.state = .stop) :
    InTurn { a with session := (a.session.afterRenewal x).1 } := by
  have hm := a.session.member_afterRenewal x
  have hl := a.session.renewal_afterRenewal x
  refine h.goesOn hr ?_ ?_ ?_ ?_ ?_
  · rw [Session.Renews, hl]
    cases x.2 <;> exact ⟨nofun, nofun⟩
  · rw [hm, hx.stopping]
  · rw [hm, hstarted]
  · rw [hm]
    exact hstop
  · intro key d ttl hs
    rw [hm]
    exact hx.ttl (Turn.loop_eq_asking (hl ▸ hs))

/-- An attendance whose member is told to stop. -/
private theorem InTurn.halt (h : a.InTurn) {f : Farewell} {control : Control Wait}
    (hs : control.state = .stop)
    (hstarted : control.started = a.session.member.control.started)
    (hwaiting : ∀ {parts : List Part}, f = .waiting parts → a.session.Renews → .renewal ∈ parts)
    (hleft : f = .gone ∨ (∃ key, f = .removing key) → ¬a.session.Renews) :
    InTurn { session.member := { a.session.member with stopping := true, control }
             session.display := a.session.display, session.renewal := a.session.renewal
             session.survey := a.session.survey, farewell := f } where
  unstarted := by
    show a.session.renewal = .unstarted ↔ control.started = false
    rw [hstarted]
    exact h.unstarted
  ended _ := rfl
  stopping _ := hs
  leaving _ := rfl
  waiting := hwaiting
  left := hleft
  outliving := h.outliving

/-- An attendance without renewals to come takes leave. -/
private theorem InTurn.depart (h : a.InTurn) (hr : ¬a.session.Renews)
    (hs : a.session.member.stopping = true) (hb : a.session.Besides s)
    (hc : s.member.control = a.session.member.control) (f : Farewell) :
    InTurn { session := s, farewell := f } := by
  have hbeside := h.beside hb (by rw [hc]) (by rw [hc]; exact id)
  have hr' : ¬s.Renews := by
    rw [Session.Renews, hb.loop]
    exact hr
  exact {
    unstarted := hbeside.unstarted
    ended := hbeside.ended
    stopping := hbeside.stopping
    leaving := fun _ => hb.stopping.trans hs
    waiting := fun _ h => absurd h hr'
    left := fun _ => hr'
    outliving := hbeside.outliving }

/-- A start leaves an attendance in turn; one that takes leave is not started. -/
private theorem InTurn.starts (h : a.InTurn) (hstop : a.session.member.stopping = false) :
    InTurn { a with
      session := {
        member := { a.session.member with control := a.session.member.control.start }
        display := .poised, renewal := .poised, survey := .poised } } := by
  have hstaying : a.farewell = .staying := Decidable.byContradiction fun hf => by
    cases hstop.symm.trans (h.leaving hf)
  exact {
    unstarted := ⟨by simp, fun hs => by cases hs.symm.trans (Control.started_start _)⟩
    ended := by simp
    stopping := fun hs => by cases hstop.symm.trans hs
    leaving := fun hf => absurd hstaying hf
    waiting := fun hf => by cases hstaying.symm.trans hf
    left := fun hf => absurd hstaying hf.ne_staying
    outliving := by simp }

/-- The loop of renewal ends when it finds the member told to stop. -/
private theorem InTurn.endRenewal (h : a.InTurn) (hbegun : a.session.renewal ≠ .unstarted)
    (hs : a.session.member.stopping = true) :
    InTurn { a with session := { a.session with renewal := .ended } } where
  unstarted := ⟨by simp, fun hc => absurd (h.unstarted.mpr hc) hbegun⟩
  ended _ := hs
  stopping := h.stopping
  leaving := h.leaving
  waiting _ hr := absurd rfl hr.2
  left _ hr := absurd rfl hr.2
  outliving := by simp

/-- An attendance stays in turn when a part that was started goes on. -/
private theorem InTurn.goes (h : a.InTurn) {p : Part} {input : Option Answer}
    (hg : a.session.Goes p input s) (hbegun : hasBegun a.session p = true)
    (hstop : a.session.member.control.state = .stop → s.member.control.state = .stop) :
    InTurn { a with session := s } := by
  have hstarted := hg.started
  by_cases hp : p = .renewal
  · subst hp
    have hbegun : a.session.renewal ≠ .unstarted := by simpa [hasBegun] using hbegun
    cases hg with
    | still => exact h
    | renewalEnds hs => exact h.endRenewal hbegun hs
    | renews _ hended =>
      rw [Session.member_afterRenewal] at hstarted hstop
      exact h.afterRenewal ⟨hbegun, hended⟩ (Renewal.outlives_begin _) hstarted hstop
    | @renewed stage answer hs =>
      rw [Session.member_afterRenewal] at hstarted hstop
      have hended : a.session.renewal ≠ .ended := by simp [hs]
      have houtlives := Renewal.outlives_answered a.session.member stage answer
      exact h.afterRenewal ⟨hbegun, hended⟩ houtlives hstarted hstop
  · exact h.beside (hg.besides hp) hstarted hstop

/-- An attendance stays in turn when it is told to stop; it then waits for the loop of renewal. -/
private theorem InTurn.stops (h : a.InTurn) :
    InTurn {
      session := { a.session with
        member := { a.session.member with
          stopping := true
          control := { a.session.member.control.stop with retired := [] } } }
      farewell := .waiting (a.session.member.control.stop.retired.map Part.runner ++
        if a.session.member.control.stop.started then Session.loops else []) } := by
  have hstarted : a.session.member.control.stop.started = a.session.member.control.started :=
    a.session.member.control.started_handle .stopped
  refine h.halt (a.session.member.control.state_handle .stopped) hstarted (fun hf hr => ?_)
    (fun hf => ?_)
  · cases hf
    have hon : a.session.member.control.stop.started = true := by
      rw [hstarted]
      exact Bool.not_eq_false _ ▸ mt h.unstarted.mpr hr.1
    rw [if_pos hon]
    exact List.mem_append_right _ (by decide)
  · rcases hf with hf | ⟨_, hf⟩ <;> cases hf

/-- No renewal is to come once the parts have ended that an attendance waits for: the loop of
renewal is among them. -/
private theorem InTurn.not_renews (h : a.InTurn) {parts : List Part}
    (hf : a.farewell = .waiting parts) (hall : parts.all a.session.hasEnded = true) :
    ¬a.session.Renews := fun hr => by
  have hended := List.all_eq_true.mp hall _ (h.waiting hf hr)
  exact hr.2 (by simpa [Session.hasEnded] using hended)

/-- The last view and the answer to the removal of the announce leave an attendance in turn that has
no renewals to come. -/
private theorem InTurn.withdraw (h : a.InTurn) (hr : ¬a.session.Renews)
    (hs : a.session.member.stopping = true) (tally : Registry.Tally) :
    InTurn { session :=
      (Session.withdraw { a.session with member := { a.session.member with tally } }).1
             farewell := .gone } := by
  obtain ⟨_, hw⟩ := Session.withdraw_eq { a.session with member := { a.session.member with tally } }
  rw [hw]
  refine h.depart hr hs ?_ ?_ _
  · exact ⟨rfl, rfl, rfl, rfl, rfl⟩
  · rfl

/-- An attendance stays in turn, whatever happens to it. -/
theorem InTurn.move {T : Terms} (h : a.InTurn) (hk : Keeps T a) (x : Move) : (a.move x).InTurn := by
  have hstop : a.session.member.control.state = .stop →
      (a.move x).session.member.control.state = .stop := (moved_move hk x).stop
  have hpasses := a.passes_move x
  generalize a.move x = a' at hpasses hstop ⊢
  cases hpasses with
  | idle => exact h
  | starts _ hstaying => exact h.starts hstaying
  | goes _ hbegun hgoes => exact h.goes hgoes hbegun hstop
  | stops _ => exact h.stops
  | withdraws hf hall _ =>
    exact h.depart (h.not_renews hf hall) (h.leaving (by rw [hf]; simp))
      ⟨rfl, rfl, rfl, rfl, rfl⟩ rfl _
  | leaves hf hall _ =>
    exact h.withdraw (h.not_renews hf hall) (h.leaving (by rw [hf]; simp)) a.session.member.tally
  | removes tally hf =>
    exact h.withdraw (h.left (.inr ⟨_, hf⟩)) (h.leaving (by rw [hf]; simp)) tally
  | drops =>
    exact h.halt (a.session.member.control.state_handle .stopped)
      (a.session.member.control.started_handle .stopped) h.waiting h.left
  | beside _ _ _ => exact { h with }

/-- Nobody comes back who has left. -/
theorem HasLeft.move (hl : a.HasLeft) (h : a.InTurn) (x : Move) : (a.move x).HasLeft := by
  have hwaits : ∀ {parts : List Part}, a.farewell ≠ .waiting parts := fun {parts} hf => by
    rcases hl with hl | ⟨_, hl⟩
    · cases hf.symm.trans hl
    · cases hf.symm.trans hl
  have hpasses := a.passes_move x
  generalize a.move x = a' at hpasses ⊢
  cases hpasses with
  | stops hstop => cases hstop.symm.trans (h.leaving hl.ne_staying)
  | withdraws hf _ _ => exact absurd hf hwaits
  | leaves hf _ _ => exact absurd hf hwaits
  | removes _ _ => exact .inl rfl
  | _ => exact hl

/-- A member announces itself by one runner at a time, and holds no announce meanwhile. -/
structure Single (a : Attendance) : Prop where
  sole : ∀ {g g' : Nat} {w w' : Wait}, a.session.member.control.Waits g w →
    a.session.member.control.Waits g' w' → g = g'
  announcing : ∀ {g : Nat} {asked : Asked}, a.session.member.control.Waits g (.answer asked) →
    asked.state = .announce → a.session.member.known.accepted = none

theorem single_ofConfig (c : Config) (naming : Option Naming) :
    (ofMember (Member.ofConfig c naming)).Single :=
  ⟨fun hw => absurd hw Member.not_waits_ofConfig, fun hw => absurd hw Member.not_waits_ofConfig⟩

/-- What a runner waits for after a move in a state that is over it waited for before, or it waited
for something else before. -/
private theorem waits_of_stopped {T : Terms} (hk : Keeps T a) {x : Move}
    (hs : (a.move x).session.member.control.state = .stop) {g : Nat} {w : Wait}
    (hw : (a.move x).session.member.control.Waits g w) :
    ∃ w', a.session.member.control.Waits g w' := by
  rcases (moved_move hk x).waits hw with hold | ⟨hstate, hnew⟩
  · exact ⟨w, hold⟩
  · cases hnew with
    | proceed he => exact nomatch (hstate.symm.trans hs) ▸ he.1
    | receive hc =>
      obtain ⟨asked, hasked, -⟩ := hc
      exact ⟨_, hasked⟩

/-- The announce is not accepted before it is confirmed, and that ends the step. -/
theorem Single.move {self : Profile} {layout : Registry.Layout} (h : a.Single)
    (hk : Keeps (own self layout) a) (x : Move) : (a.move x).Single where
  sole hw hw' := by
    by_cases hs : (a.move x).session.member.control.state = .stop
    · obtain ⟨_, hold⟩ := waits_of_stopped hk hs hw
      obtain ⟨_, hold'⟩ := waits_of_stopped hk hs hw'
      exact h.sole hold hold'
    · have ho := (hk.move_own x).member.orderly
      exact Option.some.inj ((ho.held_of_waits hw hs).symm.trans (ho.held_of_waits hw' hs))
  announcing := by
    intro g asked hw hstate
    have ho : a.session.member.control.Orderly := hk.member.orderly
    refine Option.eq_none_iff_forall_not_mem.mpr fun b hb => ?_
    have hacc := accepted_move x hb
    rcases (moved_move hk x).waits hw with hold | ⟨-, hnew⟩
    · rw [h.announcing hold hstate] at hacc
      obtain ⟨_, hc, -⟩ | ⟨g', answer, rfl, hw', hover⟩ := hacc
      · cases hc
      · obtain rfl := h.sole hold hw'
        rw [Attendance.move, receive, Session.receive_runner ho hw'] at hw
        generalize Step.answered a.session.member (.confirming b.key) answer = y at hw hover
        obtain ⟨m, p⟩ := y
        cases hover
        exact Control.not_waits_leave _ _ _ hw
    · cases hnew with
      | proceed he =>
        obtain ⟨-, hbegins, -, he⟩ := he
        have hs : asked.state = a.session.member.control.state := Step.serves_begin hbegins
        have hb : (a.session.proceed (.runner g)).1.member.known.accepted = some b := hb
        obtain ⟨c, hc⟩ :=
          a.session.member_afterStep g (Step.begin a.session.member a.session.member.control.state)
        rw [he, hc, ← hs, hstate] at hb
        cases (Step.accepted_begin_announce _).symm.trans hb
      | receive hc =>
        obtain ⟨asked', hw', hgoes, -⟩ := hc
        have hs : asked.state = asked'.state := Step.serves_answered hgoes
        rw [h.announcing hw' (hs ▸ hstate)] at hacc
        obtain ⟨_, hc, -⟩ | ⟨_, _, he, hw'', hover⟩ := hacc
        · cases hc
        · cases he
          cases ho.eq_of_waits hw' hw''
          cases hover.symm.trans hgoes

end Attendance

end Rollcall
