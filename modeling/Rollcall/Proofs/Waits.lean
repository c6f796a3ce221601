import Rollcall.Proofs.Parts

/-!
# What runners wait for

In every run of a member, what a runner waits for serves the state: a move that changes the state
finds no runner inside a step, unless all is over, and a runner that begins to wait does so in the
state that it looked at.
-/

namespace Rollcall

open Store (Request Answer)

namespace Control

variable {σ : Type} {c : Control σ} {g n : Nat} {w : σ}

/-- The runner of a generation waits inside a step. -/
def Waits (c : Control σ) (g : Nat) (w : σ) : Prop :=
  ∃ r ∈ c.runners, r.generation = g ∧ r.activity = .within w

theorem waits_of_activity (h : (c.runner? g).map Runner.activity = some (.within w)) :
    c.Waits g w := by
  obtain ⟨r, hr, ha⟩ := Option.map_eq_some_iff.mp h
  exact ⟨r, List.mem_of_find?_eq_some hr, by simpa using List.find?_some hr, ha⟩

theorem Orderly.held_of_waits (h : c.Orderly) (hw : c.Waits g w) (hs : c.state ≠ .stop) :
    c.held = some g := by
  obtain ⟨r, hr, rfl, ha⟩ := hw
  exact h.held hs r hr (.inr ⟨w, ha⟩)

theorem Orderly.activity_of_waits (h : c.Orderly) (hw : c.Waits g w) :
    (c.runner? g).map Runner.activity = some (.within w) := by
  obtain ⟨r, hr, hg, ha⟩ := hw
  rw [h.of_runner? hr hg, Option.map_some, ha]

/-- A runner waits for one thing at a time. -/
theorem Orderly.eq_of_waits (h : c.Orderly) {v : σ} (hw : c.Waits g w) (hv : c.Waits g v) :
    v = w := by
  have he := (h.activity_of_waits hv).symm.trans (h.activity_of_waits hw)
  cases he
  rfl

theorem Quiet.not_waits (h : c.Quiet) : ¬c.Waits g w := by
  rintro ⟨r, hr, -, ha⟩
  exact h r hr w ha

theorem waits_of_setActivity {a : Activity σ} (h : (c.setActivity n a).Waits g w) :
    (g = n ∧ a = .within w) ∨ (g ≠ n ∧ c.Waits g w) := by
  obtain ⟨r, hr, hg, ha⟩ := h
  obtain ⟨x, hx, rfl⟩ := List.mem_map.mp hr
  split at hg
  · next he =>
    rw [if_pos he] at ha
    exact .inl ⟨hg.symm.trans he, ha⟩
  · next he =>
    rw [if_neg he] at ha
    exact .inr ⟨fun h => he (hg.trans h), x, hx, hg, ha⟩

theorem waits_of_tend (h : c.tend.Waits g w) : c.Waits g w := by
  unfold tend at h
  split at h
  · split at h
    · exact h
    · obtain ⟨r, hr, hg, ha⟩ := h
      rcases List.mem_append.mp hr with hr | hr
      · exact ⟨r, hr, hg, ha⟩
      · rw [List.mem_singleton.mp hr] at ha
        cases ha
  · split at h
    · obtain ⟨r, hr, hg, ha⟩ := h
      obtain ⟨x, hx, rfl⟩ := List.mem_map.mp hr
      refine ⟨x, hx, ?_, ?_⟩
      · rw [← hg]
        split <;> rfl
      · rw [← ha]
        split <;> rfl
    · exact h

theorem waits_of_handle {e : Event} (h : (c.handle e).Waits g w) : c.Waits g w := by
  unfold handle at h
  simp only at h
  split at h
  · exact waits_of_tend (c := { c with state := c.state.next e }) h
  · exact h

theorem waits_of_start (h : c.start.Waits g w) : c.Waits g w := by
  unfold start at h
  split at h
  · exact h
  · exact waits_of_tend (c := { c with started := true }) h

/-- No runner is inside a step when the held one comes out of its own. -/
theorem Orderly.quiet_setActivity (h : c.Orderly) (hg : c.state ≠ .stop → c.held = some g)
    (hs : c.state ≠ .stop) {a : Activity σ} (ha : ∀ w, a ≠ .within w) :
    (c.setActivity g a).Quiet := by
  intro r hr w hw
  rcases waits_of_setActivity ⟨r, hr, rfl, hw⟩ with ⟨_, he⟩ | ⟨hne, hwait⟩
  · exact ha w he
  · have hheld := h.held_of_waits hwait hs
    rw [hg hs] at hheld
    exact hne (Option.some.inj hheld).symm

/-- What came of the state and of what runners wait for: a state changes by an event, which finds no
runner inside a step unless all is over, and what a runner waits for now it waited for before, or it
is new. -/
structure Moved (c : Control σ) (raised : Event → Prop) (new : Nat → σ → Prop) (c' : Control σ) :
    Prop where
  state : c'.state = c.state ∨
    ∃ e, raised e ∧ c'.state = c.state.next e ∧ (c'.state = .stop ∨ c'.Quiet)
  waits : ∀ {g : Nat} {w : σ}, c'.Waits g w → c.Waits g w ∨ c'.state = c.state ∧ new g w

variable {raised : Event → Prop} {new : Nat → σ → Prop} {c' : Control σ}

theorem Moved.stop (h : c.Moved raised new c') (hs : c.state = .stop) : c'.state = .stop := by
  rcases h.state with he | ⟨e, -, he, -⟩
  · exact he.trans hs
  · rw [he, hs, State.next_stop]

theorem moved_refl (c : Control σ) : c.Moved raised new c := ⟨.inl rfl, .inl⟩

theorem Moved.mono {raised' : Event → Prop} {new' : Nat → σ → Prop} (h : c.Moved raised new c')
    (hr : ∀ e, raised e → raised' e) (hn : ∀ g w, new g w → new' g w) :
    c.Moved raised' new' c' where
  state := h.state.imp_right fun ⟨e, he, hs⟩ => ⟨e, hr e he, hs⟩
  waits := fun hw => (h.waits hw).imp_right fun hw => ⟨hw.1, hn _ _ hw.2⟩

theorem moved_start (c : Control σ) : c.Moved raised new c.start :=
  ⟨.inl c.state_start, fun hw => .inl (waits_of_start hw)⟩

theorem moved_stop (c : Control σ) (hr : raised .stopped) : c.Moved raised new c.stop where
  state :=
    have hs : c.stop.state = .stop := c.state_handle .stopped
    .inr ⟨.stopped, hr, hs, .inl hs⟩
  waits := fun hw => .inl (waits_of_handle hw)

theorem moved_setActivity (c : Control σ) (n : Nat) {a : Activity σ}
    (ha : ∀ w, a = .within w → new n w) : c.Moved raised new (c.setActivity n a) := by
  refine ⟨.inl rfl, fun hw => ?_⟩
  rcases waits_of_setActivity hw with ⟨rfl, he⟩ | ⟨_, hw⟩
  · exact .inr ⟨rfl, ha _ he⟩
  · exact .inl hw

/-- A runner that leaves its step waits for nothing. -/
theorem not_waits_leave (c : Control σ) (g : Nat) (e : Option Event) :
    ¬(c.leave g e).Waits g w := by
  intro hw
  have hset : ∀ {a : Activity σ}, (∀ w, a ≠ .within w) → ¬(c.setActivity g a).Waits g w := by
    intro a ha hw
    rcases waits_of_setActivity hw with ⟨_, he⟩ | ⟨hne, _⟩
    · exact ha _ he
    · exact hne rfl
  rcases c.leave_cases g e with ⟨a, ha, hl⟩ | ⟨e', -, hl⟩
  · exact hset ha (hl ▸ hw)
  · exact hset (a := .poised) nofun (waits_of_handle (hl ▸ hw))

/-- A runner leaves its step. -/
theorem Orderly.moved_leave (h : c.Orderly) (hg : c.state ≠ .stop → c.held = some g)
    {e : Option Event} (he : ∀ e', e = some e' → raised e') : c.Moved raised new (c.leave g e) := by
  rcases c.leave_cases g e with ⟨a, ha, hl⟩ | ⟨e', rfl, hl⟩
  · rw [hl]
    exact c.moved_setActivity g fun w hw => absurd hw (ha w)
  · rw [hl]
    refine ⟨.inr ⟨e', he e' rfl, ?_, ?_⟩, fun hw => ?_⟩
    · rw [state_handle, state_setActivity]
    · by_cases hs : c.state = .stop
      · left
        rw [state_handle, state_setActivity, hs, State.next_stop]
      · refine .inr fun r hr w hw => ?_
        exact (h.quiet_setActivity hg hs (a := .poised) nofun).not_waits
          (waits_of_handle ⟨r, hr, rfl, hw⟩)
    · rcases waits_of_setActivity (waits_of_handle hw) with ⟨_, he⟩ | ⟨_, hw⟩
      · cases he
      · exact .inl hw

/-- A round of a loop fails, or does not. -/
theorem Orderly.moved_afterRound (h : c.Orderly) {e : Option Event}
    (he : ∀ e', e = some e' → c.state = .running → raised e') :
    c.Moved raised new (c.afterRound e) := by
  by_cases hs : c.state = .running
  · cases e with
    | none => exact c.moved_refl
    | some e =>
      rw [afterRound, handleIf, if_pos hs]
      refine ⟨.inr ⟨e, he e rfl hs, c.state_handle e, .inr fun r hr w hw => ?_⟩,
        fun hw => .inl (waits_of_handle hw)⟩
      exact (h.quiet hs).not_waits (waits_of_handle ⟨r, hr, rfl, hw⟩)
  · rw [afterRound_of_ne hs]
    exact c.moved_refl

end Control

/-- Nothing is at work in a member that has not begun. -/
theorem Member.not_waits_ofConfig {c : Config} {naming : Option Naming} {g : Nat} {w : Wait} :
    ¬(Member.ofConfig c naming).control.Waits g w := by
  rw [Member.control_ofConfig]
  exact fun ⟨_, hr, _⟩ => nomatch hr

/-! ## Moves of a session -/

/-- What a runner does that begins to wait. -/
def Wait.turn : Wait → Then
  | .answer _ => .ask
  | .rest d _ => .rest d

namespace Session

variable {s : Session} {g : Nat}

/-- What a runner begins to wait for by going on without an answer. -/
def Enters (s : Session) (g : Nat) (w : Wait) : Prop :=
  s.member.control.state.active = true ∧
    (Step.begin s.member s.member.control.state).2 = .wait w ∧
    (s.proceed (.runner g)).2.1 = w.turn ∧
    (s.proceed (.runner g)).1 = (s.afterStep g (Step.begin s.member s.member.control.state)).1

/-- What a runner begins to wait for by going on from an answer. -/
def Continues (s : Session) (answer : Answer) (g : Nat) (w : Wait) : Prop :=
  ∃ asked, s.member.control.Waits g (.answer asked) ∧
    (Step.answered s.member asked answer).2 = .wait w ∧
    (s.receive (.runner g) answer).2 = w.turn

private theorem moved_afterStep (h : s.member.control.Orderly)
    (hg : s.member.control.state ≠ .stop → s.member.control.held = some g) {m : Member}
    {p : Step.Progress} {id : Option String}
    (hc : m.control = { s.member.control with clusterId := id }) :
    s.member.control.Moved (fun e => p = .over (some e))
      (fun n w => n = g ∧ p = .wait w ∧ (s.afterStep g (m, p)).2 = w.turn)
      (s.afterStep g (m, p)).1.member.control := by
  have hm : m.control.Orderly := by
    rw [hc]
    exact { h with }
  have hmoved : ∀ {raised : Event → Prop} {new : Nat → Wait → Prop} {c' : Control Wait},
      m.control.Moved raised new c' → s.member.control.Moved raised new c' := by
    intro raised new c' hmoved
    rw [hc] at hmoved
    exact ⟨hmoved.state, hmoved.waits⟩
  rcases p with w | e
  · refine hmoved (m.control.moved_setActivity g fun v hv => ?_)
    cases hv
    refine ⟨rfl, rfl, ?_⟩
    cases w <;> rfl
  · refine hmoved (hm.moved_leave ?_ fun e' he => ?_)
    · rw [hc]
      exact hg
    · rw [he]

private theorem moved_proceedRunner (h : s.member.control.Orderly) (g : Nat) :
    s.member.control.Moved
      (fun e => (Step.begin s.member s.member.control.state).2 = .over (some e) ∨
        ∃ d, s.member.control.Waits g (.rest d (some e)))
      (fun n w => n = g ∧ s.member.control.state.active = true ∧
        (Step.begin s.member s.member.control.state).2 = .wait w ∧
        (s.proceedRunner g).2 = w.turn ∧
        (s.proceedRunner g).1 = (s.afterStep g (Step.begin s.member s.member.control.state)).1)
      (s.proceedRunner g).1.member.control := by
  unfold Session.proceedRunner
  split
  · next hact =>
    unfold Control.enter
    split
    · next hin =>
      split at hin
      · cases hin
        exact Control.moved_setActivity _ g nofun
      · cases hin
    · next hin =>
      split at hin
      · cases hin
      · next hgo =>
        cases hin
        simp only [Bool.or_eq_true, Bool.not_eq_true', not_or, Bool.not_eq_true,
          Bool.not_eq_false] at hgo
        obtain ⟨id, hc⟩ := Step.control_begin s.member s.member.control.state
        refine (moved_afterStep h (h.held_of_activity hact (.inr ⟨nofun, hgo.1⟩)) hc).mono
          (fun e he => .inl he) ?_
        rintro n w ⟨rfl, hp, ht⟩
        exact ⟨rfl, hgo.2, hp, ht, rfl⟩
  · next length after hact =>
    refine h.moved_leave (h.held_of_activity hact (.inl ⟨_, rfl⟩)) fun e he => ?_
    split at he
    · cases he
    · rw [he] at hact
      exact .inr ⟨length, Control.waits_of_activity hact⟩
  · exact Control.moved_refl _
  · exact Control.moved_refl _

/-- A part that goes on without an answer, of a member that holds its announce while it runs. -/
theorem moved_proceed (h : s.member.control.Orderly)
    (ha : s.member.isRunning = true → s.member.known.accepted.isSome = true) (p : Part) :
    s.member.control.Moved
      (fun e => ∃ g, p = .runner g ∧
        ((Step.begin s.member s.member.control.state).2 = .over (some e) ∨
          ∃ d, s.member.control.Waits g (.rest d (some e))))
      (fun g w => p = .runner g ∧ s.Enters g w)
      (s.proceed p).1.member.control := by
  cases p with
  | runner g =>
    unfold Session.proceed
    split
    · exact Control.moved_refl _
    split
    · exact Control.moved_refl _
    · next hended hasked =>
      refine (moved_proceedRunner h g).mono (fun e he => ⟨g, rfl, he⟩) ?_
      rintro n w ⟨rfl, hactive, hbegins, ht, he⟩
      refine ⟨rfl, hactive, hbegins, ?_⟩
      rw [← ht, ← he, Session.proceed, if_neg hended, if_neg hasked]
      exact ⟨rfl, rfl⟩
  | display =>
    rw [control_proceed (by simp [loops]) ha]
    exact Control.moved_refl _
  | renewal =>
    rw [control_proceed (by simp [loops]) ha]
    exact Control.moved_refl _
  | survey =>
    rw [control_proceed (by simp [loops]) ha]
    exact Control.moved_refl _

/-- A part that goes on from an answer. -/
theorem moved_receive (h : s.member.control.Orderly) (p : Part) (answer : Answer) :
    s.member.control.Moved
      (fun e => (s.member.control.state = .running ∧ s.failure p answer = some e) ∨
        ∃ g asked, p = .runner g ∧ s.member.control.Waits g (.answer asked) ∧
          (Step.answered s.member asked answer).2 = .over (some e))
      (fun g w => p = .runner g ∧ s.Continues answer g w)
      (s.receive p answer).1.member.control := by
  cases p with
  | runner g =>
    cases hact : (s.member.control.runner? g).map Runner.activity with
    | none =>
      rw [Session.receive, hact]
      exact Control.moved_refl _
    | some a =>
      rcases a with _ | (asked | _) | _
      · rw [Session.receive, hact]
        exact Control.moved_refl _
      · have hr : s.receive (.runner g) answer =
            s.afterStep g (Step.answered s.member asked answer) := by
          rw [Session.receive, hact]
        have hwaits := Control.waits_of_activity hact
        obtain ⟨id, hc⟩ := Step.control_answered s.member asked answer
        have hmoved := moved_afterStep h (h.held_of_activity hact (.inl ⟨_, rfl⟩)) hc
          (p := (Step.answered s.member asked answer).2)
        rw [hr]
        refine hmoved.mono (fun e he => .inr ⟨g, asked, rfl, hwaits, he⟩) ?_
        rintro n w ⟨rfl, hp, ht⟩
        exact ⟨rfl, asked, hwaits, hp, hr ▸ ht⟩
      · rw [Session.receive, hact]
        exact Control.moved_refl _
      · rw [Session.receive, hact]
        exact Control.moved_refl _
  | display =>
    rw [(s.receive_failure (by simp [loops]) answer).1]
    exact h.moved_afterRound fun e he hr => .inl ⟨hr, he⟩
  | renewal =>
    rw [(s.receive_failure (by simp [loops]) answer).1]
    exact h.moved_afterRound fun e he hr => .inl ⟨hr, he⟩
  | survey =>
    rw [(s.receive_failure (by simp [loops]) answer).1]
    exact h.moved_afterRound fun e he hr => .inl ⟨hr, he⟩

/-- A runner that is at rest after it went on has just lain down. -/
theorem enters_of_rests (h : s.member.control.Orderly) {d : Duration} {after : Option Event}
    (hw : (s.proceed (.runner g)).1.member.control.Waits g (.rest d after)) :
    s.Enters g (.rest d after) := by
  have hmoved := moved_proceedRunner h g
  unfold Session.proceed at hw
  split at hw
  · next hended =>
    have hact := h.activity_of_waits hw
    obtain ⟨r, hr, ha⟩ := Option.map_eq_some_iff.mp hact
    rw [hasEnded, Control.hasEnded, hr, Option.all_some, ha] at hended
    cases hended
  split at hw
  · next hasked =>
    have hact := h.activity_of_waits hw
    simp only [request?, hact] at hasked
    cases hasked
  · next hended hasked =>
    rcases hmoved.waits hw with hold | ⟨-, -, hactive, hbegins, ht, he⟩
    · -- The rest that the runner came from is over.
      refine absurd hw ?_
      have hact := h.activity_of_waits hold
      simp only [Session.proceedRunner, hact]
      exact Control.not_waits_leave _ g _
    · refine ⟨hactive, hbegins, ?_⟩
      rw [← ht, ← he, Session.proceed, if_neg hended, if_neg hasked]
      exact ⟨rfl, rfl⟩

theorem request?_runner (h : s.member.control.Orderly) {asked : Asked}
    (hw : s.member.control.Waits g (.answer asked)) :
    s.request? (.runner g) = some (Step.request s.member asked) := by
  simp only [request?, h.activity_of_waits hw]

/-- What a part may ask of the store. -/
inductive Asks (s : Session) : Part → Request → Prop
  | get (p : Part) (key : String) (recursive sorted : Bool) : Asks s p (.get key recursive sorted)
  | publish {p : Properties} (h : s.renewal = .asking (.sending p)) :
      Asks s .renewal (Registry.publish s.member.layout s.member.self.id p).request
  | renew {key : String} {d : Payload} {ttl : Nat} (h : s.renewal = .asking (.renewing key d ttl)) :
      Asks s .renewal (Registry.renew key d ttl).request
  | claim (g : Nat) (candidate : String) :
      Asks s (.runner g) (Registry.claim s.member.layout candidate).request
  | announce {g : Nat} {d : Payload}
      (h : s.member.control.Waits g (.answer (.creating d))) :
      Asks s (.runner g) (Registry.announce s.member.layout d s.member.maxTtl).request

theorem asks_of_request? {p : Part} {r : Request} (h : s.request? p = some r) : s.Asks p r := by
  cases p with
  | display => cases h
  | renewal =>
    simp only [request?] at h
    split at h
    · next stage hs =>
      cases h
      cases stage with
      | sending p => exact .publish hs
      | renewing key d ttl => exact .renew hs
    · cases h
  | survey =>
    simp only [request?] at h
    split at h
    · next stage hs =>
      cases h
      unfold Survey.request
      split
      · exact .get _ _ _ _
      · exact .get _ _ _ _
      · exact .get _ _ _ _
    · cases h
  | runner g =>
    simp only [request?] at h
    split at h
    · next asked hact =>
      cases h
      cases asked with
      | claiming candidate => exact .claim g candidate
      | creating d => exact .announce (Control.waits_of_activity hact)
      | _ => exact .get _ _ _ _
    · cases h

/-- A runner that waits for an answer goes on from it. -/
theorem receive_runner (h : s.member.control.Orderly) {asked : Asked}
    (hw : s.member.control.Waits g (.answer asked)) (answer : Answer) :
    s.receive (.runner g) answer = s.afterStep g (Step.answered s.member asked answer) := by
  rw [Session.receive, h.activity_of_waits hw]

/-- What is shown at the end leaves the control alone. -/
theorem control_withdraw (s : Session) : s.withdraw.1.member.control = s.member.control := by
  obtain ⟨b, hb⟩ := s.withdraw_eq
  rw [hb]
  rfl

/-- Every runner waits for something that serves the state, unless all is over. -/
def Serving (s : Session) : Prop :=
  s.member.control.state ≠ .stop → ∀ {g : Nat} {w : Wait}, s.member.control.Waits g w →
    w.Serves s.member.control.state

end Session

namespace Attendance

variable {a : Attendance}

/-- The events that a move may raise. -/
inductive Raises (a : Attendance) : Move → Event → Prop
  | begun {g : Nat} {e : Event}
      (h : (Step.begin a.session.member a.session.member.control.state).2 = .over (some e)) :
      Raises a (.act (.proceed (.runner g))) e
  | rested {g : Nat} {d : Duration} {e : Event}
      (h : a.session.member.control.Waits g (.rest d (some e))) :
      Raises a (.act (.proceed (.runner g))) e
  | answered {g : Nat} {asked : Asked} {answer : Answer} {e : Event}
      (hw : a.session.member.control.Waits g (.answer asked))
      (h : (Step.answered a.session.member asked answer).2 = .over (some e)) :
      Raises a (.receive (.part (.runner g)) answer) e
  | failed {p : Part} {answer : Answer} {e : Event}
      (hr : a.session.member.control.state = .running) (h : a.session.failure p answer = some e) :
      Raises a (.receive (.part p) answer) e
  | stopped {x : Act} : Raises a (.act x) .stopped

/-- The ways in which a runner begins to wait by a move. -/
inductive Enters (a : Attendance) (g : Nat) (w : Wait) : Move → Prop
  | proceed (h : a.session.Enters g w) : Enters a g w (.act (.proceed (.runner g)))
  | receive {answer : Answer} (h : a.session.Continues answer g w) :
      Enters a g w (.receive (.part (.runner g)) answer)

/-- What is not about a part begins no wait, and raises no event but the stop. -/
private theorem moved_beside {x : Move} (hx : x.part? = none) :
    a.session.member.control.Moved (a.Raises x) (fun g w => a.Enters g w x)
      (a.move x).session.member.control := by
  have hpasses := a.passes_move x
  generalize a.move x = a' at hpasses
  cases hpasses with
  | starts _ _ => exact Control.moved_start _
  | goes hpart _ _ => cases hx.symm.trans hpart
  | stops _ =>
    have hs : a.session.member.control.Moved (a.Raises (.act .stop))
        (fun g w => a.Enters g w (.act .stop)) a.session.member.control.stop :=
      a.session.member.control.moved_stop .stopped
    exact ⟨hs.state, hs.waits⟩
  | leaves _ _ _ =>
    rw [Session.control_withdraw]
    exact Control.moved_refl _
  | removes _ _ =>
    rw [Session.control_withdraw]
    exact Control.moved_refl _
  | drops => exact a.session.member.control.moved_stop .stopped
  | _ => exact Control.moved_refl _

/-- What a move makes of the state and of what runners wait for. -/
theorem moved_move {T : Terms} (h : Keeps T a) (x : Move) :
    a.session.member.control.Moved (a.Raises x) (fun g w => a.Enters g w x)
      (a.move x).session.member.control := by
  have ho : a.session.member.control.Orderly := h.member.orderly
  cases x with
  | act x =>
    cases x with
    | proceed p =>
      rw [Attendance.move, Attendance.act]
      split
      · refine (Session.moved_proceed ho
          (fun hr => h.member.running (by simpa [Member.isRunning] using hr)) p).mono ?_ ?_
        · rintro e ⟨g, rfl, he | ⟨d, hd⟩⟩
          · exact .begun he
          · exact .rested hd
        · rintro g w ⟨rfl, hw⟩
          exact .proceed hw
      · exact Control.moved_refl _
    | _ => exact moved_beside rfl
  | receive t answer =>
    cases t with
    | part p =>
      refine (Session.moved_receive ho p answer).mono ?_ ?_
      · rintro e (⟨hr, he⟩ | ⟨g, asked, rfl, hw, he⟩)
        · exact .failed hr he
        · exact .answered hw he
      · rintro g w ⟨rfl, hw⟩
        exact .receive hw
    | farewell => exact moved_beside rfl

/-- Runners serve the state after every move. -/
theorem serving_move {T : Terms} (h : Keeps T a) (hs : a.session.Serving) (x : Move) :
    (a.move x).session.Serving := by
  intro hstop g w hw
  have hm := moved_move h x
  rcases hm.waits hw with hold | ⟨hstate, hnew⟩
  · rcases hm.state with hstate | ⟨_, _, _, hstate | hquiet⟩
    · rw [hstate] at hstop ⊢
      exact hs hstop hold
    · exact absurd hstate hstop
    · exact absurd hw hquiet.not_waits
  · rw [hstate] at hstop ⊢
    cases hnew with
    | proceed hnew => exact Step.serves_begin hnew.2.1
    | receive hnew =>
      obtain ⟨asked, hasked, ha, -⟩ := hnew
      have hserves : asked.state = a.session.member.control.state := hs hstop hasked
      rw [← hserves]
      exact Step.serves_answered ha

end Attendance

end Rollcall
