import Rollcall.Proofs.Attendance
import Rollcall.Proofs.Steps

/-!
# How the parts of a session go on

A part goes on when it is woken up, or on an answer. The relation here lists what can come of that,
with where the part stood before, so that a fact about all parts is a look at one way after another.
-/

namespace Rollcall

open Store (Answer)

namespace Session

/-- Where a runner stands. -/
abbrev activity? (s : Session) (g : Nat) : Option (Activity Wait) :=
  (s.member.control.runner? g).map Runner.activity

/-- The ways in which a part goes on, woken up or on an answer. -/
inductive Goes (s : Session) : Part → Option Answer → Session → Prop
  | still {p : Part} {input : Option Answer} : Goes s p input s
  | displayEnds (hs : s.member.stopping = true) :
    Goes s .display none { s with display := .ended }
  | displays (hs : s.member.stopping = false) (he : s.display ≠ .ended) :
    Goes s .display none { s with member := (Display.round s.member).1, display := .resting }
  | renewalEnds (hs : s.member.stopping = true) :
    Goes s .renewal none { s with renewal := .ended }
  | renews (hs : s.member.stopping = false) (he : s.renewal ≠ .ended) :
    Goes s .renewal none (s.afterRenewal (Renewal.begin s.member)).1
  | renewed {stage : Renewal.Stage} {answer : Answer} (h : s.renewal = .asking stage) :
    Goes s .renewal (some answer) (s.afterRenewal (Renewal.answered s.member stage answer)).1
  | surveyEnds (hs : s.member.stopping = true) :
    Goes s .survey none { s with survey := .ended }
  | surveys (hs : s.member.stopping = false) (he : s.survey ≠ .ended) :
    Goes s .survey none (s.afterSurvey (Survey.begin s.member)).1
  | surveyed {stage : Survey.Stage} {answer : Answer} (h : s.survey = .asking stage) :
    Goes s .survey (some answer) (s.afterSurvey (Survey.roundAnswered s.member stage answer)).1
  | runnerEnds {g : Nat} (h : s.activity? g = some .poised) :
    Goes s (.runner g) none (s.withControl (·.setActivity g .ended))
  | begins {g : Nat} (h : s.activity? g = some .poised)
    (ha : s.member.control.state.active = true) :
    Goes s (.runner g) none (s.afterStep g (Step.begin s.member s.member.control.state)).1
  | rested {g : Nat} {length : Duration} {after e : Option Event}
    (h : s.activity? g = some (.within (.rest length after))) :
    Goes s (.runner g) none (s.leave g e).1
  | answered {g : Nat} {asked : Asked} {answer : Answer}
    (h : s.activity? g = some (.within (.answer asked))) :
    Goes s (.runner g) (some answer) (s.afterStep g (Step.answered s.member asked answer)).1

private theorem goes_proceedLoop (s : Session) {p : Part} (hp : p ∈ loops)
    (he : s.hasEnded p = false) : s.Goes p none (s.proceedLoop p).1 := by
  cases p with
  | runner g => simp [loops] at hp
  | display =>
    have he : s.display ≠ .ended := by simpa [hasEnded] using he
    simp only [proceedLoop]
    split
    · next hs => exact .displayEnds hs
    · next hs => exact .displays (by simpa using hs) he
  | renewal =>
    have he : s.renewal ≠ .ended := by simpa [hasEnded] using he
    simp only [proceedLoop]
    split
    · next hs => exact .renewalEnds hs
    · next hs => exact .renews (by simpa using hs) he
  | survey =>
    have he : s.survey ≠ .ended := by simpa [hasEnded] using he
    simp only [proceedLoop]
    split
    · next hs => exact .surveyEnds hs
    · next hs => exact .surveys (by simpa using hs) he

private theorem goes_proceedRunner (s : Session) (g : Nat) :
    s.Goes (.runner g) none (s.proceedRunner g).1 := by
  unfold proceedRunner
  split
  · next hact =>
    unfold Control.enter
    split
    · next hin =>
      split at hin
      · cases hin
        exact .runnerEnds hact
      · cases hin
    · next hin =>
      split at hin
      · cases hin
      · next hgo =>
        cases hin
        simp only [Bool.or_eq_true, Bool.not_eq_true', not_or, Bool.not_eq_false] at hgo
        exact .begins hact hgo.2
  · next hact => exact .rested hact
  · exact .still
  · exact .still

/-- A part that is woken up goes on in one of the ways. -/
theorem goes_proceed (s : Session) (p : Part) : s.Goes p none (s.proceed p).1 := by
  unfold proceed
  split
  · exact .still
  next he =>
  have he : s.hasEnded p = false := by simpa using he
  split
  · exact .still
  · cases p with
    | runner g => exact s.goes_proceedRunner g
    | display => exact s.goes_proceedLoop (by decide) he
    | renewal => exact s.goes_proceedLoop (by decide) he
    | survey => exact s.goes_proceedLoop (by decide) he

/-- A part that is answered goes on in one of the ways. -/
theorem goes_receive (s : Session) (p : Part) (answer : Answer) :
    s.Goes p (some answer) (s.receive p answer).1 := by
  cases p with
  | display => exact .still
  | renewal =>
    simp only [receive]
    split
    · next stage hs => exact .renewed hs
    · exact .still
  | survey =>
    simp only [receive]
    split
    · next stage hs => exact .surveyed hs
    · exact .still
  | runner g =>
    simp only [receive]
    split
    · next asked hact => exact .answered hact
    · exact .still

variable {s s' : Session} {p : Part} {input : Option Answer}

/-- A loop leaves the control to the event that a round raises, if it raises one. -/
theorem Goes.control_loop (h : s.Goes p input s') (hp : p ∈ loops) :
    ∃ e, s'.member.control = s.member.control.afterRound e := by
  cases h with
  | still => exact ⟨none, rfl⟩
  | displayEnds _ => exact ⟨none, rfl⟩
  | displays _ _ =>
    obtain ⟨_, _, _, hd⟩ := Terms.display_eq s.member
    exact ⟨none, by rw [hd]; rfl⟩
  | renewalEnds _ => exact ⟨none, rfl⟩
  | renews _ _ =>
    rw [member_afterRenewal]
    have hb := Renewal.begins_begin s.member
    generalize Renewal.begin s.member = x at hb
    cases hb with
    | missing _ _ => exact ⟨some _, rfl⟩
    | _ => exact ⟨none, rfl⟩
  | renewed _ =>
    rw [member_afterRenewal]
    exact ⟨_, (Renewal.answered_failure s.member _ _).1⟩
  | surveyEnds _ => exact ⟨none, rfl⟩
  | surveys _ _ =>
    rw [member_afterSurvey, Survey.control_begin]
    exact ⟨none, rfl⟩
  | surveyed _ =>
    rw [member_afterSurvey]
    exact ⟨_, (Survey.roundAnswered_failure s.member _ _).1⟩
  | _ => simp [loops] at hp

/-- What a step says of the cluster id stays said when the runner waits or leaves the step. -/
theorem clusterId_afterStep (s : Session) (g : Nat) (x : Member × Step.Progress) :
    (s.afterStep g x).1.member.control.clusterId = x.1.control.clusterId := by
  obtain ⟨m, w | e⟩ := x
  · rfl
  · exact m.control.clusterId_leave g e

end Session

namespace Attendance

variable {a : Attendance} {x : Move} {p : Part} {input : Option Answer}

/-- The part that a move is about, and what it goes on with. -/
def Move.part? : Move → Option (Part × Option Answer)
  | .act (.proceed p) => some (p, none)
  | .receive (.part p) answer => some (p, some answer)
  | _ => none

@[simp] theorem Move.part?_act {y : Act} :
    (Move.act y).part? = some (p, input) ↔ y = .proceed p ∧ input = none := by
  cases y with
  | proceed q => simp [part?, eq_comm]
  | _ => simp [part?]

@[simp] theorem Move.part?_receive {t : Task} {answer : Answer} :
    (Move.receive t answer).part? = some (p, input) ↔ t = .part p ∧ input = some answer := by
  cases t with
  | part q => simp [part?, eq_comm]
  | farewell => simp [part?]

/-- A part that goes on with an answer has received it. -/
theorem Move.eq_receive {answer : Answer} (h : x.part? = some (p, some answer)) :
    x = .receive (.part p) answer := by
  cases x with
  | act y => simp at h
  | receive t answer' =>
    obtain ⟨rfl, he⟩ := Move.part?_receive.mp h
    cases he
    rfl

/-- A move of a part leaves the farewell alone, and the part goes on in one of the ways if it was
started. -/
theorem goes_move (h : x.part? = some (p, input)) :
    a.session.Goes p input (a.move x).session ∧
      (a.move x).farewell = a.farewell ∧
      (hasBegun a.session p = true ∨ a.move x = a) := by
  unfold Move.part? at h
  split at h
  · next q =>
    cases h
    rw [move, act]
    split
    · next hb => exact ⟨a.session.goes_proceed p, rfl, .inl hb⟩
    · exact ⟨.still, rfl, .inr rfl⟩
  · next q answer =>
    cases h
    refine ⟨a.session.goes_receive p answer, rfl, ?_⟩
    cases hb : hasBegun a.session p with
    | true => exact .inl rfl
    | false =>
      right
      rw [move, receive]
      cases p with
      | display => rfl
      | renewal =>
        have hs : a.session.renewal = .unstarted := by simpa [hasBegun] using hb
        simp only [Session.receive, hs]
      | survey =>
        have hs : a.session.survey = .unstarted := by simpa [hasBegun] using hb
        simp only [Session.receive, hs]
      | runner g => cases hb
  · cases h

/-- The ways in which a move comes out. -/
inductive Passes (a : Attendance) : Move → Attendance → Prop
  | idle {x : Move} : Passes a x a
  | starts (hs : a.session.member.control.started = false)
      (hstop : a.session.member.stopping = false) : Passes a (.act .start) { a with
        session := {
          member := { a.session.member with control := a.session.member.control.start }
          display := .poised, renewal := .poised, survey := .poised } }
  | goes {x : Move} {p : Part} {input : Option Answer} {s : Session}
      (hx : x.part? = some (p, input)) (hb : hasBegun a.session p = true)
      (h : a.session.Goes p input s) : Passes a x { a with session := s }
  | stops (hstop : a.session.member.stopping = false) : Passes a (.act .stop) {
        session := { a.session with
          member := { a.session.member with
            stopping := true
            control := { a.session.member.control.stop with retired := [] } } }
        farewell := .waiting (a.session.member.control.stop.retired.map Part.runner ++
          if a.session.member.control.stop.started then Session.loops else []) }
  | withdraws {parts : List Part} {b : Announce} (hf : a.farewell = .waiting parts)
      (he : parts.all a.session.hasEnded = true)
      (hb : a.session.member.known.accepted = some b) :
      Passes a (.act .leave) { a with farewell := .removing b.key }
  | leaves {parts : List Part} (hf : a.farewell = .waiting parts)
      (he : parts.all a.session.hasEnded = true)
      (hn : a.session.member.known.accepted = none) :
      Passes a (.act .leave) { session := a.session.withdraw.1, farewell := .gone }
  | removes {key : String} {answer : Answer} (tally : Registry.Tally)
      (hf : a.farewell = .removing key) : Passes a (.receive .farewell answer) {
        session := (Session.withdraw { a.session with
          member := { a.session.member with tally } }).1
        farewell := .gone }
  | drops : Passes a (.act .drop) { a with session := a.session.halt }
  | beside {x : Move} (board : Board) (contributors : Contributors)
      (hv : board.view = a.session.member.board.view) : Passes a x { a with
        session := { a.session with
          member := { a.session.member with board, contributors } } }

/-- A move comes out in one of the ways. -/
theorem passes_move (a : Attendance) (x : Move) : a.Passes x (a.move x) := by
  have hgoes : ∀ {p : Part} {input : Option Answer}, x.part? = some (p, input) →
      a.Passes x (a.move x) := by
    intro p input hx
    obtain ⟨hg, hf, hb | he⟩ := goes_move (a := a) hx
    · have hmove : a.move x = { a with session := (a.move x).session } := by rw [← hf]
      rw [hmove]
      exact .goes hx hb hg
    · rw [he]
      exact .idle
  cases x with
  | act x =>
    cases x with
    | proceed p => exact hgoes rfl
    | start =>
      rw [move, act, Session.start]
      split
      · exact .idle
      · next hnot =>
        simp only [Bool.or_eq_true, not_or, Bool.not_eq_true] at hnot
        exact .starts hnot.1 hnot.2
    | stop =>
      rw [move, act]
      split
      · exact .idle
      · next hnot =>
        exact .stops (by simpa using hnot)
    | leave =>
      rw [move, act]
      split
      · next parts hf =>
        split
        · next he =>
          split
          · next b hb => exact .withdraws hf he hb
          · next hn => exact .leaves hf he hn
        · exact .idle
      · exact .idle
    | drop => exact .drops
    | bind => exact .beside _ a.session.member.contributors rfl
    | unbind id => exact .beside _ a.session.member.contributors rfl
    | contribute c => exact .beside a.session.member.board c rfl
  | receive t answer =>
    cases t with
    | part p => exact hgoes rfl
    | farewell =>
      rw [move, receive]
      split
      · next key hf =>
        simp only [Terms.accept_eq]
        exact .removes _ hf
      · exact .idle

end Attendance

end Rollcall
