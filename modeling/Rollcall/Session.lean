import Rollcall.Round.Display
import Rollcall.Round.Renewal
import Rollcall.Round.Survey
import Rollcall.Step

/-!
# Sessions

A session is a member at work: three loops that do rounds of display, renewal and survey, and the
runners that serve the member's state. Each of these parts runs until it asks the store, rests or
ends; `proceed` is the part's run when it is woken up, `receive` its run on an answer. A session
starts once; after it was told to stop, its parts end at their next look at the signal.
-/

namespace Rollcall

open Store (Request Answer)

/-- Where a loop stands; `κ` is a round that waits for an answer. -/
inductive Loop (κ : Type)
  | unstarted
  /-- About to begin a round. -/
  | poised
  /-- Inside a round that has asked the store. -/
  | asking (stage : κ)
  /-- Between two rounds. -/
  | resting
  | ended
  deriving DecidableEq, Repr

/-- A part of a session that runs by itself. -/
inductive Part
  | display
  | renewal
  | survey
  | runner (generation : Nat)
  deriving DecidableEq, Repr

/-- What a part does after it ran. -/
inductive Then
  /-- It goes on at once. -/
  | goOn
  /-- It waits for an answer to its request. -/
  | ask
  /-- It rests for a while or until it is told to stop. -/
  | rest (d : Duration)
  | stop
  deriving DecidableEq, Repr

/-- A member at work. -/
structure Session where
  member : Member
  display : Loop Empty := .unstarted
  renewal : Loop Renewal.Stage := .unstarted
  survey : Loop Survey.Stage := .unstarted

namespace Session

/-- Whether a part was told to stop. -/
def isSignalled (s : Session) : Part → Bool
  | .runner g => s.member.control.isSignalled g
  | _ => s.member.stopping

/-- Whether a part has ended. -/
def hasEnded (s : Session) : Part → Bool
  | .display => s.display = .ended
  | .renewal => s.renewal = .ended
  | .survey => s.survey = .ended
  | .runner g => s.member.control.hasEnded g

/-- Start the parts; a session that was started or told to stop before is left alone. -/
def start (s : Session) : Session :=
  if s.member.control.started || s.member.stopping then s
  else {
    member := { s.member with control := s.member.control.start }
    display := .poised
    renewal := .poised
    survey := .poised }

/-- The loops of a session in the order in which they are started. -/
def loops : List Part := [.display, .renewal, .survey]

/-- Tell every part to stop, and end the protocol. -/
def halt (s : Session) : Session :=
  { s with member := { s.member with stopping := true, control := s.member.control.stop } }

/-- The request a part waits to be answered. -/
def request? (s : Session) : Part → Option Request
  | .display => none
  | .renewal =>
    match s.renewal with
    | .asking stage => some (Renewal.request s.member stage)
    | _ => none
  | .survey =>
    match s.survey with
    | .asking stage => some (Survey.request s.member stage)
    | _ => none
  | .runner g =>
    match (s.member.control.runner? g).map Runner.activity with
    | some (.within (.answer asked)) => some (Step.request s.member asked)
    | _ => none

/-- The session after a part of a round of renewal. -/
def afterRenewal (s : Session) : Member × Turn Renewal.Stage Duration → Session × Then
  | (member, .wait stage) => ({ s with member, renewal := .asking stage }, .ask)
  | (member, .over d) => ({ s with member, renewal := .resting }, .rest d)

/-- The session after a part of a round of survey. -/
def afterSurvey (s : Session) : Member × Turn Survey.Stage Duration → Session × Then
  | (member, .wait stage) => ({ s with member, survey := .asking stage }, .ask)
  | (member, .over d) => ({ s with member, survey := .resting }, .rest d)

/-- Change the control of the member. -/
def withControl (s : Session) (f : Control Wait → Control Wait) : Session :=
  { s with member := { s.member with control := f s.member.control } }

/-- A runner comes out of its step. -/
def leave (s : Session) (g : Nat) (e : Option Event) : Session × Then :=
  let s := s.withControl (·.leave g e)
  (s, if s.hasEnded (.runner g) then .stop else .goOn)

/-- The session after a part of a runner's step. -/
def afterStep (s : Session) (g : Nat) : Member × Step.Progress → Session × Then
  | (member, .wait w) =>
    ({ s with member }.withControl (·.suspend g w),
      match w with
      | .answer _ => .ask
      | .rest d _ => .rest d)
  | (member, .over e) => { s with member }.leave g e

/-- What a loop does that is woken up: the next round, unless it was told to stop. -/
def proceedLoop (s : Session) (p : Part) : Session × Then × List Notice :=
  match p with
  | .display =>
    if s.member.stopping then ({ s with display := .ended }, .stop, [])
    else
      let (member, d, notices) := Display.round s.member
      ({ s with member, display := .resting }, .rest d, notices)
  | .renewal =>
    if s.member.stopping then ({ s with renewal := .ended }, .stop, [])
    else
      let (s, t) := s.afterRenewal (Renewal.begin s.member)
      (s, t, [])
  | .survey =>
    if s.member.stopping then ({ s with survey := .ended }, .stop, [])
    else
      let (s, t) := s.afterSurvey (Survey.begin s.member)
      (s, t, [])
  | .runner _ => (s, .stop, [])

/-- What a runner does that is woken up: the next step, or the end of its rest. -/
def proceedRunner (s : Session) (g : Nat) : Session × Then :=
  match (s.member.control.runner? g).map Runner.activity with
  | some .poised =>
    match s.member.control.enter g with
    | (control, none) => ({ s with member := { s.member with control } }, .stop)
    | (_, some state) => s.afterStep g (Step.begin s.member state)
  | some (.within (.rest _ after)) =>
    s.leave g (if s.member.control.isSignalled g then none else after)
  | some (.within (.answer _)) => (s, .ask)
  | _ => (s, .stop)

/-- What a part does that is woken up. -/
def proceed (s : Session) (p : Part) : Session × Then × List Notice :=
  if s.hasEnded p then (s, .stop, [])
  else if (s.request? p).isSome then (s, .ask, [])
  else
    match p with
    | .runner g =>
      let (s, t) := s.proceedRunner g
      (s, t, [])
    | p => s.proceedLoop p

/-- What a part does on an answer. -/
def receive (s : Session) (p : Part) (a : Answer) : Session × Then :=
  match p with
  | .display => (s, .goOn)
  | .renewal =>
    match s.renewal with
    | .asking stage => s.afterRenewal (Renewal.answered s.member stage a)
    | _ => (s, .goOn)
  | .survey =>
    match s.survey with
    | .asking stage => s.afterSurvey (Survey.roundAnswered s.member stage a)
    | _ => (s, .goOn)
  | .runner g =>
    match (s.member.control.runner? g).map Runner.activity with
    | some (.within (.answer asked)) => s.afterStep g (Step.answered s.member asked a)
    | _ => (s, .goOn)

/-- The view shown when all parts have ended: the member alone, without an announce. -/
def withdraw (s : Session) : Session × List Notice :=
  let m := s.member.setAccepted none
  let (member, notices) := m.present m.isolated
  ({ s with member }, notices)

/-- A session that was started is not started again. -/
theorem start_of_started (s : Session) (h : s.member.control.started = true) : s.start = s := by
  simp [start, h]

/-- A session that was told to stop is not started. -/
theorem start_of_stopping (s : Session) (h : s.member.stopping = true) : s.start = s := by
  simp [start, h]

end Session

end Rollcall
