import Rollcall.Schedule
import Rollcall.Session
import Rollcall.Store.Tree

/-!
# A world of members

One store kept in memory, the sessions that run on it by one clock, and members that are moved by
hand, one step or round at a time. A request may take a while; it is carried out at the end of that
while. An answer prepared for a request takes the place of the store's own.
-/

namespace Rollcall

open Store (Request Answer Failure)

/-- An answer prepared for a request. -/
structure Prepared where
  method : Store.Method
  /-- What the key of the request ends with. -/
  suffix : String
  /-- How many such requests it lets pass first. -/
  skip : Nat
  response : Store.Response

namespace Prepared

/-- Whether an answer was prepared for a request. -/
def fits (p : Prepared) (r : Request) : Bool :=
  p.method = r.method && p.suffix.toList.isSuffixOf r.key.toList

/-- The answer to a request among those prepared, and what is left of them: the first one that fits
counts, and it is used up unless it lets the request pass. -/
def take (r : Request) : List Prepared → List Prepared × Option Store.Response
  | [] => ([], none)
  | p :: rest =>
    if p.fits r then
      if 0 < p.skip then ({ p with skip := p.skip - 1 } :: rest, none)
      else (rest, some p.response)
    else
      let (rest, response) := take r rest
      (p :: rest, response)

end Prepared

/-- A store with the members that use it. -/
structure World where
  agenda : Agenda (String × Part) := {}
  tree : Store.Tree := {}
  prepared : List Prepared := []
  /-- How long a request takes. -/
  latency : Store.Method → Duration := fun _ => 0
  /-- The keys that are used by hand. -/
  layout : Registry.Layout
  /-- The failures of what was asked by hand. -/
  tally : Registry.Tally := {}
  /-- The members that are moved by hand. -/
  members : Dict String Member := ∅
  sessions : Dict String Session := ∅
  /-- Sessions that nobody holds any more; their parts run until they notice. -/
  dropped : List String := []
  /-- What listeners were told, by member, the latest first. -/
  log : List (String × Notice) := []

namespace World

/-- Write down what the listeners of a member are told. -/
def tell (w : World) (id : String) (notices : List Notice) : World :=
  { w with log := (notices.map fun n => (id, n)).reverse ++ w.log }

/-- What listeners were told since this was last asked, in order. -/
def takeLog (w : World) : List (String × Notice) × World := (w.log.reverse, { w with log := [] })

/-- The answer to a request that is carried out now. -/
def serve (w : World) (r : Request) : World × Answer :=
  match Prepared.take r w.prepared with
  | (prepared, some response) => ({ w with prepared }, .ok response)
  | (prepared, none) =>
    let (tree, a) := w.tree.run w.agenda.now r
    ({ w with prepared, tree }, a)

/-- Replace a session: runners that it started become ready, and parts at rest that were told to
stop wake up. -/
def putSession (w : World) (id : String) (s : Session) : World :=
  let before := ((w.sessions.find? id).map fun s => s.member.control.generation).getD 0
  let after := s.member.control.generation
  let fresh := (List.range' (before + 1) (after - before)).map fun g => (id, Part.runner g)
  { w with
    agenda := (fresh.foldl Agenda.schedule w.agenda).rouse fun t =>
      t.1 = id && s.isSignalled t.2
    sessions := w.sessions.insert id s }

/-- What the agenda makes of a part that has run. -/
def put (w : World) (id : String) (s : Session) (p : Part) (t : Then) : World :=
  let w := w.putSession id s
  match t with
  | .goOn => w
  | .stop => { w with agenda := w.agenda.retire }
  | .rest d =>
    if s.isSignalled p then w else { w with agenda := w.agenda.rest (id, p) d true }
  | .ask =>
    match (s.request? p).map fun r => w.latency r.method with
    | none | some 0 => w
    | some d => { w with agenda := w.agenda.rest (id, p) d false }

/-- The world after the first ready part has run. -/
def run (w : World) : World :=
  match w.agenda.ready with
  | [] => w
  | ⟨(id, p), _⟩ :: _ =>
    match w.sessions.find? id with
    | none => { w with agenda := w.agenda.retire }
    | some s =>
      match s.request? p with
      | some r =>
        let (w, a) := w.serve r
        let (s, t) := s.receive p a
        w.put id s p t
      | none =>
        let (s, t, notices) := s.proceed p
        (w.tell id notices).put id s p t

instance : Scheduled World (String × Part) where
  agenda := agenda
  setAgenda w agenda := { w with agenda }
  run := run

/-! ## Requests by hand -/

/-- The answer to a request made by hand, after the while it takes. -/
def call (w : World) (r : Request) : World × Answer :=
  match w.latency r.method with
  | 0 => w.serve r
  | d => (Scheduled.pause w d).serve r

/-- The result of an operation carried out by hand. -/
def operate {α : Type} (w : World) (op : Registry.Operation α) : World × Except Failure α :=
  let (w, a) := w.call op.request
  let (tally, r) := op.accept w.tally a
  ({ w with tally }, r)

/-- The result of an operation carried out by hand for a member. -/
def operateFor {α : Type} (w : World) (m : Member) (op : Registry.Operation α) :
    World × Member × Except Failure α :=
  let (w, a) := w.call op.request
  (w, m.accept op a)

/-! ## Members moved by hand -/

/-- The requests that one step or round makes at most. -/
def requestLimit : Nat := 4

/-- Follow a round to its end. -/
def follow {κ α : Type} (request : Member → κ → Request)
    (answered : Member → κ → Answer → Member × Turn κ α) :
    (limit : Nat) → World → Member × Turn κ α → World × Member × Option α
  | _, w, (m, .over a) => (w, m, some a)
  | 0, w, (m, .wait _) => (w, m, none)
  | limit + 1, w, (m, .wait stage) =>
    let (w, a) := w.call (request m stage)
    follow request answered limit w (answered m stage a)

/-- Follow a step to its end; its rest is cut short if the member was told to stop. -/
def followStep : (limit : Nat) → World → Member × Step.Progress → World × Member × Option Event
  | _, w, (m, .over e) => (w, m, e)
  | _, w, (m, .wait (.rest d after)) =>
    if m.stopping then (w, m, none) else (Scheduled.pause w d, m, after)
  | 0, w, (m, .wait (.answer _)) => (w, m, none)
  | limit + 1, w, (m, .wait (.answer asked)) =>
    let (w, a) := w.call (Step.request m asked)
    followStep limit w (Step.answered m asked a)

/-- A whole step of a member in a state. -/
def step (w : World) (m : Member) (state : State) : World × Member × Option Event :=
  followStep requestLimit w (Step.begin m state)

/-- What a member does after an error. -/
def recover (w : World) (m : Member) (e : MemberError) : World × Member × Option Event :=
  followStep requestLimit w (m, Step.recover m e)

/-- A whole round of renewal, and the pause after it. -/
def renew (w : World) (m : Member) : World × Member × Duration :=
  let (w, m, d) := follow Renewal.request Renewal.answered requestLimit w (Renewal.begin m)
  (w, m, d.getD m.renewal.current)

/-- A whole round of survey, and the pause after it. -/
def survey (w : World) (m : Member) : World × Member × Duration :=
  let (w, m, d) := follow Survey.request Survey.roundAnswered requestLimit w (Survey.begin m)
  (w, m, d.getD m.survey.current)

/-- A look at the others, whatever the member's state is. -/
def lookAround (w : World) (m : Member) : World × Member × Except MemberError Bool :=
  let (w, m, r) := follow Survey.request Survey.answered requestLimit w (m, .wait .listing)
  (w, m, r.getD (.ok false))

/-! ## Sessions -/

/-- The session of a member, unless nobody holds it any more. -/
def session? (w : World) (id : String) : Option Session :=
  if w.dropped.contains id then none else w.sessions.find? id

/-- Start a session. -/
def startSession (w : World) (id : String) (s : Session) : World :=
  let started := s.start
  let fresh := if s.member.control.started || s.member.stopping then [] else Session.loops
  let w := { w with
    agenda := fresh.foldl (fun a p => a.schedule (id, p)) w.agenda }
  w.putSession id started

/-- Let tasks run until a part of a session has ended. -/
def awaitPart (w : World) (id : String) (p : Part) : World :=
  Scheduled.await w fun w => (w.sessions.find? id).all fun s => s.hasEnded p

/-- Remove the accepted announce of a session from the store, whether or not that works. -/
def withdrawAnnounce (w : World) (id : String) : World :=
  match (w.sessions.find? id).bind fun s => s.member.known.accepted with
  | none => w
  | some a =>
    let op := Registry.withdraw a.key
    let (w, answer) := w.call op.request
    match w.sessions.find? id with
    | some s => w.putSession id { s with member := (s.member.accept op answer).1 }
    | none => w

/-- Stop a session: tell its parts, wait until they have ended, remove its announce, and show the
member alone. -/
def stopSession (w : World) (id : String) (s : Session) : World :=
  if s.member.stopping then w
  else
    let s := s.halt
    let (retired, control) := s.member.control.takeRetired
    let loops := if control.started then Session.loops else []
    let w := w.putSession id { s with member := { s.member with control } }
    let w := (retired.map Part.runner ++ loops).foldl (fun w p => w.awaitPart id p) w
    let w := w.withdrawAnnounce id
    match w.sessions.find? id with
    | some s =>
      let (s, notices) := s.withdraw
      (w.tell id notices).putSession id s
    | none => w

/-- Let go of a session: its parts are told to stop, and nobody waits for them. -/
def dropSession (w : World) (id : String) (s : Session) : World :=
  { w.putSession id s.halt with dropped := id :: w.dropped }

end World

end Rollcall
