import Rollcall.Control
import Rollcall.Schedule

/-!
# Rehearsals

A rehearsal runs the control of a member with steps that play a script instead of talking to a
store: every step writes down the state it serves and does what the next scene says. With the script
used up, a step rests for an hour and ends without an event.
-/

namespace Rollcall

/-- What one step does. -/
structure Scene where
  event : Option Event := none
  /-- How long the step rests before it is over. -/
  pause : Duration := 0
  /-- Whether its rest goes on when its runner is told to stop. -/
  deaf : Bool := false
  /-- The cluster id that it puts down, if any. -/
  clusterId : Option String := none
  /-- Whether it breaks down at once. -/
  breaks : Bool := false
  deriving DecidableEq, Repr

/-- The control of a member with the script of its steps. -/
structure Rehearsal where
  agenda : Agenda Nat := {}
  /-- A step that waits is the scene it plays. -/
  control : Control Scene := {}
  script : List Scene
  /-- The states served and when, the latest first. -/
  log : List (State × Nat) := []

namespace Rehearsal

/-- What a step does with the script used up. -/
def idle : Scene := { pause := Duration.ofSeconds 3600 }

/-- Replace the control: runners that it started become ready, and runners at rest that were told to
stop wake up. -/
def putControl (r : Rehearsal) (c : Control Scene) : Rehearsal :=
  let before := r.control.generation
  let fresh := List.range' (before + 1) (c.generation - before)
  { r with
    agenda := (fresh.foldl Agenda.schedule r.agenda).rouse c.isSignalled
    control := c }

/-- The first ready runner is through for now. -/
def retire (r : Rehearsal) : Rehearsal := { r with agenda := r.agenda.retire }

/-- A runner plays a scene in a state. -/
def play (r : Rehearsal) (g : Nat) (state : State) : Rehearsal :=
  let scene := r.script.headD idle
  let r := { r with log := (state, r.agenda.now) :: r.log, script := r.script.tail }
  if scene.breaks then (r.putControl (r.control.crash g)).retire
  else
    let c := { r.control with clusterId := scene.clusterId <|> r.control.clusterId }
    let r := r.putControl (c.suspend g scene)
    { r with agenda := r.agenda.rest g scene.pause (!scene.deaf) }

/-- A runner comes to the end of a scene, which is without an event if it was cut short. -/
def finish (r : Rehearsal) (g : Nat) (scene : Scene) : Rehearsal :=
  let cut := !scene.deaf && r.control.isSignalled g
  r.putControl (r.control.leave g (if cut then none else scene.event))

/-- The rehearsal after the first ready runner has run. -/
def run (r : Rehearsal) : Rehearsal :=
  match r.agenda.ready with
  | [] => r
  | ⟨g, _⟩ :: _ =>
    match (r.control.runner? g).map Runner.activity with
    | some .poised =>
      match r.control.enter g with
      | (c, none) => (r.putControl c).retire
      | (_, some state) => r.play g state
    | some (.within scene) => r.finish g scene
    | _ => r.retire

instance : Scheduled Rehearsal Nat where
  agenda := agenda
  setAgenda r agenda := { r with agenda }
  run := run

/-- The states served since this was last asked, in order. -/
def takeLog (r : Rehearsal) : List (State × Nat) × Rehearsal :=
  (r.log.reverse, { r with log := [] })

/-- Change the control from outside. -/
def command (r : Rehearsal) (f : Control Scene → Control Scene) : Rehearsal :=
  r.putControl (f r.control)

/-- Wait until the runners told to stop have ended. -/
def join (r : Rehearsal) : Rehearsal :=
  let (retired, control) := r.control.takeRetired
  retired.foldl (fun r g => Scheduled.await r fun r => r.control.hasEnded g)
    { r with control }

end Rehearsal

end Rollcall
