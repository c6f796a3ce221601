import Rollcall.Agenda

/-!
# Running by an agenda

A system of tasks runs until a deadline or until some task is through. Ready tasks always run before
time moves on; the number of runs is limited by the fuel, which no system with pauses uses up. A
wait from outside that is over at once lets no task run, but every so often it gives way like a
task.
-/

namespace Rollcall

/-- A system of tasks: its agenda, and what it is after the first ready task has run. -/
class Scheduled (ω : Type) (τ : outParam Type) where
  agenda : ω → Agenda τ
  setAgenda : ω → Agenda τ → ω
  run : ω → ω

namespace Scheduled

variable {ω τ : Type} [Scheduled ω τ]

/-- The time. -/
def now (w : ω) : Nat := (agenda w).now

/-- The time in whole milliseconds, rounded up. -/
def nowMillis (w : ω) : Nat := Duration.toMillisUp (now w)

/-- The runs that one wait may take. -/
def fuel : Nat := 10000000

/-- Let tasks run until something holds when none is ready, or until only a deadline is left. -/
def drive (done : ω → Bool) (deadline : Option Nat) : (fuel : Nat) → ω → ω
  | 0, w => w
  | fuel + 1, w =>
    if !(agenda w).ready.isEmpty then drive done deadline fuel (run w)
    else
      let w := setAgenda w (agenda w).resume
      if done w then w
      else if !(agenda w).ready.isEmpty then drive done deadline fuel w
      else
        match (agenda w).nextWake with
        | some t =>
          if deadline.all (t < ·) then
            drive done deadline fuel (setAgenda w ((agenda w).advance t))
          else w
        | none => w

/-- Move the clock alone; tasks that are due run when there is a wait. -/
def skip (w : ω) (d : Duration) : ω :=
  setAgenda w { agenda w with now := now w + d }

/-- Say how many waits from outside have ended since tasks could last run. -/
def setOutside (w : ω) (n : Nat) : ω := setAgenda w { agenda w with outside := n }

/-- A wait from outside that is over at once. -/
def endWait (w : ω) : ω :=
  let n := (agenda w).outside
  if n < Agenda.patience then setOutside w (n + 1)
  else setOutside (drive (fun _ => true) none fuel w) 1

/-- Let tasks run for a while. Tasks that wake up at its very end are ready then, but have not run
yet. -/
def pause (w : ω) (d : Duration) : ω :=
  let deadline := Agenda.wakeTime (now w) d
  if now w < deadline then
    let w := drive (fun _ => false) (some deadline) fuel w
    setOutside (setAgenda w ((agenda w).advance deadline)) 1
  else endWait w

/-- Let tasks run until something holds. -/
def await (w : ω) (done : ω → Bool) : ω :=
  if done w then endWait w else setOutside (drive done none fuel w) 1

end Scheduled

end Rollcall
