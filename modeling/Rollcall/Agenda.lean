import Rollcall.Duration

/-!
# The agenda of tasks

Time stands still while tasks run, one at a time, in the order in which they became ready. When no
task is ready, time jumps to the next moment at which one wakes up. A task wakes up at the first
whole millisecond at which its rest is over; no rest lasts longer than thirty years.

A rest that is over at once takes no time and no turn. A task whose turn has seen the end of 128
rests gives way at the next one, so that no task keeps the others from running. The tasks that gave
way go on when no other one is ready, the latest of them first.
-/

namespace Rollcall

/-- A task that is ready. -/
structure Ready (τ : Type) where
  task : τ
  /-- How many rests of the task have ended in this turn. -/
  ended : Nat := 0
  deriving DecidableEq, Repr

/-- A task at rest. -/
structure Sleeper (τ : Type) where
  task : τ
  /-- The instant at which it wakes up by itself. -/
  wake : Nat
  /-- Whether it can be woken up before that. -/
  light : Bool
  deriving DecidableEq, Repr

/-- A task whose rest ends with the beginning of its turn. -/
def Ready.rested {τ : Type} (t : τ) : Ready τ := { task := t, ended := 1 }

/-- The time, the tasks that are ready, and those at rest. -/
structure Agenda (τ : Type) where
  /-- Nanoseconds since the beginning. -/
  now : Nat := 0
  /-- The tasks that are ready, the first one to run in front. -/
  ready : List (Ready τ) := []
  /-- The tasks that gave way, the latest one in front. -/
  yielded : List τ := []
  /-- The tasks at rest, in the order in which they lay down. -/
  asleep : List (Sleeper τ) := []
  /-- How many waits from outside have ended since tasks could last run. -/
  outside : Nat := 0
  deriving DecidableEq, Repr

namespace Agenda

variable {τ : Type}

/-- The rests that may end in one turn. -/
def patience : Nat := 128

/-- The instant at which a rest that begins at `now` is over. -/
def wakeTime (now : Nat) (d : Duration) : Nat :=
  Duration.ofMillis (Duration.toMillisUp (now + Duration.capped d))

/-- Put a task behind those that are ready. -/
def schedule (a : Agenda τ) (t : τ) : Agenda τ := { a with ready := a.ready ++ [{ task := t }] }

/-- The first ready task is through for now. -/
def retire (a : Agenda τ) : Agenda τ := { a with ready := a.ready.tail }

/-- Lay a task down for a while. -/
def lay (a : Agenda τ) (t : τ) (d : Duration) (light : Bool) : Agenda τ :=
  { a with asleep := a.asleep ++ [{ task := t, wake := wakeTime a.now d, light }] }

/-- The first ready task comes to the end of a rest: it stays in front or gives way. -/
def endRest (a : Agenda τ) : Agenda τ :=
  match a.ready with
  | [] => a
  | r :: others =>
    if r.ended < patience then { a with ready := { r with ended := r.ended + 1 } :: others }
    else { a with ready := others, yielded := r.task :: a.yielded }

/-- The first ready task rests for a while. -/
def rest (a : Agenda τ) (t : τ) (d : Duration) (light : Bool) : Agenda τ :=
  if a.now < wakeTime a.now d then a.retire.lay t d light else a.endRest

/-- Wake up the tasks at rest that can be woken up and pass a test. -/
def rouse (a : Agenda τ) (p : τ → Bool) : Agenda τ :=
  let woken (s : Sleeper τ) : Bool := s.light && p s.task
  { a with
    ready := a.ready ++ (a.asleep.filter woken).map fun s => .rested s.task
    asleep := a.asleep.filter fun s => !woken s }

/-- The tasks that gave way are ready again. -/
def resume (a : Agenda τ) : Agenda τ :=
  { a with ready := a.ready ++ a.yielded.map .rested, yielded := [] }

/-- The next instant at which a task wakes up. -/
def nextWake (a : Agenda τ) : Option Nat := (a.asleep.map Sleeper.wake).min?

/-- Move on to an instant, and wake up the tasks whose rest is over then, those that were due first
in front. -/
def advance (a : Agenda τ) (instant : Nat) : Agenda τ :=
  let now := max a.now instant
  let due (s : Sleeper τ) : Bool := s.wake ≤ now
  { a with
    now
    ready := a.ready ++
      ((a.asleep.filter due).mergeSort fun s t => s.wake ≤ t.wake).map fun s => .rested s.task
    asleep := a.asleep.filter fun s => !due s }

/-- No rest is over before it has lasted as long as it was meant to, or as long as any rest may. -/
theorem le_wakeTime (now : Nat) (d : Duration) : now + d.capped ≤ wakeTime now d := by
  simp only [wakeTime, Duration.ofMillis, Duration.toMillisUp, Duration.nanosPerMilli]
  omega

/-- A rest lasts less than a millisecond longer than it was meant to. -/
theorem wakeTime_lt (now : Nat) (d : Duration) : wakeTime now d < now + d + 1000000 := by
  have := Nat.min_le_left d Duration.longestWait
  simp only [wakeTime, Duration.ofMillis, Duration.toMillisUp, Duration.nanosPerMilli,
    Duration.capped]
  omega

end Agenda

end Rollcall
