import Rollcall.Lifecycle

/-!
# Control of the runners

While the state is an active one, a runner works on it step by step. The control holds the runner
that counts; in the states without steps it holds none. A runner that is no longer wanted is
signalled and retired: it leaves its step in its own time, and what the step then says is ignored.
Every change of state goes through `handle`, which afterwards sees to the runners.
-/

namespace Rollcall

/-- Where a runner stands. -/
inductive Activity (σ : Type)
  /-- Between two steps. -/
  | poised
  /-- Inside a step that waits for something. -/
  | within (step : σ)
  | ended
  deriving DecidableEq, Repr

namespace Activity

/-- Whether a runner has ended. -/
def hasEnded {σ : Type} : Activity σ → Bool
  | ended => true
  | _ => false

end Activity

/-- A runner that was started. -/
structure Runner (σ : Type) where
  /-- Its number in the order of starting, from 1. -/
  generation : Nat
  /-- Whether it was told to stop. -/
  signalled : Bool := false
  activity : Activity σ := .poised
  deriving DecidableEq, Repr

/-- The state of a member and the runners that serve it; `σ` is a step that waits. -/
structure Control (σ : Type) where
  state : State := .getCluster
  /-- The cluster id, once it is known. -/
  clusterId : Option String := none
  started : Bool := false
  /-- The number of runners started. -/
  generation : Nat := 0
  /-- The runner that counts. -/
  held : Option Nat := none
  /-- Signalled runners that may still be inside a step. -/
  retired : List Nat := []
  /-- Every runner started, the oldest first. -/
  runners : List (Runner σ) := []
  deriving DecidableEq, Repr

namespace Control

variable {σ : Type}

/-- The runner of a generation. -/
def runner? (c : Control σ) (g : Nat) : Option (Runner σ) :=
  c.runners.find? fun r => r.generation = g

/-- Whether a runner was told to stop. -/
def isSignalled (c : Control σ) (g : Nat) : Bool := (c.runner? g).all Runner.signalled

/-- Whether a runner has ended. -/
def hasEnded (c : Control σ) (g : Nat) : Bool := (c.runner? g).all fun r => r.activity.hasEnded

/-- Whether a runner goes on serving the state. -/
def isAlive (c : Control σ) (g : Nat) : Bool := !c.hasEnded g && !c.isSignalled g

/-- Change the runner of a generation. -/
def modify (c : Control σ) (g : Nat) (f : Runner σ → Runner σ) : Control σ :=
  { c with runners := c.runners.map fun r => if r.generation = g then f r else r }

/-- Say where a runner stands. -/
def setActivity (c : Control σ) (g : Nat) (a : Activity σ) : Control σ :=
  c.modify g fun r => { r with activity := a }

/-- Start a runner and hold it. -/
def spawn (c : Control σ) : Control σ :=
  let g := c.generation + 1
  { c with generation := g, held := some g, runners := c.runners ++ [{ generation := g }] }

/-- Tell the held runner to stop and let it go. -/
def retire (c : Control σ) (g : Nat) : Control σ :=
  { c.modify g fun r => { r with signalled := true } with
    held := none
    retired := (c.retired.filter fun h => !c.hasEnded h) ++ [g] }

/-- See to it that a runner is at work if and only if the state is active. -/
def tend (c : Control σ) : Control σ :=
  if c.state.active then
    if c.held.any c.isAlive then c else c.spawn
  else
    match c.held with
    | some g => c.retire g
    | none => c

/-- Start serving the state, unless that was done before. -/
def start (c : Control σ) : Control σ :=
  if c.started then c else { c with started := true }.tend

/-- The control after an event. -/
def handle (c : Control σ) (e : Event) : Control σ :=
  let c := { c with state := c.state.next e }
  if c.started then c.tend else c

/-- The control after an event that counts in one state only. -/
def handleIf (c : Control σ) (expected : State) (e : Event) : Control σ :=
  if c.state = expected then c.handle e else c

/-- The control after an event of a runner, which counts only if the runner is the held one. -/
def handleFrom (c : Control σ) (g : Nat) (e : Event) : Control σ :=
  if c.held = some g then c.handle e else c

/-- End everything. -/
def stop (c : Control σ) : Control σ := c.handle .stopped

/-- A runner between two steps looks at the state; there is none if the runner ends here. -/
def enter (c : Control σ) (g : Nat) : Control σ × Option State :=
  if c.isSignalled g || !c.state.active then (c.setActivity g .ended, none)
  else (c, some c.state)

/-- A runner waits inside a step. -/
def suspend (c : Control σ) (g : Nat) (step : σ) : Control σ := c.setActivity g (.within step)

/-- A runner comes out of a step with an event or without one. -/
def leave (c : Control σ) (g : Nat) (e : Option Event) : Control σ :=
  if c.isSignalled g then c.setActivity g .ended
  else
    let c := c.setActivity g .poised
    match e with
    | some e => c.handleFrom g e
    | none => c

/-- A runner breaks down inside a step. -/
def crash (c : Control σ) (g : Nat) : Control σ := c.setActivity g .ended

/-- The runners to wait for, which are then forgotten. -/
def takeRetired (c : Control σ) : List Nat × Control σ := (c.retired, { c with retired := [] })

/-- An event that counts in one state only leaves the other states alone. -/
theorem handleIf_of_ne (c : Control σ) {expected : State} (e : Event) (h : c.state ≠ expected) :
    c.handleIf expected e = c := by simp [handleIf, h]

end Control

end Rollcall
