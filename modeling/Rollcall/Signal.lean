import Rollcall.Duration

/-!
# A stop signal

A signal is a flag that its sender may set again and again, and may let go of. Whoever watches it
rests until the rest is over or until something is sent that the watcher has not seen, whichever
comes first. Only a raised flag or a sender that is gone means stop.
-/

namespace Rollcall

/-- The sender's side of a signal. -/
structure Signal where
  /-- The value sent last. -/
  raised : Bool := false
  /-- How many values were sent. -/
  sends : Nat := 0
  /-- Whether the sender is gone. -/
  dropped : Bool := false
  deriving DecidableEq, Repr

namespace Signal

/-- What a sender does. -/
inductive Act
  | send (value : Bool)
  | drop
  deriving DecidableEq, Repr

/-- Whether the signal means stop. -/
def triggered (s : Signal) : Bool := s.raised || s.dropped

/-- The signal after an act of its sender; a sender that is gone does nothing. -/
def act (s : Signal) (a : Act) : Signal :=
  if s.dropped then s
  else
    match a with
    | .send value => { s with raised := value, sends := s.sends + 1 }
    | .drop => { s with dropped := true }

end Signal

/-- A signal as one watcher knows it. -/
structure Watch where
  signal : Signal := {}
  /-- How many of the values sent the watcher has seen. -/
  seen : Nat := 0
  deriving DecidableEq, Repr

/-- How a rest ended. -/
structure Rest where
  /-- Whether it lasted as long as it was meant to, with no stop at its end. -/
  full : Bool
  /-- How long it lasted. -/
  length : Duration
  deriving DecidableEq, Repr

namespace Watch

/-- The signal after an act of its sender. -/
def act (w : Watch) (a : Signal.Act) : Watch := { w with signal := w.signal.act a }

/-- Whether the signal means stop. -/
def triggered (w : Watch) : Bool := w.signal.triggered

/-- The watcher has seen everything sent so far. -/
def catchUp (w : Watch) : Watch := { w with seen := w.signal.sends }

/-- A rest of a given length while the sender does nothing. -/
def rest (w : Watch) (length : Duration) : Rest × Watch :=
  if w.triggered then (⟨false, 0⟩, w)
  else if w.seen ≠ w.signal.sends then (⟨false, 0⟩, w.catchUp)
  else (⟨true, length.capped⟩, w)

/-- A rest of a given length while the sender acts after a while. -/
def restDuring (w : Watch) (length delay : Duration) (a : Signal.Act) : Rest × Watch :=
  let delay := delay.capped
  match w.rest length with
  | (⟨true, length⟩, w) =>
    if delay < length then (⟨false, delay⟩, (w.act a).catchUp)
    else (⟨true, length⟩, w.act a)
  | (cut, w) => (cut, w.act a)

/-- A rest ends early only on a signal that means stop or that was not seen yet. -/
theorem rest_full {w : Watch} {length : Duration} (h : w.triggered = false)
    (hs : w.seen = w.signal.sends) : w.rest length = (⟨true, length.capped⟩, w) := by
  simp [rest, h, hs]

end Watch

end Rollcall
