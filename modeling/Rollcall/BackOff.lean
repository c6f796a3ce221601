import Rollcall.Duration
import Rollcall.Text.Blank
import Rollcall.Text.Split

/-!
# Back-off policies

A policy gives the pause for each retry index: the same one always, or one that rises from `min` at
index 0 to `max` at index `steps`, with the square of the way already gone. A back-off is a policy
and the index its owner has reached. In text a policy is `pause` or `min:max:steps`, with pauses in
milliseconds.
-/

namespace Rollcall

/-- How long to pause at a retry index. -/
inductive Policy
  /-- The same pause at every index. -/
  | constant (pause : Duration)
  /-- A pause that rises from `min` to `max` within `steps` steps. -/
  | rising (min max : Duration) (steps : Nat) (min_le_max : min ≤ max) (steps_pos : 0 < steps)
  deriving DecidableEq, Repr

namespace Policy

/-- A rising policy, unless its bounds are the wrong way round or it has no steps. -/
def rising? (min max : Duration) (steps : Nat) : Option Policy :=
  if h : min ≤ max ∧ 0 < steps then some (.rising min max steps h.1 h.2) else none

/-- The pause at an index; none if the arithmetic leaves the range of durations. -/
def pause? : Policy → Nat → Option Duration
  | .constant pause, _ => some pause
  | .rising min max steps _ _, i =>
    if steps ≤ i then some max
    else do
      let ratio := Binary64.ofNat i / Binary64.ofNat steps
      let rise ← Duration.ofBinary64? ((max - min).seconds * ratio * ratio)
      let pause ← Duration.add? min rise
      some (Nat.max min (Nat.min pause max))

/-- The longest pause over all indices. -/
def longest : Policy → Duration
  | .constant pause => pause
  | .rising _ max _ _ _ => max

/-- The pause at an index. -/
def pause (p : Policy) (i : Nat) : Duration := (p.pause? i).getD p.longest

open Text in
/-- The policy a text describes. -/
def read (text : List Char) : Option Policy :=
  match (split ':' (trim text)).map trim with
  | [pause] => (Decimal.read Decimal.word64 pause).map fun ms => .constant (Duration.ofMillis ms)
  | [min, max, steps] => do
    let min ← Decimal.read Decimal.word64 min
    let max ← Decimal.read Decimal.word64 max
    let steps ← Decimal.read Decimal.word32 steps
    rising? (Duration.ofMillis min) (Duration.ofMillis max) steps
  | _ => none

open Text in
/-- The text of a policy, its pauses cut to whole milliseconds. -/
def print : Policy → List Char
  | .constant pause => Decimal.digits (Duration.toMillis pause)
  | .rising min max steps _ _ =>
    join ':' [Decimal.digits (Duration.toMillis min), Decimal.digits (Duration.toMillis max),
      Decimal.digits steps]

end Policy

/-- A policy and the retry index reached. -/
structure BackOff where
  policy : Policy
  index : Nat := 0
  deriving DecidableEq, Repr

namespace BackOff

/-- The greatest retry index; counting stops there. -/
def lastIndex : Nat := Text.Decimal.word32 - 1

/-- The same pause at every index. -/
def constant (pause : Duration) : BackOff := { policy := .constant pause }

/-- A back-off at index 0 with the policy of a text. -/
def parse (text : String) : Option BackOff := (Policy.read text.toList).map ({ policy := · })

/-- The back-off of a text or else of a second text; if neither is one, a constant second. -/
def readOr (text fallback : String) : BackOff :=
  (parse text <|> parse fallback).getD (constant (Duration.ofSeconds 1))

/-- The text of the policy. -/
def print (b : BackOff) : String := String.ofList b.policy.print

/-- The pause at an index. -/
def value (b : BackOff) (i : Nat) : Duration := b.policy.pause i

/-- The longest pause. -/
def longest (b : BackOff) : Duration := b.policy.longest

/-- The pause at the index reached. -/
def current (b : BackOff) : Duration := b.value b.index

/-- The index after this one. -/
def nextIndex (b : BackOff) : Nat := min (b.index + 1) lastIndex

/-- The pause one step further on. -/
def next (b : BackOff) : Duration := b.value b.nextIndex

/-- One step further on. -/
def increment (b : BackOff) : BackOff := { b with index := b.nextIndex }

/-- Back to index 0. -/
def reset (b : BackOff) : BackOff := { b with index := 0 }

/-- What is next is what is current after an increment. -/
theorem next_eq_current_increment (b : BackOff) : b.next = b.increment.current := rfl

end BackOff

end Rollcall
