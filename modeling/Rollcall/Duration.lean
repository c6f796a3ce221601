import Rollcall.Binary64
import Rollcall.Text.Decimal

/-!
# Durations

A duration is a whole number of nanoseconds. Conversion to seconds goes through doubles: the
seconds and the nanoseconds are rounded one after the other, and back to the nearest nanosecond.
-/

namespace Rollcall

/-- A span of time in nanoseconds. -/
abbrev Duration := Nat

namespace Duration

/-- The nanoseconds in a second. -/
def nanosPerSecond : Nat := 1000000000

/-- The nanoseconds in a millisecond. -/
def nanosPerMilli : Nat := 1000000

/-- The least span that is too long to represent: 2^64 seconds. -/
def limit : Duration := Text.Decimal.word64 * nanosPerSecond

/-- A span of whole seconds. -/
def ofSeconds (s : Nat) : Duration := s * nanosPerSecond

/-- A span of whole milliseconds. -/
def ofMillis (ms : Nat) : Duration := ms * nanosPerMilli

/-- The whole milliseconds of a span. -/
def toMillis (d : Duration) : Nat := d / nanosPerMilli

/-- The milliseconds of a span, rounded up. -/
def toMillisUp (d : Duration) : Nat := (d + (nanosPerMilli - 1)) / nanosPerMilli

/-- The longest span for which anything waits: thirty years of 365 days. -/
def longestWait : Duration := ofSeconds 946080000

/-- A span as far as anything waits for it. -/
def capped (d : Duration) : Duration := min d longestWait

/-- A span in seconds, as a double. -/
def seconds (d : Duration) : Binary64 :=
  Binary64.ofNat (d / nanosPerSecond) +
    Binary64.ofNat (d % nanosPerSecond) / Binary64.ofNat nanosPerSecond

/-- The span nearest to a number of seconds, ties to even, if it can be represented. -/
def ofBinary64? (x : Binary64) : Option Duration :=
  let nanos := roundDiv (x.units * nanosPerSecond) Binary64.one
  if nanos < limit then some nanos else none

/-- The sum of two spans, if it can be represented. -/
def add? (a b : Duration) : Option Duration := if a + b < limit then some (a + b) else none

/-- Whole seconds that outlast a span by a quarter: at least one, and at most 2^64 - 1. -/
def timeToLive (d : Duration) : Nat :=
  let quarterMore : Binary64 := ⟨Binary64.one + Binary64.one / 4⟩
  max 1 (min (Text.Decimal.word64 - 1) (d.seconds * quarterMore).ceil)

end Duration

end Rollcall
