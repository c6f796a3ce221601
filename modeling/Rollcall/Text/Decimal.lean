/-!
# Natural numbers in decimal

Reading accepts one optional plus sign and then ASCII digits, leading zeros included; printing
writes the digits without either. `read_digits` says that what is printed is read back.
-/

namespace Rollcall.Text.Decimal

/-- The number of values of an unsigned 64-bit word: 2^64. -/
def word64 : Nat := 18446744073709551616

/-- The number of values of an unsigned 32-bit word: 2^32. -/
def word32 : Nat := 4294967296

/-- Whether a number is one of 64 bits with a sign. -/
def isSigned64 (n : Int) : Bool := -9223372036854775808 ≤ n && n ≤ 9223372036854775807

/-- Whether a character is an ASCII digit. -/
def isDigit (c : Char) : Bool := '0' ≤ c && c ≤ '9'

/-- The number written by a run of digits, the first one the most significant. -/
def value (cs : List Char) : Nat := Nat.ofDigitChars 10 cs 0

/-- The digits of a number, without leading zeros. -/
def digits (n : Nat) : List Char := Nat.toDigits 10 n

/-- The digits of a number in at least `width` places, filled with zeros on the left. -/
def padded (width n : Nat) : List Char :=
  List.replicate (width - (digits n).length) '0' ++ digits n

/-- The number a text writes, if it has digits only and at least one. -/
def readDigits (cs : List Char) : Option Nat :=
  if cs ≠ [] ∧ cs.all isDigit then some (value cs) else none

/-- The number below `limit` a text writes, with an optional plus sign. -/
def read (limit : Nat) (cs : List Char) : Option Nat :=
  let body := match cs with
    | '+' :: rest => rest
    | _ => cs
  (readDigits body).filter (· < limit)

/-- Every character of a printed number is a digit. -/
theorem isDigit_of_mem_digits {n : Nat} {c : Char} (h : c ∈ digits n) : isDigit c = true := by
  have := Nat.isDigit_of_mem_toDigits (b := 10) (by decide) (by decide) h
  simp only [Char.isDigit, Bool.and_eq_true, decide_eq_true_eq] at this
  simp only [isDigit, Bool.and_eq_true, decide_eq_true_eq]
  exact this

/-- A number is printed with at least one digit. -/
theorem digits_ne_nil (n : Nat) : digits n ≠ [] := Nat.toDigits_ne_nil

/-- The digits of a number have that value. -/
theorem value_digits (n : Nat) : value (digits n) = n := by
  simp [value, digits]

/-- A number that is read is below the limit. -/
theorem lt_of_read {limit n : Nat} {cs : List Char} (h : read limit cs = some n) : n < limit := by
  unfold read at h
  obtain ⟨-, hlt⟩ := Option.filter_eq_some_iff.mp h
  simpa using hlt

/-- A number is read back from its digits. -/
theorem readDigits_digits (n : Nat) : readDigits (digits n) = some n := by
  rw [readDigits, value_digits,
    if_pos ⟨digits_ne_nil n, by simpa using fun c hc => isDigit_of_mem_digits hc⟩]

/-- A number below the limit is read back from its digits. -/
theorem read_digits {limit n : Nat} (h : n < limit) : read limit (digits n) = some n := by
  unfold read
  split
  · next rest heq =>
    have : '+' ∈ digits n := by rw [heq]; simp
    exact absurd (isDigit_of_mem_digits this) (by decide)
  · simp [readDigits_digits, h]

end Rollcall.Text.Decimal
