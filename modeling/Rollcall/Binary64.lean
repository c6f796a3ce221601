/-!
# Non-negative double-precision numbers

A non-negative finite binary64 number is a whole number of units of 2^-1074, its smallest positive
value. Every operation is the exact one on rationals, rounded to the nearest number with 53
significant bits, a tie going to the even neighbour. Numbers stay far below 2^1024 here, so no
operation overflows.
-/

namespace Rollcall

/-- A quotient of natural numbers rounded to the nearest whole number, ties to even. -/
def roundDiv (n d : Nat) : Nat :=
  let q := n / d
  let r := n % d
  if 2 * r < d then q
  else if d < 2 * r then q + 1
  else if q % 2 = 0 then q else q + 1

/-- A non-negative double, counted in units of its smallest positive value. -/
structure Binary64 where
  /-- The number of units. -/
  units : Nat
  deriving DecidableEq, Repr

namespace Binary64

/-- The number of units in one. -/
def one : Nat := Nat.pow 2 1074

/-- The double nearest to `n / d` units, ties to the one with an even last bit. -/
def nearest (n d : Nat) : Binary64 :=
  let place := Nat.pow 2 (Nat.log2 (n / d) - 52)
  ⟨roundDiv n (d * place) * place⟩

/-- The double nearest to a natural number. -/
def ofNat (n : Nat) : Binary64 := nearest (n * one) 1

/-- The rounded sum. -/
def add (a b : Binary64) : Binary64 := nearest (a.units + b.units) 1

/-- The rounded product. -/
def mul (a b : Binary64) : Binary64 := nearest (a.units * b.units) one

/-- The rounded quotient; the divisor is positive wherever it is used. -/
def div (a b : Binary64) : Binary64 := nearest (a.units * one) b.units

instance : Add Binary64 := ⟨add⟩
instance : Mul Binary64 := ⟨mul⟩
instance : Div Binary64 := ⟨div⟩

/-- The least whole number that is not below. -/
def ceil (a : Binary64) : Nat := (a.units + (one - 1)) / one

end Binary64

end Rollcall
