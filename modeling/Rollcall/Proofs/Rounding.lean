import Mathlib.Algebra.Order.Field.Basic
import Mathlib.Data.Nat.Cast.Order.Field
import Mathlib.Data.Nat.Log
import Mathlib.Data.Rat.Cast.Order
import Mathlib.Tactic.FieldSimp
import Mathlib.Tactic.Linarith
import Mathlib.Tactic.Positivity
import Rollcall.Proofs.Duration

/-!
# How doubles are rounded

The nearest double grows with the number it is nearest to, stands where that number stands if the
number is itself a double, and is larger by half a unit in the last place at most. So the operations
on doubles keep the order of their arguments, and the value of a result exceeds that of the exact one
by a small part of it and by next to nothing besides.
-/

namespace Rollcall

namespace Binary64

theorem roundDiv_mono {n m : Nat} (d : Nat) (h : n ≤ m) : roundDiv n d ≤ roundDiv m d := by
  rcases Nat.lt_or_ge (n / d) (m / d) with hlt | hge
  · exact Nat.le_trans (roundDiv_le n d) (Nat.le_trans hlt (le_roundDiv m d))
  · have hq : n / d = m / d := Nat.le_antisymm (Nat.div_le_div_right h) hge
    have hn := Nat.div_add_mod n d
    have hm := Nat.div_add_mod m d
    rw [hq] at hn
    have hr : n % d ≤ m % d := by omega
    unfold roundDiv
    simp only [hq]
    split_ifs <;> omega

theorem roundDiv_le_of_le {n d k : Nat} (hd : 0 < d) (h : n ≤ d * k) : roundDiv n d ≤ k := by
  refine Nat.le_trans (roundDiv_mono d h) ?_
  simp [roundDiv, hd]

theorem le_roundDiv_of_le {n d k : Nat} (hd : 0 < d) (h : d * k ≤ n) : k ≤ roundDiv n d :=
  Nat.le_trans ((Nat.le_div_iff_mul_le hd).mpr (by rwa [Nat.mul_comm])) (le_roundDiv n d)

/-- Rounding adds half of the divisor at most. -/
theorem two_mul_roundDiv_le (n d : Nat) : 2 * (d * roundDiv n d) ≤ 2 * n + d := by
  have hn := Nat.div_add_mod n d
  have hsucc : d * (n / d + 1) = d * (n / d) + d := Nat.mul_succ d (n / d)
  unfold roundDiv
  simp only
  split_ifs <;> omega

/-! ## The nearest double -/

/-- How many units the last of 53 bits stands for. -/
def place (n d : Nat) : Nat := Nat.pow 2 (Nat.log2 (n / d) - 52)

theorem place_pos (n d : Nat) : 0 < place n d := Nat.pow_pos (by decide)

theorem units_nearest (n d : Nat) :
    (nearest n d).units = roundDiv n (d * place n d) * place n d := rfl

variable {n m d k : Nat}

theorem place_dvd (h : Nat.log2 (n / d) - 52 ≤ k) : place n d ∣ 2 ^ k := Nat.pow_dvd_pow 2 h

theorem units_nearest_le (hd : 0 < d) (hk : place n d ∣ k) (h : n ≤ d * k) :
    (nearest n d).units ≤ k := by
  obtain ⟨j, rfl⟩ := hk
  rw [units_nearest, Nat.mul_comm (place n d) j]
  refine Nat.mul_le_mul_right _ (roundDiv_le_of_le (Nat.mul_pos hd (place_pos n d)) ?_)
  rwa [Nat.mul_assoc]

theorem le_units_nearest (hd : 0 < d) (hk : place n d ∣ k) (h : d * k ≤ n) :
    k ≤ (nearest n d).units := by
  obtain ⟨j, rfl⟩ := hk
  rw [units_nearest, Nat.mul_comm (place n d) j]
  refine Nat.mul_le_mul_right _ (le_roundDiv_of_le (Nat.mul_pos hd (place_pos n d)) ?_)
  rwa [Nat.mul_assoc]

/-- The nearest double grows with the number. -/
theorem units_nearest_mono (d : Nat) (h : n ≤ m) : (nearest n d).units ≤ (nearest m d).units := by
  have hdiv : n / d ≤ m / d := Nat.div_le_div_right h
  have hlog : Nat.log2 (n / d) ≤ Nat.log2 (m / d) := by
    rw [Nat.log2_eq_log_two, Nat.log2_eq_log_two]
    exact Nat.log_mono_right hdiv
  by_cases hplace : Nat.log2 (n / d) - 52 = Nat.log2 (m / d) - 52
  · have heq : place n d = place m d := congrArg (Nat.pow 2) hplace
    rw [units_nearest, units_nearest, heq]
    exact Nat.mul_le_mul_right _ (roundDiv_mono _ h)
  · -- A power of two lies between the two numbers, and it is a double.
    have hm : m / d ≠ 0 := by
      intro hzero
      rw [hzero] at hdiv hplace
      rw [Nat.le_zero.mp hdiv] at hplace
      exact hplace rfl
    have hd : 0 < d := Nat.pos_of_ne_zero fun hd => hm (by rw [hd, Nat.div_zero])
    calc (nearest n d).units
        ≤ 2 ^ (Nat.log2 (n / d) + 1) := by
          refine units_nearest_le hd (place_dvd (by omega)) (Nat.le_of_lt ?_)
          rw [Nat.mul_comm]
          exact (Nat.div_lt_iff_lt_mul hd).mp Nat.lt_log2_self
      _ ≤ 2 ^ Nat.log2 (m / d) := Nat.pow_le_pow_right (by decide) (by omega)
      _ ≤ (nearest m d).units := by
          refine le_units_nearest hd (place_dvd (by omega)) ?_
          rw [Nat.mul_comm]
          exact (Nat.le_div_iff_mul_le hd).mp (Nat.log2_self_le hm)

theorem units_mul_mono {x y z w : Binary64} (hx : x.units ≤ y.units) (hz : z.units ≤ w.units) :
    (x * z).units ≤ (y * w).units := units_nearest_mono one (Nat.mul_le_mul hx hz)

theorem units_nearest_zero (d : Nat) : (nearest 0 d).units = 0 := by
  simp [units_nearest, roundDiv]

theorem units_zero_mul {x : Binary64} (hx : x.units = 0) (y : Binary64) : (x * y).units = 0 := by
  have hmul : (x * y).units = (nearest (x.units * y.units) one).units := rfl
  rw [hmul, hx, Nat.zero_mul, units_nearest_zero]

theorem units_mul_zero (x : Binary64) {y : Binary64} (hy : y.units = 0) : (x * y).units = 0 := by
  have hmul : (x * y).units = (nearest (x.units * y.units) one).units := rfl
  rw [hmul, hy, Nat.mul_zero, units_nearest_zero]

/-- What has up to 53 bits, with zeros behind them, is a double. -/
theorem units_nearest_mul_pow (h : k < Nat.pow 2 53) (e : Nat) :
    (nearest (k * Nat.pow 2 e) 1).units = k * Nat.pow 2 e := by
  have hpos : 0 < Nat.pow 2 e := Nat.pow_pos (by decide)
  have hplace : place (k * Nat.pow 2 e) 1 ∣ k * Nat.pow 2 e := by
    refine Dvd.dvd.mul_left (place_dvd ?_) k
    rw [Nat.div_one]
    rcases Nat.eq_zero_or_pos k with rfl | hk
    · rw [Nat.zero_mul, Nat.log2_zero]
      omega
    · have hlt : k * Nat.pow 2 e < 2 ^ (53 + e) := by
        rw [Nat.pow_add]
        exact Nat.mul_lt_mul_of_pos_right h hpos
      have hlog := (Nat.log2_lt (Nat.mul_pos hk hpos).ne').mpr hlt
      omega
  exact Nat.le_antisymm (units_nearest_le Nat.one_pos hplace (Nat.one_mul _).ge)
    (le_units_nearest Nat.one_pos hplace (Nat.one_mul _).le)

/-- A natural number of up to 53 bits is a double. -/
theorem units_ofNat (h : k < Nat.pow 2 53) : (ofNat k).units = k * one :=
  units_nearest_mul_pow h 1074

/-! ## Values -/

/-- The number for which a double stands. -/
def value (x : Binary64) : ℚ := x.units / one

/-- The part of a number that rounding may add to it. -/
def roundoff : ℚ := 1 / 2 ^ 53

/-- What rounding may add besides, to numbers too small to have 53 bits. -/
def smallest : ℚ := 1 / one

theorem one_cast_pos : (0 : ℚ) < one := Nat.cast_pos.mpr one_pos

theorem value_nonneg (x : Binary64) : 0 ≤ x.value :=
  div_nonneg (Nat.cast_nonneg _) one_cast_pos.le

theorem place_le_add (n d : Nat) : (place n d : ℚ) ≤ 1 + (n / d : ℚ) / 2 ^ 52 := by
  have hdiv : (0 : ℚ) ≤ (n / d : ℚ) := div_nonneg (Nat.cast_nonneg _) (Nat.cast_nonneg _)
  rcases Nat.lt_or_ge (Nat.log2 (n / d)) 52 with hlt | hge
  · have hone : place n d = 1 := by
      rw [place, Nat.sub_eq_zero_of_le (Nat.le_of_lt hlt)]
    rw [hone]
    simpa using div_nonneg hdiv (by positivity)
  · have hne : n / d ≠ 0 := by
      intro hzero
      rw [hzero, Nat.log2_zero] at hge
      omega
    have hplace : place n d * 2 ^ 52 ≤ n / d := by
      rw [place, Nat.pow_eq, ← Nat.pow_add, Nat.sub_add_cancel hge]
      exact Nat.log2_self_le hne
    have hcast : (place n d : ℚ) * 2 ^ 52 ≤ (n / d : ℚ) := by
      refine le_trans ?_ (Nat.cast_div_le (α := ℚ) (m := n) (n := d))
      exact_mod_cast hplace
    have hle : (place n d : ℚ) ≤ (n / d : ℚ) / 2 ^ 52 := (le_div_iff₀ (by positivity)).mpr hcast
    linarith

/-- Rounding adds half a unit in the last place at most. -/
theorem units_nearest_le_add (n : Nat) (hd : 0 < d) :
    ((nearest n d).units : ℚ) ≤ (1 + roundoff) * (n / d) + 1 := by
  have hround : (2 : ℚ) * (d * (nearest n d).units) ≤ 2 * n + d * place n d := by
    have h := two_mul_roundDiv_le n (d * place n d)
    rw [Nat.mul_assoc, Nat.mul_comm (place n d), ← units_nearest] at h
    exact_mod_cast h
  have hpos : (0 : ℚ) < d := Nat.cast_pos.mpr hd
  have hunits : ((nearest n d).units : ℚ) ≤ n / d + place n d / 2 := by
    rw [← mul_le_mul_iff_right₀ hpos]
    have hn : (d : ℚ) * (n / d + place n d / 2) = n + d * place n d / 2 := by
      field_simp
    rw [hn]
    linarith
  have hplace := place_le_add n d
  have hroundoff : roundoff = (1 / 2 ^ 52) / 2 := by norm_num [roundoff]
  rw [hroundoff]
  linarith

/-- Rounding adds a small part of a number to it, and next to nothing. -/
theorem value_nearest_le (n : Nat) (hd : 0 < d) :
    (nearest n d).value ≤ (1 + roundoff) * (n / d / one) + smallest := by
  have h := div_le_div_of_nonneg_right (units_nearest_le_add n hd) one_cast_pos.le
  rwa [add_div, mul_div_assoc] at h

theorem value_ofNat (h : k < Nat.pow 2 53) : (ofNat k).value = k := by
  rw [value, units_ofNat h, Nat.cast_mul, mul_div_cancel_right₀ _ one_cast_pos.ne']

theorem value_ofNat_le (k : Nat) : (ofNat k).value ≤ (1 + roundoff) * k + smallest := by
  have h := value_nearest_le (k * one) Nat.one_pos
  rwa [Nat.cast_one, div_one, Nat.cast_mul, mul_div_cancel_right₀ _ one_cast_pos.ne'] at h

theorem value_add_le (x y : Binary64) :
    (x + y).value ≤ (1 + roundoff) * (x.value + y.value) + smallest := by
  have h := value_nearest_le (x.units + y.units) Nat.one_pos
  rwa [Nat.cast_one, div_one, Nat.cast_add, add_div] at h

theorem value_mul_le (x y : Binary64) :
    (x * y).value ≤ (1 + roundoff) * (x.value * y.value) + smallest := by
  have h := value_nearest_le (x.units * y.units) one_pos
  rwa [Nat.cast_mul, mul_div_assoc, mul_div_right_comm] at h

theorem value_div_le (x : Binary64) {y : Binary64} (hy : 0 < y.units) :
    (x / y).value ≤ (1 + roundoff) * (x.value / y.value) + smallest := by
  have h := value_nearest_le (x.units * one) hy
  have hone := one_cast_pos.ne'
  have hunits : (y.units : ℚ) ≠ 0 := (Nat.cast_pos.mpr hy).ne'
  have hvalue : x.value / y.value = ((x.units * one : Nat) : ℚ) / y.units / one := by
    rw [value, value, Nat.cast_mul]
    field_simp
  rwa [hvalue]

end Binary64

end Rollcall
