import Rollcall.Duration

/-!
# Seconds of a span

Rounding to a double never makes nothing of something: a span that is not over takes more than no
seconds, so rounded up it takes one at least. It takes little away besides, so the seconds to live
that are chosen for a pause outlast the pause, and the seconds that an entry shows, with a little
more, outlast the entry.
-/

namespace Rollcall

namespace Binary64

theorem le_roundDiv (n d : Nat) : n / d ≤ roundDiv n d := by
  unfold roundDiv
  simp only
  split
  · omega
  · split
    · omega
    · split <;> omega

private theorem place_le {m : Nat} (h : 0 < m) : Nat.pow 2 (Nat.log2 m - 52) ≤ m := by
  have hle : Nat.pow 2 (Nat.log2 m - 52) ≤ 2 ^ Nat.log2 m :=
    Nat.pow_le_pow_right (by decide) (Nat.sub_le _ _)
  exact Nat.le_trans hle (Nat.log2_self_le (by omega))

/-- A quotient of one unit or more is more than nothing when it is rounded. -/
theorem nearest_pos {n d : Nat} (h : 0 < n / d) : 0 < (nearest n d).units := by
  have hp : 0 < Nat.pow 2 (Nat.log2 (n / d) - 52) := Nat.pow_pos (by decide)
  have hq : 0 < n / (d * Nat.pow 2 (Nat.log2 (n / d) - 52)) := by
    rw [← Nat.div_div_eq_div_mul]
    exact Nat.div_pos (place_le h) hp
  exact Nat.mul_pos (Nat.lt_of_lt_of_le hq (le_roundDiv _ _)) hp

theorem roundDiv_le (n d : Nat) : roundDiv n d ≤ n / d + 1 := by
  unfold roundDiv
  simp only
  split
  · omega
  · split
    · omega
    · split <;> omega

/-- Rounding a positive whole number of units takes away half of it at most, and adds no more than
there is. -/
theorem nearest_bounds {n : Nat} (h : 0 < n) :
    n ≤ 2 * (nearest n 1).units ∧ (nearest n 1).units ≤ 2 * n := by
  have hpos : 0 < n / 1 := by rwa [Nat.div_one]
  have hle : Nat.pow 2 (Nat.log2 (n / 1) - 52) ≤ n := by simpa using place_le hpos
  have hp : 0 < Nat.pow 2 (Nat.log2 (n / 1) - 52) := Nat.pow_pos (by decide)
  simp only [nearest]
  generalize Nat.pow 2 (Nat.log2 (n / 1) - 52) = p at *
  rw [Nat.one_mul]
  have hq : 0 < n / p := Nat.div_pos hle hp
  have hlt : n < n / p * p + p := by
    rw [← Nat.succ_mul, Nat.mul_comm]
    exact Nat.lt_mul_div_succ n hp
  have hge : n / p * p ≤ roundDiv n p * p := Nat.mul_le_mul_right p (le_roundDiv n p)
  have hle' : roundDiv n p * p ≤ n / p * p + p := by
    rw [← Nat.succ_mul]
    exact Nat.mul_le_mul_right p (roundDiv_le n p)
  have hone : p ≤ n / p * p := Nat.le_mul_of_pos_left p hq
  have hdiv : n / p * p ≤ n := Nat.div_mul_le_self n p
  omega

private theorem le_one : Nat.pow 2 32 ≤ one := Nat.pow_le_pow_right (by decide) (by decide)

theorem one_pos : 0 < one := Nat.lt_of_lt_of_le (by decide) le_one

/-- A double of some units is one at least when it is rounded up. -/
theorem ceil_pos {a : Binary64} (h : 0 < a.units) : 0 < a.ceil := by
  have ho := one_pos
  refine Nat.div_pos ?_ ho
  generalize one = u at *
  omega

/-- A natural number that is not zero is more than nothing as a double. -/
theorem ofNat_pos {n : Nat} (h : 0 < n) : 0 < (ofNat n).units := by
  refine nearest_pos ?_
  rw [Nat.div_one]
  exact Nat.mul_pos h one_pos

private theorem mul_le_mul_of_bounds {u r s a b : Nat} (hr : 0 < r) (ha : r * u ≤ 2 * a)
    (hb : b ≤ 2 * (s * u)) (hs : 4 * s ≤ u) : b ≤ a * u := by
  have hu : u ≤ 2 * a := Nat.le_trans (Nat.le_mul_of_pos_left u hr) ha
  have hsa : 4 * s * u ≤ 2 * a * u := Nat.mul_le_mul_right u (Nat.le_trans hs hu)
  rw [Nat.mul_assoc, Nat.mul_assoc] at hsa
  omega

/-- A quotient of natural numbers is more than nothing unless the divisor is huge. -/
theorem ofNat_div_ofNat_pos {r s : Nat} (hr : 0 < r) (hs : 0 < s) (h : 4 * s ≤ Nat.pow 2 32) :
    0 < (ofNat r / ofNat s).units := by
  refine nearest_pos (Nat.div_pos ?_ (ofNat_pos hs))
  exact mul_le_mul_of_bounds hr (nearest_bounds (Nat.mul_pos hr one_pos)).1
    (nearest_bounds (Nat.mul_pos hs one_pos)).2 (Nat.le_trans h le_one)

/-- Rounding a quotient of many units takes away a 64th of it at most. -/
private theorem nearest_ge {n d : Nat} (h : Nat.pow 2 52 ≤ n / d) :
    63 * n ≤ 64 * (d * (nearest n d).units) := by
  have hq : n / d ≠ 0 := by
    have : 0 < Nat.pow 2 52 := Nat.pow_pos (by decide)
    omega
  have hd : 0 < d := Nat.pos_of_ne_zero fun hd => hq (by rw [hd, Nat.div_zero])
  -- The place is that of the last of 53 bits.
  have hplace : Nat.pow 2 (Nat.log2 (n / d) - 52) * Nat.pow 2 52 ≤ n / d := by
    have hlog : 52 ≤ Nat.log2 (n / d) := (Nat.le_log2 hq).mpr h
    have hpow : Nat.pow 2 (Nat.log2 (n / d) - 52) * Nat.pow 2 52 = 2 ^ Nat.log2 (n / d) := by
      rw [Nat.pow_eq, Nat.pow_eq, ← Nat.pow_add, Nat.sub_add_cancel hlog]
    rw [hpow]
    exact Nat.log2_self_le hq
  have hp : 0 < Nat.pow 2 (Nat.log2 (n / d) - 52) := Nat.pow_pos (by decide)
  simp only [nearest]
  generalize Nat.pow 2 (Nat.log2 (n / d) - 52) = p at *
  have hround : n / (d * p) * (d * p) ≤ d * (roundDiv n (d * p) * p) := by
    calc n / (d * p) * (d * p) ≤ roundDiv n (d * p) * (d * p) :=
          Nat.mul_le_mul_right _ (le_roundDiv n (d * p))
      _ = d * (roundDiv n (d * p) * p) := by rw [Nat.mul_left_comm]
  have hlt : n < n / (d * p) * (d * p) + d * p := by
    rw [← Nat.succ_mul, Nat.mul_comm]
    exact Nat.lt_mul_div_succ n (Nat.mul_pos hd hp)
  have hsmall : d * p * 64 ≤ n := by
    have hp64 : p * 64 ≤ n / d :=
      Nat.le_trans (Nat.mul_le_mul_left p (show 64 ≤ Nat.pow 2 52 by decide)) hplace
    calc d * p * 64 = d * (p * 64) := Nat.mul_assoc d p 64
      _ ≤ d * (n / d) := Nat.mul_le_mul_left d hp64
      _ ≤ n := Nat.mul_div_le n d
  omega

private theorem many_le_one : 64 * 64 * 64 * (1000000000 * Nat.pow 2 52) ≤ one :=
  Nat.le_trans (m := Nat.pow 2 100) (by decide) (Nat.pow_le_pow_right (by decide) (by decide))

private theorem ofNat_ge (n : Nat) : 63 * (n * one) ≤ 64 * (ofNat n).units := by
  rcases Nat.eq_zero_or_pos n with rfl | hn
  · simp
  · have h : Nat.pow 2 52 ≤ n * one / 1 := by
      rw [Nat.div_one]
      have hlarge := many_le_one
      have hone : one ≤ n * one := Nat.le_mul_of_pos_left one hn
      omega
    simpa [ofNat] using nearest_ge h

/-- The units of a double are covered by its whole numbers, rounded up. -/
private theorem units_le_ceil (a : Binary64) : a.units ≤ a.ceil * one := by
  have ho := one_pos
  have hlt := Nat.lt_mul_div_succ (a.units + (one - 1)) ho
  rw [ceil]
  generalize (a.units + (one - 1)) / one = q at *
  rw [Nat.mul_succ, Nat.mul_comm] at hlt
  omega

end Binary64

namespace Duration

open Binary64

/-- A span that is not over takes a second at least, rounded up. -/
theorem ceil_seconds_pos {d : Duration} (h : 0 < d) : 0 < (seconds d).ceil := by
  have hsum : 0 < (Binary64.ofNat (d / nanosPerSecond)).units +
      (Binary64.ofNat (d % nanosPerSecond) / Binary64.ofNat nanosPerSecond).units := by
    by_cases hq : d / nanosPerSecond = 0
    · have hr : 0 < d % nanosPerSecond := by
        have hd := Nat.div_add_mod d nanosPerSecond
        rw [hq, Nat.mul_zero, Nat.zero_add] at hd
        rwa [hd]
      exact Nat.add_pos_right _ (ofNat_div_ofNat_pos hr (by decide) (by decide))
    · exact Nat.add_pos_left (ofNat_pos (Nat.pos_of_ne_zero hq)) _
  exact ceil_pos (nearest_pos (by rwa [Nat.div_one]))

private theorem ofNat_nanosPerSecond :
    (Binary64.ofNat nanosPerSecond).units = nanosPerSecond * Binary64.one := by decide +kernel

/-- The part of a second that a span has beyond whole seconds. -/
private theorem fraction_ge (r : Nat) :
    63 * 63 * (r * Binary64.one) ≤
      64 * 64 * (nanosPerSecond * (Binary64.ofNat r / Binary64.ofNat nanosPerSecond).units) := by
  rcases Nat.eq_zero_or_pos r with rfl | hr
  · simp
  have hu : 0 < Binary64.one := Binary64.one_pos
  have hr' := ofNat_ge r
  have hmany : Nat.pow 2 52 ≤
      (Binary64.ofNat r).units * Binary64.one / (Binary64.ofNat nanosPerSecond).units := by
    rw [ofNat_nanosPerSecond, Nat.le_div_iff_mul_le (Nat.mul_pos (by decide) hu), ← Nat.mul_assoc]
    refine Nat.mul_le_mul_right _ ?_
    have hone : Binary64.one ≤ r * Binary64.one := Nat.le_mul_of_pos_left _ hr
    have hlarge := many_le_one
    simp only [nanosPerSecond]
    omega
  have hdiv : 63 * ((Binary64.ofNat r).units * Binary64.one) ≤
      64 * ((Binary64.ofNat nanosPerSecond).units *
        (Binary64.ofNat r / Binary64.ofNat nanosPerSecond).units) := nearest_ge hmany
  rw [ofNat_nanosPerSecond, Nat.mul_right_comm, ← Nat.mul_assoc, ← Nat.mul_assoc] at hdiv
  have hcancel := Nat.le_of_mul_le_mul_right hdiv hu
  omega

/-- The seconds of a span fall short of it by little. -/
private theorem seconds_ge (d : Nat) :
    63 * 63 * 63 * (d * Binary64.one) ≤
      64 * 64 * 64 * (nanosPerSecond * (seconds d).units) := by
  have hwhole := ofNat_ge (d / nanosPerSecond)
  have hpart := fraction_ge (d % nanosPerSecond)
  have hd : d * Binary64.one = nanosPerSecond * (d / nanosPerSecond * Binary64.one) +
      d % nanosPerSecond * Binary64.one := by
    rw [← Nat.mul_assoc, ← Nat.add_mul, Nat.div_add_mod]
  rcases Nat.eq_zero_or_pos d with rfl | hpos
  · simp
  have hone : Binary64.one ≤ d * Binary64.one := Nat.le_mul_of_pos_left _ hpos
  have hlarge := many_le_one
  have hsum := nearest_ge (n := (Binary64.ofNat (d / nanosPerSecond)).units +
    (Binary64.ofNat (d % nanosPerSecond) / Binary64.ofNat nanosPerSecond).units) (d := 1) <| by
      simp only [nanosPerSecond, Nat.div_one] at *
      omega
  have hseconds : (seconds d).units = (nearest ((Binary64.ofNat (d / nanosPerSecond)).units +
    (Binary64.ofNat (d % nanosPerSecond) / Binary64.ofNat nanosPerSecond).units) 1).units := rfl
  rw [hd, hseconds]
  simp only [nanosPerSecond] at hpart hsum hwhole ⊢
  omega

/-- The seconds of a span, rounded up, and a little more outlast the span. -/
theorem le_ofMillis_ceil_seconds (d : Nat) : d ≤ ofMillis ((seconds d).ceil * 1150) := by
  have hu : 0 < Binary64.one := Binary64.one_pos
  have hceil := units_le_ceil (seconds d)
  have hd : 63 * 63 * 63 * d ≤ 64 * 64 * 64 * (nanosPerSecond * (seconds d).ceil) := by
    refine Nat.le_of_mul_le_mul_right ?_ hu
    have hge := seconds_ge d
    have hmul := Nat.mul_le_mul_left nanosPerSecond hceil
    rw [← Nat.mul_assoc] at hmul
    rw [Nat.mul_assoc _ d, Nat.mul_assoc _ _ Binary64.one]
    omega
  simp only [ofMillis, nanosPerMilli, nanosPerSecond] at hd ⊢
  omega

/-- A quarter more of many units is little less than that when it is rounded. -/
private theorem quarterMore_ge {x : Binary64} (h : Nat.pow 2 52 ≤ x.units) :
    63 * 5 * x.units ≤ 64 * 4 * (x * (⟨Binary64.one + Binary64.one / 4⟩ : Binary64)).units := by
  have hfour : Binary64.one = 4 * (Binary64.one / 4) := by decide +kernel
  have hu : 0 < Binary64.one := Binary64.one_pos
  have hge : 63 * (x.units * (Binary64.one + Binary64.one / 4)) ≤ 64 * (Binary64.one *
      (x * (⟨Binary64.one + Binary64.one / 4⟩ : Binary64)).units) := by
    refine nearest_ge ?_
    rw [Nat.le_div_iff_mul_le hu]
    exact Nat.mul_le_mul h (Nat.le_add_right _ _)
  generalize (x * (⟨Binary64.one + Binary64.one / 4⟩ : Binary64)).units = y at *
  generalize Binary64.one / 4 = v at *
  rw [hfour] at hge hu
  have hv : 0 < v := by omega
  refine Nat.le_of_mul_le_mul_right ?_ hv
  have hleft : 63 * (x.units * (4 * v + v)) = 63 * 5 * x.units * v := by grind
  have hright : 64 * (4 * v * y) = 64 * 4 * y * v := by grind
  rwa [hleft, hright] at hge

/-- The seconds to live chosen for a pause outlast it by more than a millisecond, if the pause is
one that can be written in milliseconds. -/
theorem add_nanosPerMilli_le_timeToLive {d : Nat} (h : d ≤ ofMillis (Text.Decimal.word64 - 1)) :
    d + nanosPerMilli ≤ ofSeconds (timeToLive d) := by
  have hone : 1 ≤ timeToLive d := Nat.le_max_left _ _
  have hu : 0 < Binary64.one := Binary64.one_pos
  have hge := seconds_ge d
  rcases Nat.lt_or_ge d nanosPerMilli with hlt | hle
  · simp only [ofSeconds, nanosPerMilli, nanosPerSecond] at *
    omega
  have hmany : Nat.pow 2 52 ≤ (seconds d).units := by
    have hlarge := many_le_one
    have hone : Binary64.one ≤ d * Binary64.one :=
      Nat.le_mul_of_pos_left _ (Nat.lt_of_lt_of_le (by decide) hle)
    simp only [nanosPerSecond] at hge
    omega
  have hmore := quarterMore_ge hmany
  have hceil := units_le_ceil (seconds d * (⟨Binary64.one + Binary64.one / 4⟩ : Binary64))
  have hd : 63 * 63 * 63 * (63 * 5) * d ≤ 64 * 64 * 64 * (64 * 4) * (nanosPerSecond *
      (seconds d * (⟨Binary64.one + Binary64.one / 4⟩ : Binary64)).ceil) := by
    refine Nat.le_of_mul_le_mul_right ?_ hu
    have hmul := Nat.mul_le_mul_left nanosPerSecond hceil
    rw [← Nat.mul_assoc] at hmul
    rw [Nat.mul_assoc _ d, Nat.mul_assoc _ _ Binary64.one]
    simp only [nanosPerSecond] at hge hmul ⊢
    omega
  have hmax : min (Text.Decimal.word64 - 1)
      (seconds d * (⟨Binary64.one + Binary64.one / 4⟩ : Binary64)).ceil ≤ timeToLive d :=
    Nat.le_max_right _ _
  simp only [ofMillis, ofSeconds, nanosPerMilli, nanosPerSecond, Text.Decimal.word64] at *
  omega

end Duration

end Rollcall
