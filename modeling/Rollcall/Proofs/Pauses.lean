import Mathlib.Data.List.Induction
import Mathlib.Order.Bounds.Basic
import Mathlib.Tactic.NormNum
import Rollcall.Proofs.BackOff
import Rollcall.Proofs.Rounding

/-!
# The pauses of rising policies

A rising policy never leaves the range of durations, and its pauses rise from the shortest to the
longest one. Before the last step its share of the way is short of one by more than rounding adds to
the product, so the rise as it is computed never exceeds the whole way.
-/

namespace Rollcall

open Text

namespace Duration

/-- The span nearest to a number of seconds, long as it may be. -/
def nearest (x : Binary64) : Duration := roundDiv (x.units * nanosPerSecond) Binary64.one

theorem ofBinary64?_of_lt {x : Binary64} (h : nearest x < limit) :
    ofBinary64? x = some (nearest x) := by
  rw [ofBinary64?, ← nearest, if_pos h]

theorem add?_of_lt {a b : Duration} (h : a + b < limit) : add? a b = some (a + b) := by
  rw [add?, if_pos h]

theorem nearest_mono {x y : Binary64} (h : x.units ≤ y.units) : nearest x ≤ nearest y :=
  Binary64.roundDiv_mono _ (Nat.mul_le_mul_right _ h)

/-- A number of seconds below a span is nearest to a span no longer. -/
theorem nearest_le {x : Binary64} {d : Duration} (h : x.value ≤ d / nanosPerSecond) :
    nearest x ≤ d := by
  refine Binary64.roundDiv_le_of_le Binary64.one_pos ?_
  have hnanos : (0 : ℚ) < nanosPerSecond := by decide +kernel
  rw [Binary64.value, div_le_div_iff₀ Binary64.one_cast_pos hnanos, mul_comm (d : ℚ)] at h
  exact_mod_cast h

theorem smallest_le : Binary64.smallest ≤ 1 / 2 ^ 100 := by
  have hone : Nat.pow 2 100 ≤ Binary64.one := by decide +kernel
  exact one_div_le_one_div_of_le (by positivity) (by exact_mod_cast hone)

theorem cast_nanosPerSecond : (nanosPerSecond : ℚ) = 1000000000 := by norm_num [nanosPerSecond]

/-- A span in seconds is its whole seconds and the part of a second behind them. -/
theorem cast_div_nanosPerSecond (d : Duration) : (d / nanosPerSecond : ℚ) =
    (d / nanosPerSecond : Nat) + (d % nanosPerSecond : Nat) / (nanosPerSecond : ℚ) := by
  have hcast : (d : ℚ) = nanosPerSecond * (d / nanosPerSecond : Nat) +
      (d % nanosPerSecond : Nat) := by exact_mod_cast (Nat.div_add_mod d nanosPerSecond).symm
  rw [cast_nanosPerSecond] at *
  linarith

theorem le_cast_div_nanosPerSecond {d : Duration} (h : 0 < d) :
    (1 : ℚ) / 2 ^ 30 ≤ d / nanosPerSecond := by
  have hone : (1 : ℚ) ≤ d := by exact_mod_cast h
  rw [cast_nanosPerSecond]
  linarith

/-- The seconds of a span exceed it by a very small part. -/
theorem value_seconds_le {d : Duration} (h : 0 < d) :
    (seconds d).value ≤ (1 + 1 / 2 ^ 40) * (d / nanosPerSecond) := by
  have hwhole := Binary64.value_ofNat_le (d / nanosPerSecond)
  have hpart : (Binary64.ofNat (d % nanosPerSecond) / Binary64.ofNat nanosPerSecond).value ≤
      (1 + Binary64.roundoff) * ((d % nanosPerSecond : Nat) / (nanosPerSecond : ℚ)) +
        Binary64.smallest := by
    have hrest : d % nanosPerSecond < Nat.pow 2 53 :=
      Nat.lt_trans (Nat.mod_lt d (by decide)) (by decide)
    have hpos : 0 < (Binary64.ofNat nanosPerSecond).units := Binary64.ofNat_pos (by decide)
    have hdiv := Binary64.value_div_le (Binary64.ofNat (d % nanosPerSecond)) hpos
    rwa [Binary64.value_ofNat hrest, Binary64.value_ofNat (by decide)] at hdiv
  have hsum := Binary64.value_add_le (Binary64.ofNat (d / nanosPerSecond))
    (Binary64.ofNat (d % nanosPerSecond) / Binary64.ofNat nanosPerSecond)
  have hlong := le_cast_div_nanosPerSecond h
  have hsmallest := smallest_le
  have hd := cast_div_nanosPerSecond d
  have hseconds : seconds d = Binary64.ofNat (d / nanosPerSecond) +
    Binary64.ofNat (d % nanosPerSecond) / Binary64.ofNat nanosPerSecond := rfl
  rw [hseconds]
  rw [Binary64.roundoff] at *
  linarith

theorem nearest_eq_zero {x : Binary64} (h : x.units = 0) : nearest x = 0 := by
  simp [nearest, h, roundDiv]

end Duration

namespace Policy

/-- The share of the way that is gone at an index. -/
def share (steps i : Nat) : Binary64 := Binary64.ofNat i / Binary64.ofNat steps

/-- How much of a span is gone at an index: the square of the share. -/
def rise (span : Duration) (steps i : Nat) : Duration :=
  Duration.nearest (span.seconds * share steps i * share steps i)

variable {span : Duration} {steps i j : Nat}

theorem units_share_mono (steps : Nat) (h : i ≤ j) :
    (share steps i).units ≤ (share steps j).units :=
  Binary64.units_nearest_mono _ (Nat.mul_le_mul_right _
    (Binary64.units_nearest_mono _ (Nat.mul_le_mul_right _ h)))

theorem rise_mono (span : Duration) (steps : Nat) (h : i ≤ j) :
    rise span steps i ≤ rise span steps j :=
  Duration.nearest_mono (Binary64.units_mul_mono
    (Binary64.units_mul_mono (Nat.le_refl _) (units_share_mono steps h)) (units_share_mono steps h))

theorem rise_at_zero (span : Duration) (steps : Nat) : rise span steps 0 = 0 := by
  have hzero : (Binary64.ofNat 0).units = 0 := by
    rw [Binary64.ofNat, Nat.zero_mul, Binary64.units_nearest_zero]
  have hshare : (share steps 0).units = 0 := by
    have hdiv : (share steps 0).units = (Binary64.nearest ((Binary64.ofNat 0).units * Binary64.one)
      (Binary64.ofNat steps).units).units := rfl
    rw [hdiv, hzero, Nat.zero_mul, Binary64.units_nearest_zero]
  exact Duration.nearest_eq_zero (Binary64.units_mul_zero _ hshare)

/-- Before the last step the share is short of one. -/
theorem value_share_le (h : i < steps) (hsteps : steps < Decimal.word32) :
    (share steps i).value ≤ 1 - 1 / 2 ^ 33 := by
  have hbits : steps < Nat.pow 2 53 := Nat.lt_trans hsteps (by decide)
  have hpos : 0 < (Binary64.ofNat steps).units :=
    Binary64.ofNat_pos (Nat.lt_of_le_of_lt (Nat.zero_le i) h)
  have hdiv := Binary64.value_div_le (Binary64.ofNat i) hpos
  rw [Binary64.value_ofNat (Nat.lt_trans h hbits), Binary64.value_ofNat hbits] at hdiv
  have hshare : (i / steps : ℚ) ≤ 1 - 1 / 2 ^ 32 := by
    have hsucc : (i : ℚ) + 1 ≤ steps := by exact_mod_cast h
    have hcast : (steps : ℚ) ≤ 2 ^ 32 := by
      have hle := Nat.le_of_lt hsteps
      rw [Decimal.word32] at hle
      exact_mod_cast hle
    have hsteps : (0 : ℚ) < steps := by
      have : (0 : ℚ) ≤ i := Nat.cast_nonneg i
      linarith
    rw [div_le_iff₀ hsteps]
    linarith
  have hsmallest := Duration.smallest_le
  have hvalue : (share steps i).value = (Binary64.ofNat i / Binary64.ofNat steps).value := rfl
  rw [hvalue]
  rw [Binary64.roundoff] at hdiv
  linarith

/-- What a number exceeds another by is lost again in the product with a share short of one. -/
theorem value_mul_le_of_short {x r : Binary64} {y : ℚ} (hy : 1 / 2 ^ 30 ≤ y)
    (hx : x.value ≤ (1 + 1 / 2 ^ 40) * y) (hr : r.value ≤ 1 - 1 / 2 ^ 33) : (x * r).value ≤ y := by
  have hmul := Binary64.value_mul_le x r
  have hprod : x.value * r.value ≤ (1 + 1 / 2 ^ 40) * y * (1 - 1 / 2 ^ 33) :=
    mul_le_mul hx hr r.value_nonneg (le_trans x.value_nonneg hx)
  have hsmallest := Duration.smallest_le
  rw [Binary64.roundoff] at hmul
  linarith

/-- Before the last step the rise is no more than the whole way. -/
theorem rise_le (h : i < steps) (hsteps : steps < Decimal.word32) : rise span steps i ≤ span := by
  rcases Nat.eq_zero_or_pos span with rfl | hspan
  · have hzero : (Duration.seconds 0).units = 0 := by decide +kernel
    exact (Duration.nearest_eq_zero (Binary64.units_zero_mul (Binary64.units_zero_mul hzero _) _)).le
  have hlong := Duration.le_cast_div_nanosPerSecond hspan
  have hshare := value_share_le h hsteps
  have honce := value_mul_le_of_short hlong (Duration.value_seconds_le hspan) hshare
  exact Duration.nearest_le (value_mul_le_of_short hlong (by linarith) hshare)

/-! ## Pauses -/

variable {min max : Duration} {p : Policy}

theorem pause?_eq (hle : min ≤ max) (hpos : 0 < steps) (i : Nat) :
    (rising min max steps hle hpos).pause? i =
      if steps ≤ i then some max
      else (Duration.ofBinary64? ((max - min).seconds * share steps i * share steps i)).bind
        fun gone => (Duration.add? min gone).bind
          fun pause => some (Nat.max min (Nat.min pause max)) := rfl

/-- A rising policy pauses for the shortest pause and the rise, until it has reached the longest
one: no sum or product leaves the range of durations. -/
theorem pause?_rising (hmax : max < Duration.limit) (hsteps : steps < Decimal.word32)
    (hle : min ≤ max) (hpos : 0 < steps) (i : Nat) :
    (rising min max steps hle hpos).pause? i =
      some (if steps ≤ i then max else min + rise (max - min) steps i) := by
  rw [pause?_eq]
  by_cases hi : steps ≤ i
  · rw [if_pos hi, if_pos hi]
  · have hrise : rise (max - min) steps i ≤ max - min := rise_le (Nat.lt_of_not_le hi) hsteps
    have hsum : min + rise (max - min) steps i ≤ max := Nat.add_le_of_le_sub' hle hrise
    have hlt : rise (max - min) steps i < Duration.limit :=
      Nat.lt_of_le_of_lt (Nat.le_trans hrise (Nat.sub_le max min)) hmax
    have hclamp : Nat.max min (Nat.min (min + rise (max - min) steps i) max) =
        min + rise (max - min) steps i :=
      (congrArg (Nat.max min) (Nat.min_eq_left hsum)).trans
        (Nat.max_eq_right (Nat.le_add_right min _))
    rw [if_neg hi, if_neg hi, Duration.ofBinary64?_of_lt hlt, Option.bind_some, ← rise,
      Duration.add?_of_lt (Nat.lt_of_le_of_lt hsum hmax), Option.bind_some, hclamp]

theorem pause_rising (hmax : max < Duration.limit) (hsteps : steps < Decimal.word32)
    (hle : min ≤ max) (hpos : 0 < steps) (i : Nat) :
    (rising min max steps hle hpos).pause i =
      if steps ≤ i then max else min + rise (max - min) steps i := by
  rw [pause, pause?_rising hmax hsteps, Option.getD_some]

theorem pause_rising_zero (hmax : max < Duration.limit) (hsteps : steps < Decimal.word32)
    (hle : min ≤ max) (hpos : 0 < steps) : (rising min max steps hle hpos).pause 0 = min := by
  rw [pause_rising hmax hsteps, if_neg (Nat.not_le_of_lt hpos), rise_at_zero, Nat.add_zero]

/-- The pauses rise, also where the longest one takes the place of the product. -/
theorem pause_rising_mono (hmax : max < Duration.limit) (hsteps : steps < Decimal.word32)
    (hle : min ≤ max) (hpos : 0 < steps) : Monotone (rising min max steps hle hpos).pause := by
  intro i j hij
  by_cases hj : steps ≤ j
  · have hlast : (rising min max steps hle hpos).pause j = max := by
      rw [pause_rising hmax hsteps, if_pos hj]
    rw [hlast]
    exact pause_le_longest _ i
  · have hi : ¬steps ≤ i := fun hi => hj (Nat.le_trans hi hij)
    rw [pause_rising hmax hsteps, pause_rising hmax hsteps, if_neg hi, if_neg hj]
    exact Nat.add_le_add_left (rise_mono _ _ hij) min

end Policy

/-! ## Counting -/

namespace BackOff

/-- What the owner of a back-off does with it. -/
inductive Move
  | increment
  | reset
  deriving DecidableEq, Repr

/-- A back-off after a move. -/
def Move.make : Move → BackOff → BackOff
  | .increment, b => b.increment
  | .reset, b => b.reset

/-- A back-off after several moves. -/
def run (b : BackOff) (moves : List Move) : BackOff := moves.foldl (fun b m => m.make b) b

/-- The increments since the last reset. -/
def sinceReset (moves : List Move) : Nat := (moves.reverse.takeWhile (· = .increment)).length

theorem run_concat (b : BackOff) (moves : List Move) (m : Move) :
    b.run (moves ++ [m]) = m.make (b.run moves) := by simp [run]

theorem sinceReset_increment (moves : List Move) :
    sinceReset (moves ++ [.increment]) = sinceReset moves + 1 := by simp [sinceReset]

theorem sinceReset_reset (moves : List Move) : sinceReset (moves ++ [.reset]) = 0 := by
  simp [sinceReset]

theorem policy_run (b : BackOff) (moves : List Move) : (b.run moves).policy = b.policy := by
  induction moves using List.reverseRecOn with
  | nil => rfl
  | append_singleton moves m ih => cases m <;> rw [run_concat] <;> exact ih

/-- The index counts the increments since the last reset, up to the greatest index. -/
theorem index_run {b : BackOff} (hzero : b.index = 0) (moves : List Move) :
    (b.run moves).index = min (sinceReset moves) lastIndex := by
  induction moves using List.reverseRecOn with
  | nil => exact hzero
  | append_singleton moves m ih =>
    rw [run_concat]
    cases m with
    | increment =>
      have hindex : (b.run moves).increment.index = min ((b.run moves).index + 1) lastIndex := rfl
      rw [sinceReset_increment, Move.make, hindex, ih]
      omega
    | reset =>
      rw [sinceReset_reset, Nat.zero_min]
      rfl

theorem current_run {b : BackOff} (hzero : b.index = 0) (moves : List Move) :
    (b.run moves).current = b.value (min (sinceReset moves) lastIndex) := by
  rw [current, value, value, policy_run, index_run hzero]

/-- A rising back-off at index 0, unless its bounds are the wrong way round or it has no steps. -/
def rising? (min max : Duration) (steps : Nat) : Option BackOff :=
  (Policy.rising? min max steps).map ({ policy := · })

theorem isSome_rising? (min max : Duration) (steps : Nat) :
    (rising? min max steps).isSome ↔ min ≤ max ∧ 1 ≤ steps := by
  rw [rising?, Option.isSome_map, Policy.rising?]
  split
  · next h => exact iff_of_true rfl h
  · next h => exact iff_of_false (by simp) h

/-- A back-off rises between any two durations in any number of steps of 32 bits. It has a pause at
every index; its pauses begin with the shortest, never fall, and are the longest one from the last
step on, which is the least duration that none of them exceeds. After any moves the current pause is
that of as many steps as were made since the last reset, and the next one is what is current a step
later. -/
theorem rising_pauses {min max : Duration} {steps : Nat} (hmax : max < Duration.limit)
    (hsteps : steps < Decimal.word32) :
    ((rising? min max steps).isSome ↔ min ≤ max ∧ 1 ≤ steps) ∧
    ∀ b, rising? min max steps = some b →
      (∀ i, b.policy.pause? i = some (b.value i)) ∧
      (∀ i j, i ≤ j → min ≤ b.value i ∧ b.value i ≤ b.value j ∧ b.value j ≤ max) ∧
      b.value 0 = min ∧
      (∀ j, steps ≤ j → b.value j = max) ∧
      IsLUB {d | ∃ i < Decimal.word32, b.value i = d} b.longest ∧
      ∀ moves, (b.run moves).index < Decimal.word32 ∧
        (b.run moves).current = b.value (Nat.min (sinceReset moves) lastIndex) ∧
        (b.run moves).next = (b.run (moves ++ [.increment])).current := by
  refine ⟨isSome_rising? min max steps, fun b hb => ?_⟩
  obtain ⟨p, hp, rfl⟩ := Option.map_eq_some_iff.mp hb
  obtain ⟨hle, hpos, rfl⟩ := Policy.rising?_eq_some hp
  have hfirst := Policy.pause_rising_zero hmax hsteps hle hpos
  have hmono := Policy.pause_rising_mono hmax hsteps hle hpos
  have hlast : ∀ j, steps ≤ j → (Policy.rising min max steps hle hpos).pause j = max :=
    fun j hj => by rw [Policy.pause_rising hmax hsteps, if_pos hj]
  have hbound : ∀ i, (Policy.rising min max steps hle hpos).pause i ≤ max :=
    Policy.pause_le_longest _
  refine ⟨fun i => ?_, fun i j hij => ⟨?_, hmono hij, hbound j⟩, hfirst, hlast, ?_,
    fun moves => ⟨?_, current_run rfl moves, ?_⟩⟩
  · rw [value, Policy.pause?_rising hmax hsteps, Policy.pause_rising hmax hsteps]
  · exact hfirst.symm.trans_le (hmono (Nat.zero_le i))
  · refine IsGreatest.isLUB ⟨⟨steps, hsteps, hlast steps (Nat.le_refl steps)⟩, ?_⟩
    rintro d ⟨i, -, rfl⟩
    exact hbound i
  · rw [index_run rfl]
    exact Nat.lt_of_le_of_lt (Nat.min_le_right _ _) (by decide)
  · rw [run_concat]
    rfl

/-- From one second to five in four steps. -/
theorem rising_pauses_of_four :
    let b : BackOff := ⟨.rising (Duration.ofMillis 1000) (Duration.ofMillis 5000) 4
      (by decide) (by decide), 0⟩
    Duration.ofMillis 5000 < Duration.limit ∧ 4 < Decimal.word32 ∧
      rising? (Duration.ofMillis 1000) (Duration.ofMillis 5000) 4 = some b ∧
      b.value 1 = Duration.ofMillis 1250 ∧ b.value 2 = Duration.ofMillis 2000 ∧
      (Duration.ofMillis 1000 ≤ b.value 1 ∧ b.value 1 ≤ b.value 2 ∧
        b.value 2 ≤ Duration.ofMillis 5000) ∧
      b.value 7 = Duration.ofMillis 5000 := by
  intro b
  have hmax : Duration.ofMillis 5000 < Duration.limit := by decide +kernel
  have hb : rising? (Duration.ofMillis 1000) (Duration.ofMillis 5000) 4 = some b := by
    decide +kernel
  have hsteps : 4 < Decimal.word32 := by decide
  obtain ⟨-, hpauses⟩ := rising_pauses hmax hsteps
  obtain ⟨-, horder, -, hlast, -⟩ := hpauses b hb
  exact ⟨hmax, hsteps, hb, by decide +kernel, by decide +kernel, horder 1 2 (by decide),
    hlast 7 (by decide)⟩

end BackOff

end Rollcall
