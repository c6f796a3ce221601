import Rollcall.BackOff

/-!
# How long pauses get

No pause of a policy is longer than the policy's longest one, and a policy that is read from a text
has pauses that can be written in milliseconds.
-/

namespace Rollcall

namespace Policy

theorem pause_le_longest (p : Policy) (i : Nat) : p.pause i ≤ p.longest := by
  unfold pause
  cases hp : p.pause? i with
  | none => exact Nat.le_refl _
  | some d =>
    cases p with
    | constant pause =>
      cases hp
      exact Nat.le_refl _
    | rising min max steps hle hpos =>
      rw [pause?] at hp
      by_cases hs : steps ≤ i
      · rw [if_pos hs] at hp
        cases hp
        exact Nat.le_refl _
      · rw [if_neg hs] at hp
        simp only [Option.bind_eq_bind, Option.bind_eq_some_iff] at hp
        obtain ⟨rise, -, pause, -, hd⟩ := hp
        cases hd
        exact Nat.max_le.mpr ⟨hle, Nat.min_le_right _ _⟩

theorem rising?_eq_some {min max : Duration} {steps : Nat} {p : Policy}
    (h : rising? min max steps = some p) :
    ∃ (hle : min ≤ max) (hpos : 0 < steps), p = .rising min max steps hle hpos := by
  unfold rising? at h
  split at h
  · next hvalid => exact ⟨hvalid.1, hvalid.2, (Option.some.inj h).symm⟩
  · cases h

/-- The longest pause that can be written in milliseconds. -/
def writable : Duration := Duration.ofMillis (Text.Decimal.word64 - 1)

private theorem ofMillis_le_writable {text : List Char} {ms : Nat}
    (h : Text.Decimal.read Text.Decimal.word64 text = some ms) :
    Duration.ofMillis ms ≤ writable :=
  Nat.mul_le_mul_right _ (Nat.le_sub_one_of_lt (Text.Decimal.lt_of_read h))

/-- A policy that is read has pauses that can be written. -/
theorem longest_le_writable {text : List Char} {p : Policy} (h : read text = some p) :
    p.longest ≤ writable := by
  unfold read at h
  split at h
  · obtain ⟨ms, hms, rfl⟩ := Option.map_eq_some_iff.mp h
    exact ofMillis_le_writable hms
  · simp only [Option.bind_eq_bind, Option.bind_eq_some_iff] at h
    obtain ⟨min, -, max, hmax, steps, -, hr⟩ := h
    obtain ⟨_, _, rfl⟩ := rising?_eq_some hr
    exact ofMillis_le_writable hmax
  · cases h

end Policy

namespace BackOff

/-- A back-off has pauses that can be written, whatever the texts are for which it is made. -/
theorem longest_readOr (text fallback : String) :
    (readOr text fallback).longest ≤ Policy.writable := by
  have hparse : ∀ {s : String} {b : BackOff}, parse s = some b → b.longest ≤ Policy.writable := by
    intro s b hb
    obtain ⟨p, hp, rfl⟩ := Option.map_eq_some_iff.mp hb
    exact Policy.longest_le_writable hp
  unfold readOr
  cases ht : parse text with
  | some b => exact hparse ht
  | none =>
    cases hf : parse fallback with
    | some b => exact hparse hf
    | none => decide +kernel

theorem current_le_longest (b : BackOff) : b.current ≤ b.longest := b.policy.pause_le_longest _

end BackOff

end Rollcall
