import Rollcall.Config
import Rollcall.Proofs.BackOff

/-!
# Policies as texts

A text may describe a policy with blanks, plus signs and leading zeros; the policy is printed without
any. What is printed describes the policy again, so there is one printed text for each policy that
texts describe, and a configuration may hold the printed texts in place of its own.
-/

namespace Rollcall

open Text

namespace Text

/-- No digit is blank. -/
theorem isBlank_of_isDigit {c : Char} (h : Decimal.isDigit c = true) : isBlank c = false := by
  simp only [Decimal.isDigit, Bool.and_eq_true, decide_eq_true_eq] at h
  have hlow : 48 ≤ c.toNat := h.1
  have hhigh : c.toNat ≤ 57 := h.2
  simp only [isBlank, blankRanges, List.any_cons, List.any_nil, Bool.or_false,
    Bool.or_eq_false_iff, Bool.and_eq_false_iff, decide_eq_false_iff_not]
  omega

/-- The parts of a text at its colons, without the blanks around them. -/
def parts (cs : List Char) : List (List Char) := (split ':' (trim cs)).map trim

/-- The parts of printed numbers with colons between them are the printed numbers. -/
theorem parts_join_digits {numbers : List Nat} (h : numbers ≠ []) :
    parts (join ':' (numbers.map Decimal.digits)) = numbers.map Decimal.digits := by
  have hdigit : ∀ part ∈ numbers.map Decimal.digits, ∀ c ∈ part, Decimal.isDigit c = true := by
    intro part hpart c hc
    obtain ⟨n, -, rfl⟩ := List.mem_map.mp hpart
    exact Decimal.isDigit_of_mem_digits hc
  have hcolon : ∀ part ∈ numbers.map Decimal.digits, ':' ∉ part := fun part hpart hc =>
    absurd (hdigit part hpart ':' hc) (by decide)
  have hpart : ∀ part ∈ numbers.map Decimal.digits, trim part = part := fun part hpart =>
    trim_eq_self fun c hc => isBlank_of_isDigit (hdigit part hpart c hc)
  have hjoin : trim (join ':' (numbers.map Decimal.digits)) =
      join ':' (numbers.map Decimal.digits) := by
    refine trim_eq_self fun c hc => ?_
    rcases eq_or_mem_of_mem_join hc with rfl | ⟨part, hpart, hc⟩
    · decide
    · exact isBlank_of_isDigit (hdigit part hpart c hc)
  rw [parts, hjoin, split_join hcolon (by simpa using h), List.map_congr_left hpart, List.map_id']

end Text

namespace Duration

/-- Whether a span is a whole number of milliseconds that fits a 64-bit word. -/
def IsWritten (d : Duration) : Prop := ∃ ms < Decimal.word64, d = ofMillis ms

theorem toMillis_ofMillis (ms : Nat) : toMillis (ofMillis ms) = ms :=
  Nat.mul_div_cancel ms (by decide)

theorem isWritten_of_read {text : List Char} {ms : Nat}
    (h : Decimal.read Decimal.word64 text = some ms) : IsWritten (ofMillis ms) :=
  ⟨ms, Decimal.lt_of_read h, rfl⟩

end Duration

namespace Policy

/-- The policies that texts describe. -/
def IsWritten : Policy → Prop
  | .constant pause => pause.IsWritten
  | .rising min max steps _ _ => min.IsWritten ∧ max.IsWritten ∧ steps < Decimal.word32

theorem isWritten_of_read {text : List Char} {p : Policy} (h : read text = some p) :
    p.IsWritten := by
  unfold read at h
  split at h
  · obtain ⟨ms, hms, rfl⟩ := Option.map_eq_some_iff.mp h
    exact Duration.isWritten_of_read hms
  · simp only [Option.bind_eq_bind, Option.bind_eq_some_iff] at h
    obtain ⟨min, hmin, max, hmax, steps, hsteps, hp⟩ := h
    obtain ⟨_, _, rfl⟩ := rising?_eq_some hp
    exact ⟨Duration.isWritten_of_read hmin, Duration.isWritten_of_read hmax,
      Decimal.lt_of_read hsteps⟩
  · cases h

/-- The numbers that are printed. -/
def numbers : Policy → List Nat
  | .constant pause => [pause.toMillis]
  | .rising min max steps _ _ => [min.toMillis, max.toMillis, steps]

theorem print_eq (p : Policy) : p.print = join ':' (p.numbers.map Decimal.digits) := by
  cases p with
  | constant pause => rw [print, numbers, List.map_singleton, join]
  | rising min max steps _ _ => rw [print, numbers, List.map_cons, List.map_cons, List.map_singleton]

theorem parts_print (p : Policy) : parts p.print = p.numbers.map Decimal.digits := by
  rw [print_eq, parts_join_digits]
  cases p with
  | constant pause => exact List.cons_ne_nil _ _
  | rising min max steps _ _ => exact List.cons_ne_nil _ _

/-- What a text describes hangs on its parts. -/
theorem read_eq (text : List Char) : read text =
    match parts text with
    | [pause] => (Decimal.read Decimal.word64 pause).map fun ms => .constant (Duration.ofMillis ms)
    | [min, max, steps] => do
      let min ← Decimal.read Decimal.word64 min
      let max ← Decimal.read Decimal.word64 max
      let steps ← Decimal.read Decimal.word32 steps
      rising? (Duration.ofMillis min) (Duration.ofMillis max) steps
    | _ => none := rfl

/-- A policy that some text describes is described by what is printed for it. -/
theorem read_print {p : Policy} (h : p.IsWritten) : read p.print = some p := by
  rw [read_eq, parts_print]
  cases p with
  | constant pause =>
    obtain ⟨ms, hms, rfl⟩ := h
    rw [numbers, Duration.toMillis_ofMillis]
    simp only [List.map_cons, List.map_nil]
    rw [Decimal.read_digits hms, Option.map_some]
  | rising min max steps hle hpos =>
    obtain ⟨⟨lo, hlo, rfl⟩, ⟨hi, hhi, rfl⟩, hsteps⟩ := h
    rw [numbers, Duration.toMillis_ofMillis, Duration.toMillis_ofMillis]
    simp only [List.map_cons, List.map_nil]
    rw [Decimal.read_digits hlo, Decimal.read_digits hhi, Decimal.read_digits hsteps,
      Option.bind_eq_bind, Option.bind_some, Option.bind_some, Option.bind_some, rising?,
      dif_pos ⟨hle, hpos⟩]

/-- Texts describe the policies with pauses in whole milliseconds, all within the words that hold
them. -/
theorem isWritten_iff (p : Policy) : p.IsWritten ↔ ∃ text, read text = some p :=
  ⟨fun h => ⟨p.print, read_print h⟩, fun ⟨_, h⟩ => isWritten_of_read h⟩

end Policy

namespace BackOff

theorem parse_eq_some_iff {text : String} {b : BackOff} :
    parse text = some b ↔ Policy.read text.toList = some b.policy ∧ b.index = 0 := by
  simp only [parse, Option.map_eq_some_iff]
  constructor
  · rintro ⟨p, hp, rfl⟩
    exact ⟨hp, rfl⟩
  · rintro ⟨hp, hzero⟩
    exact ⟨b.policy, hp, by rw [← hzero]⟩

theorem parse_print {b : BackOff} (h : b.policy.IsWritten) (hzero : b.index = 0) :
    parse b.print = some b :=
  parse_eq_some_iff.mpr ⟨by rw [print, String.toList_ofList, Policy.read_print h], hzero⟩

/-- What is printed for a text's back-off is a text of that back-off. -/
theorem parse_print_of_parse {text : String} {b : BackOff} (h : parse text = some b) :
    parse b.print = some b :=
  parse_print (Policy.isWritten_of_read (parse_eq_some_iff.mp h).1) (parse_eq_some_iff.mp h).2

/-- What is printed for the back-off in use is a text of that back-off. -/
theorem parse_print_readOr (text fallback : String) :
    parse (readOr text fallback).print = some (readOr text fallback) := by
  unfold readOr
  cases htext : parse text with
  | some b => exact parse_print_of_parse htext
  | none =>
    cases hfallback : parse fallback with
    | some b => exact parse_print_of_parse hfallback
    | none => exact parse_print ⟨1000, by decide, rfl⟩ rfl

end BackOff

namespace Config.BackOffSection

/-- The back-offs in use. -/
def backOffs (s : BackOffSection) : List BackOff :=
  [s.announcerBackOff, s.remoteUpdaterBackOff, s.localUpdaterBackOff, s.refusalBackOff,
    s.transportBackOff]

/-- The section with the printed texts of the back-offs in use. -/
def canonical (s : BackOffSection) : BackOffSection where
  announcer := s.announcerBackOff.print
  remoteUpdater := s.remoteUpdaterBackOff.print
  localUpdater := s.localUpdaterBackOff.print
  refusal := s.refusalBackOff.print
  transport := s.transportBackOff.print

end Config.BackOffSection

namespace BackOff

/-- The printed text of a back-off is read back, whichever text it was read from; it is the same
for two texts exactly if they describe the same back-off; and where a text is missing or malformed
it selects what is used there, in a whole configuration as well. -/
theorem print_is_canonical :
    (∀ (text : String) (b : BackOff), parse text = some b → parse b.print = some b) ∧
    (∀ (text other : String) (b c : BackOff), parse text = some b → parse other = some c →
      (b.print = c.print ↔ b = c)) ∧
    (∀ text fallback other : String,
      parse (readOr text fallback).print = some (readOr text fallback) ∧
        readOr (readOr text fallback).print other = readOr text fallback) ∧
    ∀ s : Config.BackOffSection, s.canonical.backOffs = s.backOffs := by
  have hreadOr : ∀ text fallback other : String,
      readOr (readOr text fallback).print other = readOr text fallback := by
    intro text fallback other
    rw [readOr, parse_print_readOr]
    rfl
  refine ⟨fun _ _ => parse_print_of_parse, fun text other b c hb hc => ⟨fun h => ?_, congrArg _⟩,
    fun text fallback other => ⟨parse_print_readOr text fallback, hreadOr text fallback other⟩,
    fun s => ?_⟩
  · have hread := parse_print_of_parse hb
    rw [h, parse_print_of_parse hc] at hread
    exact (Option.some.inj hread).symm
  · simp only [Config.BackOffSection.backOffs, Config.BackOffSection.announcerBackOff,
      Config.BackOffSection.remoteUpdaterBackOff, Config.BackOffSection.localUpdaterBackOff,
      Config.BackOffSection.refusalBackOff, Config.BackOffSection.transportBackOff,
      Config.BackOffSection.canonical, hreadOr]

/-- A text with blanks, a plus sign and a leading zero, and the text that is printed for it. -/
theorem print_of_padded :
    let eager : BackOff := ⟨.rising (Duration.ofMillis 1000) (Duration.ofMillis 5000) 4
      (by decide) (by decide), 0⟩
    let steady : BackOff := constant (Duration.ofMillis 1500)
    parse " +1000 : 05000:4 " = some eager ∧ parse "1500" = some steady ∧
      eager.print = "1000:5000:4" ∧ parse eager.print = some eager ∧
      (eager.print = steady.print ↔ eager = steady) := by
  intro eager steady
  have heager : parse " +1000 : 05000:4 " = some eager := by decide +kernel
  have hsteady : parse "1500" = some steady := by decide +kernel
  exact ⟨heager, hsteady, by decide +kernel, print_is_canonical.1 _ _ heager,
    print_is_canonical.2.1 _ _ _ _ heager hsteady⟩

end BackOff

end Rollcall
