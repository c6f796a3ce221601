/-!
# Blank characters

The characters that count as white space in text, by the Unicode property `White_Space`, and the
removal of blank ends.
-/

namespace Rollcall.Text

/-- The code points with the property `White_Space`, as closed ranges in increasing order. -/
def blankRanges : List (Nat × Nat) :=
  [(0x09, 0x0D), (0x20, 0x20), (0x85, 0x85), (0xA0, 0xA0), (0x1680, 0x1680), (0x2000, 0x200A),
    (0x2028, 0x2029), (0x202F, 0x202F), (0x205F, 0x205F), (0x3000, 0x3000)]

/-- Whether a character is white space. -/
def isBlank (c : Char) : Bool :=
  blankRanges.any fun r => r.1 ≤ c.toNat && c.toNat ≤ r.2

/-- Text without its leading blank characters. -/
def dropBlank (cs : List Char) : List Char := cs.dropWhile isBlank

/-- Text without the blank characters at either end. -/
def trim (cs : List Char) : List Char := (dropBlank (dropBlank cs).reverse).reverse

/-- No leading character of what is left is blank. -/
theorem isBlank_of_head?_dropBlank {cs : List Char} {c : Char}
    (h : (dropBlank cs).head? = some c) : isBlank c = false := by
  have := List.head?_dropWhile_not isBlank cs
  rw [dropBlank] at h
  rw [h] at this
  simpa using this

/-- Without blank characters there is nothing to remove in front. -/
theorem dropBlank_eq_self {cs : List Char} (h : ∀ c ∈ cs, isBlank c = false) :
    dropBlank cs = cs := by
  cases cs with
  | nil => rfl
  | cons c cs => exact List.dropWhile_cons_of_neg (by simp [h c (.head _)])

/-- Without blank characters there is nothing to remove at either end. -/
theorem trim_eq_self {cs : List Char} (h : ∀ c ∈ cs, isBlank c = false) : trim cs = cs := by
  have hreverse : ∀ c ∈ cs.reverse, isBlank c = false := fun c hc => h c (List.mem_reverse.mp hc)
  rw [trim, dropBlank_eq_self h, dropBlank_eq_self hreverse, List.reverse_reverse]

end Rollcall.Text
