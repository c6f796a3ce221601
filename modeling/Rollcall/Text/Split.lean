/-!
# Splitting text at a separator

A text with n separators has n + 1 parts; parts may be empty. Joining the parts with the separator
between them gives the text back.
-/

namespace Rollcall.Text

/-- The parts of a text between the occurrences of `sep`. -/
def split (sep : Char) : List Char → List (List Char)
  | [] => [[]]
  | c :: cs =>
    if c = sep then [] :: split sep cs
    else
      match split sep cs with
      | [] => [[c]]
      | part :: parts => (c :: part) :: parts

/-- The parts of a text one after another, with `sep` between neighbours. -/
def join (sep : Char) : List (List Char) → List Char
  | [] => []
  | [part] => part
  | part :: parts => part ++ sep :: join sep parts

/-- The part after the last separator: the whole text if there is none. -/
def lastPart (sep : Char) (cs : List Char) : List Char :=
  (cs.reverse.takeWhile (· ≠ sep)).reverse

/-- A text without the occurrences of `sep` at its end. -/
def dropTrailing (sep : Char) (cs : List Char) : List Char :=
  (cs.reverse.dropWhile (· = sep)).reverse

/-- A split is never empty. -/
theorem split_ne_nil (sep : Char) (cs : List Char) : split sep cs ≠ [] := by
  cases cs with
  | nil => simp [split]
  | cons c cs =>
    rw [split]
    split
    · simp
    · split <;> simp

/-- The parts put together again are the text. -/
theorem join_split (sep : Char) (cs : List Char) : join sep (split sep cs) = cs := by
  induction cs with
  | nil => rfl
  | cons c cs ih =>
    rw [split]
    split
    · next h =>
      subst h
      have hne := split_ne_nil c cs
      cases hs : split c cs with
      | nil => exact absurd hs hne
      | cons p ps => rw [hs] at ih; simp [join, ih]
    · split
      · next h => exact absurd h (split_ne_nil sep cs)
      · next part parts h =>
        rw [h] at ih
        cases parts with
        | nil => simpa [join] using ih
        | cons q qs => simpa [join] using ih

/-- Splitting text is splitting a list. -/
theorem split_eq_splitOn (sep : Char) (cs : List Char) : split sep cs = cs.splitOn sep := by
  induction cs with
  | nil => rw [split, List.splitOn_nil]
  | cons c cs ih =>
    obtain ⟨part, parts, hparts⟩ := List.exists_cons_of_ne_nil (split_ne_nil sep cs)
    rw [split, List.splitOn, List.splitOnP_cons_eq_if_modifyHead, ← List.splitOn, ← ih, hparts]
    by_cases h : c = sep
    · simp [h]
    · simp [h]

/-- Joining texts is putting a list of one separator between them. -/
theorem join_eq_intercalate (sep : Char) (parts : List (List Char)) :
    join sep parts = [sep].intercalate parts := by
  induction parts with
  | nil => rfl
  | cons part parts ih =>
    cases parts with
    | nil => simp [join]
    | cons next rest =>
      rw [List.intercalate_cons_cons, ← ih, List.append_assoc]
      rfl

/-- Parts without the separator are read back from their join. -/
theorem split_join {sep : Char} {parts : List (List Char)} (h : ∀ part ∈ parts, sep ∉ part)
    (hne : parts ≠ []) : split sep (join sep parts) = parts := by
  rw [split_eq_splitOn, join_eq_intercalate, List.splitOn_intercalate sep h hne]

/-- A join has each part after the first one behind a separator. -/
theorem join_cons (sep : Char) (part : List Char) (parts : List (List Char)) :
    join sep (part :: parts) = part ++ parts.flatMap (sep :: ·) := by
  induction parts generalizing part with
  | nil => simp [join]
  | cons next rest ih =>
    have hjoin : join sep (part :: next :: rest) = part ++ sep :: join sep (next :: rest) := rfl
    rw [hjoin, ih, List.flatMap_cons, List.cons_append]

/-- A join that begins with an empty part begins with a separator. -/
theorem join_nil_cons {sep : Char} {parts : List (List Char)} (h : parts ≠ []) :
    join sep ([] :: parts) = sep :: join sep parts := by
  cases parts with
  | nil => exact absurd rfl h
  | cons part parts => rfl

/-- A join has the characters of its parts and the separator. -/
theorem eq_or_mem_of_mem_join {sep c : Char} {parts : List (List Char)} (h : c ∈ join sep parts) :
    c = sep ∨ ∃ part ∈ parts, c ∈ part := by
  cases parts with
  | nil => exact absurd h List.not_mem_nil
  | cons part parts =>
    rw [join_cons] at h
    rcases List.mem_append.mp h with h | h
    · exact .inr ⟨part, .head _, h⟩
    · obtain ⟨next, hnext, hc⟩ := List.mem_flatMap.mp h
      rcases List.mem_cons.mp hc with rfl | hc
      · exact .inl rfl
      · exact .inr ⟨next, .tail _ hnext, hc⟩

/-- Whether a text begins with another. -/
def startsWith (head cs : List Char) : Bool := head.isPrefixOf cs

end Rollcall.Text
