import Rollcall.Announce
import Rollcall.Store.Path

/-!
# Allocated keys

The store names a key that it allocates by the index of the write, in twenty digits at least. The
name tells the index, the key lies directly below its directory and nothing lies below the key.
-/

namespace Rollcall

open Store

namespace Text.Decimal

/-- Every character of a number filled up with zeros is a digit. -/
theorem isDigit_of_mem_padded {width n : Nat} {c : Char} (h : c ∈ padded width n) :
    isDigit c = true := by
  rcases List.mem_append.mp h with h | h
  · rw [(List.mem_replicate.mp h).2]
    rfl
  · exact isDigit_of_mem_digits h

/-- A number filled up with zeros has at least one digit. -/
theorem padded_ne_nil (width n : Nat) : padded width n ≠ [] := by
  simp [padded, digits_ne_nil]

/-- Zeros in front leave the value alone. -/
theorem value_padded (width n : Nat) : value (padded width n) = n := by
  rw [value, padded, Nat.ofDigitChars_append, Nat.ofDigitChars_replicate_zero, Nat.mul_zero]
  exact value_digits n

/-- A number is read back from its digits filled up with zeros. -/
theorem read_padded (limit width n : Nat) :
    read limit (padded width n) = if n < limit then some n else none := by
  have hd : readDigits (padded width n) = some n := by
    rw [readDigits, value_padded, if_pos]
    exact ⟨padded_ne_nil width n, by simpa using fun c hc => isDigit_of_mem_padded hc⟩
  unfold read
  split
  · next rest heq =>
    have : '+' ∈ padded width n := by rw [heq]; simp
    exact absurd (isDigit_of_mem_padded this) (by decide)
  · simp only [hd, Option.filter_some, decide_eq_true_eq]

private theorem toNat_of_isDigit {c : Char} (h : isDigit c = true) :
    '0'.toNat ≤ c.toNat ∧ c.toNat ≤ '9'.toNat := by
  rw [isDigit, Bool.and_eq_true, decide_eq_true_iff, decide_eq_true_iff] at h
  exact h

private theorem ofDigitChars_lt {as bs : List Char} (hl : as.length = bs.length)
    (ha : ∀ c ∈ as, isDigit c = true) {x y : Nat} (h : x < y) :
    Nat.ofDigitChars 10 as x < Nat.ofDigitChars 10 bs y := by
  induction as generalizing bs x y with
  | nil =>
    obtain rfl := List.length_eq_zero_iff.mp hl.symm
    exact h
  | cons c as ih =>
    cases bs with
    | nil => cases hl
    | cons d bs =>
      have hc := (toNat_of_isDigit (ha c List.mem_cons_self)).2
      rw [Nat.ofDigitChars_cons, Nat.ofDigitChars_cons]
      refine ih (Nat.succ.inj hl) (fun c hm => ha c (List.mem_cons_of_mem _ hm)) ?_
      have h0 : '0'.toNat = 48 := rfl
      have h9 : '9'.toNat = 57 := rfl
      omega

private theorem lex_of_ofDigitChars_lt {as bs : List Char} (hl : as.length = bs.length)
    (hb : ∀ c ∈ bs, isDigit c = true) {x : Nat}
    (h : Nat.ofDigitChars 10 as x < Nat.ofDigitChars 10 bs x) :
    List.Lex (fun c d => c.toNat < d.toNat) as bs := by
  induction as generalizing bs x with
  | nil =>
    obtain rfl := List.length_eq_zero_iff.mp hl.symm
    exact absurd h (Nat.lt_irrefl _)
  | cons c as ih =>
    cases bs with
    | nil => cases hl
    | cons d bs =>
      have hl' : as.length = bs.length := Nat.succ.inj hl
      have hb' : ∀ c ∈ bs, isDigit c = true := fun c hm => hb c (List.mem_cons_of_mem _ hm)
      rw [Nat.ofDigitChars_cons, Nat.ofDigitChars_cons] at h
      rcases Nat.lt_trichotomy c.toNat d.toNat with hcd | hcd | hcd
      · exact .rel hcd
      · obtain rfl := Char.toNat_inj.mp hcd
        exact .cons (ih hl' hb' h)
      · -- A greater digit in front is not made up for behind it.
        have hd := (toNat_of_isDigit (hb d List.mem_cons_self)).1
        have := ofDigitChars_lt hl'.symm hb' (x := 10 * x + (d.toNat - '0'.toNat))
          (y := 10 * x + (c.toNat - '0'.toNat)) (by omega)
        omega

/-- Twenty places have room for every word. -/
theorem length_padded {n : Nat} (h : n < word64) : (padded 20 n).length = 20 := by
  have hl : (digits n).length ≤ 20 :=
    (Nat.length_toDigits_le_iff (by decide) (by decide)).mpr (Nat.lt_trans h (by decide))
  rw [padded, List.length_append, List.length_replicate]
  omega

/-- Words in twenty places are in the order of their values. -/
theorem compare_padded {m n : Nat} (h : m < n) (hn : n < word64) :
    compare (String.ofList (padded 20 m)) (String.ofList (padded 20 n)) = .lt := by
  have hl : (padded 20 m).length = (padded 20 n).length := by
    rw [length_padded (Nat.lt_trans h hn), length_padded hn]
  have hv : value (padded 20 m) < value (padded 20 n) := by rwa [value_padded, value_padded]
  refine compareOfLessAndEq_eq_lt.mpr (String.lt_iff.mpr ?_)
  rw [String.toList_ofList, String.toList_ofList]
  exact lex_of_ofDigitChars_lt hl (fun _ hc => isDigit_of_mem_padded hc) hv

end Text.Decimal

namespace Store.Path

open Text.Decimal

/-- A name for a key directly below a directory. -/
structure IsName (name : String) : Prop where
  ne_empty : name ≠ ""
  no_slash : '/' ∉ name.toList

theorem toList_child (dir name : String) :
    (child dir name).toList = dir.toList ++ '/' :: name.toList := by
  simp [child]

/-- Keys directly below one directory have different names. -/
theorem child_injective {dir a b : String} (h : child dir a = child dir b) : a = b := by
  have hl := congrArg String.toList h
  rw [toList_child, toList_child, List.append_cancel_left_eq] at hl
  exact String.toList_inj.mp (List.cons.inj hl).2

/-- The last part of a key directly below a directory is its name. -/
theorem lastPart_child {name : String} (h : '/' ∉ name.toList) (dir : String) :
    Text.lastPart '/' (child dir name).toList = name.toList := by
  have hr : ∀ c ∈ name.toList.reverse, (decide (c ≠ '/')) = true := by
    intro c hc
    have : c ≠ '/' := fun he => h (he ▸ List.mem_reverse.mp hc)
    simpa using this
  rw [Text.lastPart, toList_child, List.reverse_append, List.reverse_cons, List.append_assoc,
    List.takeWhile_append_of_pos hr]
  simp

theorem IsName.lastPart_child {name : String} (h : IsName name) (dir : String) :
    Text.lastPart '/' (child dir name).toList = name.toList := Path.lastPart_child h.no_slash dir

/-- What follows the directory in a key directly below it. -/
theorem rest?_child (dir name : String) : rest? dir (child dir name) = some name.toList := by
  have hl : (child dir name).toList = (dir.toList ++ ['/']) ++ name.toList := by
    simp [toList_child]
  rw [rest?, hl]
  simp

theorem isBelow_child (dir name : String) : isBelow dir (child dir name) = true := by
  rw [isBelow, rest?_child]
  rfl

/-- The path to a key directly below a directory leads through that key. -/
theorem toward?_child {name : String} (h : '/' ∉ name.toList) (dir : String) :
    toward? dir (child dir name) = some (child dir name) := by
  have ht : (name.toList ++ []).takeWhile (· ≠ '/') = name.toList ++ [] := by
    refine List.takeWhile_append_of_pos fun c hc => ?_
    have : c ≠ '/' := fun he => h (he ▸ hc)
    simpa using this
  rw [List.append_nil] at ht
  rw [toward?, rest?_child, Option.map_some, ht, String.ofList_toList]

theorem IsName.toward?_child {name : String} (h : IsName name) (dir : String) :
    toward? dir (child dir name) = some (child dir name) := Path.toward?_child h.no_slash dir

/-- The path to a key below a directory leads through a key directly below it. -/
theorem exists_child_of_toward? {dir key k : String} (h : toward? dir key = some k) :
    ∃ name : String, '/' ∉ name.toList ∧ k = child dir name := by
  obtain ⟨rest, -, rfl⟩ := Option.map_eq_some_iff.mp h
  refine ⟨_, fun hm => ?_, rfl⟩
  rw [String.toList_ofList] at hm
  simpa using List.all_eq_true.mp List.all_takeWhile '/' hm

/-- The path to a key directly below a directory leads no further. -/
theorem toward?_self {dir key k : String} (h : toward? dir key = some k) :
    toward? dir k = some k := by
  obtain ⟨name, hs, rfl⟩ := exists_child_of_toward? h
  exact toward?_child hs dir

/-- The key that the write of an index allocates below a directory. -/
def allocated (dir : String) (n : Nat) : String := child dir (String.ofList (padded 20 n))

theorem isName_padded (n : Nat) : IsName (String.ofList (padded 20 n)) where
  ne_empty h := by
    have hl := congrArg String.toList h
    rw [String.toList_ofList] at hl
    exact padded_ne_nil 20 n hl
  no_slash h := by
    rw [String.toList_ofList] at h
    exact absurd (isDigit_of_mem_padded h) (by decide)

theorem toList_allocated (dir : String) (n : Nat) :
    (allocated dir n).toList = dir.toList ++ '/' :: padded 20 n := by
  rw [allocated, toList_child, String.toList_ofList]

/-- The last part of an allocated key is the index. -/
theorem lastPart_allocated (dir : String) (n : Nat) :
    Text.lastPart '/' (allocated dir n).toList = padded 20 n := by
  rw [allocated, (isName_padded n).lastPart_child, String.toList_ofList]

/-- Keys allocated at different indices differ, whatever the directories. -/
theorem allocated_injective {a b : String} {m n : Nat} (h : allocated a m = allocated b n) :
    m = n := by
  have hv := congrArg (fun key : String => value (Text.lastPart '/' key.toList)) h
  simpa only [lastPart_allocated, value_padded] using hv

/-- An allocated key lies below its directory. -/
theorem isBelow_allocated (dir : String) (n : Nat) : isBelow dir (allocated dir n) = true :=
  isBelow_child dir _

/-- An allocated key lies directly below its directory. -/
theorem toward?_allocated (dir : String) (n : Nat) :
    toward? dir (allocated dir n) = some (allocated dir n) := (isName_padded n).toward?_child dir

/-- Only the path to a key below a directory leads through one directly below it. -/
theorem isBelow_of_toward? {dir key k : String} (h : toward? dir key = some k) :
    isBelow dir key = true := by
  obtain ⟨rest, hr, _⟩ := Option.map_eq_some_iff.mp h
  rw [isBelow, hr]
  rfl

/-- A key below a directory is the directory, a slash and something more. -/
theorem isBelow_iff {dir key : String} :
    isBelow dir key = true ↔ ∃ rest, key.toList = dir.toList ++ '/' :: rest := by
  rw [isBelow, rest?]
  split
  · next h =>
    obtain ⟨rest, hr⟩ := List.isPrefixOf_iff_prefix.mp h
    simpa using ⟨rest, by simpa using hr.symm⟩
  · next h =>
    simp only [Option.isSome_none, Bool.false_eq_true, false_iff, not_exists]
    intro rest hr
    exact h (List.isPrefixOf_iff_prefix.mpr ⟨rest, by simpa using hr.symm⟩)

/-- What lies below something below a directory lies below the directory. -/
theorem isBelow_trans {a b c : String} (hab : isBelow a b = true) (hbc : isBelow b c = true) :
    isBelow a c = true := by
  obtain ⟨r, hr⟩ := isBelow_iff.mp hab
  obtain ⟨s, hs⟩ := isBelow_iff.mp hbc
  exact isBelow_iff.mpr ⟨r ++ '/' :: s, by simp [hs, hr]⟩

/-- A key directly below a directory does not lie below another one. -/
theorem IsName.not_isBelow_child {name : String} (h : IsName name) (dir other : String) :
    isBelow (child dir other) (child dir name) = false := by
  rw [Bool.eq_false_iff, ne_eq, isBelow_iff]
  rintro ⟨rest, he⟩
  rw [toList_child, toList_child, List.append_assoc, List.append_cancel_left_eq] at he
  have hm : '/' ∈ name.toList := by rw [(List.cons.inj he).2]; simp
  exact h.no_slash hm

/-- No allocated key lies below another one of the same directory. -/
theorem not_isBelow_allocated (dir : String) (m n : Nat) :
    isBelow (allocated dir m) (allocated dir n) = false := (isName_padded n).not_isBelow_child dir _

/-- A key with a slash in front and none behind is in the form in which the store knows it. -/
theorem normalize_eq_self {key : String} {s : List Char} {c : Char}
    (h : key.toList = '/' :: (s ++ [c])) (hc : c ≠ '/') : normalize key = key := by
  have hd : Text.dropTrailing '/' key.toList = key.toList := by
    rw [Text.dropTrailing, h, ← List.cons_append, List.reverse_append]
    simp [hc]
  rw [normalize, hd]
  split
  · next heq => simp [h] at heq
  · next rest heq => rw [← heq, String.ofList_toList]
  · next hne => exact absurd h (hne _)

/-- The form in which the store knows a key that does not end in a slash begins with one. -/
theorem exists_normalize_eq {key : String} {cs : List Char} {c : Char}
    (h : key.toList = cs ++ [c]) (hc : c ≠ '/') :
    ∃ ds, (normalize key).toList = '/' :: (ds ++ [c]) := by
  have hd : Text.dropTrailing '/' key.toList = cs ++ [c] := by
    rw [Text.dropTrailing, h, List.reverse_append]
    simp [hc]
  rw [normalize, hd]
  split
  · next heq => simp at heq
  · next rest heq =>
    refine ⟨cs.tail, ?_⟩
    cases cs with
    | nil =>
      simp only [List.nil_append, List.cons.injEq] at heq
      exact absurd heq.1 hc
    | cons d cs =>
      rw [List.cons_append, List.cons.injEq] at heq
      simp [← heq.2]
  · exact ⟨cs, by simp⟩

/-- The form in which the store knows a key directly below a directory is below that of the
directory. -/
theorem IsName.normalize_child {name : String} (h : IsName name) {dir : String} {cs : List Char}
    {c : Char} (hd : dir.toList = cs ++ [c]) (hc : c ≠ '/') :
    normalize (child dir name) = child (normalize dir) name := by
  have hne : name.toList ≠ [] := fun he => h.ne_empty (String.toList_eq_nil_iff.mp he)
  have hl := name.toList.dropLast_concat_getLast hne
  have hlast : name.toList.getLast hne ≠ '/' := fun he => h.no_slash (he ▸ List.getLast_mem hne)
  have hdrop : Text.dropTrailing '/' dir.toList = dir.toList := by
    rw [Text.dropTrailing, hd, List.reverse_append]
    simp [hc]
  have hdrop' :
      Text.dropTrailing '/' (child dir name).toList = dir.toList ++ '/' :: name.toList := by
    rw [Text.dropTrailing, toList_child, ← hl, ← List.cons_append, ← List.append_assoc,
      List.reverse_append]
    simp [hlast]
  rw [normalize, normalize, hdrop, hdrop', ← String.toList_inj]
  cases hcs : dir.toList with
  | nil => simp [hcs] at hd
  | cons d ds =>
    by_cases hs : d = '/'
    · subst hs
      simp [child]
    · simp [child, hs]

/-- A key directly below a directory is in the form in which the store knows it if the directory
is. -/
theorem IsName.normalize_child_self {name : String} (h : IsName name) {dir : String}
    {cs : List Char} (hd : dir.toList = '/' :: cs) :
    normalize (child dir name) = child dir name := by
  have hne : name.toList ≠ [] := fun he => h.ne_empty (String.toList_eq_nil_iff.mp he)
  have hl := name.toList.dropLast_concat_getLast hne
  refine normalize_eq_self (s := cs ++ '/' :: name.toList.dropLast)
    (c := name.toList.getLast hne) ?_ ?_
  · rw [toList_child, hd, List.append_assoc, List.cons_append, List.cons_append, hl]
  · intro he
    exact h.no_slash (he ▸ List.getLast_mem _)

/-- An allocated key is in the form in which the store knows it if its directory is. -/
theorem normalize_allocated {dir : String} {cs : List Char} (h : dir.toList = '/' :: cs) (n : Nat) :
    normalize (allocated dir n) = allocated dir n := (isName_padded n).normalize_child_self h

end Store.Path

/-- An allocated key is named by its index, as far as a word goes. -/
theorem keyName?_allocated (dir : String) (n : Nat) :
    keyName? (Path.allocated dir n) = if n < Text.Decimal.word64 then some n else none := by
  rw [keyName?, Path.lastPart_allocated, Text.Decimal.read_padded]

/-- An announce under an allocated key is ordered by the index. -/
theorem Announce.name_of_key {a : Announce} {dir : String} {n : Nat}
    (h : a.key = Path.allocated dir n) : a.name = n := by
  have hn := a.named
  have hk : keyName? a.key = some a.name := by simp [Announce.name]
  rw [h, keyName?_allocated] at hn hk
  split at hk
  · exact (Option.some.inj hk).symm
  · simp at hk

end Rollcall
