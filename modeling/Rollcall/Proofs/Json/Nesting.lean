import Rollcall.Proofs.Json.RoundTrip

/-!
# Brackets in brackets

How many brackets are open at once in a text is counted character by character; what stands in a
string does not count. The text of a value nests as deeply as the value.
-/

namespace Rollcall.Json

/-- Where a count of brackets stands. -/
inductive Place
  | outside
  /-- In a string. -/
  | quoted
  /-- Right after a backslash in a string. -/
  | escaped

/-- A count of brackets. -/
structure Gauge where
  place : Place := .outside
  /-- The brackets that are open. -/
  depth : Nat := 0
  /-- The brackets that were open at once. -/
  deepest : Nat := 0

namespace Gauge

/-- A count after one character. -/
def step (g : Gauge) (c : Char) : Gauge :=
  match g.place with
  | .escaped => { g with place := .quoted }
  | .quoted =>
    if c = '"' then { g with place := .outside }
    else if c = '\\' then { g with place := .escaped }
    else g
  | .outside =>
    if c = '"' then { g with place := .quoted }
    else if c = '[' ∨ c = '\x7b' then
      { g with depth := g.depth + 1, deepest := max g.deepest (g.depth + 1) }
    else if c = ']' ∨ c = '\x7d' then { g with depth := g.depth - 1 }
    else g

/-- A count after some characters. -/
def feed (g : Gauge) (cs : List Char) : Gauge := cs.foldl step g

end Gauge

/-- The number of brackets that are open at once in a text. -/
def nesting (text : List Char) : Nat := (Gauge.feed {} text).deepest

mutual

/-- The number of brackets in brackets of a value. -/
def Value.brackets : Value → Nat
  | .null | .bool _ | .int _ | .number _ | .string _ | .unpaired => 0
  | .array items => bracketsOfItems items + 1
  | .object fields => bracketsOfFields fields + 1

/-- The number of brackets in brackets of the items of an array. -/
def bracketsOfItems : List Value → Nat
  | [] => 0
  | v :: items => max v.brackets (bracketsOfItems items)

/-- The number of brackets in brackets of the fields of an object. -/
def bracketsOfFields : List (Option String × Value) → Nat
  | [] => 0
  | (_, v) :: fields => max v.brackets (bracketsOfFields fields)

end

theorem bracketsOfFields_append (fields fields' : List (Option String × Value)) :
    bracketsOfFields (fields ++ fields') =
      max (bracketsOfFields fields) (bracketsOfFields fields') := by
  induction fields with
  | nil => simp [bracketsOfFields]
  | cons f fields ih =>
    rw [List.cons_append, bracketsOfFields, bracketsOfFields, ih, Nat.max_assoc]

namespace Gauge

@[simp] theorem feed_nil (g : Gauge) : g.feed [] = g := rfl

@[simp] theorem feed_cons (g : Gauge) (c : Char) (cs : List Char) :
    g.feed (c :: cs) = (g.step c).feed cs := rfl

theorem feed_append (g : Gauge) (cs ds : List Char) : g.feed (cs ++ ds) = (g.feed cs).feed ds :=
  List.foldl_append

/-- A count after so many more brackets that were closed again. -/
def reach (g : Gauge) (n : Nat) : Gauge := { g with deepest := max g.deepest (g.depth + n) }

/-- A count after a bracket that was opened. -/
def enter (g : Gauge) : Gauge :=
  { g with depth := g.depth + 1, deepest := max g.deepest (g.depth + 1) }

/-- A count at the end of a bracket, after so many more brackets that were closed again. -/
def leave (g : Gauge) (n : Nat) : Gauge :=
  { g with depth := g.depth - 1, deepest := max g.deepest (g.depth + n) }

private theorem reach_zero {g : Gauge} (h : g.depth ≤ g.deepest) : g.reach 0 = g := by
  simp [reach, Nat.max_eq_left h]

private theorem leave_enter (g : Gauge) (n : Nat) : g.enter.leave n = g.reach (n + 1) := by
  simp only [leave, enter, reach, Gauge.mk.injEq, true_and]
  omega

private theorem leave_reach (g : Gauge) (m n : Nat) : (g.reach m).leave n = g.leave (max m n) := by
  simp only [leave, reach, Gauge.mk.injEq, true_and]
  omega

/-! ### Strings -/

private theorem feed_escape {g : Gauge} (hg : g.place = .quoted) (c : Char) :
    g.feed (escape c) = g := by
  obtain ⟨place, depth, deepest⟩ := g
  obtain rfl : place = .quoted := hg
  have hhex : ∀ n, n < 16 → hexDigit n ≠ '"' ∧ hexDigit n ≠ '\\' := by decide
  unfold escape
  repeat' split
  · rfl
  · rfl
  · rfl
  · rfl
  · rfl
  · rfl
  · rfl
  · have h1 := hhex (c.toNat / 16) (by omega)
    have h2 := hhex (c.toNat % 16) (by omega)
    simp [step, h1, h2]
  · next hq hb _ _ _ _ _ _ => simp [step, hq, hb]

private theorem feed_quote {g : Gauge} (hg : g.place = .outside) (s : String) :
    g.feed (quote s) = g := by
  have hs : ∀ cs : List Char,
      { g with place := .quoted }.feed (cs.flatMap escape) = { g with place := .quoted } := by
    intro cs
    induction cs with
    | nil => rfl
    | cons c cs ih => rw [List.flatMap_cons, feed_append, feed_escape rfl, ih]
  have ho : g.step '"' = { g with place := .quoted } := by simp [step, hg]
  rw [quote, List.cons_append, feed_cons, ho, feed_append, hs]
  simp [step, ← hg]

/-! ### Numbers and words -/

/-- The characters that neither open nor close anything. -/
private abbrev Neutral (c : Char) : Prop :=
  c ≠ '"' ∧ c ≠ '[' ∧ c ≠ '\x7b' ∧ c ≠ ']' ∧ c ≠ '\x7d'

private theorem step_neutral {g : Gauge} (hg : g.place = .outside) {c : Char} (h : Neutral c) :
    g.step c = g := by
  obtain ⟨h1, h2, h3, h4, h5⟩ := h
  simp [step, hg, h1, h2, h3, h4, h5]

private theorem feed_neutral {g : Gauge} (hg : g.place = .outside) {cs : List Char}
    (h : ∀ c ∈ cs, Neutral c) : g.feed cs = g := by
  induction cs with
  | nil => rfl
  | cons c cs ih =>
    rw [feed_cons, step_neutral hg (h c List.mem_cons_self),
      ih fun c hc => h c (List.mem_cons_of_mem _ hc)]

private theorem neutral_of_mem_printInt {n : Int} {c : Char} (h : c ∈ printInt n) : Neutral c := by
  have hdigit : ∀ {c : Char}, Text.Decimal.isDigit c = true → Neutral c := by
    intro c hc
    refine ⟨?_, ?_, ?_, ?_, ?_⟩ <;> rintro rfl <;> exact absurd hc (by decide)
  cases n with
  | ofNat n => exact hdigit (Text.Decimal.isDigit_of_mem_digits h)
  | negSucc n =>
    rcases List.mem_cons.mp h with rfl | h
    · exact ⟨by decide, by decide, by decide, by decide, by decide⟩
    · exact hdigit (Text.Decimal.isDigit_of_mem_digits h)

/-! ### Values -/

/-- A value whose brackets are counted. -/
private def Counted (v : Value) : Prop :=
  ∀ g : Gauge, g.place = .outside → g.depth ≤ g.deepest → g.feed (print v) = g.reach v.brackets

private theorem step_open {g : Gauge} (hg : g.place = .outside) :
    g.step '[' = g.enter ∧ g.step '\x7b' = g.enter := by
  simp [step, enter, hg]

private theorem feed_close {g : Gauge} (hg : g.place = .outside) (n : Nat) :
    (g.reach n).feed [']'] = g.leave n ∧ (g.reach n).feed ['\x7d'] = g.leave n := by
  simp [step, reach, leave, hg]

private theorem feed_items {items : List Value} (hi : ∀ v ∈ items, Counted v) {g : Gauge}
    (hg : g.place = .outside) (hd : g.depth ≤ g.deepest) :
    g.feed (printItems items) = g.leave (bracketsOfItems items) := by
  induction items generalizing g with
  | nil =>
    have hc := (feed_close hg 0).1
    rwa [reach_zero hd] at hc
  | cons v items ih =>
    have hv := hi v List.mem_cons_self g hg hd
    cases items with
    | nil =>
      rw [printItems, feed_append, hv, (feed_close hg _).1, bracketsOfItems, bracketsOfItems,
        Nat.max_zero]
    | cons w items =>
      have hn := ih (fun u hu => hi u (List.mem_cons_of_mem _ hu)) (g := g.reach v.brackets) hg
        (Nat.le_trans hd (Nat.le_max_left ..))
      rw [printItems, feed_append, hv, feed_cons,
        step_neutral (g := g.reach v.brackets) (c := ',') hg (by decide), hn, leave_reach,
        ← bracketsOfItems]

private theorem feed_fields {fields : List (Option String × Value)}
    (named : ∀ f ∈ fields, f.1.isSome = true) (hi : ∀ f ∈ fields, Counted f.2) {g : Gauge}
    (hg : g.place = .outside) (hd : g.depth ≤ g.deepest) :
    g.feed (printFields fields) = g.leave (bracketsOfFields fields) := by
  induction fields generalizing g with
  | nil =>
    have hc := (feed_close hg 0).2
    rwa [reach_zero hd] at hc
  | cons f fields ih =>
    obtain ⟨name, v⟩ := f
    obtain ⟨k, rfl⟩ := Option.isSome_iff_exists.mp (named (name, v) List.mem_cons_self)
    have hv := hi (some k, v) List.mem_cons_self g hg hd
    cases fields with
    | nil =>
      rw [printFields, printName, List.append_assoc, feed_append, feed_quote hg, List.cons_append,
        feed_cons, step_neutral (c := ':') hg (by decide), feed_append, hv, (feed_close hg _).2,
        bracketsOfFields, bracketsOfFields, Nat.max_zero]
    | cons f fields =>
      have hn := ih (fun u hu => named u (List.mem_cons_of_mem _ hu))
        (fun u hu => hi u (List.mem_cons_of_mem _ hu)) (g := g.reach v.brackets) hg
        (Nat.le_trans hd (Nat.le_max_left ..))
      rw [printFields, printName, List.append_assoc, feed_append, feed_quote hg, List.cons_append,
        feed_cons, step_neutral (c := ':') hg (by decide), feed_append, hv, feed_cons,
        step_neutral (g := g.reach v.brackets) (c := ',') hg (by decide), hn, leave_reach,
        ← bracketsOfFields]

private theorem counted {v : Value} (h : Plain v) : Counted v := by
  intro g hg hd
  induction h generalizing g with
  | null =>
    rw [Value.brackets, reach_zero hd]
    simp [print, step, hg]
  | bool b =>
    rw [Value.brackets, reach_zero hd]
    cases b <;> simp [print, step, hg]
  | int n =>
    rw [Value.brackets, reach_zero hd, print, feed_neutral hg fun _ => neutral_of_mem_printInt]
  | string s => rw [Value.brackets, reach_zero hd, print, feed_quote hg]
  | array items h ih =>
    rw [Value.brackets, print, feed_cons, (step_open hg).1,
      feed_items (g := g.enter) ih hg (Nat.le_max_right ..), leave_enter]
  | object fields named h ih =>
    rw [Value.brackets, print, feed_cons, (step_open hg).2,
      feed_fields (g := g.enter) named ih hg (Nat.le_max_right ..), leave_enter]

end Gauge

/-- The text of a value written in full nests as deeply as the value. -/
theorem nesting_print {v : Value} (h : Plain v) : nesting (print v) = v.brackets := by
  rw [nesting, Gauge.counted h {} rfl (Nat.le_refl _)]
  simp [Gauge.reach]

end Rollcall.Json
