import Rollcall.Json.Reader

/-!
# Reading what was written

The reader gets back every value that is written in full: one without numbers other than integers
and without unpaired surrogates. A string is followed character by character, a bracket by what it
holds; an integer is over only with the character after it.
-/

namespace Rollcall.Json

/-- The values that are written in full. -/
inductive Plain : Value → Prop
  | null : Plain .null
  | bool (b : Bool) : Plain (.bool b)
  | int (n : Int) : Plain (.int n)
  | string (s : String) : Plain (.string s)
  | array (items : List Value) (h : ∀ v ∈ items, Plain v) : Plain (.array items)
  | object (fields : List (Option String × Value)) (named : ∀ f ∈ fields, f.1.isSome = true)
    (h : ∀ f ∈ fields, Plain f.2) : Plain (.object fields)

/-- The reader after some characters. -/
def Reader.feed (r : Reader) (cs : List Char) : Option Reader := cs.foldlM Reader.step r

namespace Reader

@[simp] theorem feed_nil (r : Reader) : r.feed [] = some r := rfl

@[simp] theorem feed_cons (r : Reader) (c : Char) (cs : List Char) :
    r.feed (c :: cs) = (r.step c).bind fun r => r.feed cs := rfl

theorem feed_append (r : Reader) (cs ds : List Char) :
    r.feed (cs ++ ds) = (r.feed cs).bind fun r => r.feed ds := by
  simp [feed, List.foldlM_append, Option.bind_eq_bind]

/-- Where a value goes depends on the brackets that are open. -/
theorem put_congr {r r' : Reader} (h : r.stack = r'.stack) (v : Value) : r.put v = r'.put v := by
  simp only [put, h]

/-- After a value the reader stands between tokens. -/
theorem token_of_put {r r' : Reader} {v : Value} (h : r.put v = some r') : r'.token = .none := by
  unfold put at h
  split at h <;> cases h <;> rfl

/-! ### Strings -/

private theorem step_string {r : Reader} {s : Scan} (h : r.token = .string s) {c : Char}
    (hc : c ≠ '"' ∨ s.escape ≠ .none) :
    r.step c = (s.next c).map fun s => { r with token := .string s } := by
  rw [step, h]
  dsimp only
  split
  · next he =>
    rw [if_neg (hc.resolve_right (fun hn => hn he))]
  · rfl

private theorem feed_string {r : Reader} {s t : Scan} (h : r.token = .string s) {c : Char}
    {cs : List Char} (hc : c ≠ '"' ∨ s.escape ≠ .none) (hs : s.next c = some t) :
    r.feed (c :: cs) = { r with token := .string t }.feed cs := by
  rw [feed_cons, step_string h hc, hs]
  rfl

private theorem hexValue_hexDigit : ∀ n, n < 16 → hexValue (hexDigit n) = some n := by decide

private theorem next_begun {chars : List Char} {c d : Char} (hu : c ≠ 'u')
    (h : escaped c = some d) :
    Scan.next { chars, escape := .begun } c = some { chars := d :: chars } := by
  simp [Scan.next, hu, h, Scan.push, Scan.settle]

private theorem feed_escaped (r : Reader) (chars : List Char) {c d : Char} (hu : c ≠ 'u')
    (h : escaped c = some d) :
    { r with token := .string { chars } }.feed ['\\', c] =
      some { r with token := .string { chars := d :: chars } } := by
  rw [feed_string (s := { chars }) (t := { chars, escape := .begun }) rfl
      (.inl (by decide)) rfl,
    feed_string (s := { chars, escape := .begun }) rfl (.inr (by simp))
      (next_begun hu h)]
  rfl

private theorem next_hex_last {chars : List Char} {n d : Nat} {c : Char}
    (h : hexValue c = some d) (hn : n * 16 + d < 0xD800) :
    Scan.next { chars, escape := .hex 3 n } c =
      some { chars := Char.ofNat (n * 16 + d) :: chars } := by
  have h1 : ¬(0xDC00 ≤ n * 16 + d ∧ n * 16 + d ≤ 0xDFFF) := by omega
  have h2 : ¬(0xD800 ≤ n * 16 + d ∧ n * 16 + d ≤ 0xDBFF) := by omega
  simp only [Scan.next, h, Option.bind_eq_bind, Option.bind_some, ite_true, Scan.unit, if_neg h1,
    if_neg h2]
  rfl

private theorem next_hex {chars : List Char} {k n d : Nat} {c : Char} (h : hexValue c = some d)
    (hk : k ≠ 3) :
    Scan.next { chars, escape := .hex k n } c =
      some { chars, escape := .hex (k + 1) (n * 16 + d) } := by
  simp only [Scan.next, h, Option.bind_eq_bind, Option.bind_some, if_neg hk]

private theorem feed_control (r : Reader) (chars : List Char) {c : Char} (h : c.toNat < 0x20) :
    { r with token := .string { chars } }.feed
        ['\\', 'u', '0', '0', hexDigit (c.toNat / 16), hexDigit (c.toNat % 16)] =
      some { r with token := .string { chars := c :: chars } } := by
  have h1 := hexValue_hexDigit (c.toNat / 16) (by omega)
  have h2 := hexValue_hexDigit (c.toNat % 16) (by omega)
  have hv : ((0 * 16 + 0) * 16 + 0) * 16 + c.toNat / 16 = c.toNat / 16 := by omega
  have hc : c.toNat / 16 * 16 + c.toNat % 16 = c.toNat := by omega
  have h3 : Scan.next { chars, escape := .hex 3 (c.toNat / 16) } (hexDigit (c.toNat % 16)) = _ :=
    next_hex_last h2 (by omega)
  rw [hc, Char.ofNat_toNat] at h3
  have h4 : Scan.next { chars, escape := .hex 2 0 } (hexDigit (c.toNat / 16)) = _ :=
    next_hex h1 (by decide)
  rw [show 0 * 16 + c.toNat / 16 = c.toNat / 16 by omega] at h4
  rw [feed_string (s := { chars }) (t := { chars, escape := .begun }) rfl
      (.inl (by decide)) rfl,
    feed_string (s := { chars, escape := .begun })
      (t := { chars, escape := .hex 0 0 }) rfl (.inr (by simp)) rfl,
    feed_string (s := { chars, escape := .hex 0 0 })
      (t := { chars, escape := .hex 1 0 }) rfl (.inr (by simp)) rfl,
    feed_string (s := { chars, escape := .hex 1 0 })
      (t := { chars, escape := .hex 2 0 }) rfl (.inr (by simp)) rfl,
    feed_string (s := { chars, escape := .hex 2 0 }) rfl (.inr (by simp)) h4,
    feed_string (s := { chars, escape := .hex 3 (c.toNat / 16) }) rfl (.inr (by simp)) h3]
  rfl

private theorem feed_escape (r : Reader) (chars : List Char) (c : Char) :
    { r with token := .string { chars } }.feed (escape c) =
      some { r with token := .string { chars := c :: chars } } := by
  unfold escape
  split
  · next h => subst h; exact feed_escaped r chars (by decide) rfl
  split
  · next h => subst h; exact feed_escaped r chars (by decide) rfl
  split
  · next h => subst h; exact feed_escaped r chars (by decide) rfl
  split
  · next h => subst h; exact feed_escaped r chars (by decide) rfl
  split
  · next h => subst h; exact feed_escaped r chars (by decide) rfl
  split
  · next h => subst h; exact feed_escaped r chars (by decide) rfl
  split
  · next h => subst h; exact feed_escaped r chars (by decide) rfl
  split
  · next h => exact feed_control r chars h
  · next hq hb _ _ _ _ _ hl =>
    refine feed_string (s := { chars }) rfl (.inl hq) ?_
    simp [Scan.next, hb, hl, Scan.push, Scan.settle]

private theorem feed_escapes (r : Reader) (chars cs : List Char) :
    { r with token := .string { chars } }.feed (cs.flatMap escape) =
      some { r with token := .string { chars := cs.reverse ++ chars } } := by
  induction cs generalizing chars with
  | nil => rfl
  | cons c cs ih =>
    rw [List.flatMap_cons, feed_append, feed_escape, Option.bind_some, ih]
    simp

/-- A string between its quotes is read as itself. -/
theorem feed_quote {r : Reader} (ht : r.token = .none) (hq : r.mayQuote = true) (s : String) :
    r.feed (quote s) = r.putQuoted (some s) := by
  have hb : r.step '"' = some { r with token := .string {} } := by
    rw [step, ht]
    simp [between, isSpace, hq]
  have he : { r with token := .string { chars := s.toList.reverse ++ [] } }.step '"' =
      r.putQuoted (some s) := by
    simp only [step, Scan.close, Scan.settle]
    simp [putQuoted, put]
  rw [quote, List.cons_append, feed_cons, hb, Option.bind_some, feed_append, feed_escapes,
    Option.bind_some, feed_cons, he]
  cases r.putQuoted (some s) <;> rfl

/-! ### Integers -/

/-- The characters after which a value in a bracket goes on. -/
def endsItem (c : Char) : Bool := c = ',' || c = ']' || c = '}'

private theorem step_digit {r : Reader} {d e : Digits} {chars : List Char} {c : Char}
    (h : r.token = .number d chars) (hd : d.next c = some e) :
    r.step c = some { r with token := .number e (c :: chars) } := by
  rw [step, h]
  dsimp only
  rw [hd]

private theorem feed_whole (r : Reader) (cs chars : List Char)
    (h : ∀ c ∈ cs, Text.Decimal.isDigit c = true) :
    { r with token := .number .whole chars }.feed cs =
      some { r with token := .number .whole (cs.reverse ++ chars) } := by
  induction cs generalizing chars with
  | nil => rfl
  | cons c cs ih =>
    have hd : Digits.whole.next c = some .whole := by simp [Digits.next, h c (by simp)]
    rw [feed_cons, step_digit rfl hd, Option.bind_some, ih _ fun c hc => h c (by simp [hc])]
    simp

/-- Only the number zero is printed with a zero in front. -/
theorem head?_digits {n : Nat} (h : 0 < n) : (Text.Decimal.digits n).head? ≠ some '0' := by
  induction n using Nat.strongRecOn with
  | ind n ih =>
    by_cases hn : n < 10
    · rw [Text.Decimal.digits, Nat.toDigits_of_lt_base hn]
      simp only [List.head?_cons, ne_eq, Option.some.injEq, Nat.digitChar_eq_zero]
      omega
    · have hd := ih (n / 10) (by omega) (by omega)
      rw [Text.Decimal.digits] at hd ⊢
      rw [Nat.toDigits_of_base_le (by decide) (by omega)]
      cases hs : Nat.toDigits 10 (n / 10) with
      | nil => exact absurd hs Nat.toDigits_ne_nil
      | cons c cs =>
        rw [hs] at hd
        simpa using hd

/-- Where the reader stands after the digits of a number. -/
private theorem feed_digits (r : Reader) (chars : List Char) (n : Nat) :
    ∃ d : Digits, (d = .zero ∨ d = .whole) ∧
      { r with token := .number .minus chars }.feed (Text.Decimal.digits n) =
        some { r with token := .number d ((Text.Decimal.digits n).reverse ++ chars) } := by
  cases n with
  | zero => exact ⟨.zero, .inl rfl, rfl⟩
  | succ n =>
    have hh := head?_digits (Nat.succ_pos n)
    have hd : ∀ c ∈ Text.Decimal.digits (n + 1), Text.Decimal.isDigit c = true := fun c hc =>
      Text.Decimal.isDigit_of_mem_digits hc
    cases hs : Text.Decimal.digits (n + 1) with
    | nil => exact absurd hs (Text.Decimal.digits_ne_nil _)
    | cons c cs =>
      rw [hs] at hh hd
      have hc : c ≠ '0' := by simpa using hh
      have hn : Digits.minus.next c = some .whole := by simp [Digits.next, hc, hd c (by simp)]
      refine ⟨.whole, .inr rfl, ?_⟩
      rw [feed_cons, step_digit rfl hn, Option.bind_some,
        feed_whole r cs _ fun c hc => hd c (by simp [hc])]
      simp

private theorem step_first_digit {r : Reader} (ht : r.token = .none) (hb : r.mayBegin = true)
    {c : Char} (hc : Text.Decimal.isDigit c = true) :
    r.step c = { r with token := .number .minus [] }.step c := by
  obtain ⟨d, hd⟩ : ∃ d, Digits.minus.next c = some d := by
    simp only [Digits.next, hc, ite_true]
    split <;> exact ⟨_, rfl⟩
  have hne : ∀ x : Char, Text.Decimal.isDigit x = false → c ≠ x := by
    intro x hx he
    rw [he, hx] at hc
    exact Bool.false_ne_true hc
  rw [step_digit (r := { r with token := .number .minus [] }) rfl hd, step, ht]
  simp [between, isSpace, hb, hd, hne ' ' rfl, hne '\t' rfl, hne '\n' rfl, hne '\r' rfl,
    hne ']' rfl, hne '}' rfl, hne ',' rfl, hne ':' rfl, hne '"' rfl, hne '[' rfl, hne '{' rfl,
    hne 't' rfl, hne 'f' rfl, hne 'n' rfl, hne '-' rfl]

private theorem value_positive {d : Digits} (hd : d = .zero ∨ d = .whole) (n : Nat) :
    d.value (Text.Decimal.digits n) = .int n := by
  have hm : ∀ rest, Text.Decimal.digits n ≠ '-' :: rest := by
    intro rest h
    have : '-' ∈ Text.Decimal.digits n := by rw [h]; simp
    exact absurd (Text.Decimal.isDigit_of_mem_digits this) (by decide)
  rcases hd with rfl | rfl <;> simp only [Digits.value] <;> split
  all_goals first
    | next h => exact absurd h (hm _)
    | simp_all [Text.Decimal.value_digits]

private theorem value_negative {d : Digits} (hd : d = .zero ∨ d = .whole) (n : Nat) :
    d.value ('-' :: Text.Decimal.digits (n + 1)) = .int (.negSucc n) := by
  have hz : Text.Decimal.digits (n + 1) ≠ ['0'] := fun h =>
    head?_digits (Nat.succ_pos n) (by rw [h]; rfl)
  have hi : -(↑(n + 1) : Int) = .negSucc n := rfl
  rcases hd with rfl | rfl <;> simp only [Digits.value, Text.Decimal.value_digits, hi]

/-- After an integer the reader holds a number that is complete. -/
theorem feed_printInt {r : Reader} (ht : r.token = .none) (hb : r.mayBegin = true) (n : Int) :
    ∃ (d : Digits) (chars : List Char), (d = .zero ∨ d = .whole) ∧
      d.value chars.reverse = .int n ∧
      r.feed (printInt n) = some { r with token := .number d chars } := by
  cases n with
  | ofNat n =>
    obtain ⟨d, hd, hf⟩ := feed_digits r [] n
    refine ⟨d, (Text.Decimal.digits n).reverse, hd, ?_, ?_⟩
    · rw [List.reverse_reverse]
      exact value_positive hd n
    · rw [List.append_nil] at hf
      rw [← hf, printInt]
      cases hs : Text.Decimal.digits n with
      | nil => exact absurd hs (Text.Decimal.digits_ne_nil _)
      | cons c cs =>
        have hc : Text.Decimal.isDigit c = true :=
          Text.Decimal.isDigit_of_mem_digits (n := n) (by rw [hs]; simp)
        rw [feed_cons, feed_cons, step_first_digit ht hb hc]
  | negSucc n =>
    obtain ⟨d, hd, hf⟩ := feed_digits r ['-'] (n + 1)
    refine ⟨d, (Text.Decimal.digits (n + 1)).reverse ++ ['-'], hd, ?_, ?_⟩
    · rw [List.reverse_append, List.reverse_reverse]
      exact value_negative hd n
    · have hs : r.step '-' = some { r with token := .number .minus ['-'] } := by
        rw [step, ht]
        simp [between, isSpace, hb]
      rw [printInt, feed_cons, hs, Option.bind_some, hf]

/-! ### Values -/

private theorem step_after_number {r : Reader} {d : Digits} {chars : List Char} {c : Char}
    (hd : d = .zero ∨ d = .whole) (hc : endsItem c = true) :
    { r with token := .number d chars }.step c =
      (r.put (d.value chars.reverse)).bind fun r => r.step c := by
  have hn : d.next c = none ∧ d.complete = true := by
    simp only [endsItem, Bool.or_eq_true, decide_eq_true_eq] at hc
    rcases hd with rfl | rfl <;> rcases hc with (rfl | rfl) | rfl <;> exact ⟨rfl, rfl⟩
  have hp : { r with token := .none }.put (d.value chars.reverse) =
      r.put (d.value chars.reverse) := put_congr rfl _
  simp only [step, hn.1, hn.2, ite_true]
  rw [hp]
  cases h : r.put (d.value chars.reverse) with
  | none => rfl
  | some r' => simp [token_of_put h]

/-- A value that is over with its last character is put where it belongs. -/
private def Delivered (v : Value) : Prop :=
  ∀ r : Reader, r.token = .none → r.mayBegin = true → (∀ n, v ≠ .int n) →
    r.feed (print v) = r.put v

private theorem feed_print_then {v : Value} (hv : Delivered v) {r : Reader} (ht : r.token = .none)
    (hb : r.mayBegin = true) {c : Char} (hc : endsItem c = true) (cs : List Char) :
    r.feed (print v ++ c :: cs) = (r.put v).bind fun r => r.feed (c :: cs) := by
  rw [feed_append]
  cases v with
  | int n =>
    obtain ⟨d, chars, hd, hn, hf⟩ := feed_printInt ht hb n
    rw [print, hf, Option.bind_some, feed_cons, step_after_number hd hc, hn]
    simp [Option.bind_assoc]
  | _ => rw [hv r ht hb (by simp)]

private theorem feed_word {r : Reader} (ht : r.token = .none) (hb : r.mayBegin = true)
    {v : Value} (hv : v = .null ∨ ∃ b, v = .bool b) : r.feed (print v) = r.put v := by
  have hp : { r with token := .none }.put v = r.put v := put_congr rfl v
  rcases hv with rfl | ⟨b, rfl⟩
  · have hs : r.step 'n' = some { r with token := .word ['u', 'l', 'l'] .null } := by
      rw [step, ht]
      simp [between, isSpace, hb]
    rw [print, feed_cons, hs, ← hp]
    simp [step, -feed_nil, feed, List.foldlM]
  · cases b with
    | true =>
      have hs : r.step 't' = some { r with token := .word ['r', 'u', 'e'] (.bool true) } := by
        rw [step, ht]
        simp [between, isSpace, hb]
      rw [print, feed_cons, hs, ← hp]
      simp [step, -feed_nil, feed, List.foldlM]
    | false =>
      have hs : r.step 'f' = some { r with token := .word ['a', 'l', 's', 'e'] (.bool false) } := by
        rw [step, ht]
        simp [between, isSpace, hb]
      rw [print, feed_cons, hs, ← hp]
      simp [step, -feed_nil, feed, List.foldlM]

private theorem feed_items (items : List Value) (hne : items ≠ []) (hi : ∀ v ∈ items, Delivered v)
    (r : Reader) (ht : r.token = .none) (hb : r.mayBegin = true) (found : List Value)
    (rest : List Frame) (hs : r.stack = .array found :: rest) :
    r.feed (printItems items) =
      put { stack := rest } (.array (found.reverse ++ items)) := by
  induction items generalizing r found with
  | nil => exact absurd rfl hne
  | cons v items ih =>
    have hp : r.put v = some { stack := .array (v :: found) :: rest, expect := .commaOrEnd } := by
      rw [put, hs]
    cases items with
    | nil =>
      rw [printItems, feed_print_then (hi v (by simp)) ht hb (by decide), hp]
      simp [step, between, isSpace, mayEnd, close, put]
    | cons w items =>
      have hn := ih (by simp) (fun u hu => hi u (List.mem_cons_of_mem v hu))
        { stack := .array (v :: found) :: rest } rfl rfl (v :: found) rfl
      rw [printItems, feed_print_then (hi v (by simp)) ht hb (by decide), hp, Option.bind_some,
        feed_cons]
      simp only [step, between, isSpace]
      simpa using hn

private theorem feed_fields (fields : List (Option String × Value)) (hne : fields ≠ [])
    (named : ∀ f ∈ fields, f.1.isSome = true) (hi : ∀ f ∈ fields, Delivered f.2) (r : Reader)
    (ht : r.token = .none) (hb : r.expect = .name ∨ r.expect = .nameOrEnd)
    (found : List (Option String × Value)) (rest : List Frame)
    (hs : r.stack = .object found :: rest) :
    r.feed (printFields fields) =
      put { stack := rest } (.object (found.reverse ++ fields)) := by
  induction fields generalizing r found with
  | nil => exact absurd rfl hne
  | cons f fields ih =>
    obtain ⟨name, v⟩ := f
    obtain ⟨k, rfl⟩ := Option.isSome_iff_exists.mp (named (name, v) (by simp))
    have hq : r.mayQuote = true := by rcases hb with hb | hb <;> simp [mayQuote, hb]
    have hn : r.feed (quote k) =
        some { stack := .field found (some k) :: rest, expect := .colon } := by
      rw [feed_quote ht hq]
      rcases hb with hb | hb <;> simp [putQuoted, hb, hs]
    have hc : step { stack := .field found (some k) :: rest, expect := .colon } ':' =
        some { stack := .field found (some k) :: rest } := rfl
    have hp : put { stack := .field found (some k) :: rest } v =
        some { stack := .object ((some k, v) :: found) :: rest, expect := .commaOrEnd } := rfl
    have hv : Delivered v := hi (some k, v) (by simp)
    cases fields with
    | nil =>
      rw [printFields, printName, List.append_assoc, feed_append, hn, Option.bind_some,
        List.cons_append, feed_cons, hc, Option.bind_some,
        feed_print_then hv rfl rfl (by decide), hp]
      simp [step, between, isSpace, mayEnd, close, put]
    | cons g fields =>
      have hr := ih (by simp) (fun u hu => named u (List.mem_cons_of_mem _ hu))
        (fun u hu => hi u (List.mem_cons_of_mem _ hu))
        { stack := .object ((some k, v) :: found) :: rest, expect := .name } rfl (.inl rfl)
        ((some k, v) :: found) rfl
      rw [printFields, printName, List.append_assoc, feed_append, hn, Option.bind_some,
        List.cons_append, feed_cons, hc, Option.bind_some,
        feed_print_then hv rfl rfl (by decide), hp, Option.bind_some, feed_cons]
      simp only [step, between, isSpace]
      simpa using hr

private theorem step_bracket {r : Reader} (ht : r.token = .none) (hb : r.mayBegin = true) :
    r.step '[' = some { stack := .array [] :: r.stack, expect := .itemOrEnd } ∧
      r.step '{' = some { stack := .object [] :: r.stack, expect := .nameOrEnd } := by
  rw [step, step, ht]
  simp [between, isSpace, hb]

private theorem delivered (v : Value) (h : Plain v) : Delivered v := by
  induction h with
  | null => exact fun r ht hb _ => feed_word ht hb (.inl rfl)
  | bool b => exact fun r ht hb _ => feed_word ht hb (.inr ⟨b, rfl⟩)
  | int n => exact fun r ht hb hn => absurd rfl (hn n)
  | string s =>
    intro r ht hb _
    have hq : r.mayQuote = true := by
      unfold mayBegin at hb
      unfold mayQuote
      split at hb <;> simp_all
    have he : r.putQuoted (some s) = r.put (.string s) := by
      unfold mayBegin at hb
      unfold putQuoted
      split
      · next h _ => simp [h] at hb
      · next h _ => simp [h] at hb
      · rfl
    rw [print, feed_quote ht hq, he]
  | array items h ih =>
    intro r ht hb _
    rw [print, feed_cons, (step_bracket ht hb).1, Option.bind_some]
    cases items with
    | nil =>
      simp [printItems, step, between, isSpace, mayEnd, close, put]
    | cons v items =>
      rw [feed_items (v :: items) (by simp) ih _ rfl rfl [] r.stack rfl]
      exact put_congr rfl _
  | object fields named h ih =>
    intro r ht hb _
    rw [print, feed_cons, (step_bracket ht hb).2, Option.bind_some]
    cases fields with
    | nil =>
      simp [printFields, step, between, isSpace, mayEnd, close, put]
    | cons f fields =>
      rw [feed_fields (f :: fields) (by simp) named ih _ rfl (.inr rfl) [] r.stack rfl]
      exact put_congr rfl _

end Reader

/-- What was written in full is read back. -/
theorem parse_print {v : Value} (h : Plain v) : parse (print v) = some v := by
  have hf : parse (print v) = (Reader.feed {} (print v)).bind Reader.finish := rfl
  cases v with
  | int n =>
    obtain ⟨d, chars, hd, hn, hr⟩ := Reader.feed_printInt (r := {}) rfl rfl n
    rw [hf, print, hr, Option.bind_some, Reader.finish]
    rcases hd with rfl | rfl <;> simp [Digits.complete, hn]
  | _ => rw [hf, Reader.delivered _ h {} rfl rfl (by simp)]; rfl

/-- The text of a value written in full is read back. -/
theorem parse_render {v : Value} (h : Plain v) : parse v.render.toList = some v := by
  rw [Value.render, String.toList_ofList, parse_print h]

end Rollcall.Json
