import Rollcall.Toml.Value
import Rollcall.Text.Decimal
import Rollcall.Toml.Quoted

/-!
# Numbers, truth values and moments in TOML

A value without quotes and brackets is a word: everything up to a blank, a line end, a comma, a
closing bracket or a comment. Only a date and a time that follows it are two words. Integers are
those of 64 bits; a decimal fraction has to lie below the greatest double.
-/

namespace Rollcall.Toml.Scalar

open Text.Decimal (isDigit)

/-- Whether a character ends a word. -/
def endsWord (c : Char) : Bool := [' ', '\t', '\n', '\r', ',', ']', '}', '#'].contains c

/-- The digits of a number in which single underscores may stand between digits. -/
def digits (isDigit : Char → Bool) : List Char → Option (List Char)
  | [] => none
  | [c] => if isDigit c then some [c] else none
  | c :: '_' :: rest =>
    if isDigit c then (digits isDigit rest).map (c :: ·) else none
  | c :: rest => if isDigit c then (digits isDigit rest).map (c :: ·) else none

/-- A sign and what follows it: whether it is a minus. -/
def sign : List Char → Bool × List Char
  | '-' :: rest => (true, rest)
  | '+' :: rest => (false, rest)
  | rest => (false, rest)

/-- The digits of a decimal number that starts with zero only if it is zero. -/
def wholeDigits (cs : List Char) : Option (List Char) := do
  let ds ← digits isDigit cs
  match ds with
  | '0' :: _ :: _ => none
  | ds => some ds

/-- An integer of 64 bits. -/
def bounded (n : Int) : Option Value :=
  if Text.Decimal.isSigned64 n then some (.int n) else none

/-- The number written by digits of a base. -/
def inBase (base : Nat) (cs : List Char) : Option Value := do
  let isDigit (c : Char) := (Quoted.hexValue c).any (· < base)
  let ds ← digits isDigit cs
  bounded (ds.foldl (fun n c => base * n + (Quoted.hexValue c).getD 0) 0 : Nat)

/-- An integer. -/
def int? : List Char → Option Value
  | '0' :: 'x' :: rest => inBase 16 rest
  | '0' :: 'o' :: rest => inBase 8 rest
  | '0' :: 'b' :: rest => inBase 2 rest
  | cs => do
    let (minus, body) := sign cs
    let n := Text.Decimal.value (← wholeDigits body)
    bounded (if minus then -n else n)

/-- The least decimal fraction that rounds to no double: 2^1024 less half a unit of its last
place. -/
def tooGreat : Nat := Nat.pow 2 1024 - Nat.pow 2 970

/-- Whether the number `m * 10 ^ e` rounds to a double. -/
def isFinite (m : Nat) (e : Int) : Bool :=
  let places := (Text.Decimal.digits m).length + e
  if m = 0 ∨ places < 300 then true
  else if 320 < places then false
  else m * Nat.pow 10 e.toNat < tooGreat * Nat.pow 10 (-e).toNat

/-- The exponent of a fraction. -/
def exponent? : List Char → Option Int
  | [] => some 0
  | c :: rest =>
    if c = 'e' ∨ c = 'E' then do
      let (minus, body) := sign rest
      let n := Text.Decimal.value (← digits isDigit body)
      some (if minus then -n else n)
    else none

/-- A decimal fraction: it has a point or an exponent, and a positive one must not be too great. -/
def fraction? (cs : List Char) : Option Value := do
  let (minus, body) := sign cs
  let isPart (c : Char) := isDigit c || c = '_'
  let whole ← wholeDigits (body.takeWhile isPart)
  let (places, rest) ← match body.dropWhile isPart with
    | '.' :: rest => do pure (← digits isDigit (rest.takeWhile isPart), rest.dropWhile isPart)
    | [] => none
    | rest => some ([], rest)
  let e ← exponent? rest
  let m := Text.Decimal.value (whole ++ places)
  if minus || isFinite m (e - places.length) then some .float else none

/-- A floating point number. -/
def float? (cs : List Char) : Option Value :=
  let body := (sign cs).2
  if body = ['i', 'n', 'f'] ∨ body = ['n', 'a', 'n'] then some .float else fraction? cs

/-- A number of two digits, within bounds. -/
def two? (low high : Nat) (a b : Char) : Option Nat :=
  let n := Text.Decimal.value [a, b]
  if isDigit a ∧ isDigit b ∧ low ≤ n ∧ n ≤ high then some n else none

/-- The days of a month. -/
def daysOf (year month : Nat) : Nat :=
  if month = 2 then
    if year % 4 = 0 ∧ (year % 100 ≠ 0 ∨ year % 400 = 0) then 29 else 28
  else if month = 4 ∨ month = 6 ∨ month = 9 ∨ month = 11 then 30
  else 31

/-- A date, and what follows it. -/
def date? : List Char → Option (List Char × List Char)
  | y₁ :: y₂ :: y₃ :: y₄ :: '-' :: m₁ :: m₂ :: '-' :: d₁ :: d₂ :: rest => do
    let year := [y₁, y₂, y₃, y₄]
    if !year.all isDigit then none
    let month ← two? 1 12 m₁ m₂
    let _ ← two? 1 (daysOf (Text.Decimal.value year) month) d₁ d₂
    some (year ++ ['-', m₁, m₂, '-', d₁, d₂], rest)
  | _ => none

/-- The fraction of a second in normal form: nine places at most, without zeros at the end. -/
def normalFraction (ds : List Char) : List Char :=
  match ((ds.take 9).reverse.dropWhile (· = '0')).reverse with
  | [] => []
  | ds => '.' :: ds

/-- A time, and what follows it. -/
def time? : List Char → Option (List Char × List Char)
  | h₁ :: h₂ :: ':' :: m₁ :: m₂ :: ':' :: s₁ :: s₂ :: rest => do
    let _ ← two? 0 23 h₁ h₂
    let _ ← two? 0 59 m₁ m₂
    let _ ← two? 0 60 s₁ s₂
    let time := [h₁, h₂, ':', m₁, m₂, ':', s₁, s₂]
    match rest with
    | '.' :: rest =>
      let ds := rest.takeWhile isDigit
      if ds.isEmpty then none else some (time ++ normalFraction ds, rest.dropWhile isDigit)
    | rest => some (time, rest)
  | _ => none

/-- The offset of a time in normal form; none at all counts too. -/
def offset? : List Char → Option (List Char)
  | [] => some []
  | ['Z'] | ['z'] => some ['Z']
  | [s, h₁, h₂, ':', m₁, m₂] => do
    if s ≠ '+' ∧ s ≠ '-' then none
    let h ← two? 0 23 h₁ h₂
    let m ← two? 0 59 m₁ m₂
    some [if h = 0 ∧ m = 0 then '+' else s, h₁, h₂, ':', m₁, m₂]
  | _ => none

/-- A time with an offset or without one. -/
def offsetTime? (cs : List Char) : Option (List Char) := do
  let (time, rest) ← time? cs
  some (time ++ (← offset? rest))

/-- A moment written as one word. -/
def moment? (cs : List Char) : Option Value :=
  match date? cs with
  | some (date, []) => some (.moment (String.ofList date))
  | some (date, t :: rest) =>
    if t = 'T' ∨ t = 't' then
      (offsetTime? rest).map fun time => .moment (String.ofList (date ++ 'T' :: time))
    else none
  | none =>
    match time? cs with
    | some (time, []) => some (.moment (String.ofList time))
    | _ => none

/-- A value written as one word. -/
def word? (cs : List Char) : Option Value :=
  if cs = ['t', 'r', 'u', 'e'] then some (.bool true)
  else if cs = ['f', 'a', 'l', 's', 'e'] then some (.bool false)
  else moment? cs <|> int? cs <|> float? cs

/-- A value without quotes and brackets, and what follows it. -/
def read (cs : List Char) : Option (Value × List Char) := do
  let word := cs.takeWhile fun c => !endsWord c
  let rest := cs.dropWhile fun c => !endsWord c
  match date? word, rest with
  | some (date, []), ' ' :: d :: more =>
    if isDigit d then
      let second := (d :: more).takeWhile fun c => !endsWord c
      let time ← offsetTime? second
      some (.moment (String.ofList (date ++ 'T' :: time)), more.dropWhile fun c => !endsWord c)
    else some (← word? word, rest)
  | _, _ => some (← word? word, rest)

end Rollcall.Toml.Scalar
