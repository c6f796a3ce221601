import Rollcall.Json.Value

/-!
# Reading JSON

The reader takes one character at a time. Its state is the brackets still open, what may come next,
and the token begun but not ended, so reading a document is a fold over its characters. Nesting has
no limit here, and a surrogate escape without partner only makes its string `unpaired`: both are
left to the records that use the value.
-/

namespace Rollcall.Json

/-- A name or a string as read: missing if a surrogate escape has no partner. -/
abbrev Quoted := Option String

/-- A bracket that is open, with what it holds so far, the last item first. -/
inductive Frame
  | array (items : List Value)
  | object (fields : List (Option String × Value))
  /-- An object whose last name still lacks its value. -/
  | field (fields : List (Option String × Value)) (name : Option String)

/-- What may come next between tokens. -/
inductive Expect
  | value
  /-- The first item of an array, or its end. -/
  | itemOrEnd
  /-- The first name of an object, or its end. -/
  | nameOrEnd
  | name
  | colon
  /-- A comma or the end of the innermost bracket. -/
  | commaOrEnd
  /-- Nothing but blanks: the document is complete. -/
  | nothing (v : Value)

/-- Where a string stands within an escape. -/
inductive Escape
  | none
  /-- Right after a backslash. -/
  | begun
  /-- After this many digits of a `\u` escape, with the number they write. -/
  | hex (digits value : Nat)

/-- A string being read. -/
structure Scan where
  /-- The characters so far, the last one first. -/
  chars : List Char := []
  /-- Whether every surrogate escape so far has its partner. -/
  paired : Bool := true
  /-- A leading surrogate just read. -/
  leading : Option Nat := none
  escape : Escape := .none

/-- The grammar's positions inside a number. -/
inductive Digits
  | minus
  | zero
  | whole
  | point
  | fraction
  | mark
  | markSign
  | power

/-- The token begun but not ended. -/
inductive Token
  | none
  | string (s : Scan)
  /-- A number: its position in the grammar and its characters, the last one first. -/
  | number (d : Digits) (chars : List Char)
  /-- A word: the characters still missing and what it stands for. -/
  | word (missing : List Char) (v : Value)

/-- The state of the reader. -/
structure Reader where
  stack : List Frame := []
  expect : Expect := .value
  token : Token := .none

/-- The blanks between tokens. -/
def isSpace (c : Char) : Bool := c = ' ' || c = '\t' || c = '\n' || c = '\r'

/-- The value of a hexadecimal digit of either case. -/
def hexValue (c : Char) : Option Nat :=
  if '0' ≤ c ∧ c ≤ '9' then some (c.toNat - '0'.toNat)
  else if 'a' ≤ c ∧ c ≤ 'f' then some (c.toNat - 'a'.toNat + 10)
  else if 'A' ≤ c ∧ c ≤ 'F' then some (c.toNat - 'A'.toNat + 10)
  else none

/-- The character a backslash and a letter stand for. -/
def escaped (c : Char) : Option Char :=
  match c with
  | '"' => some '"'
  | '\\' => some '\\'
  | '/' => some '/'
  | 'b' => some '\x08'
  | 'f' => some '\x0c'
  | 'n' => some '\n'
  | 'r' => some '\r'
  | 't' => some '\t'
  | _ => none

namespace Scan

/-- A leading surrogate that stayed alone makes the string unpaired. -/
def settle (s : Scan) : Scan :=
  { s with paired := s.paired && s.leading.isNone, leading := none }

/-- One character more. -/
def push (s : Scan) (c : Char) : Scan :=
  let s := s.settle
  { s with chars := c :: s.chars, escape := .none }

/-- The code unit of a complete `\u` escape. -/
def unit (s : Scan) (n : Nat) : Scan :=
  if 0xDC00 ≤ n ∧ n ≤ 0xDFFF then
    match s.leading with
    | some h =>
      let c := Char.ofNat (0x10000 + (h - 0xD800) * 0x400 + (n - 0xDC00))
      { s with chars := c :: s.chars, leading := none, escape := .none }
    | none => { s with paired := false, escape := .none }
  else if 0xD800 ≤ n ∧ n ≤ 0xDBFF then
    { s.settle with leading := some n, escape := .none }
  else s.push (Char.ofNat n)

/-- The next character of a string that has not ended. -/
def next (s : Scan) (c : Char) : Option Scan :=
  match s.escape with
  | .none =>
    if c = '\\' then some { s with escape := .begun }
    else if c.toNat < 0x20 then none
    else some (s.push c)
  | .begun =>
    if c = 'u' then some { s with escape := .hex 0 0 }
    else (escaped c).map s.push
  | .hex k n => do
    let d ← hexValue c
    let n := n * 16 + d
    if k = 3 then some (s.unit n) else some { s with escape := .hex (k + 1) n }

/-- What the string says once its closing quote is read. -/
def close (s : Scan) : Quoted :=
  if s.settle.paired then some (String.ofList s.chars.reverse) else none

end Scan

namespace Digits

/-- The position after one character more, if the number goes on with it. -/
def next : Digits → Char → Option Digits
  | .minus, c =>
    if c = '0' then some .zero
    else if Text.Decimal.isDigit c then some .whole
    else none
  | .zero, c => if c = '.' then some .point else if c = 'e' ∨ c = 'E' then some .mark else none
  | .whole, c =>
    if Text.Decimal.isDigit c then some .whole
    else if c = '.' then some .point
    else if c = 'e' ∨ c = 'E' then some .mark
    else none
  | .point, c => if Text.Decimal.isDigit c then some .fraction else none
  | .fraction, c =>
    if Text.Decimal.isDigit c then some .fraction
    else if c = 'e' ∨ c = 'E' then some .mark
    else none
  | .mark, c =>
    if Text.Decimal.isDigit c then some .power
    else if c = '+' ∨ c = '-' then some .markSign
    else none
  | .markSign, c => if Text.Decimal.isDigit c then some .power else none
  | .power, c => if Text.Decimal.isDigit c then some .power else none

/-- Whether a number may end here. -/
def complete : Digits → Bool
  | .zero | .whole | .fraction | .power => true
  | _ => false

/-- The value of a complete number with these characters. -/
def value (d : Digits) (chars : List Char) : Value :=
  let integer := match d with
    | .zero | .whole => true
    | _ => false
  match integer, chars with
  | true, ['-', '0'] => .number chars
  | true, '-' :: rest => .int (-(Text.Decimal.value rest))
  | true, _ => .int (Text.Decimal.value chars)
  | false, _ => .number chars

end Digits

namespace Reader

/-- A complete value goes into the innermost open bracket; without one it is the document. -/
def put (r : Reader) (v : Value) : Option Reader :=
  match r.stack with
  | [] => some { stack := [], expect := .nothing v }
  | .array items :: rest => some { stack := .array (v :: items) :: rest, expect := .commaOrEnd }
  | .field fields name :: rest =>
    some { stack := .object ((name, v) :: fields) :: rest, expect := .commaOrEnd }
  | .object _ :: _ => none

/-- A complete string: a value, or the name of a field. -/
def putQuoted (r : Reader) (q : Quoted) : Option Reader :=
  match r.expect, r.stack with
  | .name, .object fields :: rest | .nameOrEnd, .object fields :: rest =>
    some { stack := .field fields q :: rest, expect := .colon }
  | _, _ => r.put ((q.map Value.string).getD .unpaired)

/-- Whether a value may begin here. -/
def mayBegin (r : Reader) : Bool :=
  match r.expect with
  | .value | .itemOrEnd => true
  | _ => false

/-- Whether a string may begin here. -/
def mayQuote (r : Reader) : Bool :=
  match r.expect with
  | .value | .itemOrEnd | .name | .nameOrEnd => true
  | _ => false

/-- Whether the innermost bracket may end here. -/
def mayEnd (r : Reader) : Bool :=
  match r.expect with
  | .itemOrEnd | .nameOrEnd | .commaOrEnd => true
  | _ => false

/-- A closing bracket, if it matches the innermost open one. -/
def close (r : Reader) (c : Char) : Option Reader :=
  match c, r.stack with
  | ']', .array items :: rest => { r with stack := rest }.put (.array items.reverse)
  | '}', .object fields :: rest => { r with stack := rest }.put (.object fields.reverse)
  | _, _ => none

/-- A character between tokens. -/
def between (r : Reader) (c : Char) : Option Reader :=
  if isSpace c then some r
  else if c = ']' ∨ c = '}' then if r.mayEnd then r.close c else none
  else if c = ',' then
    match r.expect, r.stack with
    | .commaOrEnd, .array _ :: _ => some { r with expect := .value }
    | .commaOrEnd, .object _ :: _ => some { r with expect := .name }
    | _, _ => none
  else if c = ':' then
    match r.expect with
    | .colon => some { r with expect := .value }
    | _ => none
  else if c = '"' then
    if r.mayQuote then some { r with token := .string {} } else none
  else if r.mayBegin then
    if c = '[' then some { stack := .array [] :: r.stack, expect := .itemOrEnd }
    else if c = '{' then some { stack := .object [] :: r.stack, expect := .nameOrEnd }
    else if c = 't' then some { r with token := .word ['r', 'u', 'e'] (.bool true) }
    else if c = 'f' then some { r with token := .word ['a', 'l', 's', 'e'] (.bool false) }
    else if c = 'n' then some { r with token := .word ['u', 'l', 'l'] .null }
    else if c = '-' then some { r with token := .number .minus [c] }
    else (Digits.minus.next c).map fun d => { r with token := .number d [c] }
  else none

/-- One character of the document. -/
def step (r : Reader) (c : Char) : Option Reader :=
  match r.token with
  | .none => r.between c
  | .string s =>
    match s.escape with
    | .none =>
      if c = '"' then { r with token := .none }.putQuoted s.close
      else (s.next c).map fun s => { r with token := .string s }
    | _ => (s.next c).map fun s => { r with token := .string s }
  | .word [] _ => none
  | .word [l] v => if c = l then { r with token := .none }.put v else none
  | .word (l :: rest) v => if c = l then some { r with token := .word rest v } else none
  | .number d chars =>
    match d.next c with
    | some d => some { r with token := .number d (c :: chars) }
    | none =>
      if d.complete then do
        let r ← { r with token := .none }.put (d.value chars.reverse)
        r.between c
      else none

/-- The value of the document, if it is complete. -/
def finish (r : Reader) : Option Value :=
  match r.token, r.expect with
  | .none, .nothing v => some v
  | .number d chars, .value =>
    if d.complete ∧ r.stack.isEmpty then some (d.value chars.reverse) else none
  | _, _ => none

end Reader

/-- The value of a document, if it is well formed. -/
def parse (text : List Char) : Option Value :=
  (text.foldlM Reader.step {}).bind Reader.finish

end Rollcall.Json
