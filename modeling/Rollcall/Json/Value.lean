import Rollcall.Text.Decimal

/-!
# JSON values and their text

A value is what a document says, kept apart only as far as the records of this library need it: an
integer written plainly is a number, every other number keeps its text, and a string with an
unpaired surrogate escape has no characters. The written form is compact: no blanks, and in strings
only the quote, the backslash and the controls below U+0020 are escaped.
-/

namespace Rollcall.Json

/-- A JSON value. -/
inductive Value
  | null
  | bool (b : Bool)
  /-- A number written as an integer, minus zero excepted. -/
  | int (n : Int)
  /-- Any other number, by its text. -/
  | number (text : List Char)
  | string (s : String)
  /-- A string with a surrogate escape that has no partner. -/
  | unpaired
  | array (items : List Value)
  /-- The fields in the order written; a name is missing if it has an unpaired surrogate. -/
  | object (fields : List (Option String × Value))
  deriving Inhabited, Repr

/-- The hexadecimal digit of a number below 16, in lower case. -/
def hexDigit (n : Nat) : Char := Nat.digitChar n

/-- A character as it is written inside a string. -/
def escape (c : Char) : List Char :=
  if c = '"' then ['\\', '"']
  else if c = '\\' then ['\\', '\\']
  else if c = '\x08' then ['\\', 'b']
  else if c = '\x0c' then ['\\', 'f']
  else if c = '\n' then ['\\', 'n']
  else if c = '\r' then ['\\', 'r']
  else if c = '\t' then ['\\', 't']
  else if c.toNat < 0x20 then
    ['\\', 'u', '0', '0', hexDigit (c.toNat / 16), hexDigit (c.toNat % 16)]
  else [c]

/-- A string between its quotes. -/
def quote (s : String) : List Char := '"' :: s.toList.flatMap escape ++ ['"']

/-- The text of an integer. -/
def printInt : Int → List Char
  | .ofNat n => Text.Decimal.digits n
  | .negSucc n => '-' :: Text.Decimal.digits (n + 1)

/-- The text of a string with an unpaired surrogate. -/
def unpairedText : List Char := ['"', '\\', 'u', 'd', '8', '0', '0', '"']

/-- The text of a field's name. -/
def printName : Option String → List Char
  | some s => quote s
  | none => unpairedText

mutual

/-- The compact text of a value. -/
def print : Value → List Char
  | .null => ['n', 'u', 'l', 'l']
  | .bool true => ['t', 'r', 'u', 'e']
  | .bool false => ['f', 'a', 'l', 's', 'e']
  | .int n => printInt n
  | .number text => text
  | .string s => quote s
  | .unpaired => unpairedText
  | .array items => '[' :: printItems items
  | .object fields => '{' :: printFields fields

/-- The items of an array and its closing bracket. -/
def printItems : List Value → List Char
  | [] => [']']
  | [v] => print v ++ [']']
  | v :: w :: rest => print v ++ ',' :: printItems (w :: rest)

/-- The fields of an object and its closing brace. -/
def printFields : List (Option String × Value) → List Char
  | [] => ['}']
  | [(k, v)] => printName k ++ ':' :: print v ++ ['}']
  | (k, v) :: f :: rest => printName k ++ ':' :: print v ++ ',' :: printFields (f :: rest)

end

/-- The compact text of a value, as a string. -/
def Value.render (v : Value) : String := String.ofList (print v)

end Rollcall.Json
