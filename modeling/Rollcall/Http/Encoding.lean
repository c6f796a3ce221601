import Rollcall.Text.Split

/-!
# Text in targets and forms

The text of a path segment or of a form's field is sent byte by byte, in UTF-8: letters, digits and
four marks stand for themselves, and every other byte is a percent sign and two hexadecimal digits.
A form has a plus sign for a space, since spaces are frequent there.
-/

namespace Rollcall.Http

/-- The marks that stand for themselves. -/
def marks : List Char := ['*', '-', '.', '_']

/-- Whether a byte is sent as the character with its code. -/
def isPlain (b : UInt8) : Bool :=
  let c := Char.ofNat b.toNat
  b.toNat < 128 && (c.isAlphanum || marks.contains c)

/-- The hexadecimal digit of a number below 16, in upper case. -/
def hexDigit (n : Nat) : Char := (Nat.digitChar n).toUpper

/-- A byte as it is sent, with `space` for a space. -/
def encodeByte (space : List Char) (b : UInt8) : List Char :=
  if b = 0x20 then space
  else if isPlain b then [Char.ofNat b.toNat]
  else ['%', hexDigit (b.toNat / 16), hexDigit (b.toNat % 16)]

/-- The bytes of a text. -/
def bytes (cs : List Char) : List UInt8 := (String.ofList cs).toUTF8.toList

/-- A text as it is sent in a form. -/
def encodeField (cs : List Char) : List Char := (bytes cs).flatMap (encodeByte ['+'])

/-- A text as it is sent in a path. -/
def encodeSegment (cs : List Char) : List Char := (bytes cs).flatMap (encodeByte ['%', '2', '0'])

/-- A key as a path: its segments, each behind a slash, whatever slashes the key begins with. -/
def encodePath (key : String) : List Char :=
  (Text.split '/' (key.toList.dropWhile (· = '/'))).flatMap fun s => '/' :: encodeSegment s

/-- The fields of a form, in order. -/
abbrev Form := List (String × String)

/-- A form as it is sent. -/
def encodeForm (form : Form) : List Char :=
  Text.join '&' (form.map fun f => encodeField f.1.toList ++ '=' :: encodeField f.2.toList)

end Rollcall.Http
