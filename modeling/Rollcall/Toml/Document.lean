import Rollcall.Toml.Scalar
import Rollcall.Toml.Value
import Rollcall.Toml.Quoted

/-!
# TOML documents

A document is a sequence of lines, each of them empty, a header, or a key with its value; a value
may go over several lines. Brackets nest only so deep, and a dotted key has only so many parts. A
document in which a key or a table is defined twice is refused.
-/

namespace Rollcall.Toml

/-- A reader takes what it reads off the front of a text. -/
abbrev Reader (α : Type) := List Char → Option (α × List Char)

/-- The brackets that may be open at once, and the parts of a dotted key. -/
def maxDepth : Nat := 79

/-- A text without the spaces and tabs in front. -/
def dropBlanks (cs : List Char) : List Char := cs.dropWhile fun c => c = ' ' || c = '\t'

/-- What follows a line end or the end of the text, after blanks and a comment. -/
def lineEnd (cs : List Char) : Option (List Char) :=
  let cs := dropBlanks cs
  let cs := match cs with
    | '#' :: rest => rest.dropWhile fun c => !Quoted.isControl c
    | _ => cs
  match cs with
  | [] => some []
  | '\n' :: rest => some rest
  | '\r' :: '\n' :: rest => some rest
  | _ => none

/-- A text without the blanks, line ends and comments in front. -/
def dropGap : (comment : Bool) → List Char → Option (List Char)
  | _, [] => some []
  | _, '\n' :: rest => dropGap false rest
  | _, '\r' :: '\n' :: rest => dropGap false rest
  | true, c :: rest => if Quoted.isControl c then none else dropGap true rest
  | false, c :: rest =>
    if c = ' ' ∨ c = '\t' then dropGap false rest
    else if c = '#' then dropGap true rest
    else some (c :: rest)

/-- One part of a key. -/
def keyPart (cs : List Char) : Option (String × List Char) :=
  match cs with
  | '"' :: _ | '\'' :: _ => (Quoted.readShort cs).map fun (s, rest) => (String.ofList s, rest)
  | _ =>
    let bare := cs.takeWhile Quoted.isBare
    if bare.isEmpty then none else some (String.ofList bare, cs.dropWhile Quoted.isBare)

/-- The parts of a key, with blanks around them. -/
def keyParts : (limit : Nat) → Reader (List String)
  | 0, _ => none
  | limit + 1, cs => do
    let (part, rest) ← keyPart (dropBlanks cs)
    match dropBlanks rest with
    | '.' :: rest => do
      let (parts, rest) ← keyParts limit rest
      some (part :: parts, rest)
    | rest => some ([part], rest)

/-- A key: its leading parts and its last one. -/
def key (cs : List Char) : Option ((List String × String) × List Char) := do
  let (parts, rest) ← keyParts maxDepth cs
  some ((parts.dropLast, ← parts.getLast?), rest)

/-- A key, an equals sign, and the text in which the value begins. -/
def keyAndEquals (cs : List Char) : Option ((List String × String) × List Char) := do
  let (k, rest) ← key cs
  match rest with
  | '=' :: rest => some (k, dropBlanks rest)
  | _ => none

/-- The items of an array after its opening bracket; `fuel` is more than their number. -/
def items (value : Reader Value) : (fuel : Nat) → Reader (List Value)
  | 0, _ => none
  | fuel + 1, cs => do
    match ← dropGap false cs with
    | ']' :: rest => some ([], rest)
    | cs => do
      let (v, rest) ← value cs
      match ← dropGap false rest with
      | ']' :: rest => some ([v], rest)
      | ',' :: rest => do
        let (vs, rest) ← items value fuel rest
        some (v :: vs, rest)
      | _ => none

/-- The entries of a table between braces, from a key on; `fuel` is more than their number. -/
def pairs (value : Reader Value) : (fuel : Nat) → Entries → Reader Entries
  | 0, _, _ => none
  | fuel + 1, es, cs => do
    let ((dots, k), rest) ← keyAndEquals cs
    let (v, rest) ← value rest
    let es ← es.assign dots k v .inline
    match dropBlanks rest with
    | '}' :: rest => some (es, rest)
    | ',' :: rest => pairs value fuel es rest
    | _ => none

/-- A value in which so many brackets may be open at once. -/
def value : (depth : Nat) → Reader Value
  | depth, cs =>
    match cs with
    | '"' :: _ | '\'' :: _ =>
      (Quoted.read cs).map fun (s, rest) => (.string (String.ofList s), rest)
    | '[' :: rest =>
      match depth with
      | 0 => none
      | depth + 1 =>
        (items (value depth) (rest.length + 1) rest).map fun (vs, rest) => (.array vs, rest)
    | '{' :: rest =>
      match depth with
      | 0 => none
      | depth + 1 =>
        match dropBlanks rest with
        | '}' :: rest => some (.table .inline [], rest)
        | rest =>
          (pairs (value depth) (rest.length + 1) [] rest).map fun (es, rest) =>
            (.table .inline es, rest)
    | cs => Scalar.read cs

/-- A document that was read in part: its entries, and the header that applies. -/
structure Draft where
  entries : Entries := []
  header : List String := []

/-- The key of a header and the text after its closing brackets. -/
def headerKey (closing : List Char) (cs : List Char) :
    Option ((List String × String) × List Char) := do
  let (k, rest) ← key cs
  if closing.isPrefixOf rest then some (k, ← lineEnd (rest.drop closing.length)) else none

/-- One line that is not empty. -/
def statement (d : Draft) (cs : List Char) : Option (Draft × List Char) :=
  match cs with
  | '[' :: '[' :: rest => do
    let ((path, k), rest) ← headerKey [']', ']'] rest
    some ({ entries := ← d.entries.openElement path k, header := path ++ [k] }, rest)
  | '[' :: rest => do
    let ((path, k), rest) ← headerKey [']'] rest
    some ({ entries := ← d.entries.openTable path k, header := path ++ [k] }, rest)
  | cs => do
    let ((dots, k), rest) ← keyAndEquals cs
    let (v, rest) ← value maxDepth rest
    let entries ← d.entries.changeAt false (Entries.assign dots k v) d.header .header
    some ({ d with entries }, ← lineEnd rest)

/-- The lines of a document; `fuel` is more than their number. -/
def statements : (fuel : Nat) → Draft → List Char → Option Entries
  | 0, _, _ => none
  | fuel + 1, d, cs =>
    match dropBlanks cs with
    | [] => some d.entries
    | cs =>
      match lineEnd cs with
      | some rest => statements fuel d rest
      | none => do
        let (d, rest) ← statement d cs
        statements fuel d rest

/-- The table of a document, which may begin with a byte order mark. -/
def parse (text : String) : Option Value :=
  let cs := match text.toList with
    | '\uFEFF' :: cs => cs
    | cs => cs
  (statements (cs.length + 1) {} cs).map (.table .header)

end Rollcall.Toml
