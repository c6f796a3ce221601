/-!
# Quoted text in TOML

A text is written between quotes in one of four styles: basic, with escapes, or literal, without
any, and each of them on one line or on several. Reading takes all four. Writing takes the first
style that needs no escapes, in the order basic, literal, basic on several lines, literal on several
lines; if all of them do, it escapes.
-/

namespace Rollcall.Toml.Quoted

/-- Whether a character is a control other than the tab. -/
def isControl (c : Char) : Bool := c ≠ '\t' && (c.toNat < 0x20 || c.toNat = 0x7F)

/-! ## Reading -/

/-- The value of a hexadecimal digit. -/
def hexValue (c : Char) : Option Nat :=
  if '0' ≤ c ∧ c ≤ '9' then some (c.toNat - '0'.toNat)
  else if 'a' ≤ c ∧ c ≤ 'f' then some (c.toNat - 'a'.toNat + 10)
  else if 'A' ≤ c ∧ c ≤ 'F' then some (c.toNat - 'A'.toNat + 10)
  else none

/-- The character with a hexadecimal code. -/
def charOfHex (digits : List Char) : Option Char := do
  let ds ← digits.mapM hexValue
  let n := ds.foldl (fun n d => 16 * n + d) 0
  if n.isValidChar then some (Char.ofNat n) else none

/-- The character of an escape of two characters, by the second one. -/
def unescape : Char → Option Char
  | 'b' => some '\x08'
  | 't' => some '\t'
  | 'n' => some '\n'
  | 'f' => some '\x0c'
  | 'r' => some '\r'
  | '"' => some '"'
  | '\\' => some '\\'
  | _ => none

/-- A text that was read in part, and what follows it. -/
abbrev Read := Option (List Char × List Char)

/-- A character in front of a text. -/
def Read.cons (c : Char) (r : Read) : Read := r.map fun (cs, rest) => (c :: cs, rest)

/-- The end of a text on several lines, if there is one here: three quotes, and before them up to
two that belong to the text. -/
def close? (quote : Char) (cs : List Char) : Read :=
  let n := (cs.takeWhile (· = quote)).length
  if 3 ≤ n then some (List.replicate (min n 5 - 3) quote, cs.drop (min n 5)) else none

/-- Whether blanks and line ends are being passed over after a backslash at the end of a line. -/
inductive Joining
  | no
  /-- The line has not ended yet. -/
  | blanks
  | lines

/-- The rest of a basic text, which may be `long`: on several lines. -/
def readBasic (long : Bool) : Joining → List Char → Read
  | .blanks, '\n' :: r => readBasic long .lines r
  | .blanks, '\r' :: '\n' :: r => readBasic long .lines r
  | .blanks, ' ' :: r => readBasic long .blanks r
  | .blanks, '\t' :: r => readBasic long .blanks r
  | .blanks, _ => none
  | .lines, '\n' :: r => readBasic long .lines r
  | .lines, '\r' :: '\n' :: r => readBasic long .lines r
  | .lines, ' ' :: r => readBasic long .lines r
  | .lines, '\t' :: r => readBasic long .lines r
  | _, '"' :: r =>
    if long then close? '"' ('"' :: r) <|> Read.cons '"' (readBasic long .no r) else some ([], r)
  | _, '\\' :: 'u' :: a :: b :: c :: d :: r => do
    (readBasic long .no r).cons (← charOfHex [a, b, c, d])
  | _, '\\' :: 'U' :: a :: b :: c :: d :: e :: f :: g :: h :: r => do
    (readBasic long .no r).cons (← charOfHex [a, b, c, d, e, f, g, h])
  | _, '\\' :: c :: r =>
    match unescape c with
    | some c => (readBasic long .no r).cons c
    | none =>
      if !long then none
      else if c = '\n' then readBasic long .lines r
      else if c = ' ' ∨ c = '\t' ∨ c = '\r' ∧ r.head? = some '\n' then readBasic long .blanks r
      else none
  | _, '\r' :: '\n' :: r => if long then Read.cons '\n' (readBasic long .no r) else none
  | _, c :: r =>
    if c ≠ '\\' ∧ (!isControl c ∨ long ∧ c = '\n') then (readBasic long .no r).cons c else none
  | _, [] => none

/-- The rest of a literal text, which may be `long`: on several lines. -/
def readLiteral (long : Bool) : List Char → Read
  | '\'' :: r =>
    if long then close? '\'' ('\'' :: r) <|> Read.cons '\'' (readLiteral long r) else some ([], r)
  | '\r' :: '\n' :: r => if long then Read.cons '\n' (readLiteral long r) else none
  | c :: r =>
    if !isControl c ∨ long ∧ c = '\n' then (readLiteral long r).cons c else none
  | [] => none

/-- What follows a line end right after the opening quotes of a text on several lines. -/
def dropLineEnd : List Char → List Char
  | '\n' :: r => r
  | '\r' :: '\n' :: r => r
  | r => r

/-- A quoted text on one line. -/
def readShort : List Char → Read
  | '"' :: r => readBasic false .no r
  | '\'' :: r => readLiteral false r
  | _ => none

/-- A quoted text. -/
def read : List Char → Read
  | '"' :: '"' :: '"' :: r => readBasic true .no (dropLineEnd r)
  | '\'' :: '\'' :: '\'' :: r => readLiteral true (dropLineEnd r)
  | r => readShort r

/-! ## Writing -/

/-- The styles of quoted text. -/
inductive Style
  | basic
  | literal
  | longBasic
  | longLiteral
  deriving DecidableEq, Repr

/-- The length of the longest run of a character, after `run` of them. -/
def longestRun (c : Char) : (run : Nat) → List Char → Nat
  | run, [] => run
  | run, d :: rest =>
    if d = c then longestRun c (run + 1) rest else max run (longestRun c 0 rest)

/-- Whether a text has a control that cannot stand for itself in any style. -/
def needsCodes (cs : List Char) : Bool := cs.any fun c => isControl c && c ≠ '\n'

/-- The style of a value. -/
def styleOf (cs : List Char) : Style :=
  let codes := needsCodes cs
  let lines := cs.contains '\n'
  let slashes := cs.contains '\\'
  let doubles := longestRun '"' 0 cs
  let singles := longestRun '\'' 0 cs
  if !codes && !slashes && doubles = 0 && !lines then .basic
  else if !codes && singles = 0 && !lines then .literal
  else if !codes && !slashes && doubles ≤ 2 then .longBasic
  else if !codes && singles ≤ 2 then .longLiteral
  else if lines then .longBasic
  else .basic

/-- The escape of a character in a basic text; none if it stands for itself. -/
def escape? (long : Bool) (c : Char) : Option (List Char) :=
  if c = '\x08' then some ['\\', 'b']
  else if c = '\t' then some ['\\', 't']
  else if c = '\n' then if long then none else some ['\\', 'n']
  else if c = '\x0c' then some ['\\', 'f']
  else if c = '\r' then some ['\\', 'r']
  else if c = '\\' then some ['\\', '\\']
  else if isControl c then
    let digit (n : Nat) := (Nat.digitChar n).toUpper
    some ['\\', 'u', '0', '0', digit (c.toNat / 16), digit (c.toNat % 16)]
  else none

/-- The inside of a basic text, in which only so many quotes may stand in a row. -/
def writeBasic (long : Bool) (limit : Nat) : (run : Nat) → List Char → List Char
  | _, [] => []
  | run, '"' :: rest =>
    if limit ≤ run then '\\' :: '"' :: writeBasic long limit 0 rest
    else '"' :: writeBasic long limit (run + 1) rest
  | _, c :: rest => (escape? long c).getD [c] ++ writeBasic long limit 0 rest

/-- A text between quotes of a style. -/
def writeAs (style : Style) (cs : List Char) : List Char :=
  let lineEnd := if cs.contains '\n' then ['\n'] else []
  match style with
  | .basic => ['"'] ++ writeBasic false 0 0 cs ++ ['"']
  | .literal => ['\''] ++ cs ++ ['\'']
  | .longBasic => ['"', '"', '"'] ++ lineEnd ++ writeBasic true 2 0 cs ++ ['"', '"', '"']
  | .longLiteral => ['\'', '\'', '\''] ++ lineEnd ++ cs ++ ['\'', '\'', '\'']

/-- A text as a value. -/
def write (cs : List Char) : List Char := writeAs (styleOf cs) cs

/-- The characters of a key without quotes. -/
def isBare (c : Char) : Bool := c.isAlphanum || c = '_' || c = '-'

/-- A text as a key: without quotes if it can be, and always on one line. -/
def writeKey (cs : List Char) : List Char :=
  if !cs.isEmpty && cs.all isBare then cs
  else
    match styleOf cs with
    | .literal => writeAs .literal cs
    | _ => writeAs .basic cs

end Rollcall.Toml.Quoted
