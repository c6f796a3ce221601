import Rollcall.Text.Split

/-!
# Paths in the store

A key is a path of segments between slashes. The store knows each key in one form: with a slash in
front, none behind, and the empty text for the root.
-/

namespace Rollcall.Store.Path

/-- The form in which the store knows a key. -/
def normalize (key : String) : String :=
  match Text.dropTrailing '/' key.toList with
  | [] => ""
  | '/' :: rest => String.ofList ('/' :: rest)
  | path => String.ofList ('/' :: path)

/-- The key of a name directly below a directory. -/
def child (dir name : String) : String := dir ++ "/" ++ name

/-- What follows a directory and a slash in a key, if the key lies below the directory. -/
def rest? (dir key : String) : Option (List Char) :=
  let head := dir.toList ++ ['/']
  if head.isPrefixOf key.toList then some (key.toList.drop head.length) else none

/-- Whether a key lies below a directory. -/
def isBelow (dir key : String) : Bool := (rest? dir key).isSome

/-- The key directly below a directory through which the path to a key leads. -/
def toward? (dir key : String) : Option String :=
  (rest? dir key).map fun rest => child dir (String.ofList (rest.takeWhile (· ≠ '/')))

end Rollcall.Store.Path
