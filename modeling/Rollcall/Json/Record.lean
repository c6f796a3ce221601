import Rollcall.Json.Reader

/-!
# Records in JSON

A record is read from an object, or from an array that lists its fields in order. Fields that are
not there are left to the record's defaults; a known field must not be written twice; names that
the record does not know are passed over.
-/

namespace Rollcall.Json

/-- The number of brackets that may be open at once around what a record reads. -/
def maxDepth : Nat := 127

/-- The value of a field among those written, if it is written at most once. -/
def fieldOnce (name : String) (fields : List (Option String × Value)) : Option (Option Value) :=
  match fields.filter fun f => f.1 == some name with
  | [] => some none
  | [f] => some (some f.2)
  | _ => none

/-- The fields of a record with these names, each missing or there. -/
def recordFields (names : List String) : Value → Option (List (Option Value))
  | .array items =>
    if items.length ≤ names.length then
      some (items.map some ++ List.replicate (names.length - items.length) none)
    else none
  | .object fields =>
    if fields.all fun f => f.1.isSome then names.mapM fun n => fieldOnce n fields else none
  | _ => none

namespace Value

/-- A string. -/
def asString : Value → Option String
  | .string s => some s
  | _ => none

/-- A truth value. -/
def asBool : Value → Option Bool
  | .bool b => some b
  | _ => none

/-- An unsigned integer below a limit. -/
def asNat (limit : Nat) : Value → Option Nat
  | .int (.ofNat n) => if n < limit then some n else none
  | _ => none

/-- A signed 64-bit integer. -/
def asInt64 : Value → Option Int
  | .int n => if Text.Decimal.isSigned64 n then some n else none
  | _ => none

/-- An optional value: null stands for none. -/
def nullable {α : Type} (read : Value → Option α) : Value → Option (Option α)
  | .null => some none
  | v => (read v).map some

end Value

/-- A field that must be there. -/
def required {α : Type} (read : Value → Option α) (field : Option Value) : Option α :=
  field.bind read

/-- A field with a default. -/
def defaulted {α : Type} (default : α) (read : Value → Option α) : Option Value → Option α
  | none => some default
  | some v => read v

/-- A field that may be missing or null. -/
def optional {α : Type} (read : Value → Option α) : Option Value → Option (Option α)
  | none => some none
  | some v => v.nullable read

/-- An object with names known in full. -/
def object (fields : List (String × Value)) : Value :=
  .object (fields.map fun f => (some f.1, f.2))

end Rollcall.Json
