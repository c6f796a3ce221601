import Rollcall.Http.Encoding
import Rollcall.Store.Request
import Rollcall.Text.Decimal

/-!
# Requests as messages

A request to the store is a message with a method and a target. What a reading or a deletion asks
for stands in the target's query, what a write asks for in the body. Only options that are set are
sent.
-/

namespace Rollcall.Http

open Store (Request Method WriteOptions RemovalOptions)

/-- The name of a method. -/
def methodName : Method → String
  | .get => "GET"
  | .put => "PUT"
  | .post => "POST"
  | .delete => "DELETE"

/-- A number as the text of a field. -/
def ofNat (n : Nat) : String := String.ofList (Text.Decimal.digits n)

/-- A field that is sent if a truth value holds. -/
def flagField (name : String) (b : Bool) : Form := if b then [(name, "true")] else []

/-- A field that is sent if there is a value for it. -/
def field {α : Type} (name : String) (text : α → String) (a : Option α) : Form :=
  (a.map fun a => (name, text a)).toList

/-- The fields of a write. -/
def putForm (value : Option String) (o : WriteOptions) : Form :=
  field "value" id value ++
    field "ttl" ofNat o.ttl ++
    flagField "dir" o.dir ++
    field "prevExist" (fun b => if b then "true" else "false") o.prevExist ++
    field "prevValue" id o.prevValue ++
    field "prevIndex" ofNat o.prevIndex

/-- The fields of a deletion. -/
def deleteForm (o : RemovalOptions) : Form :=
  flagField "recursive" o.recursive ++
    flagField "dir" o.dir ++
    field "prevValue" id o.prevValue ++
    field "prevIndex" ofNat o.prevIndex

/-- The fields of a request's query. -/
def query : Request → Form
  | .get _ recursive sorted => flagField "recursive" recursive ++ flagField "sorted" sorted
  | .delete _ o => deleteForm o
  | .put .. | .post .. => []

/-- The fields of a request's body, if it has one. -/
def form? : Request → Option Form
  | .put _ value o => some (putForm value o)
  | .post _ value ttl => some (("value", value) :: field "ttl" ofNat ttl)
  | .get .. | .delete .. => none

/-- What is sent to a server. -/
structure Message where
  method : Method
  target : String
  body : Option String
  deriving DecidableEq, Repr

/-- The path below which the store has its keys. -/
def keysPath : String := "/v2/keys"

/-- How the sender of a message names itself. -/
def userAgent : String := "keelson/0.1"

/-- The type of a body. -/
def formType : String := "application/x-www-form-urlencoded"

/-- The message of a request. -/
def Message.ofRequest (r : Request) : Message where
  method := r.method
  target :=
    let path := keysPath.toList ++ encodePath r.key
    let fields := query r
    String.ofList (if fields.isEmpty then path else path ++ '?' :: encodeForm fields)
  body := (form? r).map fun f => String.ofList (encodeForm f)

end Rollcall.Http
