import Rollcall.Announce

/-!
# Requests and answers of the store

The store is a tree of keys. It is asked to read a key, to write one, to create one with an
allocated name below a directory, or to delete one. It answers with a response, or refuses with a
code, or no answer comes at all.
-/

namespace Rollcall.Store

/-- Conditions and options of a write. -/
structure WriteOptions where
  /-- Seconds until the key expires. -/
  ttl : Option Nat := none
  dir : Bool := false
  /-- The key has to be there, or has to be absent. -/
  prevExist : Option Bool := none
  prevValue : Option String := none
  prevIndex : Option Nat := none
  deriving DecidableEq, Repr

/-- Conditions and options of a deletion. -/
structure RemovalOptions where
  recursive : Bool := false
  dir : Bool := false
  prevValue : Option String := none
  prevIndex : Option Nat := none
  deriving DecidableEq, Repr

/-- A request to the store. -/
inductive Request
  | get (key : String) (recursive sorted : Bool)
  | put (key : String) (value : Option String) (options : WriteOptions)
  /-- Create a key with an allocated, increasing name below a directory. -/
  | post (dir value : String) (ttl : Option Nat)
  | delete (key : String) (options : RemovalOptions)
  deriving DecidableEq, Repr

/-- The kinds of requests. -/
inductive Method
  | get
  | put
  | post
  | delete
  deriving DecidableEq, Repr

/-- The kind of a request. -/
def Request.method : Request → Method
  | .get .. => .get
  | .put .. => .put
  | .post .. => .post
  | .delete .. => .delete

/-- The key or directory a request is about, as it was given. -/
def Request.key : Request → String
  | .get key .. => key
  | .put key .. => key
  | .post dir .. => dir
  | .delete key .. => key

/-- What the store answers to a request it carried out. -/
structure Response where
  action : String
  node : Option Node := none
  prevNode : Option Node := none
  deriving Repr

namespace Response

/-- The nodes below the response's node. -/
def children (r : Response) : List Node := (r.node.map Node.nodes).getD []

open Json in
/-- The response of a document. -/
def ofJson (v : Value) : Option Response := do
  let [action, node, prevNode] ← recordFields ["action", "node", "prevNode"] v | none
  some {
    action := ← required Value.asString action
    node := ← optional (Node.ofJson (maxDepth - 1)) node
    prevNode := ← optional (Node.ofJson (maxDepth - 1)) prevNode }

/-- The response a text holds. -/
def decode (text : String) : Option Response := (Json.parse text.toList).bind ofJson

end Response

/-- An unsigned index as the signed 64-bit number with the same bits. -/
def signed (n : Nat) : Int := Int.bmod n Text.Decimal.word64

/-- The refusal of a request. -/
structure Refusal where
  code : Nat
  message : String := ""
  cause : String := ""
  /-- The index of the store at the refusal. -/
  index : Int := 0
  deriving DecidableEq, Repr

namespace Refusal

/-- The key is not there. -/
def keyNotFoundCode : Nat := 100

/-- A condition on the present value or index does not hold. -/
def compareFailedCode : Nat := 101

/-- A directory stands where a value is needed, or the other way round. -/
def notFileCode : Nat := 102

/-- The key is there already. -/
def existsCode : Nat := 105

/-- The directory has keys below it. -/
def notEmptyCode : Nat := 108

/-- Whether a code says that the store cannot agree within itself. -/
def isConsensusCode (code : Nat) : Bool := 300 ≤ code && code < 400

/-- Whether the key is not there. -/
def isKeyNotFound (r : Refusal) : Bool := r.code = keyNotFoundCode

/-- Whether the store cannot agree within itself. -/
def isConsensus (r : Refusal) : Bool := isConsensusCode r.code

/-- Whether the store could not understand the request. -/
def isMalformedRequest (r : Refusal) : Bool := 200 ≤ r.code && r.code < 300

/-- The text of a refusal. -/
def text (r : Refusal) : String :=
  r.message ++ " (" ++ r.cause ++ ") [" ++ toString r.code ++ "]"

open Json in
/-- The refusal of a document. -/
def ofJson (v : Value) : Option Refusal := do
  let [code, message, cause, index] ← recordFields ["errorCode", "message", "cause", "index"] v
    | none
  some {
    code := ← required (Value.asNat Text.Decimal.word32) code
    message := ← defaulted "" Value.asString message
    cause := ← defaulted "" Value.asString cause
    index := ← defaulted 0 Value.asInt64 index }

/-- The refusal a text holds. -/
def decode (text : String) : Option Refusal := (Json.parse text.toList).bind ofJson

end Refusal

/-- Why there is no result. -/
inductive Failure
  /-- The store refused the request. -/
  | refused (r : Refusal)
  /-- No answer came, or none that can be read. -/
  | transport (text : String)
  /-- The answer came, but what it holds cannot be read. -/
  | payload (e : PayloadError)
  deriving DecidableEq, Repr

namespace Failure

/-- The refusal, if it is one. -/
def refusal? : Failure → Option Refusal
  | .refused r => some r
  | _ => none

/-- Whether the key is not there. -/
def isKeyNotFound (f : Failure) : Bool := f.refusal?.any Refusal.isKeyNotFound

/-- The text of a failure. -/
def message : Failure → String
  | .refused r => "store error: " ++ r.text
  | .transport text => "i/o error: " ++ text
  | .payload e => e.message

end Failure

/-- What comes back from a request. -/
abbrev Answer := Except Failure Response

end Rollcall.Store
