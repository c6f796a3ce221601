import Rollcall.Listing
import Rollcall.Store.Request

/-!
# The registry of instances in the store

The registry is what the store's keys below a root mean: announces, property documents by instance,
and one cluster id. Each operation is one request together with the reading of its answer. A tally
counts the failures since the last success; every answer is counted once, and a refusal that an
operation expects counts as a success.
-/

namespace Rollcall.Registry

open Store (Request Response Refusal Failure Answer)

/-- The keys below a root. -/
structure Layout where
  /-- The root without slashes at its end. -/
  root : String
  deriving DecidableEq, Repr

namespace Layout

/-- The layout below a root path. -/
def ofRoot (root : String) : Layout := ⟨String.ofList (Text.dropTrailing '/' root.toList)⟩

/-- The directory of the announces. -/
def announces (l : Layout) : String := l.root ++ "/announces"

/-- The directory of the property documents. -/
def properties (l : Layout) : String := l.root ++ "/properties"

/-- The key of an instance's property document. -/
def propertiesOf (l : Layout) (instanceId : String) : String := l.properties ++ "/" ++ instanceId

/-- The key of the cluster id. -/
def clusterId (l : Layout) : String := l.root ++ "/cluster-id"

end Layout

/-- The failures counted since the last success. -/
structure Tally where
  /-- Missing answers since the last answer. -/
  transport : Nat := 0
  /-- Refusals by code. -/
  refusals : Dict Nat Nat := ∅
  deriving DecidableEq, Repr

namespace Tally

/-- The refusals counted with a code. -/
def ofCode (t : Tally) (code : Nat) : Nat := (t.refusals.find? code).getD 0

/-- The refusals counted with a code that passes a test. -/
def total (t : Tally) (p : Nat → Bool) : Nat :=
  t.refusals.toList.foldl (fun n e => if p e.1 then n + e.2 else n) 0

/-- The refusals that say the store cannot agree within itself. -/
def consensus (t : Tally) : Nat := t.total Refusal.isConsensusCode

/-- A success clears every count. -/
def succeed (_ : Tally) : Tally := {}

/-- A refusal is an answer, so only its code is counted. -/
def refuse (t : Tally) (code : Nat) : Tally :=
  { transport := 0, refusals := t.refusals.insert code (t.ofCode code + 1) }

/-- A failed request. -/
def fail (t : Tally) : Failure → Tally
  | .refused r => t.refuse r.code
  | .transport _ => { t with transport := t.transport + 1 }
  | .payload _ => t

end Tally

/-- One request and what its answer means. -/
structure Operation (α : Type) where
  request : Request
  /-- The refusals that are as good as an answer. -/
  expects : Refusal → Bool := fun _ => false
  /-- The meaning of a response or of an expected refusal. -/
  read : Except Refusal Response → Except Failure α

/-- The result of an operation by the answer to its request, and the tally after it. -/
def Operation.accept {α : Type} (op : Operation α) (t : Tally) : Answer → Tally × Except Failure α
  | .ok response => (t.succeed, op.read (.ok response))
  | .error (.refused r) =>
    if op.expects r then (t.succeed, op.read (.error r))
    else (t.refuse r.code, .error (.refused r))
  | .error f => (t.fail f, .error f)

/-- Reading an entry back from a payload is a failure of the payload. -/
def ofPayload {α : Type} (e : Except PayloadError α) : Except Failure α := e.mapError .payload

/-- Create an announce under an allocated key. -/
def announce (l : Layout) (data : Payload) (ttl : Nat) : Operation Announce where
  request := .post l.announces data.encode (some ttl)
  read
    | .ok { node := some n, .. } =>
      ofPayload (Announce.make n.key data (n.ttl <|> some (Store.signed ttl)))
    | .ok _ => .error (.transport "create response without node")
    | .error r => .error (.refused r)

/-- The nodes of all announces; none if there is no directory yet. -/
def announces (l : Layout) : Operation (List Store.Node) where
  request := .get l.announces true true
  expects := Refusal.isKeyNotFound
  read
    | .ok response => .ok response.children
    | .error _ => .ok []

/-- Renew an announce that has to be there still. -/
def renew (key : String) (data : Payload) (ttl : Nat) : Operation Announce where
  request := .put key (some data.encode) { ttl := some ttl, prevExist := some true }
  read
    | .ok response =>
      ofPayload (Announce.make key data
        (response.node.bind Store.Node.ttl <|> some (Store.signed ttl)))
    | .error r => .error (.refused r)

/-- Remove an announce; it does not matter if it is gone already. -/
def withdraw (key : String) : Operation Unit where
  request := .delete key {}
  expects := Refusal.isKeyNotFound
  read _ := .ok ()

/-- Write an instance's property document; the result is the index of the write. -/
def publish (l : Layout) (instanceId : String) (p : Properties) : Operation Int where
  request := .put (l.propertiesOf instanceId) (some p.encode) {}
  read
    | .ok response => .ok ((response.node.map fun n => Store.signed n.modifiedIndex).getD 0)
    | .error r => .error (.refused r)

/-- The property map in a document. -/
def readProperties (text : String) : Except Failure Properties :=
  match Properties.decode text with
  | some p => .ok p
  | none => .error (.payload .invalidProperties)

/-- The properties of one instance; none if it never wrote any. -/
def propertiesOf (l : Layout) (instanceId : String) : Operation Properties where
  request := .get (l.propertiesOf instanceId) false false
  expects := Refusal.isKeyNotFound
  read
    | .ok { node := some { value := some text, .. }, .. } => readProperties text
    | _ => .ok ∅

/-- The properties of every instance, by the last segments of their keys. -/
def allProperties (l : Layout) : Operation (Dict String Properties) where
  request := .get l.properties true true
  expects := Refusal.isKeyNotFound
  read
    | .ok response => do
      let documents := response.children.filterMap fun n =>
        if n.dir then none else n.value.map fun text => (n.name, text)
      let found ← documents.mapM fun d => do pure (d.1, ← readProperties d.2)
      pure (Dict.ofList found)
    | .error _ => .ok ∅

/-- The cluster id, if there is one. -/
def clusterId (l : Layout) : Operation (Option String) where
  request := .get l.clusterId false false
  expects := Refusal.isKeyNotFound
  read
    | .ok response => .ok (response.node.bind Store.Node.value)
    | .error _ => .ok none

/-- How a claim of the cluster id ended. -/
inductive Claim
  | won (id : String)
  /-- There is an id already; the store refused the claim. -/
  | taken (r : Refusal)

/-- Claim the cluster id for a candidate, unless there is one. -/
def claim (l : Layout) (candidate : String) : Operation Claim where
  request := .put l.clusterId (some candidate) { prevExist := some false }
  expects r := r.code = Refusal.existsCode
  read
    | .ok _ => .ok (.won candidate)
    | .error r => .ok (.taken r)

/-- The id that won a claim, by what was read after the claim was refused. -/
def resolveClaim (r : Refusal) : Except Failure (Option String) → Except Failure String
  | .ok (some id) => .ok id
  | .ok none => .error (.refused r)
  | .error f => .error f

end Rollcall.Registry
