import Rollcall.Properties
import Rollcall.Store.Node

/-!
# Announces

An announce is an entry by which an instance says that it is there: the key it has in the store, its
payload, and the seconds it has left to live. The last segment of the key is a number that the store
allocated, so every announce has a name by which it is ordered; lower names are older.
-/

namespace Rollcall

/-- What makes a payload or an entry unreadable. -/
inductive PayloadError
  /-- The last segment of the key is not a number. -/
  | invalidKey (key : String)
  | missingValue (key : String)
  | invalidAnnounce
  | invalidProperties
  deriving DecidableEq, Repr

/-- The text of a payload error. -/
def PayloadError.message : PayloadError → String
  | .invalidKey key => "invalid announce key '" ++ key ++ "': last segment is not a key name"
  | .missingValue key => "announce node '" ++ key ++ "' has no value"
  | .invalidAnnounce => "invalid announce payload"
  | .invalidProperties => "invalid properties payload"

/-- The payload of an announce. -/
structure Payload where
  instanceId : String
  serverInfo : String
  clusterId : String
  /-- The index of the instance's property document when the announce was written. -/
  propertiesIndex : Int
  deriving DecidableEq, Repr

namespace Payload

/-- The document of a payload. -/
def toJson (d : Payload) : Json.Value :=
  Json.object [("slingId", .string d.instanceId), ("serverInfo", .string d.serverInfo),
    ("clusterId", .string d.clusterId), ("propertiesModifiedIndex", .int d.propertiesIndex)]

open Json in
/-- The payload of a document. -/
def ofJson (v : Value) : Option Payload := do
  let [instanceId, serverInfo, clusterId, index] ← recordFields
    ["slingId", "serverInfo", "clusterId", "propertiesModifiedIndex"] v | none
  some {
    instanceId := ← required Value.asString instanceId
    serverInfo := ← required Value.asString serverInfo
    clusterId := ← required Value.asString clusterId
    propertiesIndex := ← required Value.asInt64 index }

/-- The text of a payload's document. -/
def encode (d : Payload) : String := d.toJson.render

/-- The payload a text holds. -/
def decode (text : String) : Except PayloadError Payload :=
  match (Json.parse text.toList).bind ofJson with
  | some d => .ok d
  | none => .error .invalidAnnounce

/-- What two payloads are compared by: everything but the cluster. -/
def content (d : Payload) : String × String × Int :=
  (d.instanceId, d.serverInfo, d.propertiesIndex)

end Payload

/-- The number in the last segment of a key. -/
def keyName? (key : String) : Option Nat :=
  Text.Decimal.read Text.Decimal.word64 (Text.lastPart '/' key.toList)

/-- An entry by which an instance says that it is there. -/
structure Announce where
  key : String
  data : Payload
  ttl : Option Int
  /-- The key ends in a number. -/
  named : (keyName? key).isSome
  deriving DecidableEq, Repr

namespace Announce

/-- The announce of a key, if the key ends in a number. -/
def make (key : String) (data : Payload) (ttl : Option Int) :
    Except PayloadError Announce :=
  if h : (keyName? key).isSome then .ok ⟨key, data, ttl, h⟩ else .error (.invalidKey key)

/-- The announce in a node of the store. -/
def ofNode (n : Store.Node) : Except PayloadError Announce :=
  match n.value with
  | none => .error (.missingValue n.key)
  | some text => do make n.key (← Payload.decode text) n.ttl

/-- The number by which announces are ordered. -/
def name (a : Announce) : Nat := (keyName? a.key).get a.named

/-- The instance that wrote the announce. -/
def instanceId (a : Announce) : String := a.data.instanceId

/-- The cluster the instance announced itself in. -/
def clusterId (a : Announce) : String := a.data.clusterId

/-- Whether the store should have expired the entry already. -/
def expired (a : Announce) : Bool := a.ttl.any (· ≤ 0)

/-- The announce with a new payload and new seconds to live. -/
def refreshed (a : Announce) (data : Payload) (ttl : Option Int) : Announce :=
  { a with data, ttl }

/-- What two announces are compared by: the key and the payload's content. -/
def content (a : Announce) : String × (String × String × Int) := (a.key, a.data.content)

/-- Who announced what and where: neither the properties' index nor the time left. -/
def membership (a : Announce) : String × String × String × String :=
  (a.key, a.instanceId, a.data.serverInfo, a.clusterId)

/-- The order of announces: by name, then key, then instance. -/
def order (a b : Announce) : Ordering :=
  (compare a.name b.name).then
    ((compare a.key b.key).then (compare a.instanceId b.instanceId))

end Announce

end Rollcall
