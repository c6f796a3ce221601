import Rollcall.Json.Record
import Rollcall.Text.Split

/-!
# Nodes of the store

A node is a key of the store's tree as an answer shows it: a leaf with a value, or a directory with
the nodes below it. In JSON a node leaves out what it does not have.
-/

namespace Rollcall.Store

/-- A key or a directory of the store. -/
structure Node where
  key : String
  value : Option String := none
  dir : Bool := false
  /-- Seconds left to live; the store failed to expire the key if there are none left. -/
  ttl : Option Int := none
  expiration : Option String := none
  modifiedIndex : Nat := 0
  createdIndex : Nat := 0
  nodes : List Node := []
  deriving Inhabited, Repr

namespace Node

/-- The last segment of the key. -/
def name (n : Node) : String := String.ofList (Text.lastPart '/' n.key.toList)

/-- The fields of a node without the nodes below it. -/
def headJson (n : Node) : List (String × Json.Value) :=
  [("key", .string n.key)] ++
    (n.value.map fun v => ("value", Json.Value.string v)).toList ++
    (if n.dir then [("dir", .bool true)] else []) ++
    (n.ttl.map fun t => ("ttl", Json.Value.int t)).toList ++
    (n.expiration.map fun e => ("expiration", Json.Value.string e)).toList ++
    [("modifiedIndex", .int n.modifiedIndex), ("createdIndex", .int n.createdIndex)]

mutual

/-- The document of a node. -/
def toJson : Node → Json.Value
  | ⟨key, value, dir, ttl, expiration, modified, created, nodes⟩ =>
    let below := listToJson nodes
    Json.object (headJson ⟨key, value, dir, ttl, expiration, modified, created, []⟩ ++
      if below.isEmpty then [] else [("nodes", .array below)])

/-- The documents of several nodes. -/
def listToJson : List Node → List Json.Value
  | [] => []
  | n :: rest => toJson n :: listToJson rest

end

/-- The names of a node's fields, in order. -/
def fieldNames : List String :=
  ["key", "value", "dir", "ttl", "expiration", "modifiedIndex", "createdIndex", "nodes"]

open Json in
/-- The node of a document in which at most `depth` more brackets may be open at once. -/
def ofJson : (depth : Nat) → Value → Option Node
  | 0, _ => none
  | depth + 1, v => do
    let [key, value, dir, ttl, expiration, modified, created, nodes] ← recordFields fieldNames v
      | none
    let word := Value.asNat Text.Decimal.word64
    let below ← match nodes with
      | none => some []
      | some (.array items) =>
        match depth with
        | 0 => none
        | depth + 1 => items.mapM (ofJson depth)
      | some _ => none
    some {
      key := ← required Value.asString key
      value := ← optional Value.asString value
      dir := ← defaulted false Value.asBool dir
      ttl := ← optional Value.asInt64 ttl
      expiration := ← optional Value.asString expiration
      modifiedIndex := ← defaulted 0 word modified
      createdIndex := ← defaulted 0 word created
      nodes := below }

/-- The text of a node's document. -/
def encode (n : Node) : String := n.toJson.render

/-- The node a text holds. -/
def decode (text : String) : Option Node := (Json.parse text.toList).bind (ofJson Json.maxDepth)

end Node

end Rollcall.Store
