import Rollcall.Duration
import Rollcall.Store.Path
import Rollcall.Store.Request

/-!
# The store in memory

A tree of keys with times to live. Entries are kept under their full keys in key order; a directory
is there if it has an entry of its own or a key below it. Every write and every deletion raises the
index by one. Entries whose time is over are dropped when a request begins. A failure that was
queued answers the next request in place of the tree.
-/

namespace Rollcall.Store

/-- What the store holds under a key. -/
structure Entry where
  value : Option String
  dir : Bool
  /-- The instant at which the entry's time is over. -/
  expiresAt : Option Nat
  /-- Seconds shown in place of the time left; such an entry does not expire. -/
  pinnedTtl : Option Int
  modifiedIndex : Nat
  createdIndex : Nat
  deriving DecidableEq, Repr

namespace Entry

/-- The seconds an entry has left, as an answer shows them: rounded up. -/
def ttl (e : Entry) (now : Nat) : Option Int :=
  match e.pinnedTtl with
  | some t => some t
  | none => e.expiresAt.map fun t =>
    min 9223372036854775807 (Duration.seconds (t - now)).ceil

/-- Whether an entry's time is over. -/
def expired (e : Entry) (now : Nat) : Bool := e.pinnedTtl.isNone && e.expiresAt.any (· ≤ now)

end Entry

/-- A store kept in memory. -/
structure Tree where
  entries : Dict String Entry := ∅
  /-- The index of the last write or deletion. -/
  index : Nat := 0
  /-- Failures that answer the next requests, one each. -/
  failures : List Failure := []

namespace Tree

/-- The store without the entries whose time is over. -/
def purge (t : Tree) (now : Nat) : Tree :=
  { t with entries := t.entries.filter fun _ e => !e.expired now }

/-- Whether keys lie below a directory. -/
def hasChildren (t : Tree) (key : String) : Bool := t.entries.keys.any (Path.isBelow key)

/-- Whether a key is a directory: the root, by an entry of its own, or by keys below it. -/
def isDir (t : Tree) (key : String) : Bool :=
  key = "" ||
    match t.entries.find? key with
    | some e => e.dir
    | none => t.hasChildren key

/-- Whether a key is there, as an entry or as a directory of others. -/
def present (t : Tree) (key : String) : Bool := t.entries.contains key || t.hasChildren key

/-- The keys directly below a directory, in key order. -/
def children (t : Tree) (key : String) : List String :=
  (Dict.ofList ((t.entries.keys.filterMap (Path.toward? key)).map fun k => (k, ()))).keys

/-- The node of a key with the nodes of so many levels below it. -/
def node (t : Tree) (now : Nat) (levels : Nat) (key : String) : Node :=
  match (t.entries.find? key).filter fun e => !e.dir with
  | some e =>
    { key, value := e.value, ttl := e.ttl now, modifiedIndex := e.modifiedIndex
      createdIndex := e.createdIndex }
  | none =>
    let below := match levels with
      | 0 => []
      | levels + 1 => (t.children key).map (t.node now levels)
    match t.entries.find? key with
    | some e =>
      { key, dir := true, ttl := e.ttl now, modifiedIndex := e.modifiedIndex
        createdIndex := e.createdIndex, nodes := below }
    | none => { key, dir := true, nodes := below }

/-- More levels than any key has: every level takes a slash. -/
def height (t : Tree) : Nat := t.entries.keys.foldl (fun h k => max h k.length) 0 + 1

/-- A refusal with this code at the store's present index. -/
def refuse {α : Type} (t : Tree) (code : Nat) (message key : String) : Except Refusal α :=
  .error { code, message, cause := key, index := signed t.index }

/-- The refusal of a key that is not there. -/
def notFound {α : Type} (t : Tree) (key : String) : Except Refusal α :=
  t.refuse Refusal.keyNotFoundCode "Key not found" key

/-- The refusal of a condition that does not hold. -/
def compareFailed {α : Type} (t : Tree) (key : String) : Except Refusal α :=
  t.refuse Refusal.compareFailedCode "Compare failed" key

/-- The store after a write under a key. -/
def write (t : Tree) (now : Nat) (key : String) (value : Option String) (ttl : Option Nat)
    (dir : Bool) : Tree :=
  let index := t.index + 1
  let created := ((t.entries.find? key).map Entry.createdIndex).getD index
  { t with
    index
    entries := t.entries.insert key {
      value, dir, pinnedTtl := none, modifiedIndex := index, createdIndex := created
      expiresAt := ttl.map fun s => now + Duration.ofSeconds s } }

/-- Read a key. -/
def get (t : Tree) (now : Nat) (key : String) (recursive : Bool) : Except Refusal Response :=
  let key := Path.normalize key
  if key ≠ "" ∧ !t.present key then t.notFound key
  else .ok { action := "get", node := some (t.node now (if recursive then t.height else 1) key) }

/-- Write a key. -/
def put (t : Tree) (now : Nat) (key : String) (value : Option String) (o : WriteOptions) :
    Except Refusal (Tree × Response) := do
  let key := Path.normalize key
  let existing := t.entries.find? key
  let there := t.present key
  if o.prevExist = some true ∧ !there then t.notFound key
  if o.prevExist = some false ∧ there then
    t.refuse Refusal.existsCode "Key already exists" key
  if o.prevValue.isSome ∨ o.prevIndex.isSome then
    match existing with
    | none => t.notFound key
    | some e =>
      if o.prevValue.any (fun v => e.value ≠ some v) ∨
          o.prevIndex.any (fun i => e.modifiedIndex ≠ i) then
        t.compareFailed key
  if t.isDir key ∧ !o.dir then t.refuse Refusal.notFileCode "Not a file" key
  let written := t.write now key (if o.dir then none else some (value.getD "")) o.ttl o.dir
  pure (written, {
    action := if existing.isSome then "update" else "set"
    node := some (written.node now 0 key)
    prevNode := existing.map fun _ => t.node now 0 key })

/-- Create a key below a directory, named by the index of the write in twenty digits. -/
def post (t : Tree) (now : Nat) (dir value : String) (ttl : Option Nat) :
    Except Refusal (Tree × Response) := do
  let dir := Path.normalize dir
  if (t.entries.find? dir).any fun e => !e.dir then
    t.refuse Refusal.notFileCode "Not a directory" dir
  let key := Path.child dir (String.ofList (Text.Decimal.padded 20 (t.index + 1)))
  let written := t.write now key (some value) ttl false
  pure (written, { action := "create", node := some (written.node now 0 key) })

/-- Delete a key and everything below it. -/
def delete (t : Tree) (now : Nat) (key : String) (o : RemovalOptions) :
    Except Refusal (Tree × Response) := do
  let key := Path.normalize key
  if !t.present key then t.notFound key
  let prev := t.node now 0 key
  if prev.dir ∧ !o.dir ∧ !o.recursive then t.refuse Refusal.notFileCode "Not a file" key
  if prev.dir ∧ !o.recursive ∧ t.hasChildren key then
    t.refuse Refusal.notEmptyCode "Directory not empty" key
  if o.prevValue.any fun v => prev.value ≠ some v then t.compareFailed key
  if o.prevIndex.any fun i => prev.modifiedIndex ≠ i then t.compareFailed key
  let index := t.index + 1
  pure ({ t with
      index
      entries := t.entries.filter fun k _ => !(k = key || Path.isBelow key k) },
    { action := "delete"
      node := some {
        key, dir := prev.dir, modifiedIndex := index, createdIndex := prev.createdIndex }
      prevNode := some prev })

/-- Carry out a request on a store without overdue entries. -/
def perform (t : Tree) (now : Nat) : Request → Except Refusal (Tree × Response)
  | .get key recursive _ => (t.get now key recursive).map fun r => (t, r)
  | .put key value o => t.put now key value o
  | .post dir value ttl => t.post now dir value ttl
  | .delete key o => t.delete now key o

/-- The answer to a request at an instant, and the store after it. -/
def run (t : Tree) (now : Nat) (r : Request) : Tree × Answer :=
  match t.failures with
  | f :: rest => ({ t with failures := rest }, .error f)
  | [] =>
    let t := t.purge now
    match t.perform now r with
    | .ok (t, response) => (t, .ok response)
    | .error refusal => (t, .error (.refused refusal))

/-- Queue a failure. -/
def queueFailure (t : Tree) (f : Failure) : Tree := { t with failures := t.failures ++ [f] }

/-- Pin the seconds shown for an entry, if there is one under exactly this key. -/
def pinTtl (t : Tree) (key : String) (ttl : Int) : Tree × Bool :=
  ({ t with entries := t.entries.modify key fun e => { e with pinnedTtl := some ttl } },
    t.entries.contains key)

/-- The value under exactly this key, and the store after looking. -/
def value (t : Tree) (now : Nat) (key : String) : Tree × Option String :=
  let t := t.purge now
  (t, (t.entries.find? key).bind Entry.value)

end Tree

end Rollcall.Store
