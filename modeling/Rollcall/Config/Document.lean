import Rollcall.Config
import Rollcall.Toml.Document

/-!
# Configurations as documents

A configuration is read from a TOML document: a section is a table, or an array that lists its
fields in order; what is left out has its default, and what is not known is passed over. Writing
gives every field, one section after the other.
-/

namespace Rollcall.Config

open Toml (Value)

/-- Why a document is no usable configuration. -/
inductive ReadError
  /-- It is not TOML, or it does not fit the fields. -/
  | unreadable
  | invalid (e : Invalid)
  deriving DecidableEq, Repr

/-! ## Reading -/

/-- The fields of a section, each missing or there. A moment in place of a section has none. -/
def fields (names : List String) : Value → Option (List (Option Value))
  | .table _ es => some (names.map (Toml.Entries.get? es))
  | .array items => some ((List.range names.length).map fun i => items[i]?)
  | .tables last earlier =>
    let items := (earlier.reverse ++ [last]).map (Value.table .header)
    some ((List.range names.length).map fun i => items[i]?)
  | .moment _ => some (names.map fun _ => none)
  | _ => none

/-- A string. -/
def asString : Value → Option String
  | .string s => some s
  | _ => none

/-- A number that is not negative. -/
def asNat : Value → Option Nat
  | .int (.ofNat n) => some n
  | _ => none

/-- A list of strings. -/
def asStrings : Value → Option (List String)
  | .array items => items.mapM asString
  | _ => none

/-- Whether a value is an array or a table with nothing in it. -/
def isEmptyValue : Value → Bool
  | .array items => items.isEmpty
  | .table _ es => es.isEmpty
  | _ => false

/-- A source of the cluster id: its name, or a table of that name alone with nothing under it. -/
def asSource : Value → Option ClusterSource
  | .string s => ClusterSource.ofName? s
  | .table _ [(name, v)] => if isEmptyValue v then ClusterSource.ofName? name else none
  | _ => none

/-- The name under which a moment in place of a table is an entry. -/
def momentName : String := "$__toml_private_datetime"

/-- Properties. -/
def asProperties : Value → Option Properties
  | .table _ es => do
    let entries ← es.mapM fun e => do pure (e.1, ← asString e.2)
    some (Dict.ofList entries)
  | .moment text => some (Dict.ofList [(momentName, text)])
  | _ => none

/-- A field with a default. -/
def defaulted {α : Type} (default : α) (read : Value → Option α) : Option Value → Option α
  | none => some default
  | some v => read v

/-- The section that says who the instance is. -/
def asInstance (v : Value) : Option Profile := do
  let [id, serverInfo] ← fields ["sling_id", "server_info"] v | none
  some { id := ← id.bind asString, serverInfo := ← defaulted "" asString serverInfo }

/-- The section about the store. -/
def asStore (v : Value) : Option StoreSection := do
  let [endpoints, root, connect, read] ←
    fields ["endpoints", "root", "connect_timeout_ms", "read_timeout_ms"] v | none
  let d : StoreSection := {}
  some {
    endpoints := ← defaulted d.endpoints asStrings endpoints
    root := ← defaulted d.root asString root
    connectTimeoutMs := ← defaulted d.connectTimeoutMs asNat connect
    readTimeoutMs := ← defaulted d.readTimeoutMs asNat read }

/-- The section about the cluster id. -/
def asCluster (v : Value) : Option ClusterSection := do
  let [source, id, defaultId] ← fields ["source", "id", "default_id"] v | none
  let d : ClusterSection := {}
  some {
    source := ← defaulted d.source asSource source
    id := ← defaulted none (fun v => (asString v).map some) id
    defaultId := ← defaulted d.defaultId asString defaultId }

/-- The section about back-offs. -/
def asBackOff (v : Value) : Option BackOffSection := do
  let [announcer, remoteUpdater, localUpdater, refusal, transport] ←
    fields ["announcer", "remote_updater", "local_updater", "etcd_error", "io_error"] v | none
  let d := BackOffSection.default
  some {
    announcer := ← defaulted d.announcer asString announcer
    remoteUpdater := ← defaulted d.remoteUpdater asString remoteUpdater
    localUpdater := ← defaulted d.localUpdater asString localUpdater
    refusal := ← defaulted d.refusal asString refusal
    transport := ← defaulted d.transport asString transport }

/-- The configuration in the table of a document, whether or not it can be used. -/
def ofToml (v : Value) : Option Config := do
  let [self, store, cluster, backOff, properties] ←
    fields ["instance", "store", "cluster", "backoff", "properties"] v | none
  some {
    self := ← self.bind asInstance
    store := ← defaulted {} asStore store
    cluster := ← defaulted {} asCluster cluster
    backOff := ← defaulted {} asBackOff backOff
    properties := ← defaulted ∅ asProperties properties }

/-- The usable configuration of a document. -/
def read (text : String) : Except ReadError Config :=
  match (Toml.parse text).bind ofToml with
  | none => .error .unreadable
  | some c =>
    match c.validate with
    | .ok () => .ok c
    | .error e => .error (.invalid e)

/-! ## Writing -/

/-- A string as a value. -/
def ofString (s : String) : List Char := Toml.Quoted.write s.toList

/-- A number as a value, if it is one of 64 bits with a sign. -/
def ofNat? (n : Nat) : Option (List Char) :=
  if Text.Decimal.isSigned64 n then some (Text.Decimal.digits n) else none

/-- A list of strings as a value: on one line if there are fewer than two. -/
def ofStrings : List String → List Char
  | [] => ['[', ']']
  | [s] => '[' :: ofString s ++ [']']
  | items =>
    let line (s : String) := List.replicate 4 ' ' ++ ofString s ++ [',', '\n']
    '[' :: '\n' :: items.flatMap line ++ [']']

/-- The line of a field. -/
def line (key : String) (value : List Char) : List Char :=
  Toml.Quoted.writeKey key.toList ++ [' ', '=', ' '] ++ value ++ ['\n']

/-- A section: its header and the lines of its fields. -/
def writeSection (name : String) (lines : List (List Char)) : List Char :=
  '[' :: name.toList ++ [']', '\n'] ++ lines.flatten

/-- The document of a configuration, if its numbers can be written. -/
def write (c : Config) : Option String := do
  let connect ← ofNat? c.store.connectTimeoutMs
  let read ← ofNat? c.store.readTimeoutMs
  let sections := [
    writeSection "instance" [
      line "sling_id" (ofString c.self.id),
      line "server_info" (ofString c.self.serverInfo)],
    writeSection "store" [
      line "endpoints" (ofStrings c.store.endpoints),
      line "root" (ofString c.store.root),
      line "connect_timeout_ms" connect,
      line "read_timeout_ms" read],
    writeSection "cluster" (
      [line "source" (ofString c.cluster.source.name)] ++
        (c.cluster.id.map fun id => line "id" (ofString id)).toList ++
        [line "default_id" (ofString c.cluster.defaultId)]),
    writeSection "backoff" [
      line "announcer" (ofString c.backOff.announcer),
      line "remote_updater" (ofString c.backOff.remoteUpdater),
      line "local_updater" (ofString c.backOff.localUpdater),
      line "etcd_error" (ofString c.backOff.refusal),
      line "io_error" (ofString c.backOff.transport)],
    writeSection "properties" (c.properties.toList.map fun e => line e.1 (ofString e.2))]
  some (String.ofList (Text.join '\n' sections))

end Rollcall.Config
