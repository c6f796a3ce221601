import Rollcall.BackOff
import Rollcall.Properties

/-!
# Configuration of a member

What one member needs to know: who it is, where the store is, where its cluster id comes from, how
its loops back off, and properties that do not change.
-/

namespace Rollcall

/-- Who an instance is. -/
structure Profile where
  id : String
  serverInfo : String := ""
  deriving DecidableEq, Repr

namespace Config

/-- The store and the root of the keys. -/
structure StoreSection where
  /-- The host and port of each server, tried in order. -/
  endpoints : List String := ["127.0.0.1:2379"]
  root : String := "/discovery"
  connectTimeoutMs : Nat := 5000
  readTimeoutMs : Nat := 10000
  deriving DecidableEq, Repr

/-- Where the cluster id comes from. -/
inductive ClusterSource
  | config
  | store
  deriving DecidableEq, Repr

namespace ClusterSource

/-- The name of a source. -/
def name : ClusterSource → String
  | config => "config"
  | store => "store"

/-- The source with a name. -/
def ofName? (s : String) : Option ClusterSource := [config, store].find? fun x => x.name = s

end ClusterSource

/-- The cluster id. -/
structure ClusterSection where
  source : ClusterSource := .config
  id : Option String := none
  defaultId : String := "default"
  deriving DecidableEq, Repr

/-- The text used for a loop or an error that has no back-off of its own. -/
structure BackOffSection where
  announcer : String := "2000:10000:4"
  remoteUpdater : String := "1000:5000:5"
  localUpdater : String := "1000"
  refusal : String := "1000:60000:10"
  transport : String := "1000:60000:10"
  deriving DecidableEq, Repr

namespace BackOffSection

/-- The texts that are used where there is no other. -/
def default : BackOffSection := {}

/-- The back-off of the announcer. -/
def announcerBackOff (b : BackOffSection) : BackOff := .readOr b.announcer default.announcer

/-- The back-off of the remote updater. -/
def remoteUpdaterBackOff (b : BackOffSection) : BackOff :=
  .readOr b.remoteUpdater default.remoteUpdater

/-- The back-off of the local updater. -/
def localUpdaterBackOff (b : BackOffSection) : BackOff :=
  .readOr b.localUpdater default.localUpdater

/-- The back-off after refusals of a store that cannot agree within itself. -/
def refusalBackOff (b : BackOffSection) : BackOff := .readOr b.refusal default.refusal

/-- The back-off after answers that did not come. -/
def transportBackOff (b : BackOffSection) : BackOff := .readOr b.transport default.transport

end BackOffSection

end Config

/-- The configuration of one member. -/
structure Config where
  self : Profile
  store : Config.StoreSection := {}
  cluster : Config.ClusterSection := {}
  backOff : Config.BackOffSection := {}
  properties : Properties := ∅
  deriving DecidableEq, Repr

namespace Config

/-- Why a configuration cannot be used. -/
inductive Invalid
  | emptyId
  | idWithSlash
  | noEndpoints
  | rootWithoutSlash
  deriving DecidableEq, Repr

/-- What is wrong with a configuration. -/
def Invalid.reason : Invalid → String
  | .emptyId => "instance.sling_id must not be empty"
  | .idWithSlash => "instance.sling_id must not contain '/'"
  | .noEndpoints => "store.endpoints must not be empty"
  | .rootWithoutSlash => "store.root must start with '/'"

/-- The text of a refused configuration. -/
def Invalid.message (e : Invalid) : String := "invalid configuration: " ++ e.reason

/-- The first reason for which a configuration cannot be used. -/
def validate (c : Config) : Except Invalid Unit :=
  if (Text.trim c.self.id.toList).isEmpty then .error .emptyId
  else if c.self.id.toList.contains '/' then .error .idWithSlash
  else if c.store.endpoints.isEmpty then .error .noEndpoints
  else if c.store.root.toList.head? ≠ some '/' then .error .rootWithoutSlash
  else .ok ()

end Config

end Rollcall
