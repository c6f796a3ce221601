import Rollcall.Listing

/-!
# Views of the topology

A view groups the announces of a listing by cluster. Clusters stand in the order of their oldest
announces, members in the order of the listing, and the first member of a cluster leads it. Exactly
one member is the local instance. A view is current until something newer is known.
-/

namespace Rollcall

/-- One instance as a view shows it. -/
structure Instance where
  id : String
  clusterId : String
  serverInfo : String
  leader : Bool
  isLocal : Bool
  properties : Properties
  deriving DecidableEq, Repr

/-- The instances of one cluster, the oldest announce first. -/
structure Cluster where
  id : String
  instances : List Instance
  deriving DecidableEq, Repr

/-- The instance that leads: the first one. -/
def Cluster.leader (c : Cluster) : Option Instance := c.instances.head?

/-- All clusters and instances as one instance knows them. -/
structure View where
  /-- The announces the view was built from; none if it was not built from any. -/
  announces : Listing
  clusters : List Cluster
  /-- The instance whose view this is. -/
  localId : String
  /-- Whether nothing newer is known. -/
  current : Bool
  deriving DecidableEq, Repr

/-- Why a view cannot be built. -/
inductive ViewError
  | noAnnounces
  | noLocalInstance (id : String)
  | multipleLocalInstances (count : Nat)
  deriving DecidableEq, Repr

/-- The text of a view error. -/
def ViewError.message : ViewError → String
  | .noAnnounces => "cannot build a topology view without announces"
  | .noLocalInstance id => "local instance " ++ id ++ " is not part of the announces"
  | .multipleLocalInstances n =>
    "found " ++ toString n ++ " local instances, expected exactly one"

namespace View

/-- The cluster id shown while there is no other. -/
def undefinedCluster : String := "undefined"

/-- Each value at its first occurrence. -/
def distinct : List String → List String
  | [] => []
  | s :: rest => s :: (distinct rest).filter (· ≠ s)

/-- The instance of an announce. -/
def instanceOf (properties : Dict String Properties) (localId : String) (leader : Bool)
    (a : Announce) : Instance where
  id := a.instanceId
  clusterId := a.clusterId
  serverInfo := a.data.serverInfo
  leader
  isLocal := a.instanceId = localId
  properties := (properties.find? a.instanceId).getD ∅

/-- The instances of one cluster's announces: the first one leads. -/
def members (properties : Dict String Properties) (localId : String) :
    List Announce → List Instance
  | [] => []
  | a :: rest =>
    instanceOf properties localId true a :: rest.map (instanceOf properties localId false)

/-- The clusters of a list of announces. -/
def group (properties : Dict String Properties) (localId : String) (entries : List Announce) :
    List Cluster :=
  (distinct (entries.map Announce.clusterId)).map fun c =>
    { id := c, instances := members properties localId (entries.filter fun a => a.clusterId = c) }

/-- The view of a listing, which has to list the local instance once. -/
def build (announces : Listing) (properties : Dict String Properties) (localId : String)
    (current : Bool) : Except ViewError View :=
  if announces.entries.isEmpty then .error .noAnnounces
  else
    match announces.entries.countP fun a => a.instanceId = localId with
    | 0 => .error (.noLocalInstance localId)
    | 1 =>
      .ok { announces, localId, current, clusters := group properties localId announces.entries }
    | n => .error (.multipleLocalInstances n)

/-- The view of an instance that knows only itself; never current. -/
def isolated (data : Payload) (properties : Properties) : View where
  announces := {}
  clusters := [{
    id := data.clusterId
    instances := [{
      id := data.instanceId, clusterId := data.clusterId, serverInfo := data.serverInfo
      leader := true, isLocal := true, properties }] }]
  localId := data.instanceId
  current := false

/-- The view held before anything is known. -/
def undefined (localId : String) : View :=
  let data : Payload := {
    instanceId := localId, serverInfo := "", clusterId := undefinedCluster, propertiesIndex := 0 }
  isolated data ∅

/-- The view, no longer current. -/
def old (v : View) : View := { v with current := false }

/-- The cluster with an id. -/
def cluster? (v : View) (id : String) : Option Cluster := v.clusters.find? fun c => c.id = id

/-- The cluster ids in increasing order. -/
def clusterIds (v : View) : List String :=
  (Dict.ofList (v.clusters.map fun c => (c.id, ()))).keys

/-- Every instance, cluster by cluster. -/
def instances (v : View) : List Instance := v.clusters.flatMap Cluster.instances

/-- The instance with an id. -/
def instance? (v : View) (id : String) : Option Instance := v.instances.find? fun i => i.id = id

/-- The local instance. -/
def localInstance (v : View) : Option Instance :=
  v.instances.find? Instance.isLocal <|> v.instances.head?

/-- Who is a member of what, with which endpoint, and who leads. -/
def memberships (v : View) : List (String × String × String × Bool) :=
  v.instances.map fun i => (i.id, i.clusterId, i.serverInfo, i.leader)

/-- Whether members joined, left, moved or changed their leader. -/
def membersDiffer (v w : View) : Bool := v.memberships ≠ w.memberships

/-- The properties of the instances; of two instances with one id the later one counts. -/
def propertiesById (v : View) : Dict String Properties :=
  Dict.ofList (v.instances.map fun i => (i.id, i.properties))

/-- Whether the properties of the instances differ. -/
def propertiesDiffer (v w : View) : Bool := v.propertiesById ≠ w.propertiesById

/-- Whether the sets of cluster ids differ. -/
def clusterIdsDiffer (v w : View) : Bool := v.clusterIds ≠ w.clusterIds

/-- A cluster in one line: its id and its members, the local one marked with a star. -/
def describeCluster (c : Cluster) : String :=
  c.id ++ "[" ++
    String.intercalate "," (c.instances.map fun i => if i.isLocal then i.id ++ "*" else i.id) ++ "]"

/-- A view in one line. -/
def describe (v : View) : String := String.intercalate " " (v.clusters.map describeCluster)

end View

end Rollcall
