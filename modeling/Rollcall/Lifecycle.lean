/-!
# The lifecycle of a member

A member finds out its cluster, creates the cluster id if there is none, announces itself, and runs.
If another announce of its id is in the way it waits until that one has expired. The table lists the
transitions; an event that is not listed for a state leaves it alone, and `stopped` ends everything.
-/

namespace Rollcall

/-- What a member is doing. -/
inductive State
  | getCluster
  | createCluster
  | announce
  | clearAnnounce
  | running
  | stop
  deriving DecidableEq, Repr

namespace State

/-- Every state. -/
def all : List State := [getCluster, createCluster, announce, clearAnnounce, running, stop]

/-- Whether a runner works on the state, step by step. -/
def active : State → Bool
  | running | stop => false
  | _ => true

/-- The name of a state. -/
def name : State → String
  | getCluster => "GET_CLUSTER"
  | createCluster => "CREATE_CLUSTER"
  | announce => "ANNOUNCE"
  | clearAnnounce => "CLEAR_ANNOUNCE"
  | running => "RUNNING"
  | stop => "STOP"

/-- The state with a name. -/
def ofName? (s : String) : Option State := all.find? fun x => x.name = s

end State

/-- What happens to a member. -/
inductive Event
  | clusterDefined
  | clusterUndefined
  | clusterCreated
  | announced
  | announceDuplicated
  /-- The store refused to renew the announce, which is still there. -/
  | refreshFailedWithKey
  /-- The announce to renew is gone. -/
  | refreshFailedWithNoKey
  | announceCleared
  /-- The member does not find its own announce. -/
  | localInstanceNotFound
  | reset
  | stopped
  deriving DecidableEq, Repr

namespace Event

/-- Every event. -/
def all : List Event :=
  [clusterDefined, clusterUndefined, clusterCreated, announced, announceDuplicated,
    refreshFailedWithKey, refreshFailedWithNoKey, announceCleared, localInstanceNotFound, reset,
    stopped]

/-- The name of an event. -/
def name : Event → String
  | clusterDefined => "CLUSTER_DEFINED"
  | clusterUndefined => "CLUSTER_UNDEFINED"
  | clusterCreated => "CLUSTER_CREATED"
  | announced => "ANNOUNCED"
  | announceDuplicated => "ANNOUNCE_DUPLICATED"
  | refreshFailedWithKey => "ANNOUNCE_REFRESH_FAILED_WITH_KEY"
  | refreshFailedWithNoKey => "ANNOUNCE_REFRESH_FAILED_WITH_NO_KEY"
  | announceCleared => "ANNOUNCE_CLEARED"
  | localInstanceNotFound => "ANNOUNCE_LOCAL_INSTANCE_NOT_FOUND"
  | reset => "RESET"
  | stopped => "STOPPED"

/-- The event with a name. -/
def ofName? (s : String) : Option Event := all.find? fun x => x.name = s

end Event

namespace State

/-- The transitions of the table. -/
def listed : State → Event → Option State
  | getCluster, .clusterDefined => some announce
  | getCluster, .clusterUndefined => some createCluster
  | createCluster, .clusterCreated => some announce
  | announce, .announced => some running
  | announce, .announceDuplicated => some clearAnnounce
  | announce, .localInstanceNotFound => some announce
  | clearAnnounce, .announceCleared => some announce
  | clearAnnounce, .localInstanceNotFound => some announce
  | running, .refreshFailedWithKey => some clearAnnounce
  | running, .refreshFailedWithNoKey => some announce
  | running, .localInstanceNotFound => some announce
  | stop, .reset => none
  | _, .reset => some getCluster
  | _, _ => none

/-- The state after an event. -/
def next (s : State) (e : Event) : State :=
  if e = .stopped then stop else (s.listed e).getD s

/-- Nothing leads out of `stop`. -/
theorem next_stop (e : Event) : next stop e = stop := by cases e <;> rfl

end State

end Rollcall
