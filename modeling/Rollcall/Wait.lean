import Rollcall.Duration
import Rollcall.Lifecycle
import Rollcall.Store.Request

/-!
# What a task waits for

A task runs until it has to wait for something, or is over with a result. A step of a member waits
in two ways: for the store's answer to something it asked, or for the end of a rest, after which it
is over with an event.
-/

namespace Rollcall

/-- How a task goes on: it waits for something, or is over with a result. -/
inductive Turn (κ α : Type)
  | wait (k : κ)
  | over (result : α)
  deriving DecidableEq, Repr

/-- What a step has asked the store. -/
inductive Asked
  /-- The cluster id. -/
  | resolving
  /-- To take an id as the cluster id. -/
  | claiming (candidate : String)
  /-- The cluster id, after a claim was refused. -/
  | rereading (refusal : Store.Refusal)
  /-- The announces there are, before announcing in a cluster. -/
  | listing (clusterId : String)
  /-- To create an announce. -/
  | creating (data : Payload)
  /-- The announces there are, after one was created under a key. -/
  | confirming (key : String)
  deriving DecidableEq, Repr

/-- What a step waits for. -/
inductive Wait
  | answer (asked : Asked)
  /-- The end of a rest; if it is not cut short, the step is over with the event. -/
  | rest (length : Duration) (after : Option Event)
  deriving DecidableEq, Repr

end Rollcall
