import Rollcall.Member

/-!
# Rounds of survey

While the member runs, each round looks at the announces of the others. If they changed, the
properties of the instances that are new or have a new index are fetched, and announces and
properties are published together. The others' properties that did not change are kept as they are.
-/

namespace Rollcall.Survey

open Store (Request Answer Failure)

/-- What a round has asked the store. -/
inductive Stage
  /-- The announces there are. -/
  | listing
  /-- The properties of some of the instances now listed: of one alone, or of all at once. -/
  | fetching (remote : Listing) (ids : List String)
  deriving DecidableEq, Repr

/-- The name of the loop that does these rounds. -/
def name : String := "remote-updater"

/-- How a survey goes on; its result is whether anything changed. -/
abbrev Progress := Turn Stage (Except MemberError Bool)

/-- Publish the others now listed with the properties fetched for some of them. -/
def publish (m : Member) (remote : Listing) (ids : List String)
    (fetched : Dict String Properties) : Member :=
  let kept := m.known.remoteProperties.filter fun id _ => remote.contains id
  let properties := ids.foldl (fun d id => d.insert id ((fetched.find? id).getD ∅)) kept
  { m with known := m.known.publish remote properties }

/-- A survey that failed. -/
def failed (m : Member) (f : Failure) : Member × Progress := (m, .over (.error (.store f)))

/-- What follows the look at the announces. -/
def compare (m : Member) (nodes : List Store.Node) : Member × Progress :=
  match Listing.ofNodes nodes (!m.keepExpired) with
  | .error e => failed m (.payload e)
  | .ok l =>
    let remote := l.without m.self.id
    if remote.agrees m.known.remote then (m, .over (.ok false))
    else
      match (Listing.diff m.known.remote remote).stale with
      | [] => (publish m remote [] ∅, .over (.ok true))
      | ids => (m, .wait (.fetching remote ids))

/-- The request by which the store is asked. -/
def request (m : Member) : Stage → Request
  | .listing => (Registry.announces m.layout).request
  | .fetching _ [id] => (Registry.propertiesOf m.layout id).request
  | .fetching _ _ => (Registry.allProperties m.layout).request

/-- The properties in the answer to a fetch. -/
def fetched (m : Member) (ids : List String) (a : Answer) :
    Member × Except Failure (Dict String Properties) :=
  match ids with
  | [id] =>
    let (m, r) := m.accept (Registry.propertiesOf m.layout id) a
    (m, r.map fun p => Dict.ofList [(id, p)])
  | _ => m.accept (Registry.allProperties m.layout) a

/-- The part of a survey that follows an answer. -/
def answered (m : Member) (stage : Stage) (a : Answer) : Member × Progress :=
  match stage with
  | .listing =>
    let (m, r) := m.accept (Registry.announces m.layout) a
    match r with
    | .ok nodes => compare m nodes
    | .error f => failed m f
  | .fetching remote ids =>
    let (m, r) := fetched m ids a
    match r with
    | .ok found => (publish m remote ids found, .over (.ok true))
    | .error f => failed m f

/-- The first part of a round. -/
def begin (m : Member) : Member × Turn Stage Duration :=
  if m.isRunning then (m, .wait .listing)
  else
    let m := { m with survey := m.survey.reset }
    (m, .over m.survey.current)

/-- The end of a round, by what the survey says: the next one comes later if nothing changed. -/
def conclude (m : Member) (r : Except MemberError Bool) : Member × Duration :=
  let m := match r with
    | .ok true => { m with survey := m.survey.reset }
    | .ok false => { m with survey := m.survey.increment }
    | .error _ => { m with survey := m.survey.reset }.nextIf .running .reset
  (m, m.survey.current)

/-- The part of a round that follows an answer. -/
def roundAnswered (m : Member) (stage : Stage) (a : Answer) : Member × Turn Stage Duration :=
  match answered m stage a with
  | (m, .wait stage) => (m, .wait stage)
  | (m, .over r) =>
    let (m, d) := conclude m r
    (m, .over d)

end Rollcall.Survey
