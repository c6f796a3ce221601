import Rollcall.Member

/-!
# Steps

A step is what a runner does in one state: it asks the store, rests, and is over with an event or
without one. `begin` takes a step up to where it first waits, `answered` on from an answer of the
store. An error ends the step with a rest and a reset, unless the store did not understand a
request, which ends the member.
-/

namespace Rollcall.Step

open Store (Request Answer Failure)

/-- How a step goes on. -/
abbrev Progress := Turn Wait (Option Event)

/-- The rest after a cluster id could not be created. -/
def createPause : Duration := Duration.ofSeconds 1

/-- The rest after a refusal that has no back-off. -/
def refusalPause : Duration := Duration.ofSeconds 1

/-- The rest after an error that nobody expects. -/
def unexpectedPause : Duration := Duration.ofSeconds 60

/-- The rest in a state without steps. -/
def idlePause : Duration := Duration.ofSeconds 1

/-- Ask the store. -/
def ask (a : Asked) : Progress := .wait (.answer a)

/-- Rest, and be over with an event. -/
def rest (length : Duration) (after : Option Event) : Progress := .wait (.rest length after)

/-- The rest after an error; none if the error ends the member. -/
def errorPause (m : Member) : MemberError → Option Duration
  | .store (.refused r) =>
    if r.isMalformedRequest then none
    else if r.isConsensus then some (m.refusalBackOff.value m.tally.consensus)
    else some refusalPause
  | .store (.transport _) => some (m.transportBackOff.value m.tally.transport)
  | _ => some unexpectedPause

/-- What follows an error. -/
def recover (m : Member) (e : MemberError) : Progress :=
  match errorPause m e with
  | some d => rest d (some .reset)
  | none => .over (some .stopped)

/-- What follows a lookup of the cluster id. -/
def resolved (m : Member) : IdResult → Member × Progress
  | .ok (some id) => (m.setClusterId (some id), .over (some .clusterDefined))
  | .ok none => (m, .over (some .clusterUndefined))
  | .error e => (m, recover m e)

/-- What follows a definition of the cluster id. -/
def defined (m : Member) : IdResult → Member × Progress
  | .ok (some id) => (m.setClusterId (some id), .over (some .clusterCreated))
  | _ => (m, rest createPause none)

/-- What follows a failed request. -/
def failed (m : Member) (f : Failure) : Member × Progress := (m, recover m (.store f))

/-- The announces in an answer, the overdue ones included: a store in trouble may still hold the
member's own. -/
def listed (r : Except Failure (List Store.Node)) : Except Failure Listing :=
  r.bind fun nodes => Registry.ofPayload (Listing.ofNodes nodes false)

/-- The seconds to live of an announce that is in the way. -/
def ttlInTheWay (m : Member) (a : Announce) : Nat :=
  match a.ttl with
  | some t => if 0 < t then t.toNat else m.maxTtl
  | none => m.maxTtl

/-- Begin to announce in a cluster, unless an announce of the member is there already. -/
def announceIn (m : Member) (clusterId : String) (l : Listing) : Member × Progress :=
  match l.get? m.self.id with
  | some a => ({ m with blockingTtl := ttlInTheWay m a }, .over (some .announceDuplicated))
  | none => (m, ask (.creating (m.payload clusterId)))

/-- The created announce is accepted if no older one of the member is there. -/
def confirm (m : Member) (key : String) (l : Listing) : Member × Progress :=
  match l.get? m.self.id with
  | some a =>
    if a.key = key then (m.setAccepted (some a), .over (some .announced))
    else ({ m with blockingTtl := m.maxTtl }, .over (some .announceDuplicated))
  | none => (m, .over (some .localInstanceNotFound))

/-- The first part of a step. -/
def begin (m : Member) : State → Member × Progress
  | .getCluster =>
    match m.naming.get? with
    | some (r, naming) => resolved { m with naming } r
    | none => (m, ask .resolving)
  | .createCluster =>
    match m.naming.define with
    | .settled r naming => defined { m with naming } r
    | .claim candidate => (m, ask (.claiming candidate))
  | .announce =>
    let m := m.setAccepted none
    match m.control.clusterId with
    | some id => (m, ask (.listing id))
    | none => (m, recover m .clusterUndefined)
  | .clearAnnounce => (m, rest m.blockingWait (some .announceCleared))
  | .running | .stop => (m, rest idlePause none)

/-- The request by which the store is asked. -/
def request (m : Member) : Asked → Request
  | .resolving | .rereading _ => (Registry.clusterId m.layout).request
  | .claiming candidate => (Registry.claim m.layout candidate).request
  | .listing _ | .confirming _ => (Registry.announces m.layout).request
  | .creating data => (Registry.announce m.layout data m.maxTtl).request

/-- The part of a step that follows an answer. -/
def answered (m : Member) (asked : Asked) (a : Answer) : Member × Progress :=
  match asked with
  | .resolving =>
    let (m, r) := m.accept (Registry.clusterId m.layout) a
    resolved m (Naming.readStored r)
  | .claiming candidate =>
    let (m, r) := m.accept (Registry.claim m.layout candidate) a
    match r with
    | .ok (.won id) => defined m (.ok (some id))
    | .ok (.taken refusal) => (m, ask (.rereading refusal))
    | .error f => defined m (.error (.store f))
  | .rereading refusal =>
    let (m, r) := m.accept (Registry.clusterId m.layout) a
    defined m (Naming.readClaimed (Registry.resolveClaim refusal r))
  | .listing clusterId =>
    let (m, r) := m.accept (Registry.announces m.layout) a
    match listed r with
    | .ok l => announceIn m clusterId l
    | .error f => failed m f
  | .creating data =>
    let (m, r) := m.accept (Registry.announce m.layout data m.maxTtl) a
    match r with
    | .ok created => (m, ask (.confirming created.key))
    | .error f => failed m f
  | .confirming key =>
    let (m, r) := m.accept (Registry.announces m.layout) a
    match listed r with
    | .ok l => confirm m key l
    | .error f => failed m f

end Rollcall.Step
