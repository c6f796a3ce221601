import Rollcall.Member

/-!
# Rounds of renewal

While the member runs, each round writes its properties if they changed since the last time, and
renews its announce so that it outlives the pause until the next round. A round that fails raises an
event, which counts only while the member runs. The result of a round is the pause after it.
-/

namespace Rollcall.Renewal

open Store (Request Answer)

/-- What a round has asked the store. -/
inductive Stage
  /-- To write the properties. -/
  | sending (p : Properties)
  /-- To renew the announce under a key. -/
  | renewing (key : String) (data : Payload) (ttl : Nat)
  deriving DecidableEq, Repr

/-- The name of the loop that does these rounds. -/
def name : String := "announcer"

/-- The pause after a round. -/
def pause (m : Member) : Turn Stage Duration := .over m.renewal.current

/-- The event of a round that failed. -/
def failureEvent : MemberError → Event
  | .store (.refused r) =>
    if r.isKeyNotFound then .refreshFailedWithNoKey else .refreshFailedWithKey
  | .announceMissing => .localInstanceNotFound
  | _ => .reset

/-- The end of a round that failed. -/
def fail (m : Member) (e : MemberError) : Member × Turn Stage Duration :=
  let m := { m with renewal := m.renewal.reset }.nextIf .running (failureEvent e)
  (m, pause m)

/-- The second part of a round. -/
def renew (m : Member) : Member × Turn Stage Duration :=
  match m.known.accepted with
  | none => fail m .announceMissing
  | some a => (m, .wait (.renewing a.key (m.payload a.clusterId) m.renewal.next.timeToLive))

/-- The first part of a round. -/
def begin (m : Member) : Member × Turn Stage Duration :=
  if !m.isRunning then
    let m := { m with renewal := m.renewal.reset, sent := none }
    (m, pause m)
  else if m.sent = some m.known.properties then renew m
  else (m, .wait (.sending m.known.properties))

/-- The request by which the store is asked. -/
def request (m : Member) : Stage → Request
  | .sending p => (Registry.publish m.layout m.self.id p).request
  | .renewing key data ttl => (Registry.renew key data ttl).request

/-- The part of a round that follows an answer. -/
def answered (m : Member) (stage : Stage) (a : Answer) : Member × Turn Stage Duration :=
  match stage with
  | .sending p =>
    let (m, r) := m.accept (Registry.publish m.layout m.self.id p) a
    match r with
    | .ok index =>
      renew { m with known := { m.known with propertiesIndex := index }, sent := some p }
    | .error f => fail m (.store f)
  | .renewing key data ttl =>
    let (m, r) := m.accept (Registry.renew key data ttl) a
    match r with
    | .ok renewed =>
      let m := {
        m with
        known := m.known.replaceIfHeld key renewed
        renewal := m.renewal.increment }
      (m, pause m)
    | .error f => fail m (.store f)

end Rollcall.Renewal
