import Rollcall.Board
import Rollcall.Contributors
import Rollcall.Control
import Rollcall.Known
import Rollcall.Naming
import Rollcall.Wait

/-!
# Members

A member is one instance that takes part: its state and the runners that serve it, what it knows,
where its cluster id comes from, its contributors, its board, and how far its loops have backed off.
Whatever a member does is a function from the member before to the member after.
-/

namespace Rollcall

open Store (Answer Failure)

/-- One instance that takes part. -/
structure Member where
  self : Profile
  layout : Registry.Layout
  naming : Naming
  /-- Seconds to live of a new announce. -/
  maxTtl : Nat
  /-- The pauses after refusals of a store that cannot agree within itself. -/
  refusalBackOff : BackOff
  /-- The pauses after answers that did not come. -/
  transportBackOff : BackOff
  /-- Whether announces that should have expired count as present. -/
  keepExpired : Bool := false
  tally : Registry.Tally := {}
  control : Control Wait := {}
  known : Known
  /-- Seconds to live of the announce that is in the way. -/
  blockingTtl : Nat
  contributors : Contributors := {}
  board : Board
  /-- The pauses between renewals of the announce. -/
  renewal : BackOff
  /-- The own properties as last written to the store. -/
  sent : Option Properties := none
  /-- The pauses between looks at the others. -/
  survey : BackOff
  /-- The pauses between displays of the view. -/
  display : BackOff
  /-- Whether the member was told to stop. -/
  stopping : Bool := false

namespace Member

/-- A member that has not begun. -/
def make (self : Profile) (root : String) (naming : Naming) (maxTtl : Nat)
    (b : Config.BackOffSection) : Member where
  self
  layout := .ofRoot root
  naming
  maxTtl
  refusalBackOff := b.refusalBackOff
  transportBackOff := b.transportBackOff
  known := { localId := self.id }
  blockingTtl := maxTtl
  board := { view := View.undefined self.id }
  renewal := b.announcerBackOff
  survey := b.remoteUpdaterBackOff
  display := b.localUpdaterBackOff

/-- The member of a configuration; a source of the cluster id given apart from it counts if it can
be used at all. -/
def ofConfig (c : Config) (naming : Option Naming) : Member :=
  let naming := match naming with
    | none => Naming.ofConfig c.cluster c.self.id
    | some i => if i.supported then i else Naming.ofConfigured c.cluster.id c.cluster.defaultId
  let maxTtl := c.backOff.announcerBackOff.longest.timeToLive
  let m := make c.self c.store.root naming maxTtl c.backOff
  if c.properties.isEmpty then m
  else { m with contributors := m.contributors.bind (some 0) (some c.properties) }

/-- Whether the member is running. -/
def isRunning (m : Member) : Bool := m.control.state = .running

/-- The result of an operation by the answer to its request, and the member after it. -/
def accept {α : Type} (m : Member) (op : Registry.Operation α) (a : Answer) :
    Member × Except Failure α :=
  let (tally, result) := op.accept m.tally a
  ({ m with tally }, result)

/-- The member after an event. -/
def next (m : Member) (e : Event) : Member := { m with control := m.control.handle e }

/-- The member after an event that counts in one state only. -/
def nextIf (m : Member) (expected : State) (e : Event) : Member :=
  { m with control := m.control.handleIf expected e }

/-- Put down the cluster id. -/
def setClusterId (m : Member) (id : Option String) : Member :=
  { m with control := { m.control with clusterId := id } }

/-- Replace the accepted announce. -/
def setAccepted (m : Member) (a : Option Announce) : Member :=
  { m with known := m.known.setAccepted a }

/-- How long an announce in the way is waited for: its time to live and a little more, in
milliseconds, as far as a word goes. -/
def blockingWait (m : Member) : Duration :=
  Duration.ofMillis (min (m.blockingTtl * 1150) (Text.Decimal.word64 - 1))

/-- The payload by which the member announces itself in a cluster. -/
def payload (m : Member) (clusterId : String) : Payload :=
  m.self.payload clusterId m.known.propertiesIndex

/-- The view of the member alone. -/
def isolated (m : Member) : View :=
  View.isolated (m.payload (m.control.clusterId.getD View.undefinedCluster))
    m.known.properties

/-- Present a view on the board. -/
def present (m : Member) (v : View) : Member × List Notice :=
  match m.board.post v with
  | some (board, notices) => ({ m with board }, notices)
  | none => (m, [])

end Member

end Rollcall
