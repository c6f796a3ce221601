import Rollcall.Announce

/-!
# Listings

A listing holds the announces that count, oldest first: of several announces of one instance only
the oldest. It does not depend on the order in which announces were found, which is what lets all
members elect the same leaders.
-/

namespace Rollcall

/-- The announces that count, in the order of announces. -/
structure Listing where
  entries : List Announce := []
  deriving DecidableEq, Repr

namespace Listing

/-- The first announce of each instance. -/
def firstOfEach : List Announce → List Announce
  | [] => []
  | a :: rest => a :: (firstOfEach rest).filter fun b => b.instanceId ≠ a.instanceId

/-- Announces in order with one more, which goes in front of those in the same place. -/
def insert (a : Announce) : List Announce → List Announce
  | [] => [a]
  | b :: rest => if (Announce.order a b).isLE then a :: b :: rest else b :: insert a rest

/-- Announces in order; those in the same place stay as they were found. -/
def sort : List Announce → List Announce
  | [] => []
  | a :: rest => insert a (sort rest)

/-- The listing of any announces. -/
def ofList (l : List Announce) : Listing := ⟨firstOfEach (sort l)⟩

/-- The announces in the leaves of the store that have a value, in their order there. -/
def readNodes (nodes : List Store.Node) : Except PayloadError (List Announce) :=
  (nodes.filter fun n => !n.dir && n.value.isSome).mapM Announce.ofNode

/-- The listing of the store's nodes, without the expired announces if so asked. -/
def ofNodes (nodes : List Store.Node) (discardExpired : Bool) : Except PayloadError Listing := do
  let found ← readNodes nodes
  pure (ofList (found.filter fun a => !(discardExpired && a.expired)))

/-- The announce of an instance. -/
def get? (l : Listing) (instanceId : String) : Option Announce :=
  l.entries.find? fun a => a.instanceId = instanceId

/-- Whether an instance is listed. -/
def contains (l : Listing) (instanceId : String) : Bool := (l.get? instanceId).isSome

/-- The listing without an instance. -/
def without (l : Listing) (instanceId : String) : Listing :=
  ⟨l.entries.filter fun a => a.instanceId ≠ instanceId⟩

/-- The instances listed, in order. -/
def instanceIds (l : Listing) : List String := l.entries.map Announce.instanceId

/-- The listing with one announce more. -/
def withAnnounce (l : Listing) (a : Option Announce) : Listing := ofList (l.entries ++ a.toList)

/-- What two listings are compared by. -/
def content (l : Listing) : List (String × (String × String × Int)) :=
  l.entries.map Announce.content

/-- Whether two listings have the same announces, by key and content. -/
def agrees (l m : Listing) : Bool := l.content = m.content

/-- Whether two listings have the same members in the same places. -/
def agreesOnMembers (l m : Listing) : Bool :=
  l.entries.map Announce.membership = m.entries.map Announce.membership

/-- What changed between two listings, by instance. -/
structure Diff where
  /-- Instances that were not listed before. -/
  added : List String
  /-- Instances listed before with another index of their properties. -/
  modified : List String
  /-- Instances listed before with the same index. -/
  unchanged : List String
  deriving DecidableEq, Repr

/-- Whether an announce has the same index of the properties as its instance had before. -/
def indexKept (previous : Listing) (a : Announce) : Option Bool :=
  (previous.get? a.instanceId).map fun b => b.data.propertiesIndex == a.data.propertiesIndex

/-- The instances of a listing by what changed since a previous one. -/
def diff (previous current : Listing) : Diff :=
  let those (change : Option Bool) :=
    (current.entries.filter fun a => indexKept previous a = change).map Announce.instanceId
  { added := those none, modified := those (some false), unchanged := those (some true) }

/-- The instances whose properties have to be fetched. -/
def Diff.stale (d : Diff) : List String := d.added ++ d.modified

end Listing

end Rollcall
