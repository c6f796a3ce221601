import Rollcall.Properties

/-!
# Contributors of properties

What an instance tells of itself comes from the contributors bound to it. Their properties are
merged by rising priority, and in the order of binding where priorities are equal; of two values for
one name the one merged last counts. A contributor that breaks down adds nothing.
-/

namespace Rollcall

/-- A contributor that is bound. -/
structure Contributor where
  id : Nat
  /-- The priority; none if asking for it breaks down. -/
  priority : Option Int
  /-- The properties; none if asking for them breaks down. -/
  properties : Option Properties
  deriving DecidableEq, Repr

/-- The contributors that are bound, in the order of binding. -/
structure Contributors where
  bound : List Contributor := []
  /-- The id given last. -/
  lastId : Nat := 0
  deriving DecidableEq, Repr

namespace Contributors

/-- Bind a contributor under the next id. -/
def bind (p : Contributors) (priority : Option Int) (properties : Option Properties) :
    Contributors where
  bound := p.bound ++ [{ id := p.lastId + 1, priority, properties }]
  lastId := p.lastId + 1

/-- Unbind a contributor. -/
def unbind (p : Contributors) (id : Nat) : Contributors :=
  { p with bound := p.bound.filter fun x => x.id ≠ id }

/-- Whether a contributor is bound. -/
def isBound (p : Contributors) (id : Nat) : Bool := p.bound.any fun x => x.id = id

/-- The contributors that tell their priority, by rising priority. -/
def ranked (p : Contributors) : List (Int × Contributor) :=
  (p.bound.filterMap fun x => x.priority.map fun n => (n, x)).mergeSort fun a b => a.1 ≤ b.1

/-- The properties of all contributors. -/
def collect (p : Contributors) : Properties :=
  (p.ranked.filterMap fun x => x.2.properties).foldl Dict.overwrite ∅

end Contributors

end Rollcall
