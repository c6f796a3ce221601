import Rollcall.View

/-!
# The board

The board holds the latest view and tells the listeners bound to it what changes. A listener first
hears `init` with a current view. After that it hears `changing` when the current view is about to
go, and then `changed` or `propertiesChanged` when the next current view is there. What a listener
makes of a notice, even if it fails, does not matter to the board.
-/

namespace Rollcall

/-- What a notice says. -/
inductive NoticeKind
  /-- The first current view that the listener gets. -/
  | init
  /-- The current view is about to be replaced. -/
  | changing
  /-- Members, leaders or clusters changed. -/
  | changed
  /-- Only properties changed. -/
  | propertiesChanged
  deriving DecidableEq, Repr

/-- The name of a kind of notice, as listeners know it. -/
def NoticeKind.name : NoticeKind → String
  | .init => "INIT"
  | .changing => "CHANGING"
  | .changed => "CHANGED"
  | .propertiesChanged => "PROPERTIES_CHANGED"

/-- The kind of notice in words. -/
def NoticeKind.title : NoticeKind → String
  | .init => "Init"
  | .changing => "Changing"
  | .changed => "Changed"
  | .propertiesChanged => "PropertiesChanged"

/-- A change and the views it is about. -/
structure Change where
  kind : NoticeKind
  oldView : Option View := none
  newView : Option View := none
  deriving DecidableEq, Repr

namespace Change

/-- What a listener that writes a log cannot work with: a change to a view that is not given. -/
def unloggable (c : Change) : Option String :=
  if c.kind ≠ .changing ∧ c.newView.isNone then
    some (c.kind.title ++ " event without a view")
  else none

end Change

/-- A listener bound to the board. -/
structure Binding where
  id : Nat
  /-- Whether it has heard `init`. -/
  initialized : Bool
  deriving DecidableEq, Repr

/-- A change told to one listener. -/
structure Notice where
  binding : Nat
  change : Change
  deriving DecidableEq, Repr

/-- The latest view and the listeners. -/
structure Board where
  view : View
  bindings : List Binding := []
  /-- The id for the next listener. -/
  nextId : Nat := 0
  deriving DecidableEq, Repr

namespace Board

/-- Bind a listener; it hears `init` at once if the view is current. -/
def bind (b : Board) : Board × List Notice :=
  let initialized := b.view.current
  ({ b with
      bindings := b.bindings ++ [{ id := b.nextId, initialized }]
      nextId := b.nextId + 1 },
    if initialized then [⟨b.nextId, { kind := .init, newView := some b.view }⟩] else [])

/-- Unbind a listener. -/
def unbind (b : Board) (id : Nat) : Board :=
  { b with bindings := b.bindings.filter fun x => x.id ≠ id }

/-- Whether a listener is bound. -/
def isBound (b : Board) (id : Nat) : Bool := b.bindings.any fun x => x.id = id

/-- Whether a view says anything that the held one does not. -/
def isNews (b : Board) (new : View) : Bool :=
  b.view.membersDiffer new || b.view.propertiesDiffer new || b.view.clusterIdsDiffer new ||
    b.view.current ≠ new.current

/-- What the listeners that have heard `init` are told when a view replaces the held one. -/
def changes (held new : View) : List Change :=
  (if held.current then [{ kind := .changing, oldView := some held.old }] else []) ++
  (if new.current then
    let kind :=
      if held.membersDiffer new || held.clusterIdsDiffer new || !held.current then
        NoticeKind.changed
      else .propertiesChanged
    [{ kind, oldView := some held.old, newView := some new }]
  else [])

/-- Replace the held view and tell the listeners, unless the new view says nothing new. -/
def post (b : Board) (new : View) : Option (Board × List Notice) :=
  if b.isNews new then
    let told := b.bindings.filter Binding.initialized
    let waiting := b.bindings.filter fun x => !x.initialized
    let notices :=
      told.flatMap (fun x => (changes b.view new).map (Notice.mk x.id)) ++
      if new.current then
        waiting.map fun x => ⟨x.id, { kind := .init, newView := some new }⟩
      else []
    some ({ b with
        view := new
        bindings := b.bindings.map fun x =>
          { x with initialized := x.initialized || new.current } },
      notices)
  else none

/-- The held view is no longer current. -/
def outdate (b : Board) : Board := { b with view := b.view.old }

end Board

end Rollcall
