import Rollcall.Config
import Rollcall.Registry
import Rollcall.View

/-!
# Where the cluster id comes from

A member gets its cluster id from its configuration, or from the store, where the first member to
claim it decides. A valid id consists of ASCII letters, digits, underscores and hyphens.
-/

namespace Rollcall

/-- What can go wrong in a step of a member. -/
inductive MemberError
  | store (f : Store.Failure)
  | view (e : ViewError)
  /-- The source of the cluster id says why it has none. -/
  | naming (text : String)
  /-- The id in the store is not a valid one. -/
  | storedIdInvalid (id : String)
  | clusterUndefined
  | announceMissing
  deriving DecidableEq, Repr

/-- The text of a member's error. -/
def MemberError.message : MemberError → String
  | .store f => f.message
  | .view e => e.message
  | .naming text => "cluster identity: " ++ text
  | .storedIdInvalid id => "cluster identity: stored cluster id \"" ++ id ++ "\" is invalid"
  | .clusterUndefined => "cluster id is not resolved"
  | .announceMissing => "local announce is not known"

namespace Naming

/-- The characters of a cluster id. -/
def isIdChar (c : Char) : Bool := c.isAlphanum || c = '_' || c = '-'

/-- Whether a text is a cluster id. -/
def isValid (id : String) : Bool := !id.toList.isEmpty && id.toList.all isIdChar

/-- The id that an instance claims: its own, with a hyphen for every character that must not stand
in one. -/
def candidateFor (instanceId : String) : String :=
  match instanceId.toList.map fun c => if isIdChar c then c else '-' with
  | [] => "cluster"
  | cs => String.ofList cs

end Naming

/-- An outcome of asking for a cluster id. -/
abbrev IdResult := Except MemberError (Option String)

/-- A source of the cluster id. -/
inductive Naming
  /-- The configured id, and the one to use when none is configured. -/
  | configured (id : Option String) (default : String)
  /-- The id in the store, and the one to claim when there is none. -/
  | stored (candidate : String)
  /-- Outcomes fixed in advance, used one after another; the last one repeats. -/
  | scripted (gets sets : List IdResult) (supported : Bool)

namespace Naming

/-- The source of a configured id; one that is not valid is replaced by the default. -/
def ofConfigured (id : Option String) (default : String) : Naming :=
  .configured (id.map fun id => if isValid id then id else default) default

/-- The source that a configuration names, for an instance. -/
def ofConfig (c : Config.ClusterSection) (instanceId : String) : Naming :=
  match c.source with
  | .config => ofConfigured c.id c.defaultId
  | .store => .stored ((c.id.filter isValid).getD (candidateFor instanceId))

/-- Whether the source can be used at all. -/
def supported : Naming → Bool
  | .scripted _ _ s => s
  | _ => true

/-- The first of some outcomes, and those left after it. -/
def play : List IdResult → IdResult × List IdResult
  | [] => (.ok none, [])
  | [r] => (r, [r])
  | r :: rest => (r, rest)

/-- A lookup that needs no request: its outcome and the source after it. -/
def get? : Naming → Option (IdResult × Naming)
  | .configured id default => some (.ok id, .configured id default)
  | .stored _ => none
  | .scripted gets sets s =>
    let (r, gets) := play gets
    some (r, .scripted gets sets s)

/-- How a source defines the cluster id. -/
inductive Definition
  /-- With an outcome at once; the source after it. -/
  | settled (r : IdResult) (rest : Naming)
  /-- By claiming an id in the store. -/
  | claim (candidate : String)

/-- The way in which a source defines the cluster id. -/
def define : Naming → Definition
  | .configured id default => .settled (.ok (some (id.getD default))) (.configured id default)
  | .stored candidate => .claim candidate
  | .scripted gets sets s =>
    let (r, sets) := play sets
    .settled r (.scripted gets sets s)

/-- What a lookup in the store says: an id there has to be valid. -/
def readStored : Except Store.Failure (Option String) → IdResult
  | .error f => .error (.store f)
  | .ok none => .ok none
  | .ok (some id) => if isValid id then .ok (some id) else .error (.storedIdInvalid id)

/-- What a claim in the store says. -/
def readClaimed : Except Store.Failure String → IdResult
  | .error f => .error (.store f)
  | .ok id => .ok (some id)

end Naming

end Rollcall
