import Rollcall.Config
import Rollcall.View

/-!
# What a member knows

A member knows its own announce, once it is accepted, and its own properties, and of the others what
it saw last. Announces and properties of the others are replaced together, so no view pairs new
announces with old properties.
-/

namespace Rollcall

/-- The payload by which an instance announces itself. -/
def Profile.payload (i : Profile) (clusterId : String) (propertiesIndex : Int) : Payload where
  instanceId := i.id
  serverInfo := i.serverInfo
  clusterId
  propertiesIndex

/-- What a member knows of itself and of the others. -/
structure Known where
  /-- The member's own instance id. -/
  localId : String
  /-- The member's own announce, once accepted. -/
  accepted : Option Announce := none
  /-- The announces of the others. -/
  remote : Listing := {}
  /-- The member's own properties. -/
  properties : Properties := ∅
  /-- The index of the last write of the own properties; 0 before the first. -/
  propertiesIndex : Int := 0
  /-- The properties of the others, by instance. -/
  remoteProperties : Dict String Properties := ∅

namespace Known

/-- Replace the accepted announce. -/
def setAccepted (s : Known) (a : Option Announce) : Known := { s with accepted := a }

/-- Whether the accepted announce has a key. -/
def holds (s : Known) (key : String) : Bool := s.accepted.any fun a => a.key = key

/-- Replace the accepted announce if it still has this key. -/
def replaceIfHeld (s : Known) (key : String) (a : Announce) : Known :=
  if s.holds key then s.setAccepted (some a) else s

/-- The announces of all: the others' and the accepted one. -/
def all (s : Known) : Listing := s.remote.withAnnounce s.accepted

/-- The properties of all: the others', and the own ones under the own id. -/
def allProperties (s : Known) : Dict String Properties :=
  s.remoteProperties.insert s.localId s.properties

/-- Replace what is known of the others. -/
def publish (s : Known) (remote : Listing) (properties : Dict String Properties) : Known :=
  { s with remote, remoteProperties := properties }

/-- The view of all announces and properties at one moment. -/
def view (s : Known) (current : Bool) : Except ViewError View :=
  View.build s.all s.allProperties s.localId current

end Known

end Rollcall
