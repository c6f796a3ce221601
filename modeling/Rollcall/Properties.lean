import Rollcall.Dict
import Rollcall.Json.Record

/-!
# Properties of an instance

Named strings that one instance publishes, and the document that holds them: a JSON object of
strings, in the order of the names.
-/

namespace Rollcall

/-- Named string properties. -/
abbrev Properties := Dict String String

namespace Properties

/-- The document of a property map. -/
def toJson (p : Properties) : Json.Value := Json.object (p.toList.map fun e => (e.1, .string e.2))

/-- The property map of a document; of two values under one name the later one counts. -/
def ofJson : Json.Value → Option Properties
  | .object fields => do
    let entries ← fields.mapM fun f => do pure (← f.1, ← f.2.asString)
    some (Dict.ofList entries)
  | _ => none

/-- The text of the document. -/
def encode (p : Properties) : String := p.toJson.render

/-- The property map a text holds. -/
def decode (text : String) : Option Properties := (Json.parse text.toList).bind ofJson

end Properties

end Rollcall
