import Rollcall.Proofs.Json.RoundTrip
import Rollcall.Announce

/-!
# What an announce says

A payload is read back from the document in which it was written, so an announce found in the store
says what its writer meant.
-/

namespace Rollcall

open Json

namespace Payload

private theorem plain_toJson (d : Payload) : Plain d.toJson := by
  refine .object _ ?_ ?_
  · simp
  · intro f hf
    simp only [List.map_cons, List.map_nil, List.mem_cons, List.not_mem_nil, or_false] at hf
    rcases hf with rfl | rfl | rfl | rfl
    · exact .string _
    · exact .string _
    · exact .string _
    · exact .int _

private theorem ofJson_toJson (d : Payload) :
    ofJson d.toJson =
      if Text.Decimal.isSigned64 d.propertiesIndex then some d else none := by
  simp [toJson, Json.object, ofJson, recordFields, fieldOnce, required, Value.asString,
    Value.asInt64]
  split <;> simp_all

/-- A payload is read back from its text, unless its index is none of a signed word. -/
theorem decode_encode (d : Payload) :
    decode d.encode =
      if Text.Decimal.isSigned64 d.propertiesIndex then .ok d else .error .invalidAnnounce := by
  rw [decode, encode, parse_render (plain_toJson d), Option.bind_some, ofJson_toJson]
  by_cases hs : Text.Decimal.isSigned64 d.propertiesIndex = true <;> simp [hs]

end Payload

namespace Announce

/-- The announce in a node that holds the text of a payload. -/
theorem ofNode_encode {n : Store.Node} {d : Payload} (h : n.value = some d.encode) :
    ofNode n =
      if Text.Decimal.isSigned64 d.propertiesIndex then make n.key d n.ttl
      else .error .invalidAnnounce := by
  rw [ofNode, h]
  simp only [Payload.decode_encode]
  split <;> rfl

/-- The node in which a store shows an announce. -/
def node (a : Announce) : Store.Node := { key := a.key, value := some a.data.encode, ttl := a.ttl }

/-- An announce is read back from its node. -/
theorem ofNode_node {a : Announce} (h : Text.Decimal.isSigned64 a.data.propertiesIndex = true) :
    ofNode a.node = .ok a := by
  rw [ofNode_encode (d := a.data) rfl, if_pos h, node, make, dif_pos a.named]

/-- The announce made of a key has that key, what it was made with, and a name. -/
theorem make_eq_ok {key : String} {d : Payload} {ttl : Option Int} {a : Announce}
    (h : make key d ttl = .ok a) : a.key = key ∧ a.data = d ∧ a.ttl = ttl := by
  unfold make at h
  split at h
  · cases h
    exact ⟨rfl, rfl, rfl⟩
  · cases h

/-- The announce in a node that holds the text of a payload has that payload. -/
theorem of_ofNode_encode {n : Store.Node} {d : Payload} {a : Announce}
    (hv : n.value = some d.encode) (h : ofNode n = .ok a) :
    a.key = n.key ∧ a.data = d ∧ a.ttl = n.ttl := by
  rw [ofNode_encode hv] at h
  split at h
  · exact make_eq_ok h
  · cases h

/-- The announce in a node has the key of the node and what the node's value says. -/
theorem ofNode_eq_ok {n : Store.Node} {a : Announce} (h : ofNode n = .ok a) :
    ∃ text, n.value = some text ∧ Payload.decode text = .ok a.data ∧ a.key = n.key ∧
      a.ttl = n.ttl := by
  unfold ofNode at h
  split at h
  · cases h
  · next text hv =>
    cases hd : Payload.decode text with
    | error e =>
      rw [hd] at h
      cases h
    | ok d =>
      rw [hd] at h
      obtain ⟨hkey, hdata, httl⟩ := make_eq_ok h
      exact ⟨text, hv, by rw [hd, hdata], hkey, httl⟩

end Announce

end Rollcall
