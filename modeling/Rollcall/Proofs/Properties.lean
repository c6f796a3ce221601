import Rollcall.Proofs.Dict
import Rollcall.Proofs.Json.RoundTrip
import Rollcall.Properties

/-!
# What a property document says

The properties of an instance are read back from the document in which they were written.
-/

namespace Rollcall.Properties

open Json

private theorem plain_toJson (p : Properties) : Plain p.toJson := by
  have hf : ∀ f ∈ (p.toList.map fun e => (e.1, Value.string e.2)).map fun f => (some f.1, f.2),
      ∃ e : String × String, f = (some e.1, Value.string e.2) := by
    intro f hf
    simp only [List.map_map, List.mem_map] at hf
    obtain ⟨e, -, rfl⟩ := hf
    exact ⟨e, rfl⟩
  refine .object _ (fun f h => ?_) (fun f h => ?_)
  · obtain ⟨e, rfl⟩ := hf f h
    rfl
  · obtain ⟨e, rfl⟩ := hf f h
    exact .string e.2

private theorem mapM_fields (l : List (String × String)) :
    ((l.map fun e => (some e.1, Value.string e.2)).mapM fun f => do
      pure (← f.1, ← f.2.asString)) = some l := by
  induction l with
  | nil => rfl
  | cons e l ih =>
    rw [List.map_cons, List.mapM_cons, ih]
    rfl

private theorem ofJson_toJson (p : Properties) : ofJson p.toJson = some p := by
  have hf : (p.toList.map fun e => (e.1, Value.string e.2)).map (fun f => (some f.1, f.2)) =
      p.toList.map fun e => (some e.1, Value.string e.2) := by
    rw [List.map_map]
    rfl
  rw [toJson, object, hf, ofJson, mapM_fields]
  exact congrArg some p.ofList_toList

/-- Properties are read back from their text. -/
theorem decode_encode (p : Properties) : decode p.encode = some p := by
  rw [decode, encode, parse_render (plain_toJson p), Option.bind_some, ofJson_toJson]

end Rollcall.Properties
