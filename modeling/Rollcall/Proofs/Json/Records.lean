import Rollcall.Json.Record
import Rollcall.Proofs.Json.Nesting

/-!
# Records read back

A record writes the fields that are there, each under a name of its own, and is read back field by
field.
-/

namespace Rollcall.Json

/-- The fields of a record that are there. -/
def given (fields : List (String × Option Value)) : List (String × Value) :=
  fields.filterMap fun f => f.2.map (Prod.mk f.1)

theorem given_cons (f : String × Option Value) (fields : List (String × Option Value)) :
    given (f :: fields) = (f.2.map (Prod.mk f.1)).toList ++ given fields := by
  rw [given, List.filterMap_cons]
  cases f.2 <;> rfl

private theorem filter_given_of_not_mem {fields : List (String × Option Value)} {name : String}
    (h : name ∉ fields.map Prod.fst) : (given fields).filter (fun g => g.1 == name) = [] := by
  rw [List.filter_eq_nil_iff]
  intro g hg hn
  obtain ⟨f, hf, hv⟩ := List.mem_filterMap.mp hg
  obtain ⟨v, -, rfl⟩ := Option.map_eq_some_iff.mp hv
  exact h (List.mem_map.mpr ⟨f, hf, beq_iff_eq.mp hn⟩)

private theorem filter_given {fields : List (String × Option Value)}
    (h : (fields.map Prod.fst).Nodup) {f : String × Option Value} (hf : f ∈ fields) :
    (given fields).filter (fun g => g.1 == f.1) = (f.2.map (Prod.mk f.1)).toList := by
  induction fields with
  | nil => cases hf
  | cons g fields ih =>
    rw [List.map_cons, List.nodup_cons] at h
    rw [given_cons, List.filter_append]
    rcases List.mem_cons.mp hf with rfl | hf
    · rw [filter_given_of_not_mem h.1, List.append_nil]
      cases f.2 <;> simp
    · have hne : g.1 ≠ f.1 := fun he => h.1 (he ▸ List.mem_map_of_mem hf)
      rw [ih h.2 hf]
      cases g.2 <;> simp [hne]

private theorem fieldOnce_object {fields : List (String × Option Value)}
    (h : (fields.map Prod.fst).Nodup) {f : String × Option Value} (hf : f ∈ fields) :
    fieldOnce f.1 ((given fields).map fun g => (some g.1, g.2)) = some f.2 := by
  have hs : ((given fields).map fun g => (some g.1, g.2)).filter (fun g => g.1 == some f.1) =
      (f.2.map fun v => (some f.1, v)).toList := by
    have hc : ((fun g : Option String × Value => g.1 == some f.1) ∘
        fun g : String × Value => (some g.1, g.2)) = fun g => g.1 == f.1 := by
      funext g
      simp
    rw [List.filter_map, hc, filter_given h hf]
    cases f.2 <;> rfl
  rw [fieldOnce, hs]
  cases f.2 <;> rfl

/-- A record with names of its own is read back field by field. -/
theorem recordFields_object {fields : List (String × Option Value)}
    (h : (fields.map Prod.fst).Nodup) :
    recordFields (fields.map Prod.fst) (object (given fields)) =
      some (fields.map Prod.snd) := by
  have hall : ((given fields).map fun g => (some g.1, g.2)).all (fun g => g.1.isSome) = true := by
    simp
  have hread : ∀ l : List (String × Option Value), (∀ f ∈ l, f ∈ fields) →
      (l.map Prod.fst).mapM
          (fun name => fieldOnce name ((given fields).map fun g => (some g.1, g.2))) =
        some (l.map Prod.snd) := by
    intro l hl
    induction l with
    | nil => rfl
    | cons f l ih =>
      rw [List.map_cons, List.mapM_cons, fieldOnce_object h (hl f List.mem_cons_self),
        ih fun f hf => hl f (List.mem_cons_of_mem _ hf)]
      rfl
  rw [object, recordFields, if_pos hall]
  exact hread fields fun _ hf => hf

/-- A record is written in full if all that is there is. -/
theorem plain_object {fields : List (String × Option Value)}
    (h : ∀ f ∈ fields, ∀ v, f.2 = some v → Plain v) : Plain (object (given fields)) := by
  refine .object _ (fun p hp => ?_) (fun p hp => ?_)
  · obtain ⟨g, -, rfl⟩ := List.mem_map.mp hp
    rfl
  · obtain ⟨g, hg, rfl⟩ := List.mem_map.mp hp
    obtain ⟨f, hf, hv⟩ := List.mem_filterMap.mp hg
    obtain ⟨v, hv', rfl⟩ := Option.map_eq_some_iff.mp hv
    exact h f hf v hv'

/-- The brackets of a record are those of the fields that are there, and its own. -/
theorem brackets_object (fields : List (String × Option Value)) :
    (object (given fields)).brackets =
      (fields.map fun f => (f.2.map Value.brackets).getD 0).foldr max 0 + 1 := by
  have hb : bracketsOfFields ((given fields).map fun g => (some g.1, g.2)) =
      (fields.map fun f => (f.2.map Value.brackets).getD 0).foldr max 0 := by
    induction fields with
    | nil => rfl
    | cons f fields ih =>
      rw [given_cons, List.map_append, bracketsOfFields_append, ih, List.map_cons, List.foldr_cons]
      cases f.2 with
      | none => rfl
      | some v => exact congrArg (max · _) (Nat.max_zero v.brackets)
  rw [object, Value.brackets, hb]

/-- A field that may be missing is read back. -/
theorem optional_map {α : Type} {read : Value → Option α} {write : α → Value} {x : Option α}
    (hn : ∀ a, write a ≠ .null) (h : ∀ a, x = some a → read (write a) = some a) :
    optional read (x.map write) = some x := by
  cases x with
  | none => rfl
  | some a =>
    have hr : (write a).nullable read = (read (write a)).map some := by
      unfold Value.nullable
      split
      · next hw => exact absurd hw (hn a)
      · rfl
    rw [Option.map_some, optional, hr, h a rfl]
    rfl

end Rollcall.Json
