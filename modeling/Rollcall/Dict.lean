/-!
# Finite maps in key order

A finite map is the list of its entries in strictly increasing order of the keys, so two maps with
the same entries are equal. Looking up an inserted key is `find?_insert_self` and
`find?_insert_of_ne`.
-/

namespace Rollcall

/-- A finite map, listed in strictly increasing order of its keys. -/
structure Dict (κ β : Type) [Ord κ] where
  /-- The entries in key order. -/
  toList : List (κ × β)
  /-- Every key is below the keys after it. -/
  sorted : toList.Pairwise fun a b => compare a.1 b.1 = .lt

namespace Dict

variable {κ β γ : Type} [Ord κ]

/-- Two maps are equal when they list the same entries. -/
theorem ext_toList {a b : Dict κ β} (h : a.toList = b.toList) : a = b := by
  cases a; cases b; cases h; rfl

/-- Maps are compared entry by entry. -/
instance [DecidableEq κ] [DecidableEq β] : DecidableEq (Dict κ β) := fun a b =>
  decidable_of_iff (a.toList = b.toList) ⟨ext_toList, congrArg toList⟩

/-- Maps are shown by their entries. -/
instance [Repr κ] [Repr β] : Repr (Dict κ β) := ⟨fun d n => reprPrec d.toList n⟩

/-- The map without entries. -/
def empty : Dict κ β := ⟨[], .nil⟩

instance : Inhabited (Dict κ β) := ⟨empty⟩

instance : EmptyCollection (Dict κ β) := ⟨empty⟩

/-- Whether a map has no entries. -/
def isEmpty (d : Dict κ β) : Bool := d.toList.isEmpty

/-- The keys in increasing order. -/
def keys (d : Dict κ β) : List κ := d.toList.map Prod.fst

/-- The value under a key. -/
def find? (d : Dict κ β) (k : κ) : Option β :=
  (d.toList.find? fun e => compare k e.1 == .eq).map Prod.snd

/-- Whether a key has a value. -/
def contains (d : Dict κ β) (k : κ) : Bool := (d.find? k).isSome

/-- The entries that pass a test. -/
def filter (d : Dict κ β) (p : κ → β → Bool) : Dict κ β :=
  ⟨d.toList.filter fun e => p e.1 e.2, d.sorted.filter _⟩

/-- The map without a key. -/
def erase (d : Dict κ β) (k : κ) : Dict κ β := d.filter fun k' _ => compare k k' != .eq

/-- The map with every value changed. -/
def map (d : Dict κ β) (f : β → γ) : Dict κ γ :=
  ⟨d.toList.map fun e => (e.1, f e.2), by
    rw [List.pairwise_map]; exact d.sorted⟩

/-- Insert into an ordered list of entries, replacing an entry of the same key. -/
def insertEntry (k : κ) (v : β) : List (κ × β) → List (κ × β)
  | [] => [(k, v)]
  | (k', v') :: rest =>
    match compare k k' with
    | .lt => (k, v) :: (k', v') :: rest
    | .eq => (k, v) :: rest
    | .gt => (k', v') :: insertEntry k v rest

/-- Keys after an insertion are the new one and the old ones. -/
theorem mem_insertEntry {k : κ} {v : β} {l : List (κ × β)} {e : κ × β}
    (h : e ∈ insertEntry k v l) : e = (k, v) ∨ e ∈ l := by
  induction l with
  | nil => simpa [insertEntry] using h
  | cons a l ih =>
    obtain ⟨k', v'⟩ := a
    rw [insertEntry] at h
    split at h
    · simpa using h
    · rcases List.mem_cons.mp h with h | h
      · exact .inl h
      · exact .inr (.tail _ h)
    · rcases List.mem_cons.mp h with h | h
      · exact .inr (h ▸ .head _)
      · exact (ih h).imp_right (.tail _)

variable [Std.TransOrd κ] [Std.LawfulEqOrd κ]

/-- Insertion keeps the order of the keys. -/
theorem sorted_insertEntry (k : κ) (v : β) {l : List (κ × β)}
    (h : l.Pairwise fun a b => compare a.1 b.1 = .lt) :
    (insertEntry k v l).Pairwise fun a b => compare a.1 b.1 = .lt := by
  induction l with
  | nil => simp [insertEntry]
  | cons a l ih =>
    obtain ⟨k', v'⟩ := a
    rw [List.pairwise_cons] at h
    rw [insertEntry]
    split
    · next hlt =>
      rw [List.pairwise_cons]
      refine ⟨fun b hb => ?_, List.pairwise_cons.mpr h⟩
      rcases List.mem_cons.mp hb with rfl | hb
      · exact hlt
      · exact Std.TransCmp.lt_trans hlt (h.1 b hb)
    · next heq =>
      have hk : k = k' := Std.LawfulEqOrd.eq_of_compare heq
      subst hk
      exact List.pairwise_cons.mpr h
    · next hgt =>
      rw [List.pairwise_cons]
      refine ⟨fun b hb => ?_, ih h.2⟩
      rcases mem_insertEntry hb with rfl | hb
      · exact Std.OrientedCmp.lt_of_gt hgt
      · exact h.1 b hb

/-- The map with a value put under a key, in place of one that was there. -/
def insert (d : Dict κ β) (k : κ) (v : β) : Dict κ β :=
  ⟨insertEntry k v d.toList, sorted_insertEntry k v d.sorted⟩

/-- The map of a list of entries; of two entries with one key the later one counts. -/
def ofList (l : List (κ × β)) : Dict κ β := l.foldl (fun d e => d.insert e.1 e.2) empty

/-- The map of both; where both have a key the second one counts. -/
def overwrite (d e : Dict κ β) : Dict κ β := e.toList.foldl (fun d x => d.insert x.1 x.2) d

/-- The map with one value changed, if the key is there. -/
def modify (d : Dict κ β) (k : κ) (f : β → β) : Dict κ β :=
  match d.find? k with
  | some v => d.insert k (f v)
  | none => d

omit [Std.TransOrd κ] in
private theorem find?_insertEntry_self (k : κ) (v : β) (l : List (κ × β)) :
    (insertEntry k v l).find? (fun e => compare k e.1 == .eq) = some (k, v) := by
  induction l with
  | nil => simp [insertEntry]
  | cons a l ih =>
    obtain ⟨k', v'⟩ := a
    rw [insertEntry]
    split
    · simp
    · simp
    · next hgt => simp [hgt, ih]

omit [Std.TransOrd κ] in
private theorem find?_insertEntry_of_ne {k k' : κ} (hne : k' ≠ k) (v : β) (l : List (κ × β)) :
    (insertEntry k v l).find? (fun e => compare k' e.1 == .eq) =
      l.find? (fun e => compare k' e.1 == .eq) := by
  have hkk : compare k' k ≠ .eq := fun h => hne (Std.LawfulEqOrd.eq_of_compare h)
  induction l with
  | nil => simp [insertEntry, hkk]
  | cons a l ih =>
    obtain ⟨k'', v''⟩ := a
    rw [insertEntry]
    split
    · simp [List.find?_cons, hkk]
    · next heq =>
      have : k = k'' := Std.LawfulEqOrd.eq_of_compare heq
      subst this
      simp [hkk]
    · simp only [List.find?_cons, ih]

/-- An inserted value is found. -/
theorem find?_insert_self (d : Dict κ β) (k : κ) (v : β) : (d.insert k v).find? k = some v := by
  simp [find?, insert, find?_insertEntry_self]

/-- Insertion leaves the other keys alone. -/
theorem find?_insert_of_ne (d : Dict κ β) {k k' : κ} (h : k' ≠ k) (v : β) :
    (d.insert k v).find? k' = d.find? k' := by
  simp [find?, insert, find?_insertEntry_of_ne h]

end Dict

end Rollcall
