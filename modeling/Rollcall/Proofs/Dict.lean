import Mathlib.Data.List.Nodup
import Rollcall.Dict

/-!
# Looking up in finite maps

What a finite map finds under a key, for every way in which this library builds one. A map is known
by what it finds, and its keys are those under which it finds something.
-/

namespace Rollcall.Dict

variable {κ β : Type} [Ord κ] [Std.TransOrd κ] [Std.LawfulEqOrd κ]

omit [Std.TransOrd κ] in
private theorem find?_entries_of_mem {l : List (κ × β)}
    (h : l.Pairwise fun a b => compare a.1 b.1 = .lt) {k : κ} {v : β} (hm : (k, v) ∈ l) :
    l.find? (fun e => compare k e.1 == .eq) = some (k, v) := by
  induction l with
  | nil => simp at hm
  | cons a l ih =>
    rw [List.pairwise_cons] at h
    rcases List.mem_cons.mp hm with rfl | hm
    · simp
    · have hlt := h.1 (k, v) hm
      have hne : compare k a.1 ≠ .eq := by
        intro he
        have hk : k = a.1 := Std.LawfulEqOrd.eq_of_compare he
        subst hk
        simp at hlt
      rw [List.find?_cons_of_neg (by simpa using hne)]
      exact ih h.2 hm

omit [Std.TransOrd κ] in
/-- A map lists what it finds. -/
theorem mem_toList_iff (d : Dict κ β) (k : κ) (v : β) :
    (k, v) ∈ d.toList ↔ d.find? k = some v := by
  constructor
  · intro hm
    simp [find?, find?_entries_of_mem d.sorted hm]
  · intro h
    obtain ⟨e, he, rfl⟩ := Option.map_eq_some_iff.mp h
    have hk : k = e.1 := Std.LawfulEqOrd.eq_of_compare (by simpa using List.find?_some he)
    subst hk
    exact List.mem_of_find?_eq_some he

omit [Std.TransOrd κ] in
/-- The keys are those under which something is found. -/
theorem mem_keys_iff (d : Dict κ β) (k : κ) : k ∈ d.keys ↔ ∃ v, d.find? k = some v := by
  simp only [keys, List.mem_map, Prod.exists, exists_and_right, exists_eq_right, mem_toList_iff]

/-- Maps that find the same are equal. -/
theorem ext_find? {d d' : Dict κ β} (h : ∀ k, d.find? k = d'.find? k) : d = d' := by
  have hlt : ∀ {a b : κ × β}, compare a.1 b.1 = .lt → a ≠ b := by
    rintro a b hab rfl
    simp at hab
  have hperm : d.toList.Perm d'.toList :=
    (List.perm_ext_iff_of_nodup (d.sorted.imp hlt) (d'.sorted.imp hlt)).mpr fun e => by
      rw [mem_toList_iff, mem_toList_iff, h]
  refine ext_toList (List.Perm.eq_of_pairwise (fun a b _ _ hab hba => ?_) d.sorted d'.sorted hperm)
  rw [Std.OrientedCmp.gt_of_lt hab] at hba
  cases hba

omit [Std.TransOrd κ] in
/-- Of what was found, a filter leaves what passes its test. -/
theorem find?_filter (d : Dict κ β) (p : κ → β → Bool) (k : κ) :
    (d.filter p).find? k = (d.find? k).filter (p k) := by
  apply Option.ext
  intro v
  rw [← mem_toList_iff, Option.filter_eq_some_iff, ← mem_toList_iff]
  simp [filter]

omit [Std.TransOrd κ] in
/-- Tests that agree on the entries leave the same. -/
theorem filter_congr {d : Dict κ β} {p q : κ → β → Bool}
    (h : ∀ k v, d.find? k = some v → p k v = q k v) : d.filter p = d.filter q :=
  ext_toList (List.filter_congr fun e he => h e.1 e.2 ((mem_toList_iff d e.1 e.2).mp he))

omit [Std.TransOrd κ] [Std.LawfulEqOrd κ] in
/-- One test after the other is both at once. -/
theorem filter_filter (d : Dict κ β) (p q : κ → β → Bool) :
    (d.filter p).filter q = d.filter fun k v => q k v && p k v :=
  ext_toList List.filter_filter

omit [Std.TransOrd κ] [Std.LawfulEqOrd κ] in
/-- A key is there when something is found under it. -/
theorem contains_iff (d : Dict κ β) (k : κ) : d.contains k = true ↔ ∃ v, d.find? k = some v := by
  rw [contains, Option.isSome_iff_exists]

/-- What is found after an insertion. -/
theorem find?_insert (d : Dict κ β) [DecidableEq κ] (k k' : κ) (v : β) :
    (d.insert k v).find? k' = if k' = k then some v else d.find? k' := by
  split
  · next h => rw [h, find?_insert_self]
  · next h => rw [find?_insert_of_ne d h]

/-- What is found after a change of one value. -/
theorem find?_modify (d : Dict κ β) [DecidableEq κ] (k k' : κ) (f : β → β) :
    (d.modify k f).find? k' = if k' = k then (d.find? k).map f else d.find? k' := by
  cases hk : d.find? k with
  | none =>
    simp only [modify, hk]
    split
    · next h => rw [h, hk]; rfl
    · rfl
  | some v =>
    simp only [modify, hk]
    exact find?_insert d k k' (f v)

private theorem mem_keys_foldl_insert (l : List (κ × β)) (d : Dict κ β) (k : κ) :
    k ∈ (l.foldl (fun d e => d.insert e.1 e.2) d).keys ↔ k ∈ d.keys ∨ k ∈ l.map Prod.fst := by
  classical
  induction l generalizing d with
  | nil => simp
  | cons e l ih =>
    have hi : k ∈ (d.insert e.1 e.2).keys ↔ k ∈ d.keys ∨ k = e.1 := by
      simp only [mem_keys_iff, find?_insert]
      by_cases hk : k = e.1 <;> simp [hk]
    rw [List.foldl_cons, ih, hi, List.map_cons, List.mem_cons, or_assoc]

/-- The map of a list of entries has the keys listed. -/
theorem mem_keys_ofList (l : List (κ × β)) (k : κ) :
    k ∈ (ofList l).keys ↔ k ∈ l.map Prod.fst := by
  rw [ofList, mem_keys_foldl_insert]
  simp [keys, empty]

/-- What is found after values were put under keys that tell them. -/
private theorem find?_foldl_insert [DecidableEq κ] {l : List (κ × β)} {f : κ → β}
    (h : ∀ e ∈ l, e.2 = f e.1) (d : Dict κ β) (k : κ) :
    (l.foldl (fun d e => d.insert e.1 e.2) d).find? k =
      if k ∈ l.map Prod.fst then some (f k) else d.find? k := by
  induction l generalizing d with
  | nil => simp
  | cons e l ih =>
    rw [List.foldl_cons, ih fun x hx => h x (.tail _ hx), find?_insert, h e (.head _),
      List.map_cons]
    by_cases hl : k ∈ l.map Prod.fst
    · rw [if_pos hl, if_pos (List.mem_cons_of_mem _ hl)]
    · rw [if_neg hl]
      by_cases hk : k = e.1
      · rw [if_pos hk, if_pos (List.mem_cons.mpr (.inl hk)), hk]
      · rw [if_neg hk, if_neg fun hm => (List.mem_cons.mp hm).elim hk hl]

/-- What is found in the map of a list in which the keys tell the values. -/
theorem find?_ofList [DecidableEq κ] {l : List (κ × β)} {f : κ → β} (h : ∀ e ∈ l, e.2 = f e.1)
    (k : κ) : (ofList l).find? k = if k ∈ l.map Prod.fst then some (f k) else none :=
  find?_foldl_insert h empty k

/-- What is found in the map of a list in which no key stands twice. -/
theorem find?_ofList_of_nodup {l : List (κ × β)} (h : (l.map Prod.fst).Nodup) {e : κ × β}
    (he : e ∈ l) : (ofList l).find? e.1 = some e.2 := by
  classical
  -- The keys tell the values: by the first, and only, entry of the key.
  have hf : ∀ x ∈ l, x.2 = ((l.find? fun y => y.1 = x.1).getD e).2 := by
    intro x hx
    obtain ⟨y, hy⟩ := Option.isSome_iff_exists.mp
      (List.find?_isSome.mpr ⟨x, hx, decide_eq_true rfl⟩ : (l.find? fun y => y.1 = x.1).isSome)
    have hyx : y = x :=
      List.inj_on_of_nodup_map h (List.mem_of_find?_eq_some hy) hx
        (by simpa using List.find?_some hy)
    rw [hy, Option.getD_some, hyx]
  rw [find?_ofList (f := fun k => ((l.find? fun y => y.1 = k).getD e).2) hf e.1,
    if_pos (List.mem_map_of_mem he), ← hf e he]

private theorem find?_foldl_insert_of_sorted {l : List (κ × β)}
    (h : l.Pairwise fun a b => compare a.1 b.1 = .lt) (d : Dict κ β) (k : κ) :
    (l.foldl (fun d e => d.insert e.1 e.2) d).find? k =
      ((l.find? fun e => compare k e.1 == .eq).map Prod.snd).or (d.find? k) := by
  induction l generalizing d with
  | nil => rfl
  | cons e l ih =>
    obtain ⟨hlt, hl⟩ := List.pairwise_cons.mp h
    rw [List.foldl_cons, ih hl]
    by_cases hk : k = e.1
    · subst hk
      have hnone : l.find? (fun x => compare e.1 x.1 == .eq) = none :=
        List.find?_eq_none.mpr fun x hx => by simp [hlt x hx]
      rw [hnone, find?_insert_self, List.find?_cons_of_pos (by simp)]
      rfl
    · have hne : compare k e.1 ≠ .eq := fun he => hk (Std.LawfulEqOrd.eq_of_compare he)
      rw [find?_insert_of_ne d hk, List.find?_cons_of_neg (by simpa using hne)]

/-- Of both maps the second one counts where it finds something. -/
theorem find?_overwrite (d e : Dict κ β) (k : κ) :
    (d.overwrite e).find? k = (e.find? k).or (d.find? k) :=
  find?_foldl_insert_of_sorted e.sorted d k

/-- Of several maps one over another the last one counts that finds something. -/
theorem find?_foldl_overwrite (ds : List (Dict κ β)) (d : Dict κ β) (k : κ) :
    (ds.foldl overwrite d).find? k = (ds.reverse.findSome? (·.find? k)).or (d.find? k) := by
  induction ds generalizing d with
  | nil => rfl
  | cons e ds ih =>
    rw [List.foldl_cons, ih, find?_overwrite, List.reverse_cons, List.findSome?_append,
      List.findSome?_singleton, Option.or_assoc]

omit [Std.LawfulEqOrd κ] in
private theorem insertEntry_of_lt {k : κ} {v : β} {l : List (κ × β)}
    (h : ∀ e ∈ l, compare e.1 k = .lt) : insertEntry k v l = l ++ [(k, v)] := by
  induction l with
  | nil => rfl
  | cons e l ih =>
    have hgt : compare k e.1 = .gt := Std.OrientedCmp.gt_of_lt (h e (.head _))
    simp only [insertEntry, hgt, List.cons_append, ih fun x hx => h x (.tail _ hx)]

private theorem toList_foldl_insert {l : List (κ × β)} {d : Dict κ β}
    (h : (d.toList ++ l).Pairwise fun a b => compare a.1 b.1 = .lt) :
    (l.foldl (fun d e => d.insert e.1 e.2) d).toList = d.toList ++ l := by
  induction l generalizing d with
  | nil => simp
  | cons e l ih =>
    have hi : (d.insert e.1 e.2).toList = d.toList ++ [e] :=
      insertEntry_of_lt fun x hx => (List.pairwise_append.mp h).2.2 x hx e (.head _)
    rw [List.foldl_cons, ih (by rwa [hi, List.append_assoc]), hi, List.append_assoc]
    rfl

/-- A map is that of its entries. -/
theorem ofList_toList (d : Dict κ β) : ofList d.toList = d :=
  ext_toList (toList_foldl_insert (d := empty) d.sorted)

end Rollcall.Dict
