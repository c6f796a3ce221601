import Mathlib.Data.List.Induction
import Rollcall.Contributors
import Rollcall.Proofs.Dict

/-!
# What contributors tell together

Under every name the contributors that are bound tell what the foremost of those tells that tell
anything: the one of the highest priority, and of several of one priority the one bound last. One
that breaks down is as good as not bound, and one that is unbound again is as good as never bound.
-/

namespace Rollcall

namespace Contributor

/-- What a contributor that does not break down tells under a name, with its priority. -/
def tells? (x : Contributor) (name : String) : Option (Int × String) := do
  let priority ← x.priority
  let properties ← x.properties
  let value ← properties.find? name
  pure (priority, value)

/-- Whether a contributor breaks down at neither question. -/
def works (x : Contributor) : Bool := x.priority.isSome && x.properties.isSome

variable {x : Contributor} {name value : String} {n : Int}

theorem tells?_eq_some :
    x.tells? name = some (n, value) ↔
      x.priority = some n ∧ (x.properties.bind fun p => p.find? name) = some value := by
  cases hp : x.priority with
  | none => simp [tells?, hp]
  | some m => cases hq : x.properties <;> simp [tells?, hp, hq, Option.bind_eq_some_iff, and_comm]

theorem tells?_eq_none (h : x.priority = some n) :
    x.tells? name = none ↔ (x.properties.bind fun p => p.find? name) = none := by
  cases hq : x.properties with
  | none => simp [tells?, h, hq]
  | some p => cases hv : p.find? name <;> simp [tells?, h, hq, hv]

/-- Only one that works tells anything. -/
theorem works_of_tells? (h : x.tells? name = some (n, value)) : x.works = true := by
  obtain ⟨hn, hv⟩ := tells?_eq_some.mp h
  obtain ⟨p, hp, -⟩ := Option.bind_eq_some_iff.mp hv
  rw [works, hn, hp]
  rfl

end Contributor

namespace Contributors

variable {p q : Contributors} {x y : Contributor} {name value : String}

/-! ## Binding and unbinding -/

/-- What is done to contributors. -/
inductive Move
  | bind (priority : Option Int) (properties : Option Properties)
  | unbind (id : Nat)
  deriving DecidableEq

/-- Whether a move binds a contributor. -/
def Move.binds : Move → Bool
  | .bind .. => true
  | .unbind _ => false

/-- The contributors after a move. -/
def move (p : Contributors) : Move → Contributors
  | .bind priority properties => p.bind priority properties
  | .unbind id => p.unbind id

/-- The contributors after moves one after another, with nobody bound at first. -/
def run (moves : List Move) : Contributors := moves.foldl move {}

theorem run_concat (moves : List Move) (m : Move) : run (moves ++ [m]) = (run moves).move m :=
  List.foldl_concat ..

/-- Contributors stand in the order of their ids, which were all given. -/
structure InOrder (p : Contributors) : Prop where
  sorted : p.bound.Pairwise fun x y => x.id < y.id
  le : ∀ x ∈ p.bound, x.id ≤ p.lastId

theorem InOrder.filter (h : p.InOrder) (f : Contributor → Bool) :
    ({ p with bound := p.bound.filter f } : Contributors).InOrder where
  sorted := h.sorted.filter f
  le x hx := h.le x (List.mem_filter.mp hx).1

theorem InOrder.move (h : p.InOrder) (m : Move) : (p.move m).InOrder := by
  cases m with
  | bind priority properties =>
    constructor
    · refine List.pairwise_append.mpr ⟨h.sorted, List.pairwise_singleton .., fun x hx y hy => ?_⟩
      rw [List.mem_singleton.mp hy]
      exact Nat.lt_succ_of_le (h.le x hx)
    · intro x hx
      rcases List.mem_append.mp hx with hx | hx
      · exact Nat.le_succ_of_le (h.le x hx)
      · rw [List.mem_singleton.mp hx]
        exact Nat.le_refl _
  | unbind id => exact h.filter _

theorem inOrder_run (moves : List Move) : (run moves).InOrder := by
  induction moves using List.reverseRecOn with
  | nil => exact ⟨.nil, fun x hx => nomatch hx⟩
  | append_singleton moves m ih =>
    rw [run_concat]
    exact ih.move m

/-- No id stands twice. -/
theorem InOrder.eq_of_id (h : p.InOrder) (hx : x ∈ p.bound) (hy : y ∈ p.bound)
    (hid : x.id = y.id) : x = y := by
  have hnodup : (p.bound.map Contributor.id).Nodup :=
    List.pairwise_map.mpr (h.sorted.imp Nat.ne_of_lt)
  exact List.inj_on_of_nodup_map hnodup hx hy hid

/-- Ids count the contributors that were bound. -/
theorem lastId_run (moves : List Move) : (run moves).lastId = moves.countP Move.binds := by
  induction moves using List.reverseRecOn with
  | nil => rfl
  | append_singleton moves m ih =>
    rw [run_concat, List.countP_append, ← ih]
    cases m <;> rfl

/-- Those are bound that were bound once, under the number of that binding, and not unbound
since. -/
theorem mem_bound_run {moves : List Move} :
    x ∈ (run moves).bound ↔ ∃ before priority properties after,
      moves = before ++ .bind priority properties :: after ∧
        x = { id := before.countP Move.binds + 1, priority, properties } ∧
        Move.unbind x.id ∉ after := by
  induction moves using List.reverseRecOn with
  | nil => simp [run]
  | append_singleton moves m ih =>
    rw [run_concat]
    constructor
    · intro hx
      cases m with
      | bind priority properties =>
        rcases List.mem_append.mp hx with hx | hx
        · obtain ⟨before, priority', properties', after, rfl, hxe, hn⟩ := ih.mp hx
          refine ⟨before, priority', properties', after ++ [.bind priority properties],
            by simp, hxe, ?_⟩
          simpa using hn
        · refine ⟨moves, priority, properties, [], rfl, ?_, List.not_mem_nil⟩
          rw [List.mem_singleton.mp hx, lastId_run]
      | unbind id =>
        obtain ⟨hx, hid⟩ := List.mem_filter.mp hx
        obtain ⟨before, priority, properties, after, rfl, hxe, hn⟩ := ih.mp hx
        refine ⟨before, priority, properties, after ++ [.unbind id], by simp, hxe, ?_⟩
        simpa [hn] using hid
    · rintro ⟨before, priority, properties, after, hm, hxe, hn⟩
      rcases List.eq_nil_or_concat after with rfl | ⟨after, m', rfl⟩
      · obtain ⟨rfl, hlast⟩ := List.append_inj' hm rfl
        obtain rfl := List.singleton_inj.mp hlast
        rw [hxe, ← lastId_run]
        exact List.mem_append_right _ (List.mem_singleton.mpr rfl)
      · rw [List.concat_eq_append, ← List.cons_append, ← List.append_assoc] at hm
        obtain ⟨rfl, hlast⟩ := List.append_inj' hm rfl
        obtain rfl := List.singleton_inj.mp hlast
        rw [List.concat_eq_append, List.mem_append, not_or] at hn
        have hx := ih.mpr ⟨before, priority, properties, after, rfl, hxe, hn.1⟩
        cases m with
        | bind _ _ => exact List.mem_append_left _ hx
        | unbind id =>
          refine List.mem_filter.mpr ⟨hx, ?_⟩
          simpa using hn.2

/-! ## The order of merging -/

/-- Whether one contributor is merged before another, each with its priority. -/
def Before (a b : Int × Contributor) : Prop := a.1 < b.1 ∨ a.1 = b.1 ∧ a.2.id < b.2.id

/-- Sorting by priority leaves those of one priority in the order of their ids. -/
theorem pairwise_before_mergeSort {l : List (Int × Contributor)}
    (h : l.Pairwise fun a b => a.2.id < b.2.id) :
    (l.mergeSort fun a b => a.1 ≤ b.1).Pairwise Before := by
  have trans : ∀ a b c : Int × Contributor, decide (a.1 ≤ b.1) = true →
      decide (b.1 ≤ c.1) = true → decide (a.1 ≤ c.1) = true := by
    intro a b c hab hbc
    simp only [decide_eq_true_eq] at hab hbc ⊢
    exact Int.le_trans hab hbc
  have total : ∀ a b : Int × Contributor, (decide (a.1 ≤ b.1) || decide (b.1 ≤ a.1)) = true := by
    intro a b
    simpa using Int.le_total a.1 b.1
  induction l with
  | nil => simp
  | cons a l ih =>
    obtain ⟨hid, hl⟩ := List.pairwise_cons.mp h
    -- The first one goes behind those of lower priority, and the others stay as they stand.
    obtain ⟨l₁, l₂, hs, ht, hlow⟩ := List.mergeSort_cons trans total a l
    have hsorted := List.pairwise_mergeSort trans total (a :: l)
    have hmem : ∀ b ∈ l₁ ++ l₂, b ∈ l := fun b hb => List.mem_mergeSort.mp (ht ▸ hb)
    have ih := ih hl
    rw [ht] at ih
    rw [hs] at hsorted ⊢
    obtain ⟨h₁, h₂, h₁₂⟩ := List.pairwise_append.mp ih
    have hhigh := (List.pairwise_cons.mp (List.pairwise_append.mp hsorted).2.1).1
    refine List.pairwise_append.mpr ⟨h₁, List.pairwise_cons.mpr ⟨fun b hb => ?_, h₂⟩, ?_⟩
    · have hle : a.1 ≤ b.1 := by simpa using hhigh b hb
      rcases Int.lt_or_eq_of_le hle with hlt | heq
      · exact .inl hlt
      · exact .inr ⟨heq, hid b (hmem b (List.mem_append_right _ hb))⟩
    · intro b hb c hc
      rcases List.mem_cons.mp hc with rfl | hc
      · exact .inl (by simpa using hlow b hb)
      · exact h₁₂ b hb c hc

theorem mem_ranked {a : Int × Contributor} :
    a ∈ p.ranked ↔ a.2 ∈ p.bound ∧ a.2.priority = some a.1 := by
  rw [ranked, List.mem_mergeSort, List.mem_filterMap]
  constructor
  · rintro ⟨x, hx, ha⟩
    obtain ⟨n, hn, rfl⟩ := Option.map_eq_some_iff.mp ha
    exact ⟨hx, hn⟩
  · rintro ⟨hx, hn⟩
    exact ⟨a.2, hx, by rw [hn]; rfl⟩

theorem InOrder.pairwise_ranked (h : p.InOrder) : p.ranked.Pairwise Before := by
  refine pairwise_before_mergeSort (List.pairwise_filterMap.mpr (h.sorted.imp ?_))
  intro x y hxy a ha b hb
  obtain ⟨m, -, rfl⟩ := Option.map_eq_some_iff.mp ha
  obtain ⟨n, -, rfl⟩ := Option.map_eq_some_iff.mp hb
  exact hxy

private theorem findSome?_filterMap {α β γ : Type} (f : α → Option β) (g : β → Option γ)
    (l : List α) : (l.filterMap f).findSome? g = l.findSome? fun a => (f a).bind g := by
  induction l with
  | nil => rfl
  | cons a l ih => cases h : f a <;> simp [List.findSome?_cons, h, ih]

/-- The last one in the order of merging that tells something under a name decides. -/
theorem find?_collect (p : Contributors) (name : String) :
    p.collect.find? name =
      p.ranked.reverse.findSome? fun a => a.2.properties.bind fun d => d.find? name := by
  rw [collect, Dict.find?_foldl_overwrite, ← List.filterMap_reverse, findSome?_filterMap]
  exact Option.or_none

/-! ## Who decides -/

/-- Of the contributors that tell something under a name, the one of the highest priority, and of
those of this priority the one bound last. -/
structure Foremost (p : Contributors) (name value : String) (x : Contributor) : Prop where
  bound : x ∈ p.bound
  highest : ∃ n, x.tells? name = some (n, value) ∧
    ∀ y ∈ p.bound, ∀ m w, y.tells? name = some (m, w) → m < n ∨ m = n ∧ y.id ≤ x.id

theorem InOrder.exists_foremost (h : p.InOrder) (hv : p.collect.find? name = some value) :
    ∃ x, p.Foremost name value x := by
  rw [find?_collect] at hv
  obtain ⟨l₁, ⟨n, x⟩, l₂, hl, hx, hnone⟩ := List.findSome?_eq_some_iff.mp hv
  have hrev : p.ranked = l₂.reverse ++ (n, x) :: l₁.reverse := by
    rw [← List.reverse_reverse p.ranked, hl]
    simp
  obtain ⟨hbound, hn⟩ := mem_ranked.mp (hrev ▸ by simp : (n, x) ∈ p.ranked)
  refine ⟨x, hbound, n, Contributor.tells?_eq_some.mpr ⟨hn, hx⟩, fun y hy m w ht => ?_⟩
  obtain ⟨hm, hw⟩ := Contributor.tells?_eq_some.mp ht
  have hmem : (m, y) ∈ p.ranked := mem_ranked.mpr ⟨hy, hm⟩
  rw [hrev, List.mem_append, List.mem_cons] at hmem
  rcases hmem with hmem | heq | hmem
  · have hp := h.pairwise_ranked
    rw [hrev] at hp
    rcases (List.pairwise_append.mp hp).2.2 _ hmem _ List.mem_cons_self with hlt | ⟨heq, hid⟩
    · exact .inl hlt
    · exact .inr ⟨heq, Nat.le_of_lt hid⟩
  · cases heq
    exact .inr ⟨rfl, Nat.le_refl _⟩
  · rw [hnone _ (List.mem_reverse.mp hmem)] at hw
    cases hw

theorem collect_eq_none : p.collect.find? name = none ↔ ∀ x ∈ p.bound, x.tells? name = none := by
  rw [find?_collect, List.findSome?_eq_none_iff]
  constructor
  · intro h x hx
    cases hn : x.priority with
    | none => simp [Contributor.tells?, hn]
    | some n =>
      rw [Contributor.tells?_eq_none hn]
      exact h (n, x) (List.mem_reverse.mpr (mem_ranked.mpr ⟨hx, hn⟩))
  · intro h a ha
    obtain ⟨hx, hn⟩ := mem_ranked.mp (List.mem_reverse.mp ha)
    exact (Contributor.tells?_eq_none hn).mp (h a.2 hx)

/-- Two cannot both be foremost. -/
theorem InOrder.foremost_unique (h : p.InOrder) {w : String} (hx : p.Foremost name value x)
    (hy : p.Foremost name w y) : x = y ∧ value = w := by
  obtain ⟨n, htx, hmaxx⟩ := hx.highest
  obtain ⟨m, hty, hmaxy⟩ := hy.highest
  have hid : x.id = y.id := by
    have hyx := hmaxx y hy.bound m w hty
    have hxy := hmaxy x hx.bound n value htx
    omega
  obtain rfl := h.eq_of_id hx.bound hy.bound hid
  rw [htx, Option.some.injEq, Prod.mk.injEq] at hty
  exact ⟨rfl, hty.2⟩

theorem InOrder.collect_eq_some (h : p.InOrder) :
    p.collect.find? name = some value ↔ ∃ x, p.Foremost name value x := by
  refine ⟨h.exists_foremost, fun ⟨x, hx⟩ => ?_⟩
  cases hv : p.collect.find? name with
  | none =>
    obtain ⟨n, ht, -⟩ := hx.highest
    rw [collect_eq_none.mp hv x hx.bound] at ht
    cases ht
  | some w =>
    obtain ⟨y, hy⟩ := h.exists_foremost hv
    rw [(h.foremost_unique hx hy).2]

/-- Contributors of which the same ones work tell the same. -/
theorem InOrder.collect_congr (hp : p.InOrder) (hq : q.InOrder)
    (h : ∀ x, x.works = true → (x ∈ p.bound ↔ x ∈ q.bound)) : p.collect = q.collect := by
  refine Dict.ext_find? fun name => Option.ext fun value => ?_
  rw [hp.collect_eq_some, hq.collect_eq_some]
  constructor
  · rintro ⟨x, hx, n, ht, hmax⟩
    refine ⟨x, (h x (Contributor.works_of_tells? ht)).mp hx, n, ht, fun y hy m w hw => ?_⟩
    exact hmax y ((h y (Contributor.works_of_tells? hw)).mpr hy) m w hw
  · rintro ⟨x, hx, n, ht, hmax⟩
    refine ⟨x, (h x (Contributor.works_of_tells? ht)).mpr hx, n, ht, fun y hy m w hw => ?_⟩
    exact hmax y ((h y (Contributor.works_of_tells? hw)).mp hy) m w hw

/-! ## Those that break down -/

/-- The contributors after those that break down were unbound one after another. -/
def unbindBroken (p : Contributors) : Contributors :=
  ((p.bound.filter fun x => !x.works).map Contributor.id).foldl unbind p

theorem foldl_unbind (ids : List Nat) (p : Contributors) :
    ids.foldl unbind p = { p with bound := p.bound.filter fun x => x.id ∉ ids } := by
  induction ids generalizing p with
  | nil => simp
  | cons id ids ih =>
    rw [List.foldl_cons, ih, unbind, List.filter_filter]
    simp [Bool.and_comm]

theorem InOrder.bound_unbindBroken (h : p.InOrder) :
    p.unbindBroken.bound = p.bound.filter Contributor.works := by
  rw [unbindBroken, foldl_unbind]
  refine List.filter_congr fun x hx => ?_
  rw [Bool.eq_iff_iff, decide_eq_true_eq, List.mem_map, not_exists]
  constructor
  · intro hall
    by_contra hw
    exact hall x ⟨List.mem_filter.mpr ⟨hx, by simpa using hw⟩, rfl⟩
  · rintro hw y ⟨hy, hid⟩
    obtain ⟨hy, hb⟩ := List.mem_filter.mp hy
    rw [h.eq_of_id hy hx hid, hw] at hb
    cases hb

theorem InOrder.bound_unbind_bind (h : p.InOrder) (priority : Option Int)
    (properties : Option Properties) :
    ((p.bind priority properties).unbind (p.bind priority properties).lastId).bound =
      p.bound := by
  rw [unbind, bind, List.filter_append, List.filter_eq_self.mpr, List.filter_eq_nil_iff.mpr,
    List.append_nil]
  · simp
  · intro x hx
    have := h.le x hx
    simp only [decide_eq_true_eq]
    omega

/-- Whatever was bound and unbound, under every name the foremost of the contributors that are bound
tells its value, and there is none exactly if nobody tells any. To unbind all those that break down
changes nothing, and nothing is changed by one that is bound and unbound again. Ids number the
bindings, and those are bound that were bound once and not unbound since. -/
theorem run_collects_foremost (moves : List Move) :
    let p := run moves
    (∀ name value, p.collect.find? name = some value ↔ ∃ x, p.Foremost name value x) ∧
      (∀ name, p.collect.find? name = none ↔ ∀ x ∈ p.bound, x.tells? name = none) ∧
      (p.unbindBroken.collect = p.collect ∧
        p.unbindBroken.bound = p.bound.filter Contributor.works) ∧
      (∀ priority properties,
        ((p.bind priority properties).unbind (p.bind priority properties).lastId).collect =
          p.collect) ∧
      ∀ x, x ∈ p.bound ↔ ∃ before priority properties after,
        moves = before ++ .bind priority properties :: after ∧
          x = { id := before.countP Move.binds + 1, priority, properties } ∧
          Move.unbind x.id ∉ after := by
  intro p
  have hp : p.InOrder := inOrder_run moves
  refine ⟨fun name value => hp.collect_eq_some, fun name => collect_eq_none, ⟨?_, ?_⟩, ?_,
    fun x => mem_bound_run⟩
  · have hq : p.unbindBroken.InOrder := by
      rw [unbindBroken, foldl_unbind]
      exact hp.filter _
    refine hq.collect_congr hp fun x hx => ?_
    rw [hp.bound_unbindBroken, List.mem_filter, and_iff_left hx]
  · exact hp.bound_unbindBroken
  · intro priority properties
    rw [collect, ranked, hp.bound_unbind_bind]
    rfl

/-- A contributor of higher priority stands above one that was bound later, and of two of one
priority the later one counts; one that breaks down counts for nothing. -/
example :
    (run [.bind (some 10) (some (Dict.ofList [("role", "high")])),
      .bind (some (-1)) (some (Dict.ofList [("role", "low"), ("rack", "1")])),
      .bind none (some (Dict.ofList [("role", "lost")])),
      .bind (some (-1)) (some (Dict.ofList [("rack", "2")]))]).collect =
      Dict.ofList [("role", "high"), ("rack", "2")] := by
  cbv

end Contributors

end Rollcall
