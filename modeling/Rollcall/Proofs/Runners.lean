import Mathlib.Data.List.Nodup
import Rollcall.Proofs.Control

/-!
# Runners one move at a time

A runner looks whether it was told to stop, reads the state, is inside a step, looks again and hands
in what the step said, and between any two of these moves everything else may happen: other events,
the end of the state it works on, another runner. At every moment after the start one runner is
wanted if the state is an active one, which is the held one and at work, and none is otherwise.
-/

namespace Rollcall

/-- How far a runner is in its loop. -/
inductive Pass
  /-- It was not told to stop and is about to read the state. -/
  | looked
  /-- It is inside a step for a state. -/
  | inside (s : State)
  /-- The step is over, with an event or without one. -/
  | done (e : Option Event)
  /-- It looked again, was not told to stop, and is about to hand in the event. -/
  | cleared (e : Option Event)
  deriving DecidableEq, Repr

namespace Control

variable {σ : Type}

/-- Where the runner of a generation stands. -/
def activity? (c : Control σ) (g : Nat) : Option (Activity σ) := (c.runner? g).map Runner.activity

/-- A runner between two steps looks whether it was told to stop. -/
def look (c : Control Pass) (g : Nat) : Control Pass :=
  if c.activity? g = some .poised then
    c.setActivity g (if c.isSignalled g then .ended else .within .looked)
  else c

/-- A runner that has looked reads the state, and begins a step if there is one. -/
def read (c : Control Pass) (g : Nat) : Control Pass :=
  if c.activity? g = some (.within .looked) then
    c.setActivity g (if c.state.active then .within (.inside c.state) else .ended)
  else c

/-- The step of a runner is over. -/
def finish (c : Control Pass) (g : Nat) (e : Option Event) : Control Pass :=
  match c.activity? g with
  | some (.within (.inside _)) => c.setActivity g (.within (.done e))
  | _ => c

/-- A runner after its step looks whether it was told to stop. -/
def recheck (c : Control Pass) (g : Nat) : Control Pass :=
  match c.activity? g with
  | some (.within (.done e)) =>
    c.setActivity g (if c.isSignalled g then .ended else .within (.cleared e))
  | _ => c

/-- A runner hands in the event of its step and begins again. -/
def report (c : Control Pass) (g : Nat) : Control Pass :=
  match c.activity? g with
  | some (.within (.cleared e)) =>
    let c := c.setActivity g .poised
    match e with
    | some e => c.handleFrom g e
    | none => c
  | _ => c

/-- What may happen to a control: an operation from outside, or a move of a runner. -/
inductive Act
  | start
  | next (e : Event)
  | nextIf (expected : State) (e : Event)
  | stop
  | look (g : Nat)
  | read (g : Nat)
  | finish (g : Nat) (e : Option Event)
  | recheck (g : Nat)
  | report (g : Nat)

/-- A control after an act. -/
def step (c : Control Pass) : Act → Control Pass
  | .start => c.start
  | .next e => c.handle e
  | .nextIf expected e => c.handleIf expected e
  | .stop => c.stop
  | .look g => c.look g
  | .read g => c.read g
  | .finish g e => c.finish g e
  | .recheck g => c.recheck g
  | .report g => c.report g

/-- A control after acts one after another. -/
def run (c : Control Pass) (acts : List Act) : Control Pass := acts.foldl step c

/-! ## Moves and steps -/

@[simp] theorem runner?_setActivity (c : Control σ) (g : Nat) (a : Activity σ) :
    (c.setActivity g a).runner? g = (c.runner? g).map fun r => { r with activity := a } := by
  have hp : ∀ r : Runner σ,
      (if r.generation = g then { r with activity := a } else r).generation = r.generation := by
    intro r
    split <;> rfl
  unfold runner? setActivity modify
  simp only [List.find?_map, Function.comp_def, hp]
  refine Option.map_congr fun r hr => ?_
  rw [if_pos (by simpa using List.find?_some hr)]

@[simp] theorem activity?_setActivity (c : Control σ) (g : Nat) (a : Activity σ) :
    (c.setActivity g a).activity? g = (c.activity? g).map fun _ => a := by
  simp [activity?, Function.comp_def]

@[simp] theorem setActivity_setActivity (c : Control σ) (g : Nat) (a b : Activity σ) :
    (c.setActivity g a).setActivity g b = c.setActivity g b := by
  unfold setActivity modify
  simp only [List.map_map, mk.injEq, true_and]
  refine List.map_congr_left fun r _ => ?_
  by_cases hr : r.generation = g <;> simp [hr]

/-- A look and a reading with nothing in between are the way into a step. -/
theorem read_look (c : Control Pass) {g : Nat} (h : c.activity? g = some .poised) :
    (c.look g).read g =
      match c.enter g with
      | (c, some s) => c.suspend g (.inside s)
      | (c, none) => c := by
  unfold look enter
  rw [if_pos h]
  cases hs : c.isSignalled g <;> cases ha : c.state.active <;>
    simp [read, suspend, h, ha]

/-- A second look and a report with nothing in between are the way out of a step. -/
theorem report_recheck (c : Control Pass) {g : Nat} {e : Option Event}
    (h : c.activity? g = some (.within (.done e))) :
    (c.recheck g).report g = c.leave g e := by
  unfold recheck leave
  rw [h]
  cases hs : c.isSignalled g <;> cases e <;> simp [report, h]

/-! ## Who serves -/

/-- Runners are numbered from 1 in the order of starting, and only the held one, which is among them
and has not ended, was not told to stop. Where the others stand is left open: a runner that was told
to stop may be inside a step for as long as it likes. -/
structure Manned (c : Control σ) : Prop where
  numbered : c.runners.map Runner.generation = List.range' 1 c.generation
  signalled : ∀ r ∈ c.runners, r.signalled = false ↔ c.held = some r.generation
  working : ∀ r ∈ c.runners, c.held = some r.generation → r.activity ≠ .ended
  present : ∀ g, c.held = some g → ∃ r ∈ c.runners, r.generation = g

/-- A control in service: once there was a start, a runner is held if and only if the state is an
active one. -/
structure Served (c : Control σ) : Prop extends Manned c where
  serving : c.held.isSome = (c.started && c.state.active)

variable {c : Control σ}

private theorem Manned.eq_of_generation (h : c.Manned) {r s : Runner σ} (hr : r ∈ c.runners)
    (hs : s ∈ c.runners) (he : r.generation = s.generation) : r = s :=
  List.inj_on_of_nodup_map (h.numbered ▸ List.nodup_range') hr hs he

theorem Manned.runner?_eq_some (h : c.Manned) {g : Nat} {r : Runner σ} :
    c.runner? g = some r ↔ r ∈ c.runners ∧ r.generation = g := by
  constructor
  · intro hf
    exact ⟨List.mem_of_find?_eq_some hf, by simpa using List.find?_some hf⟩
  · rintro ⟨hr, rfl⟩
    obtain ⟨s, hs⟩ : ∃ s, c.runner? r.generation = some s :=
      Option.isSome_iff_exists.mp (List.find?_isSome.mpr ⟨r, hr, by simp⟩)
    rw [hs, h.eq_of_generation (List.mem_of_find?_eq_some hs) hr
      (by simpa using List.find?_some hs)]

/-- The held runner is alive. -/
private theorem Manned.isAlive (h : c.Manned) {g : Nat} (hg : c.held = some g) :
    c.isAlive g = true := by
  obtain ⟨r, hr, rfl⟩ := h.present g hg
  have hs := (h.signalled r hr).mpr hg
  have hw := h.working r hr hg
  rw [Control.isAlive, hasEnded, isSignalled, h.runner?_eq_some.mpr ⟨hr, rfl⟩]
  cases ha : r.activity with
  | ended => exact absurd ha hw
  | poised => simp [Activity.hasEnded, ha, hs]
  | within w => simp [Activity.hasEnded, ha, hs]

/-- A runner is the held one if and only if it was not told to stop. -/
theorem Manned.isSignalled_eq_false (h : c.Manned) {g : Nat} :
    c.isSignalled g = false ↔ c.held = some g := by
  constructor
  · intro hs
    unfold isSignalled at hs
    cases hf : c.runner? g with
    | none => rw [hf] at hs; cases hs
    | some r =>
      rw [hf] at hs
      obtain ⟨hr, rfl⟩ := h.runner?_eq_some.mp hf
      exact (h.signalled r hr).mp hs
  · intro hg
    obtain ⟨r, hr, rfl⟩ := h.present g hg
    rw [isSignalled, h.runner?_eq_some.mpr ⟨hr, rfl⟩]
    exact (h.signalled r hr).mpr hg

private theorem mem_modify {g : Nat} {f : Runner σ → Runner σ} {r : Runner σ}
    (hr : r ∈ (c.modify g f).runners) :
    ∃ x ∈ c.runners, r = if x.generation = g then f x else x := by
  obtain ⟨x, hx, rfl⟩ := List.mem_map.mp hr
  exact ⟨x, hx, rfl⟩

theorem generations_modify (c : Control σ) (g : Nat) {f : Runner σ → Runner σ}
    (hf : ∀ r, (f r).generation = r.generation) :
    (c.modify g f).runners.map Runner.generation = c.runners.map Runner.generation := by
  rw [modify, List.map_map]
  refine List.map_congr_left fun r _ => ?_
  rw [Function.comp]
  split
  · exact hf r
  · rfl

@[simp] theorem generations_setActivity (c : Control σ) (g : Nat) (a : Activity σ) :
    (c.setActivity g a).runners.map Runner.generation = c.runners.map Runner.generation :=
  c.generations_modify g fun _ => rfl

@[simp] theorem generations_retire (c : Control σ) (g : Nat) :
    (c.retire g).runners.map Runner.generation = c.runners.map Runner.generation :=
  c.generations_modify g fun _ => rfl

/-- A runner may be said to stand anywhere, but the held one does not end. -/
theorem Manned.setActivity (h : c.Manned) (g : Nat) {a : Activity σ}
    (ha : a = .ended → c.held ≠ some g) : (c.setActivity g a).Manned where
  numbered := by
    rw [generations_setActivity]
    exact h.numbered
  signalled := by
    intro r hr
    obtain ⟨x, hx, rfl⟩ := mem_modify hr
    split
    · exact h.signalled x hx
    · exact h.signalled x hx
  working := by
    intro r hr hh
    obtain ⟨x, hx, rfl⟩ := mem_modify hr
    split at hh
    · next hg =>
      rw [if_pos hg]
      rintro rfl
      exact ha rfl (hg ▸ hh)
    · next hg =>
      rw [if_neg hg]
      exact h.working x hx hh
  present := by
    intro n hn
    obtain ⟨x, hx, rfl⟩ := h.present n hn
    refine ⟨_, List.mem_map.mpr ⟨x, hx, rfl⟩, ?_⟩
    split <;> rfl

private theorem Manned.spawn (h : c.Manned) (hn : c.held = none) : c.spawn.Manned := by
  have hnum : c.spawn.runners.map Runner.generation = List.range' 1 (c.generation + 1) := by
    rw [List.range'_concat, ← h.numbered, Control.spawn, List.map_append, Nat.add_comm]
    simp
  have hnew : ∀ r ∈ c.runners, c.generation + 1 ≠ r.generation := by
    intro r hr he
    have hm := h.numbered ▸ List.mem_map_of_mem (f := Runner.generation) hr
    have hb := (List.mem_range'_1.mp hm).2
    omega
  refine ⟨hnum, ?_, ?_, ?_⟩
  · intro r hr
    rcases List.mem_append.mp hr with hr | hr
    · have hs := h.signalled r hr
      rw [hn] at hs
      simp [Control.spawn, hs, hnew r hr]
    · rw [List.mem_singleton.mp hr]
      simp [Control.spawn]
  · intro r hr hh
    rcases List.mem_append.mp hr with hr | hr
    · exact absurd (Option.some.inj hh) (hnew r hr)
    · rw [List.mem_singleton.mp hr]
      nofun
  · intro g hg
    exact ⟨{ generation := c.generation + 1 }, by simp [Control.spawn], Option.some.inj hg⟩

private theorem Manned.retire (h : c.Manned) {g : Nat} (hg : c.held = some g) :
    (c.retire g).Manned := by
  refine ⟨?_, ?_, nofun, nofun⟩
  · rw [generations_retire]
    exact h.numbered
  · intro r hr
    obtain ⟨x, hx, rfl⟩ := mem_modify hr
    split
    · simp [Control.retire]
    · next hne =>
      have hs := h.signalled x hx
      rw [hg] at hs
      simp [Control.retire, hs, Ne.symm hne]

/-- After a start the runners are seen to. -/
private theorem Manned.tend (h : c.Manned) (hs : c.started = true) : c.tend.Served := by
  unfold Control.tend
  cases ha : c.state.active with
  | true =>
    rw [if_pos rfl]
    cases hg : c.held with
    | none =>
      exact ⟨h.spawn hg, by simp [Control.spawn, hs, ha]⟩
    | some g =>
      rw [Option.any_some, if_pos (h.isAlive hg)]
      exact ⟨h, by simp [hg, hs, ha]⟩
  | false =>
    rw [if_neg Bool.false_ne_true]
    cases hg : c.held with
    | none => exact ⟨h, by simp [hg, ha]⟩
    | some g => exact ⟨h.retire hg, by simp [Control.retire, Control.modify, ha]⟩

private theorem Served.setActivity (h : c.Served) (g : Nat) {a : Activity σ}
    (ha : a = .ended → c.held ≠ some g) : (c.setActivity g a).Served :=
  ⟨h.toManned.setActivity g ha, h.serving⟩

theorem Served.handle (h : c.Served) (e : Event) : (c.handle e).Served := by
  have hm : ({ c with state := c.state.next e } : Control σ).Manned := { h.toManned with }
  unfold Control.handle
  simp only
  split
  · next hs => exact hm.tend hs
  · next hs => exact ⟨hm, by simpa [hs] using h.serving⟩

theorem Served.start (h : c.Served) : c.start.Served := by
  unfold Control.start
  split
  · exact h
  · exact Manned.tend (c := { c with started := true }) { h.toManned with } rfl

theorem served_initial : ({} : Control σ).Served :=
  ⟨⟨rfl, nofun, nofun, nofun⟩, rfl⟩

/-! ## Acts -/

/-- The runner whose move an act is. -/
def Act.mover : Act → Option Nat
  | .look g | .read g | .finish g _ | .recheck g | .report g => some g
  | _ => none

/-- What an act may do: it starts, handles an event, or lets one runner stand somewhere else, which
may also hand in an event. A runner ends only if it was told to stop or there are no steps for the
state. -/
inductive Does (c : Control Pass) : Act → Control Pass → Prop
  | nothing {x : Act} : Does c x c
  | start : Does c .start c.start
  | handle {x : Act} (hx : x.mover = none) (e : Event) : Does c x (c.handle e)
  | stand {x : Act} {g : Nat} (hx : x.mover = some g) {a : Activity Pass}
      (ha : a = .ended → c.isSignalled g = true ∨ c.state.active = false) :
      Does c x (c.setActivity g a)
  | report (g : Nat) (e : Event) : Does c (.report g) ((c.setActivity g .poised).handleFrom g e)

theorem does_step (c : Control Pass) (x : Act) : c.Does x (c.step x) := by
  cases x with
  | start => exact .start
  | next e => exact .handle rfl e
  | nextIf expected e =>
    show c.Does _ (c.handleIf expected e)
    unfold handleIf
    split
    · exact .handle rfl e
    · exact .nothing
  | stop => exact .handle rfl .stopped
  | look g =>
    show c.Does _ (c.look g)
    unfold look
    split
    · refine .stand rfl fun ha => .inl ?_
      split at ha
      · next hs => exact hs
      · cases ha
    · exact .nothing
  | read g =>
    show c.Does _ (c.read g)
    unfold read
    split
    · refine .stand rfl fun ha => .inr ?_
      split at ha
      · cases ha
      · next hs => exact Bool.eq_false_iff.mpr hs
    · exact .nothing
  | finish g e =>
    show c.Does _ (c.finish g e)
    unfold finish
    split
    · exact .stand rfl nofun
    · exact .nothing
  | recheck g =>
    show c.Does _ (c.recheck g)
    unfold recheck
    split
    · refine .stand rfl fun ha => .inl ?_
      split at ha
      · next hs => exact hs
      · cases ha
    · exact .nothing
  | report g =>
    show c.Does _ (c.report g)
    unfold report
    split
    · split
      · exact .report g _
      · exact .stand rfl nofun
    · exact .nothing

/-- What is kept when runners stand somewhere else, events are handled and service starts is kept by
every act. -/
theorem step_keeps {P : Control Pass → Prop}
    (hset : ∀ (c : Control Pass) (g : Nat) (a : Activity Pass),
      (a = .ended → c.isSignalled g = true ∨ c.state.active = false) → P c → P (c.setActivity g a))
    (hhandle : ∀ (c : Control Pass) (e : Event), P c → P (c.handle e))
    (hstart : ∀ c : Control Pass, P c → P c.start) {c : Control Pass} (h : P c) (x : Act) :
    P (c.step x) := by
  have hdoes := c.does_step x
  generalize c.step x = d at hdoes ⊢
  cases hdoes with
  | nothing => exact h
  | start => exact hstart c h
  | handle _ e => exact hhandle c e h
  | stand _ ha => exact hset c _ _ ha h
  | report g e =>
    have hp := hset c g .poised nofun h
    unfold handleFrom
    split
    · exact hhandle _ e hp
    · exact hp

/-- Nothing that happens to a control leaves it without the runner that it needs. -/
theorem Served.step {c : Control Pass} (h : c.Served) (x : Act) : (c.step x).Served := by
  refine step_keeps (P := Served) ?_ (fun c e h => h.handle e) (fun c h => h.start) h x
  intro c g a ha h
  refine h.setActivity g fun he hg => ?_
  rcases ha he with hs | hs
  · rw [h.isSignalled_eq_false.mpr hg] at hs
    cases hs
  · -- A runner that finds a state without steps was retired when the state was entered.
    have hserving := h.serving
    rw [hg, hs, Bool.and_false] at hserving
    cases hserving

theorem Served.run {c : Control Pass} (h : c.Served) (acts : List Act) : (c.run acts).Served := by
  induction acts generalizing c with
  | nil => exact h
  | cons x acts ih => exact ih (h.step x)

/-- What of a control lasts: a later control has started, numbers its runners after the earlier
ones, does not hold a runner that was let go, and has stopped if the earlier one had. -/
structure Onward (c d : Control σ) : Prop where
  started : c.started = true → d.started = true
  generation : c.generation ≤ d.generation
  runners : c.runners.map Runner.generation <+: d.runners.map Runner.generation
  dismissed : ∀ g ≤ c.generation, c.held ≠ some g → d.held ≠ some g
  stopped : c.state = .stop → d.state = .stop

theorem Onward.refl (c : Control σ) : c.Onward c :=
  ⟨id, Nat.le_refl _, List.prefix_rfl, fun _ _ => id, id⟩

theorem Onward.trans {c d e : Control σ} (h : c.Onward d) (k : d.Onward e) : c.Onward e where
  started hs := k.started (h.started hs)
  generation := Nat.le_trans h.generation k.generation
  runners := h.runners.trans k.runners
  dismissed g hg hh := k.dismissed g (Nat.le_trans hg h.generation) (h.dismissed g hg hh)
  stopped hs := k.stopped (h.stopped hs)

private theorem onward_setActivity (c : Control σ) (g : Nat) (a : Activity σ) :
    c.Onward (c.setActivity g a) where
  started := id
  generation := Nat.le_refl _
  runners := c.generations_setActivity g a ▸ List.prefix_rfl
  dismissed _ _ := id
  stopped := id

private theorem onward_tend (c : Control σ) : c.Onward c.tend := by
  unfold tend
  split
  · split
    · exact .refl c
    · refine ⟨id, Nat.le_succ _, ?_, fun g hg _ hh => ?_, id⟩
      · rw [spawn, List.map_append]
        exact List.prefix_append _ _
      · cases hh
        exact Nat.not_succ_le_self _ hg
  · split
    · next g _ =>
      exact ⟨id, Nat.le_refl _, c.generations_retire g ▸ List.prefix_rfl, nofun, id⟩
    · exact .refl c

private theorem onward_handle (c : Control σ) (e : Event) : c.Onward (c.handle e) := by
  have hstate : c.Onward { c with state := c.state.next e } :=
    ⟨id, Nat.le_refl _, List.prefix_rfl, fun _ _ => id, fun hs => by
      rw [hs]
      exact State.next_stop e⟩
  unfold handle
  simp only
  split
  · exact hstate.trans (onward_tend _)
  · exact hstate

private theorem onward_start (c : Control σ) : c.Onward c.start := by
  unfold start
  split
  · exact .refl c
  · have hstarted : c.Onward { c with started := true } :=
      ⟨fun _ => rfl, Nat.le_refl _, List.prefix_rfl, fun _ _ => id, id⟩
    exact hstarted.trans (onward_tend _)

theorem onward_step (c : Control Pass) (x : Act) : c.Onward (c.step x) :=
  step_keeps (fun d g a _ h => h.trans (onward_setActivity d g a))
    (fun d e h => h.trans (onward_handle d e)) (fun d h => h.trans (onward_start d)) (.refl c) x

theorem onward_run (c : Control Pass) (acts : List Act) : c.Onward (c.run acts) := by
  induction acts generalizing c with
  | nil => exact .refl c
  | cons x acts ih => exact (onward_step c x).trans (ih _)

/-- A control has started once `start` is among the acts. -/
theorem started_run {c : Control Pass} {acts : List Act} (h : .start ∈ acts) :
    (c.run acts).started = true := by
  obtain ⟨before, after, rfl⟩ := List.append_of_mem h
  rw [run, List.foldl_append, List.foldl_cons]
  exact (onward_run _ after).started (started_start _)

/-! ## Who counts -/

/-- A runner that is not the held one moves itself and nothing else. -/
theorem step_of_not_held {c : Control Pass} {g : Nat} (hg : c.held ≠ some g) {x : Act}
    (hx : x.mover = some g) : c.step x = c ∨ ∃ a, c.step x = c.setActivity g a := by
  have hdoes := c.does_step x
  generalize c.step x = d at hdoes ⊢
  cases hdoes with
  | nothing => exact .inl rfl
  | start => cases hx
  | handle hnone e => cases hnone.symm.trans hx
  | stand hmover _ =>
    cases hmover.symm.trans hx
    exact .inr ⟨_, rfl⟩
  | report g' e =>
    cases hx
    exact .inr ⟨.poised, if_neg hg⟩

/-- The held runner is the only one that was not told to stop. -/
theorem Manned.filter_eq (h : c.Manned) {g : Nat} (hg : c.held = some g) :
    ∃ r, c.runners.filter (fun r => !r.signalled) = [r] ∧ r.generation = g ∧
      r.activity ≠ .ended := by
  obtain ⟨r, hr, rfl⟩ := h.present g hg
  refine ⟨r, ?_, rfl, h.working r hr hg⟩
  have hd : c.runners.Nodup := .of_map Runner.generation (h.numbered ▸ List.nodup_range')
  refine List.perm_singleton.mp
    ((List.perm_ext_iff_of_nodup (hd.filter _) (List.nodup_singleton r)).mpr fun s => ?_)
  rw [List.mem_filter, List.mem_singleton, Bool.not_eq_true']
  constructor
  · rintro ⟨hs, hsig⟩
    have hh := (h.signalled s hs).mp hsig
    rw [hg] at hh
    exact h.eq_of_generation hs hr (Option.some.inj hh).symm
  · rintro rfl
    exact ⟨hr, (h.signalled s hr).mpr hg⟩

/-- Whatever happens to a control and in whatever order its runners move: after a start, if the
state is an active one, exactly one runner was not told to stop, which is the held one and has not
ended. While a member runs, and once it has stopped, no runner is held and all were told to stop. A
runner that is not the held one never is again, and changes neither the state nor who is held nor
who was started. The runners have rising numbers, and a member that has stopped has stopped for
good. -/
theorem run_serves (acts more : List Act) :
    let c := ({} : Control Pass).run acts
    let d := c.run more
    (.start ∈ acts → c.state.active = true →
      ∃ r, c.runners.filter (fun r => !r.signalled) = [r] ∧ c.held = some r.generation ∧
        r.activity ≠ .ended) ∧
    (c.state = .running ∨ c.state = .stop →
      c.held = none ∧ ∀ r ∈ c.runners, r.signalled = true) ∧
    (∀ g ≤ c.generation, c.held ≠ some g →
      d.held ≠ some g ∧ ∀ x : Act, x.mover = some g →
        (d.step x).state = d.state ∧ (d.step x).held = d.held ∧
          (d.step x).runners.map Runner.generation = d.runners.map Runner.generation) ∧
    (c.runners.map Runner.generation).Pairwise (· < ·) ∧
    c.runners.map Runner.generation <+: d.runners.map Runner.generation ∧
    (c.state = .stop → d.state = .stop) := by
  intro c d
  have h : c.Served := served_initial.run acts
  have hd : c.Onward d := onward_run c more
  refine ⟨fun hs ha => ?_, fun hs => ?_, fun g hg hh => ?_, ?_, hd.runners, hd.stopped⟩
  · have hsome : c.held.isSome = true := by rw [h.serving, started_run hs, ha, Bool.and_true]
    obtain ⟨g, hg⟩ := Option.isSome_iff_exists.mp hsome
    obtain ⟨r, hr, rfl, hw⟩ := h.filter_eq hg
    exact ⟨r, hr, hg, hw⟩
  · have ha : c.state.active = false := by rcases hs with hs | hs <;> rw [hs] <;> rfl
    have hnone : c.held = none := by
      have hserving := h.serving
      rw [ha, Bool.and_false] at hserving
      exact Option.isNone_iff_eq_none.mp (Option.isSome_eq_false_iff.mp hserving)
    refine ⟨hnone, fun r hr => ?_⟩
    have hsig := h.signalled r hr
    rw [hnone] at hsig
    exact Bool.of_not_eq_false fun hf => nomatch hsig.mp hf
  · have hheld := hd.dismissed g hg hh
    refine ⟨hheld, fun x hx => ?_⟩
    rcases step_of_not_held hheld hx with he | ⟨a, he⟩
    · rw [he]
      exact ⟨rfl, rfl, rfl⟩
    · rw [he]
      exact ⟨rfl, rfl, d.generations_setActivity g a⟩
  · rw [h.numbered]
    exact List.pairwise_lt_range'

/-- The event of a runner counts for nothing if another one was started before it is handed in. -/
example :
    let c := ({} : Control Pass).run [.start, .look 1, .read 1, .finish 1 (some .clusterDefined),
      .recheck 1, .next .clusterDefined, .next .announced, .next .reset, .report 1]
    c.state = .getCluster ∧ c.held = some 2 := by
  decide

end Control

end Rollcall
