import Rollcall.Step

/-!
# What control does

Every operation of the control leaves the cluster id alone and moves the state, if at all, by one
event. What runners wait for changes only when a runner is told to wait for something else. Unless
all is over only the held runner is at work, so no runner is inside a step while a member runs.
-/

namespace Rollcall

namespace State

/-- Whether a member in this state knows its cluster. -/
def isSettled : State → Bool
  | announce | clearAnnounce | running => true
  | _ => false

/-- A member gets to run by having been announced. -/
theorem next_eq_running {s : State} {e : Event} (h : s.next e = running) :
    s = running ∨ e = .announced := by
  revert h
  cases s <;> cases e <;> decide

/-- A member settles by having its cluster defined or created. -/
theorem isSettled_of_next {s : State} {e : Event} (h : (s.next e).isSettled = true) :
    s.isSettled = true ∨ e = .clusterDefined ∨ e = .clusterCreated := by
  revert h
  cases s <;> cases e <;> decide

end State

namespace Control

variable {σ : Type} (c : Control σ)

/-- All that runners wait for has a property. -/
def AllWait (P : σ → Prop) : Prop := ∀ r ∈ c.runners, ∀ w, r.activity = .within w → P w

@[simp] theorem state_setActivity (g : Nat) (a : Activity σ) :
    (c.setActivity g a).state = c.state := rfl

@[simp] theorem clusterId_setActivity (g : Nat) (a : Activity σ) :
    (c.setActivity g a).clusterId = c.clusterId := rfl

@[simp] theorem state_tend : c.tend.state = c.state := by
  unfold tend
  split
  · split <;> rfl
  · split <;> rfl

@[simp] theorem clusterId_tend : c.tend.clusterId = c.clusterId := by
  unfold tend
  split
  · split <;> rfl
  · split <;> rfl

@[simp] theorem state_handle (e : Event) : (c.handle e).state = c.state.next e := by
  unfold handle
  simp only
  split
  · rw [state_tend]
  · rfl

@[simp] theorem clusterId_handle (e : Event) : (c.handle e).clusterId = c.clusterId := by
  unfold handle
  simp only
  split
  · rw [clusterId_tend]
  · rfl

@[simp] theorem state_start : c.start.state = c.state := by
  unfold start
  split
  · rfl
  · rw [state_tend]

@[simp] theorem clusterId_start : c.start.clusterId = c.clusterId := by
  unfold start
  split
  · rfl
  · rw [clusterId_tend]

@[simp] theorem started_setActivity (g : Nat) (a : Activity σ) :
    (c.setActivity g a).started = c.started := rfl

@[simp] theorem started_tend : c.tend.started = c.started := by
  unfold tend
  split
  · split <;> rfl
  · split <;> rfl

@[simp] theorem started_start : c.start.started = true := by
  unfold start
  split
  · next h => exact h
  · rw [started_tend]

@[simp] theorem started_handle (e : Event) : (c.handle e).started = c.started := by
  unfold handle
  simp only
  split
  · rw [started_tend]
  · rfl

variable {c} {P : σ → Prop}

theorem AllWait.modify (h : c.AllWait P) (g : Nat) {f : Runner σ → Runner σ}
    (hf : ∀ r w, (f r).activity = .within w → r.activity = .within w ∨ P w) :
    (c.modify g f).AllWait P := by
  intro r hr w hw
  obtain ⟨x, hx, rfl⟩ := List.mem_map.mp hr
  split at hw
  · exact (hf x w hw).elim (h x hx w) id
  · exact h x hx w hw

theorem AllWait.setActivity (h : c.AllWait P) (g : Nat) {a : Activity σ}
    (ha : ∀ w, a = .within w → P w) : (c.setActivity g a).AllWait P :=
  h.modify g fun _ w hw => .inr (ha w hw)

theorem AllWait.tend (h : c.AllWait P) : c.tend.AllWait P := by
  unfold Control.tend
  split
  · split
    · exact h
    · intro r hr w hw
      rcases List.mem_append.mp hr with hr | hr
      · exact h r hr w hw
      · cases List.mem_singleton.mp hr
        cases hw
  · split
    · exact h.modify _ fun r w hw => .inl hw
    · exact h

theorem AllWait.handle (h : c.AllWait P) (e : Event) : (c.handle e).AllWait P := by
  unfold Control.handle
  simp only
  split
  · exact AllWait.tend (c := { c with state := c.state.next e }) h
  · exact h

theorem AllWait.start (h : c.AllWait P) : c.start.AllWait P := by
  unfold Control.start
  split
  · exact h
  · exact AllWait.tend (c := { c with started := true }) h

/-- A runner waits for what was said of it. -/
theorem AllWait.of_activity (h : c.AllWait P) {g : Nat} {w : σ}
    (hw : (c.runner? g).map Runner.activity = some (.within w)) : P w := by
  obtain ⟨r, hr, ha⟩ := Option.map_eq_some_iff.mp hw
  exact h r (List.mem_of_find?_eq_some hr) w ha

/-- A runner that comes out of its step leaves the control as it is, apart from where the runner
stands, or has its event handled. -/
theorem leave_cases (c : Control σ) (g : Nat) (e : Option Event) :
    (∃ a, (∀ w, a ≠ .within w) ∧ c.leave g e = c.setActivity g a) ∨
      ∃ e', e = some e' ∧ c.leave g e = (c.setActivity g .poised).handle e' := by
  unfold leave
  split
  · exact .inl ⟨.ended, by simp, rfl⟩
  · cases e with
    | none => exact .inl ⟨.poised, by simp, rfl⟩
    | some e =>
      simp only [handleFrom]
      split
      · exact .inr ⟨e, rfl, rfl⟩
      · exact .inl ⟨.poised, by simp, rfl⟩

theorem started_leave (c : Control σ) (g : Nat) (e : Option Event) :
    (c.leave g e).started = c.started := by
  rcases c.leave_cases g e with ⟨a, -, hl⟩ | ⟨e', -, hl⟩
  · rw [hl, started_setActivity]
  · rw [hl, started_handle, started_setActivity]

theorem clusterId_leave (c : Control σ) (g : Nat) (e : Option Event) :
    (c.leave g e).clusterId = c.clusterId := by
  rcases c.leave_cases g e with ⟨a, -, hl⟩ | ⟨e', -, hl⟩
  · rw [hl, clusterId_setActivity]
  · rw [hl, clusterId_handle, clusterId_setActivity]

end Control

/-! ## Order among the runners -/

/-- Whether a runner may still act on the state: it was not told to stop, or is inside a step. -/
def Runner.AtWork {σ : Type} (r : Runner σ) : Prop :=
  (r.signalled = false ∧ r.activity ≠ .ended) ∨ ∃ w, r.activity = .within w

namespace Control

/-- Runners have numbers of their own, the held one was not told to stop, and unless all is over
only the held one may be at work. -/
structure Staffed (c : Control σ) : Prop where
  numbered : ∀ r ∈ c.runners, r.generation ≤ c.generation
  unique : ∀ r ∈ c.runners, ∀ s ∈ c.runners, r.generation = s.generation → r = s
  unsignalled : ∀ r ∈ c.runners, c.held = some r.generation → r.signalled = false
  held : c.state ≠ .stop → ∀ r ∈ c.runners, r.AtWork → c.held = some r.generation

/-- A control in order: a runner is held only for a state to work on, once there was a start. -/
structure Orderly (c : Control σ) : Prop extends Staffed c where
  serving : c.held.isSome = true → c.started = true ∧ c.state.active = true
  begun : c.state = .running → c.started = true

variable {σ : Type} {c : Control σ}

/-- No runner is inside a step. -/
def Quiet (c : Control σ) : Prop := ∀ r ∈ c.runners, ∀ w, r.activity ≠ .within w

theorem Staffed.of_runner? (h : c.Staffed) {g : Nat} {r : Runner σ} (hr : r ∈ c.runners)
    (hg : r.generation = g) : c.runner? g = some r := by
  cases hf : c.runner? g with
  | none =>
    have hn := List.find?_eq_none.mp hf r hr
    simp [hg] at hn
  | some s =>
    have hs : s.generation = g := by simpa using List.find?_some hf
    rw [h.unique s (List.mem_of_find?_eq_some hf) r hr (hs.trans hg.symm)]

/-- While a member runs no runner is inside a step. -/
theorem Orderly.quiet (h : c.Orderly) (hs : c.state = .running) : c.Quiet := by
  intro r hr w hw
  have hh := h.held (by rw [hs]; decide) r hr (.inr ⟨w, hw⟩)
  have ha := (h.serving (by rw [hh]; rfl)).2
  rw [hs] at ha
  cases ha

/-- A runner that waits inside a step, or is about to begin one, is the held one. -/
theorem Orderly.held_of_activity (h : c.Orderly) {g : Nat} {a : Activity σ}
    (ha : (c.runner? g).map Runner.activity = some a)
    (hw : (∃ w, a = .within w) ∨ (a ≠ .ended ∧ c.isSignalled g = false)) (hs : c.state ≠ .stop) :
    c.held = some g := by
  obtain ⟨r, hf, rfl⟩ := Option.map_eq_some_iff.mp ha
  have hg : r.generation = g := by simpa using List.find?_some hf
  rw [← hg]
  refine h.held hs r (List.mem_of_find?_eq_some hf) ?_
  rcases hw with hw | ⟨hne, hsig⟩
  · exact .inr hw
  · rw [isSignalled, hf] at hsig
    exact .inl ⟨hsig, hne⟩

private theorem Staffed.modify (h : c.Staffed) (g : Nat) {f : Runner σ → Runner σ}
    (hg : ∀ r, (f r).generation = r.generation)
    (hs : c.held = some g → ∀ r, r.signalled = false → (f r).signalled = false)
    (hw : c.state ≠ .stop → c.held ≠ some g → ∀ r, ¬(f r).AtWork) : (c.modify g f).Staffed := by
  have hgen : ∀ r : Runner σ, (if r.generation = g then f r else r).generation = r.generation := by
    intro r
    split
    · exact hg r
    · rfl
  refine ⟨?_, ?_, ?_, ?_⟩
  · intro r hr
    obtain ⟨x, hx, rfl⟩ := List.mem_map.mp hr
    rw [hgen]
    exact h.numbered x hx
  · intro r hr s hs he
    obtain ⟨x, hx, rfl⟩ := List.mem_map.mp hr
    obtain ⟨y, hy, rfl⟩ := List.mem_map.mp hs
    rw [hgen, hgen] at he
    rw [h.unique x hx y hy he]
  · intro r hr hh
    obtain ⟨x, hx, rfl⟩ := List.mem_map.mp hr
    rw [hgen] at hh
    have hu := h.unsignalled x hx hh
    split
    · next he => exact hs (he ▸ hh) x hu
    · exact hu
  · intro hstop r hr hr'
    obtain ⟨x, hx, rfl⟩ := List.mem_map.mp hr
    rw [hgen]
    split at hr'
    · next he =>
      rw [he]
      cases Decidable.em (c.held = some g) with
      | inl hh => exact hh
      | inr hh => exact absurd hr' (hw hstop hh x)
    · exact h.held hstop x hx hr'

/-- A runner may be said to stand anywhere if it is the held one, and to have ended in any case. -/
theorem Orderly.setActivity (h : c.Orderly) (g : Nat) {a : Activity σ}
    (ha : a = .ended ∨ (c.state ≠ .stop → c.held = some g)) : (c.setActivity g a).Orderly where
  toStaffed := by
    refine h.toStaffed.modify g (fun _ => rfl) (fun _ _ hr => hr) ?_
    intro hs hn r hr
    rcases ha with rfl | ha
    · rcases hr with ⟨_, hne⟩ | ⟨w, hw⟩
      · exact hne rfl
      · cases hw
    · exact hn (ha hs)
  serving := h.serving
  begun := h.begun

private theorem Staffed.spawn (h : c.Staffed) (hh : c.held.any c.isAlive = false) :
    c.spawn.Staffed := by
  have hnew : ∀ r ∈ c.runners, r.generation ≠ c.generation + 1 := fun r hr => by
    have hn := h.numbered r hr
    omega
  refine ⟨?_, ?_, ?_, ?_⟩
  · intro r hr
    show r.generation ≤ c.generation + 1
    rcases List.mem_append.mp hr with hr | hr
    · exact Nat.le_succ_of_le (h.numbered r hr)
    · exact Nat.le_of_eq (by rw [List.mem_singleton.mp hr])
  · intro r hr s hs he
    rcases List.mem_append.mp hr with hr | hr
    · rcases List.mem_append.mp hs with hs | hs
      · exact h.unique r hr s hs he
      · rw [List.mem_singleton.mp hs] at he
        exact absurd he (hnew r hr)
    · rcases List.mem_append.mp hs with hs | hs
      · rw [List.mem_singleton.mp hr] at he
        exact absurd he.symm (hnew s hs)
      · rw [List.mem_singleton.mp hr, List.mem_singleton.mp hs]
  · intro r hr hg
    rcases List.mem_append.mp hr with hr | hr
    · exact absurd (Option.some.inj hg).symm (hnew r hr)
    · rw [List.mem_singleton.mp hr]
  · intro hstop r hr hw
    rcases List.mem_append.mp hr with hr | hr
    · -- The runner held until now is not alive, so it is not at work.
      have hg := h.held hstop r hr hw
      have hsig := h.unsignalled r hr hg
      rw [hg] at hh
      simp only [Option.any_some, isAlive, hasEnded, isSignalled, h.of_runner? hr rfl,
        Option.all_some, hsig, Bool.not_false, Bool.and_true, Bool.not_eq_eq_eq_not] at hh
      rcases hw with ⟨_, hne⟩ | ⟨w, hw⟩
      · cases ha : r.activity with
        | ended => exact absurd ha hne
        | poised => rw [ha] at hh; cases hh
        | within w => rw [ha] at hh; cases hh
      · rw [hw] at hh
        cases hh
    · rw [List.mem_singleton.mp hr]
      rfl

private theorem Staffed.retire (h : c.Staffed) {g : Nat} (hg : c.held = some g)
    (hq : c.state ≠ .stop → c.Quiet) : (c.retire g).Staffed := by
  have hm : ∀ r ∈ (c.retire g).runners, ∃ x ∈ c.runners,
      r.generation = x.generation ∧
        r = if x.generation = g then { x with signalled := true } else x := by
    intro r hr
    obtain ⟨x, hx, rfl⟩ := List.mem_map.mp hr
    refine ⟨x, hx, ?_, rfl⟩
    split <;> rfl
  refine ⟨?_, ?_, ?_, ?_⟩
  · intro r hr
    obtain ⟨x, hx, hgen, _⟩ := hm r hr
    rw [hgen]
    exact h.numbered x hx
  · intro r hr s hs he
    obtain ⟨x, hx, hgx, rfl⟩ := hm r hr
    obtain ⟨y, hy, hgy, rfl⟩ := hm s hs
    rw [h.unique x hx y hy (hgx.symm.trans (he.trans hgy))]
  · intro r _ hh
    cases hh
  · intro hstop r hr hw
    obtain ⟨x, hx, _, rfl⟩ := hm r hr
    split at hw
    · rcases hw with ⟨hs, _⟩ | ⟨w, hw⟩
      · cases hs
      · exact absurd hw (hq hstop x hx w)
    · next hne =>
      have hxg := h.held hstop x hx hw
      rw [hg] at hxg
      exact absurd (Option.some.inj hxg).symm hne

private theorem Staffed.tend (h : c.Staffed) (hs : c.started = true)
    (hq : c.state = .running → c.Quiet) : c.tend.Orderly := by
  have hbegun : c.tend.state = .running → c.tend.started = true := by
    intro _
    unfold Control.tend
    split
    · split <;> exact hs
    · split <;> exact hs
  unfold Control.tend at hbegun ⊢
  split at hbegun
  · next ha =>
    rw [if_pos ha]
    split at hbegun
    · next hh =>
      rw [if_pos hh]
      exact ⟨h, fun _ => ⟨hs, ha⟩, hbegun⟩
    · next hh =>
      rw [if_neg hh]
      exact ⟨h.spawn (by simpa using hh), fun _ => ⟨hs, ha⟩, hbegun⟩
  · next ha =>
    rw [if_neg ha]
    split at hbegun
    · next g hg =>
      refine ⟨?_, fun hh => (nomatch hh), hbegun⟩
      refine h.retire hg fun hstop => hq ?_
      cases hc : c.state <;> simp_all [State.active]
    · next hn => exact ⟨h, fun hh => (by rw [hn] at hh; cases hh), hbegun⟩

/-- A control stays in order when an event is handled, if no runner is inside a step when the
member gets to run. -/
theorem Orderly.handle (h : c.Orderly) {e : Event}
    (he : c.state.next e = .running → c.started = true ∧ c.Quiet) : (c.handle e).Orderly := by
  have hst : ({ c with state := c.state.next e } : Control σ).Staffed :=
    { h.toStaffed with
      held := fun hstop => h.held fun hs => hstop (by
        show c.state.next e = .stop
        rw [hs, State.next_stop]) }
  unfold Control.handle
  simp only
  split
  · next hs => exact hst.tend hs fun hr => (he hr).2
  · next hs =>
    exact ⟨hst, fun hh => absurd (h.serving hh).1 hs, fun hr => (he hr).1⟩

theorem Orderly.start (h : c.Orderly) : c.start.Orderly := by
  unfold Control.start
  split
  · exact h
  · exact Staffed.tend (c := { c with started := true }) { h.toStaffed with } rfl h.quiet

/-- A control stays in order when its held runner comes out of a step. -/
theorem Orderly.leave (h : c.Orderly) {g : Nat} (hg : c.state ≠ .stop → c.held = some g)
    (e : Option Event) : (c.leave g e).Orderly := by
  unfold Control.leave
  split
  · exact h.setActivity g (.inl rfl)
  · have hp := h.setActivity g (a := .poised) (.inr hg)
    cases e with
    | none => exact hp
    | some e =>
      simp only [handleFrom]
      split
      · next hh =>
        refine hp.handle fun hr => ⟨(hp.serving (by rw [hh]; rfl)).1, fun r hr' w hw => ?_⟩
        have hstop : (c.setActivity g .poised).state ≠ .stop := fun hs => by
          rw [hs, State.next_stop] at hr
          cases hr
        have hgen := hp.held hstop r hr' (.inr ⟨w, hw⟩)
        rw [hh] at hgen
        obtain ⟨x, _, rfl⟩ := List.mem_map.mp hr'
        split at hw
        · cases hw
        · next hne =>
          rw [if_neg hne] at hgen
          exact hne (Option.some.inj hgen).symm
      · exact hp

end Control

/-! ## What steps do to the control -/

namespace Step

private theorem control_resolved (m : Member) (r : IdResult) :
    ∃ id, (resolved m r).1.control = { m.control with clusterId := id } := by
  unfold resolved
  split
  · exact ⟨_, rfl⟩
  · exact ⟨_, rfl⟩
  · exact ⟨_, rfl⟩

private theorem control_defined (m : Member) (r : IdResult) :
    ∃ id, (defined m r).1.control = { m.control with clusterId := id } := by
  unfold defined
  split
  · exact ⟨_, rfl⟩
  · exact ⟨_, rfl⟩

/-- The first part of a step leaves the control alone but for the cluster id. -/
theorem control_begin (m : Member) (s : State) :
    ∃ id, (begin m s).1.control = { m.control with clusterId := id } := by
  cases s with
  | getCluster =>
    rw [begin]
    split
    · exact control_resolved { m with naming := _ } _
    · exact ⟨_, rfl⟩
  | createCluster =>
    rw [begin]
    split
    · exact control_defined { m with naming := _ } _
    · exact ⟨_, rfl⟩
  | announce =>
    simp only [begin]
    split
    · exact ⟨_, rfl⟩
    · exact ⟨_, rfl⟩
  | clearAnnounce => exact ⟨_, rfl⟩
  | running => exact ⟨_, rfl⟩
  | stop => exact ⟨_, rfl⟩

private theorem control_announceIn (m : Member) (id : String) (l : Listing) :
    (announceIn m id l).1.control = m.control := by
  unfold announceIn
  split
  · rfl
  · rfl

private theorem control_confirm (m : Member) (key : String) (l : Listing) :
    (confirm m key l).1.control = m.control := by
  unfold confirm
  split
  · split
    · rfl
    · rfl
  · rfl

/-- What follows an answer leaves the control alone but for the cluster id. -/
theorem control_answered (m : Member) (asked : Asked) (answer : Store.Answer) :
    ∃ id, (answered m asked answer).1.control = { m.control with clusterId := id } := by
  cases asked with
  | resolving => exact control_resolved (m.accept _ _).1 _
  | claiming candidate =>
    simp only [answered]
    split
    · exact control_defined (m.accept _ _).1 _
    · exact ⟨_, rfl⟩
    · exact control_defined (m.accept _ _).1 _
  | rereading refusal => exact control_defined (m.accept _ _).1 _
  | listing id =>
    simp only [answered]
    split
    · exact ⟨_, control_announceIn _ _ _⟩
    · exact ⟨_, rfl⟩
  | creating d =>
    simp only [answered]
    split
    · exact ⟨_, rfl⟩
    · exact ⟨_, rfl⟩
  | confirming key =>
    simp only [answered]
    split
    · exact ⟨_, control_confirm _ _ _⟩
    · exact ⟨_, rfl⟩

end Step

namespace Member

/-- The member of a configuration is put together from its parts; only who contributes properties
depends on whether it has any. -/
theorem ofConfig_eq (c : Config) (naming : Option Naming) :
    ∃ contributors, ofConfig c naming =
      { make c.self c.store.root
          (naming.elim (Naming.ofConfig c.cluster c.self.id) fun i =>
            if i.supported then i else Naming.ofConfigured c.cluster.id c.cluster.defaultId)
          c.backOff.announcerBackOff.longest.timeToLive c.backOff with contributors } := by
  cases naming <;>
  · simp only [ofConfig]
    split
    · exact ⟨_, rfl⟩
    · exact ⟨_, rfl⟩

@[simp] theorem control_ofConfig (c : Config) (naming : Option Naming) :
    (ofConfig c naming).control = {} := by
  obtain ⟨_, he⟩ := ofConfig_eq c naming
  rw [he]
  rfl

end Member

end Rollcall
