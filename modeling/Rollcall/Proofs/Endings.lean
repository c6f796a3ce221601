import Rollcall.Proofs.Turns

/-!
# Parts that are up

A part is up from its start until it ends. A runner that is up is held or remembered as retired, so
whoever waits for these waits for every runner. Once all is over nothing comes up, whichever part
goes on; and a part that has ended asks the store for nothing, and neither an answer nor waking it
up changes anything.
-/

namespace Rollcall

open Store (Answer)
open Attendance (hasBegun)

/-! ## Runners that have not ended -/

namespace Control

variable {σ : Type} {c : Control σ} {g n : Nat}

/-- The runner of a generation was started and has not ended. -/
def Up (c : Control σ) (g : Nat) : Prop :=
  ∃ r ∈ c.runners, r.generation = g ∧ r.activity ≠ .ended

theorem up_of_hasEnded (h : c.hasEnded g = false) : c.Up g := by
  rw [hasEnded] at h
  cases hr : c.runner? g with
  | none => rw [hr] at h; cases h
  | some r =>
    refine ⟨r, List.mem_of_find?_eq_some hr, by simpa using List.find?_some hr, fun ha => ?_⟩
    rw [hr, Option.all_some, ha] at h
    cases h

theorem up_of_activity {a : Activity σ} (h : (c.runner? g).map Runner.activity = some a)
    (ha : a ≠ .ended) : c.Up g := by
  obtain ⟨r, hr, rfl⟩ := Option.map_eq_some_iff.mp h
  exact ⟨r, List.mem_of_find?_eq_some hr, by simpa using List.find?_some hr, ha⟩

theorem Staffed.hasEnded_of_up (h : c.Staffed) (hg : c.Up g) : c.hasEnded g = false := by
  obtain ⟨r, hr, hgen, ha⟩ := hg
  rw [hasEnded, h.of_runner? hr hgen, Option.all_some]
  cases hact : r.activity with
  | ended => exact absurd hact ha
  | _ => rfl

/-- A runner that is up after one that was up stands elsewhere was up before. -/
theorem up_of_setActivity (hg : c.Up g) {a : Activity σ} (h : (c.setActivity g a).Up n) :
    c.Up n := by
  obtain ⟨r, hr, rfl, ha⟩ := h
  obtain ⟨x, hx, rfl⟩ := List.mem_map.mp hr
  by_cases he : x.generation = g
  · rw [if_pos he]
    exact he ▸ hg
  · rw [if_neg he] at ha ⊢
    exact ⟨x, hx, rfl, ha⟩

/-- Every runner that is up is held, or is remembered as retired. -/
def Accounted (c : Control σ) : Prop := ∀ g, c.Up g → c.held = some g ∨ g ∈ c.retired

theorem Accounted.setActivity (h : c.Accounted) (hg : c.Up g) (a : Activity σ) :
    (c.setActivity g a).Accounted := fun n hn => h n (up_of_setActivity hg hn)

private theorem up_of_retire (h : (c.retire g).Up n) : c.Up n := by
  obtain ⟨r, hr, rfl, ha⟩ := h
  obtain ⟨x, hx, rfl⟩ := List.mem_map.mp hr
  refine ⟨x, hx, ?_, ?_⟩
  · split <;> rfl
  · split at ha <;> exact ha

private theorem Accounted.spawn (h : c.Accounted) (hs : c.Staffed)
    (hh : c.held.any c.isAlive = false) : c.spawn.Accounted := by
  intro n hn
  obtain ⟨r, hr, rfl, ha⟩ := hn
  rcases List.mem_append.mp hr with hr | hr
  · rcases h _ ⟨r, hr, rfl, ha⟩ with hheld | hret
    · -- The runner held until now was not told to stop, so it has ended.
      have hsig : c.isSignalled r.generation = false := by
        rw [isSignalled, hs.of_runner? hr rfl, Option.all_some]
        exact hs.unsignalled r hr hheld
      rw [hheld, Option.any_some, isAlive, hs.hasEnded_of_up ⟨r, hr, rfl, ha⟩, hsig] at hh
      cases hh
    · exact .inr hret
  · rw [List.mem_singleton.mp hr]
    exact .inl rfl

private theorem Accounted.retire (h : c.Accounted) (hs : c.Staffed) (hg : c.held = some g) :
    (c.retire g).Accounted := by
  intro n hn
  right
  have hup := up_of_retire hn
  rcases h n hup with hheld | hret
  · rw [hg] at hheld
    cases hheld
    exact List.mem_append_right _ (List.mem_singleton.mpr rfl)
  · refine List.mem_append_left _ (List.mem_filter.mpr ⟨hret, ?_⟩)
    rw [hs.hasEnded_of_up hup]
    rfl

theorem Accounted.tend (h : c.Accounted) (hs : c.Staffed) : c.tend.Accounted := by
  unfold Control.tend
  split
  · split
    · exact h
    · next hh => exact h.spawn hs (by simpa using hh)
  · split
    · next g hg => exact h.retire hs hg
    · exact h

/-- The runners stay accounted for when an event is handled. -/
theorem Accounted.handle (h : c.Accounted) (hs : c.Orderly) (e : Event) :
    (c.handle e).Accounted := by
  have hst : ({ c with state := c.state.next e } : Control σ).Staffed :=
    { hs.toStaffed with
      held := fun hstop => hs.held fun hs => hstop (by
        show c.state.next e = .stop
        rw [hs, State.next_stop]) }
  unfold Control.handle
  simp only
  split
  · exact Accounted.tend (c := { c with state := c.state.next e }) h hst
  · exact h

theorem Accounted.start (h : c.Accounted) (hs : c.Orderly) : c.start.Accounted := by
  unfold Control.start
  split
  · exact h
  · exact Accounted.tend (c := { c with started := true }) h { hs.toStaffed with }

/-- The runners stay accounted for when one of them leaves its step. -/
theorem Accounted.leave (h : c.Accounted) (ho : c.Orderly) (hg : c.Up g) (e : Option Event) :
    (c.leave g e).Accounted := by
  unfold Control.leave
  split
  · exact h.setActivity hg .ended
  · cases e with
    | none => exact h.setActivity hg .poised
    | some e =>
      simp only [handleFrom]
      split
      · next hh => exact (h.setActivity hg .poised).handle (ho.setActivity g (.inr fun _ => hh)) e
      · exact h.setActivity hg .poised

theorem Accounted.afterRound (h : c.Accounted) (ho : c.Orderly) (e : Option Event) :
    (c.afterRound e).Accounted := by
  cases e with
  | none => exact h
  | some e =>
    rw [Control.afterRound, handleIf]
    split
    · exact h.handle ho e
    · exact h

theorem Orderly.held_of_stop (h : c.Orderly) (hs : c.state = .stop) : c.held = none := by
  cases hh : c.held with
  | none => rfl
  | some g =>
    have ha := (h.serving (by rw [hh]; rfl)).2
    rw [hs] at ha
    cases ha

/-- Once all is over nothing is left to do for the control. -/
theorem Orderly.handle_of_stop (h : c.Orderly) (hs : c.state = .stop) (e : Event) :
    c.handle e = c := by
  have hheld := h.held_of_stop hs
  have he : ({ c with state := c.state.next e } : Control σ) = c := by
    rw [hs, State.next_stop, ← hs]
  have ht : c.tend = c := by
    unfold Control.tend
    rw [hs, hheld]
    rfl
  unfold Control.handle
  simp only [he, ht, ite_self]

/-- Once all is over no runner comes up. -/
theorem up_of_handle {e : Event} (hs : c.state = .stop) (h : (c.handle e).Up n) : c.Up n := by
  unfold Control.handle at h
  simp only at h
  split at h
  · unfold Control.tend at h
    simp only [hs, State.next_stop] at h
    split at h
    · next ha => cases ha
    · split at h
      · exact up_of_retire (c := { c with state := .stop }) h
      · exact h
  · exact h

theorem up_of_leave (hs : c.state = .stop) (hg : c.Up g) {e : Option Event}
    (h : (c.leave g e).Up n) : c.Up n := by
  rcases c.leave_cases g e with ⟨a, -, hl⟩ | ⟨e', -, hl⟩
  · exact up_of_setActivity hg (hl ▸ h)
  · exact up_of_setActivity hg (up_of_handle (c := c.setActivity g .poised) hs (hl ▸ h))

end Control

/-! ## Parts that have not ended -/

namespace Session

variable {s s' : Session} {p q : Part} {input : Option Answer} {g : Nat}

/-- A part was started and has not ended. -/
def IsUp (s : Session) (p : Part) : Prop := hasBegun s p = true ∧ s.hasEnded p = false

private theorem alike_loop (hq : q ∈ loops) (hd : q = .display → s'.display = s.display)
    (hr : q = .renewal → s'.renewal = s.renewal) (hs : q = .survey → s'.survey = s.survey) :
    hasBegun s' q = hasBegun s q ∧ s'.hasEnded q = s.hasEnded q := by
  cases q with
  | display => simp only [hasBegun, hasEnded, hd rfl, and_self]
  | renewal => simp only [hasBegun, hasEnded, hr rfl, and_self]
  | survey => simp only [hasBegun, hasEnded, hs rfl, and_self]
  | runner g => simp [loops] at hq

private theorem alike_afterStep (hq : q ∈ loops) (g : Nat) (x : Member × Step.Progress) :
    hasBegun (s.afterStep g x).1 q = hasBegun s q ∧
      (s.afterStep g x).1.hasEnded q = s.hasEnded q := by
  obtain ⟨m, w | e⟩ := x
  · exact alike_loop hq (fun _ => rfl) (fun _ => rfl) fun _ => rfl
  · exact alike_loop hq (fun _ => rfl) (fun _ => rfl) fun _ => rfl

private theorem alike_afterRenewal (hq : q ∈ loops) (hne : q ≠ .renewal)
    (x : Member × Turn Renewal.Stage Duration) :
    hasBegun (s.afterRenewal x).1 q = hasBegun s q ∧
      (s.afterRenewal x).1.hasEnded q = s.hasEnded q := by
  obtain ⟨m, stage | d⟩ := x
  · exact alike_loop hq (fun _ => rfl) (absurd · hne) fun _ => rfl
  · exact alike_loop hq (fun _ => rfl) (absurd · hne) fun _ => rfl

private theorem alike_afterSurvey (hq : q ∈ loops) (hne : q ≠ .survey)
    (x : Member × Turn Survey.Stage Duration) :
    hasBegun (s.afterSurvey x).1 q = hasBegun s q ∧
      (s.afterSurvey x).1.hasEnded q = s.hasEnded q := by
  obtain ⟨m, stage | d⟩ := x
  · exact alike_loop hq (fun _ => rfl) (fun _ => rfl) (absurd · hne)
  · exact alike_loop hq (fun _ => rfl) (fun _ => rfl) (absurd · hne)

/-- A part leaves the loops beside it where they stand. -/
theorem Goes.beside (h : s.Goes p input s') (hq : q ∈ loops) (hne : q ≠ p) :
    hasBegun s' q = hasBegun s q ∧ s'.hasEnded q = s.hasEnded q := by
  cases h with
  | still => exact ⟨rfl, rfl⟩
  | displayEnds _ => exact alike_loop hq (absurd · hne) (fun _ => rfl) fun _ => rfl
  | displays _ _ => exact alike_loop hq (absurd · hne) (fun _ => rfl) fun _ => rfl
  | renewalEnds _ => exact alike_loop hq (fun _ => rfl) (absurd · hne) fun _ => rfl
  | renews _ _ => exact alike_afterRenewal hq hne _
  | renewed _ => exact alike_afterRenewal hq hne _
  | surveyEnds _ => exact alike_loop hq (fun _ => rfl) (fun _ => rfl) (absurd · hne)
  | surveys _ _ => exact alike_afterSurvey hq hne _
  | surveyed _ => exact alike_afterSurvey hq hne _
  | runnerEnds _ => exact alike_loop hq (fun _ => rfl) (fun _ => rfl) fun _ => rfl
  | rested _ => exact alike_loop hq (fun _ => rfl) (fun _ => rfl) fun _ => rfl
  | begins _ _ => exact alike_afterStep hq _ _
  | answered _ => exact alike_afterStep hq _ _

private theorem hasBegun_afterRenewal (x : Member × Turn Renewal.Stage Duration) :
    hasBegun (s.afterRenewal x).1 .renewal = true := by
  obtain ⟨m, stage | d⟩ := x
  · rfl
  · rfl

private theorem hasBegun_afterSurvey (x : Member × Turn Survey.Stage Duration) :
    hasBegun (s.afterSurvey x).1 .survey = true := by
  obtain ⟨m, stage | d⟩ := x
  · rfl
  · rfl

/-- A loop that goes on was started, and had not ended if it has not. -/
theorem Goes.own (h : s.Goes p input s') (hp : p ∈ loops) (hb : hasBegun s p = true) :
    hasBegun s' p = true ∧ (s'.hasEnded p = false → s.hasEnded p = false) := by
  cases h with
  | still => exact ⟨hb, id⟩
  | displayEnds _ => exact ⟨rfl, fun he => by cases he⟩
  | displays _ he => exact ⟨rfl, fun _ => by simpa [hasEnded] using he⟩
  | renewalEnds _ => exact ⟨rfl, fun he => by cases he⟩
  | renews _ he => exact ⟨hasBegun_afterRenewal _, fun _ => by simpa [hasEnded] using he⟩
  | renewed hask => exact ⟨hasBegun_afterRenewal _, fun _ => by simp [hasEnded, hask]⟩
  | surveyEnds _ => exact ⟨rfl, fun he => by cases he⟩
  | surveys _ he => exact ⟨hasBegun_afterSurvey _, fun _ => by simpa [hasEnded] using he⟩
  | surveyed hask => exact ⟨hasBegun_afterSurvey _, fun _ => by simp [hasEnded, hask]⟩
  | _ => simp [loops] at hp

/-- A loop stays started. -/
theorem Goes.hasBegun_eq (h : s.Goes p input s') (hb : hasBegun s p = true) (hq : q ∈ loops) :
    hasBegun s' q = hasBegun s q := by
  by_cases hne : q = p
  · subst hne
    rw [(h.own hq hb).1, hb]
  · exact (h.beside hq hne).1

private theorem up_of_afterStep (hs : s.member.control.state = .stop)
    (hg : s.member.control.Up g) {x : Member × Step.Progress} {n : Nat}
    (hc : ∃ id, x.1.control = { s.member.control with clusterId := id })
    (h : (s.afterStep g x).1.member.control.Up n) : s.member.control.Up n := by
  obtain ⟨id, hc⟩ := hc
  obtain ⟨m, w | e⟩ := x
  · have h : (m.control.setActivity g (.within w)).Up n := h
    rw [hc] at h
    exact Control.up_of_setActivity (c := { s.member.control with clusterId := id }) hg h
  · have h : (m.control.leave g e).Up n := h
    rw [hc] at h
    exact Control.up_of_leave (c := { s.member.control with clusterId := id }) hs hg h

private theorem accounted_afterStep (ha : s.member.control.Accounted)
    (ho : s.member.control.Orderly) (hg : s.member.control.Up g) {x : Member × Step.Progress}
    (hc : ∃ id, x.1.control = { s.member.control with clusterId := id }) :
    (s.afterStep g x).1.member.control.Accounted := by
  obtain ⟨id, hc⟩ := hc
  obtain ⟨m, w | e⟩ := x
  · show (m.control.setActivity g (.within w)).Accounted
    rw [hc]
    exact Control.Accounted.setActivity (c := { s.member.control with clusterId := id }) ha hg _
  · show (m.control.leave g e).Accounted
    rw [hc]
    exact Control.Accounted.leave (c := { s.member.control with clusterId := id }) ha
      { ho with } hg e

/-- The runners stay accounted for, whichever part goes on. -/
theorem Goes.accounted (h : s.Goes p input s') (ho : s.member.control.Orderly)
    (ha : s.member.control.Accounted) : s'.member.control.Accounted := by
  by_cases hp : p ∈ loops
  · obtain ⟨e, he⟩ := h.control_loop hp
    rw [he]
    exact ha.afterRound ho e
  cases h with
  | still => exact ha
  | runnerEnds h => exact ha.setActivity (Control.up_of_activity h nofun) _
  | rested h => exact ha.leave ho (Control.up_of_activity h nofun) _
  | begins h _ =>
    exact accounted_afterStep ha ho (Control.up_of_activity h nofun) (Step.control_begin _ _)
  | answered h =>
    exact accounted_afterStep ha ho (Control.up_of_activity h nofun) (Step.control_answered _ _ _)
  | _ => exact absurd (by simp [loops]) hp

private theorem Goes.up (h : s.Goes p input s') (hs : s.member.control.state = .stop)
    (hg : s'.member.control.Up g) : s.member.control.Up g := by
  by_cases hp : p ∈ loops
  · obtain ⟨e, he⟩ := h.control_loop hp
    rw [he, Control.afterRound_of_ne (by rw [hs]; decide)] at hg
    exact hg
  cases h with
  | still => exact hg
  | runnerEnds h => exact Control.up_of_setActivity (Control.up_of_activity h nofun) hg
  | rested h => exact Control.up_of_leave hs (Control.up_of_activity h nofun) hg
  | begins h _ =>
    exact up_of_afterStep hs (Control.up_of_activity h nofun) (Step.control_begin _ _) hg
  | answered h =>
    exact up_of_afterStep hs (Control.up_of_activity h nofun) (Step.control_answered _ _ _) hg
  | _ => exact absurd (by simp [loops]) hp

theorem isUp_runner (h : s.member.control.Staffed) :
    s.IsUp (.runner g) ↔ s.member.control.Up g :=
  ⟨fun hu => Control.up_of_hasEnded hu.2, fun hu => ⟨rfl, h.hasEnded_of_up hu⟩⟩

/-- Once all is over no part comes up. -/
theorem Goes.isUp (h : s.Goes p input s') (ho : s.member.control.Staffed)
    (ho' : s'.member.control.Staffed) (hs : s.member.control.state = .stop)
    (hb : hasBegun s p = true) (hq : s'.IsUp q) : s.IsUp q := by
  by_cases hloop : q ∈ loops
  · by_cases hne : q = p
    · subst hne
      exact ⟨hb, (h.own hloop hb).2 hq.2⟩
    · obtain ⟨hbegun, hended⟩ := h.beside hloop hne
      exact ⟨hbegun ▸ hq.1, hended ▸ hq.2⟩
  · cases q with
    | runner g => exact (isUp_runner ho).mpr (h.up hs ((isUp_runner ho').mp hq))
    | _ => exact absurd (by decide) hloop

private theorem hasEnded_of_activity {a : Activity Wait} (ha : s.activity? g = some a)
    (he : s.hasEnded (.runner g) = true) : a = .ended := by
  obtain ⟨r, hr, rfl⟩ := Option.map_eq_some_iff.mp ha
  rw [hasEnded, Control.hasEnded, hr, Option.all_some] at he
  cases hact : r.activity with
  | ended => rfl
  | _ =>
    rw [hact] at he
    cases he

/-- A part that has ended does nothing. -/
theorem Goes.eq_of_ended (h : s.Goes p input s') (he : s.hasEnded p = true) : s' = s := by
  cases h with
  | still => rfl
  | displayEnds _ =>
    have hd : s.display = .ended := by simpa [hasEnded] using he
    rw [← hd]
  | displays _ hne => exact absurd (by simpa [hasEnded] using he) hne
  | renewalEnds _ =>
    have hr : s.renewal = .ended := by simpa [hasEnded] using he
    rw [← hr]
  | renews _ hne => exact absurd (by simpa [hasEnded] using he) hne
  | renewed hask => simp [hasEnded, hask] at he
  | surveyEnds _ =>
    have hv : s.survey = .ended := by simpa [hasEnded] using he
    rw [← hv]
  | surveys _ hne => exact absurd (by simpa [hasEnded] using he) hne
  | surveyed hask => simp [hasEnded, hask] at he
  | runnerEnds h => cases hasEnded_of_activity h he
  | begins h _ => cases hasEnded_of_activity h he
  | rested h => cases hasEnded_of_activity h he
  | answered h => cases hasEnded_of_activity h he

/-- A part that has ended waits for no answer. -/
theorem request?_of_ended (he : s.hasEnded p = true) : s.request? p = none := by
  cases p with
  | display => rfl
  | renewal =>
    have hr : s.renewal = .ended := by simpa [hasEnded] using he
    simp only [request?, hr]
  | survey =>
    have hv : s.survey = .ended := by simpa [hasEnded] using he
    simp only [request?, hv]
  | runner g =>
    unfold request?
    simp only
    split
    · next asked ha => cases hasEnded_of_activity ha he
    · rfl

end Session

end Rollcall
