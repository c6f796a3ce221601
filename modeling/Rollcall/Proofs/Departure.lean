import Rollcall.Proofs.Endings
import Rollcall.Proofs.Store.Tree
import Rollcall.Proofs.Vigil

/-!
# Departures

A member that is told to stop waits for every part that is up, then removes the announce that is
accepted by then, and is gone: its announce may come to be accepted only before the last part ends,
and from then on none of its parts gets up again. So there is no order of late answers after which
the announce is left behind or the view becomes current again.
-/

namespace Rollcall

open Store (Request Answer Failure Tree)
open Attendance (Keeps own hasBegun)

/-! ## The key that is held -/

/-- The key of the accepted announce. -/
def Member.heldKey? (m : Member) : Option String := m.known.accepted.map Announce.key

namespace Renewal

private theorem heldKey_begin (m : Member) : (begin m).1.heldKey? = m.heldKey? := by
  have hb := begins_begin m
  generalize begin m = x at hb ⊢
  cases hb with
  | _ => rfl

private theorem heldKey_answered (m : Member) (stage : Stage) (answer : Answer) :
    (answered m stage answer).1.heldKey? = m.heldKey? := by
  have ha := answers_answered m stage answer
  generalize answered m stage answer = x at ha ⊢
  cases ha with
  | renewed tally hok =>
    rename_i key d ttl b
    show (m.known.replaceIfHeld key b).accepted.map Announce.key = _
    unfold Known.replaceIfHeld
    split
    · next hheld =>
      obtain ⟨c, hc, hk⟩ := (Option.any_eq_true _ _).mp hheld
      rw [Member.heldKey?, hc]
      exact congrArg some
        ((Terms.renewed_eq hok).1.trans (by simpa using hk : c.key = key).symm)
    · rfl
  | _ => rfl

end Renewal

namespace Session

variable {s s' : Session} {p : Part} {input : Option Answer} {key : String}

private theorem heldKey_afterStep (g : Nat) (x : Member × Step.Progress) :
    (s.afterStep g x).1.member.heldKey? = x.1.heldKey? := by
  obtain ⟨c, hc⟩ := s.member_afterStep g x
  rw [hc]
  rfl

/-- Once all is over the accepted announce stays accepted under its key, if none is accepted while
one is announced. -/
theorem Goes.heldKey (h : s.Goes p input s') (hs : s.member.control.state = .stop)
    (hone : ∀ {g : Nat} {asked : Asked}, s.member.control.Waits g (.answer asked) →
      asked.state = .announce → s.member.known.accepted = none)
    (hk : s.member.heldKey? = some key) : s'.member.heldKey? = some key := by
  cases h with
  | displays _ _ =>
    obtain ⟨_, _, _, hd⟩ := Terms.display_eq s.member
    rw [hd]
    exact hk
  | renews _ _ => rwa [member_afterRenewal, Renewal.heldKey_begin]
  | renewed _ => rwa [member_afterRenewal, Renewal.heldKey_answered]
  | surveys _ _ =>
    obtain ⟨_, hb⟩ := Survey.begin_eq s.member
    rw [member_afterSurvey, hb]
    exact hk
  | surveyed _ =>
    obtain ⟨_, _, _, _, _, he⟩ := Survey.roundAnswered_eq s.member _ _
    rw [member_afterSurvey, he]
    exact hk
  | begins _ ha =>
    rw [hs] at ha
    cases ha
  | answered hact =>
    rename_i g asked answer
    rw [heldKey_afterStep]
    have hb := Step.answers_answered s.member asked answer
    generalize Step.answered s.member asked answer = x at hb ⊢
    cases hb with
    | accepted _ _ _ _ =>
      rw [Member.heldKey?, hone (Control.waits_of_activity hact) rfl] at hk
      cases hk
    | _ => exact hk
  | _ => exact hk

private theorem withdrawn (s : Session) :
    s.withdraw.1.member.known.accepted = none ∧ s.withdraw.1.member.board.view.current = false ∧
      ∀ p, s.withdraw.1.IsUp p → s.IsUp p := by
  obtain ⟨board, hw⟩ := s.withdraw_eq
  have hshown : s.withdraw.1.member.board.view.current = false :=
    (Attendance.shown_present (s.member.setAccepted none) (s.member.setAccepted none).isolated).1
  refine ⟨by rw [hw]; rfl, hshown, fun p hp => ?_⟩
  rw [hw] at hp
  cases p with
  | _ => exact hp

end Session

/-! ## Taking leave -/

namespace Attendance

variable {a a' : Attendance} {x : Move} {T : Terms}

/-- Every part that is up is accounted for: the loops come up with the start, a runner is held or
remembered, stopping waits for all of them, and who has left has none. The announce that is to be
removed is the accepted one; after that none is accepted, and the view is not current. -/
structure Accounted (a : Attendance) : Prop where
  begun : ∀ p ∈ Session.loops, hasBegun a.session p = a.session.member.control.started
  staying : a.farewell = .staying → a.session.member.control.Accounted
  waiting : ∀ {parts : List Part}, a.farewell = .waiting parts → ∀ p, a.session.IsUp p → p ∈ parts
  left : a.HasLeft → ∀ p, ¬a.session.IsUp p
  removing : ∀ {key : String}, a.farewell = .removing key →
    a.session.member.heldKey? = some key
  gone : a.farewell = .gone →
    a.session.member.known.accepted = none ∧ a.session.member.board.view.current = false

theorem accounted_ofConfig (c : Config) (naming : Option Naming) :
    (ofMember (Member.ofConfig c naming)).Accounted := by
  have hc := Member.control_ofConfig c naming
  exact {
    begun := fun p hp => by
      show hasBegun _ p = (Member.ofConfig c naming).control.started
      rw [hc]
      cases p with
      | runner g => simp [Session.loops] at hp
      | _ => rfl
    staying := fun _ g hg => by
      obtain ⟨r, hr, -⟩ := hg
      have hr : r ∈ (Member.ofConfig c naming).control.runners := hr
      rw [hc] at hr
      cases hr
    waiting := nofun
    left := fun hl => absurd rfl hl.ne_staying
    removing := nofun
    gone := nofun }

/-- Dropping an attendance that takes leave changes nothing. -/
theorem InTurn.halt_eq (h : a.InTurn) (ho : a.session.member.control.Orderly)
    (hf : a.farewell ≠ .staying) : a.session.halt = a.session := by
  have hstop := h.leaving hf
  have hc : a.session.member.control.stop = a.session.member.control :=
    ho.handle_of_stop (h.stopping hstop) .stopped
  rw [Session.halt, hc, ← hstop]

private theorem Accounted.goes (h : a.Accounted) {p : Part} {input : Option Answer}
    {s : Session} (hg : a.session.Goes p input s) (hb : hasBegun a.session p = true)
    (ho : a.session.member.control.Orderly) (ho' : s.member.control.Orderly) (ht : a.InTurn) :
    Accounted { a with session := s } := by
  have hup : a.farewell ≠ .staying → ∀ q, s.IsUp q → a.session.IsUp q := fun hf q =>
    hg.isUp ho.toStaffed ho'.toStaffed (ht.stopping (ht.leaving hf)) hb
  have hstill : a.HasLeft → s = a.session := fun hl =>
    hg.eq_of_ended (Bool.not_eq_false _ ▸ fun he => h.left hl p ⟨hb, he⟩)
  exact {
    begun := fun q hq => by rw [hg.hasBegun_eq hb hq, hg.started, h.begun q hq]
    staying := fun hf => hg.accounted ho (h.staying hf)
    waiting := fun hf q hq => h.waiting hf q (hup (by rw [hf]; nofun) q hq)
    left := fun hl q hq => h.left hl q (hup hl.ne_staying q hq)
    removing := fun {key} hf => by
      rw [hstill (.inr ⟨key, hf⟩)]
      exact h.removing hf
    gone := fun hf => by
      rw [hstill (.inl hf)]
      exact h.gone hf }

private theorem Accounted.stops (h : a.Accounted) (ho : a.session.member.control.Orderly)
    (hstaying : a.farewell = .staying) {s : Session}
    (hs : s = { a.session with
      member := { a.session.member with
        stopping := true, control := { a.session.member.control.stop with retired := [] } } })
    (ho' : s.member.control.Orderly) :
    Accounted {
      session := s
      farewell := .waiting (a.session.member.control.stop.retired.map Part.runner ++
        if a.session.member.control.stop.started then Session.loops else []) } := by
  have hstarted : a.session.member.control.stop.started = a.session.member.control.started :=
    a.session.member.control.started_handle .stopped
  have hbegun : ∀ p ∈ Session.loops, hasBegun s p = a.session.member.control.started := by
    intro p hp
    rw [← h.begun p hp, hs]
    cases p with
    | _ => rfl
  refine {
    begun := fun p hp => ?_
    staying := nofun
    waiting := fun {parts} hf p hp => ?_
    left := fun hl => ?_
    removing := nofun
    gone := nofun }
  · rw [hbegun p hp, ← hstarted, hs]
  · cases hf
    by_cases hloop : p ∈ Session.loops
    · rw [hstarted, ← hbegun p hloop, hp.1]
      exact List.mem_append_right _ hloop
    · cases p with
      | runner g =>
        -- The runner that was held until now is remembered since it was told to stop.
        have hup : s.member.control.Up g := (Session.isUp_runner ho'.toStaffed).mp hp
        have hheld := ho'.held_of_stop (by rw [hs]; exact a.session.member.control.state_handle _)
        rw [hs] at hup hheld
        have hacc : a.session.member.control.stop.Accounted := (h.staying hstaying).handle ho _
        rcases hacc g hup with hh | hret
        · cases hheld.symm.trans hh
        · exact List.mem_append_left _ (List.mem_map_of_mem hret)
      | _ => exact absurd (by decide) hloop
  · rcases hl with hl | ⟨_, hl⟩ <;> cases hl

private theorem Accounted.leaves (h : a.Accounted) (hdown : ∀ p, ¬a.session.IsUp p)
    (tally : Registry.Tally) :
    Accounted {
      session := (Session.withdraw { a.session with
        member := { a.session.member with tally } }).1
      farewell := .gone } := by
  obtain ⟨haccepted, hcurrent, hup⟩ := Session.withdrawn { a.session with
    member := { a.session.member with tally } }
  obtain ⟨board, hw⟩ := Session.withdraw_eq { a.session with
    member := { a.session.member with tally } }
  exact {
    begun := fun p hp => by
      rw [hw]
      refine Eq.trans ?_ (h.begun p hp)
      cases p with
      | _ => rfl
    staying := nofun
    waiting := nofun
    left := fun _ p hp => hdown p (by
      have hp := hup p hp
      cases p with
      | _ => exact hp)
    removing := nofun
    gone := fun _ => ⟨haccepted, hcurrent⟩ }

private theorem Accounted.drops (h : a.Accounted) (ho : a.session.member.control.Orderly)
    (ht : a.InTurn) : Accounted { a with session := a.session.halt } := by
  by_cases hf : a.farewell = .staying
  · exact {
      begun := fun p hp => by
        show _ = a.session.member.control.stop.started
        rw [Control.stop, Control.started_handle, ← h.begun p hp]
        cases p with
        | _ => rfl
      staying := fun hf => (h.staying hf).handle ho .stopped
      waiting := fun hf' => nomatch hf.symm.trans hf'
      left := fun hl => absurd hf hl.ne_staying
      removing := fun hf' => nomatch hf.symm.trans hf'
      gone := fun hf' => nomatch hf.symm.trans hf' }
  · rwa [ht.halt_eq ho hf]

/-- The parts stay accounted for, whatever happens. -/
theorem Accounted.move (h : a.Accounted) (hk : Keeps T a) (hk' : Keeps T (a.move x))
    (ht : a.InTurn) : (a.move x).Accounted := by
  have ho : a.session.member.control.Orderly := hk.member.orderly
  have hpasses := a.passes_move x
  have ho' : (a.move x).session.member.control.Orderly := hk'.member.orderly
  generalize a.move x = a' at hpasses ho' ⊢
  have hstaying : a.session.member.stopping = false → a.farewell = .staying := fun hstop =>
    Decidable.byContradiction fun hf => nomatch hstop.symm.trans (ht.leaving hf)
  cases hpasses with
  | idle => exact h
  | starts hs hstop =>
    have hf' := hstaying hstop
    exact {
      begun := fun p hp => by
        show _ = a.session.member.control.start.started
        rw [Control.started_start]
        cases p with
        | _ => rfl
      staying := fun hf => (h.staying hf).start ho
      waiting := fun hf => nomatch hf'.symm.trans hf
      left := fun hl => absurd hf' hl.ne_staying
      removing := fun hf => nomatch hf'.symm.trans hf
      gone := fun hf => nomatch hf'.symm.trans hf }
  | goes hx hb hg => exact h.goes hg hb ho ho' ht
  | stops hstop => exact h.stops ho (hstaying hstop) rfl ho'
  | withdraws hf he hb =>
    exact {
      begun := h.begun
      staying := nofun
      waiting := nofun
      left := fun _ p hp => nomatch hp.2.symm.trans (List.all_eq_true.mp he p (h.waiting hf p hp))
      removing := fun hr => by
        cases hr
        rw [Member.heldKey?, hb]
        rfl
      gone := nofun }
  | leaves hf he hn =>
    exact h.leaves (fun p hp =>
      nomatch hp.2.symm.trans (List.all_eq_true.mp he p (h.waiting hf p hp)))
      a.session.member.tally
  | removes tally hf => exact h.leaves (h.left (.inr ⟨_, hf⟩)) tally
  | drops => exact h.drops ho ht
  | beside board contributors hv => exact { h with gone := fun hf => hv ▸ h.gone hf }

/-- An attendance of a configuration whose member works on its own terms and in turn, and whose
parts are accounted for. -/
structure Proper (c : Config) (a : Attendance) : Prop where
  keeps : Keeps (own c.self (.ofRoot c.store.root)) a
  inTurn : a.InTurn
  single : a.Single
  accounted : a.Accounted

variable {c : Config} {key : String}

theorem proper_ofConfig (c : Config) (naming : Option Naming) :
    (ofMember (Member.ofConfig c naming)).Proper c where
  keeps := keeps_ofConfig c naming rfl rfl
  inTurn := inTurn_ofConfig c naming
  single := single_ofConfig c naming
  accounted := accounted_ofConfig c naming

theorem Proper.move (h : a.Proper c) (x : Move) : (a.move x).Proper c where
  keeps := h.keeps.move_own x
  inTurn := h.inTurn.move h.keeps x
  single := h.single.move h.keeps x
  accounted := h.accounted.move h.keeps (h.keeps.move_own x) h.inTurn

theorem Proper.state_of_leaving (h : a.Proper c) (hf : a.farewell ≠ .staying) :
    a.session.member.control.state = .stop := h.inTurn.stopping (h.inTurn.leaving hf)

/-- Who takes leave does not come to stay again. -/
theorem leaving_move (hf : a.farewell ≠ .staying) (x : Move) :
    (a.move x).farewell ≠ .staying := by
  have hpasses := a.passes_move x
  generalize a.move x = a' at hpasses ⊢
  cases hpasses with
  | stops _ => nofun
  | withdraws _ _ _ => nofun
  | leaves _ _ _ => nofun
  | removes _ _ => nofun
  | _ => exact hf

/-- The key that is held while leave is taken is held until it is removed. -/
theorem Proper.heldKey_move (h : a.Proper c) (hf : a.farewell ≠ .staying) {x : Move}
    (hg : (a.move x).farewell ≠ .gone) (hk : a.session.member.heldKey? = some key) :
    (a.move x).session.member.heldKey? = some key := by
  have hstop := h.inTurn.leaving hf
  have hpasses := a.passes_move x
  generalize a.move x = a' at hpasses hg ⊢
  cases hpasses with
  | starts _ hs => cases hs.symm.trans hstop
  | goes _ _ hgoes =>
    exact hgoes.heldKey (h.state_of_leaving hf) (fun hw ha => h.single.announcing hw ha) hk
  | stops hs => cases hs.symm.trans hstop
  | leaves _ _ _ => exact absurd rfl hg
  | removes _ _ => exact absurd rfl hg
  | _ => exact hk

/-- Who is gone stays gone, and nothing is shown any more. -/
theorem Proper.gone_move (h : a.Proper c) (hg : a.farewell = .gone) (x : Move) :
    (a.move x).farewell = .gone ∧
      (a.move x).session.member.board.view = a.session.member.board.view := by
  have hstop := h.inTurn.leaving (a := a) (by rw [hg]; nofun)
  have hpasses := a.passes_move x
  generalize a.move x = a' at hpasses ⊢
  cases hpasses with
  | starts _ hs => cases hs.symm.trans hstop
  | goes _ hb hgoes =>
    rename_i p _ _ _
    rw [hgoes.eq_of_ended (Bool.not_eq_false _ ▸ fun he => h.accounted.left (.inl hg) p ⟨hb, he⟩)]
    exact ⟨hg, rfl⟩
  | stops hs => cases hs.symm.trans hstop
  | withdraws hf _ _ => cases hf.symm.trans hg
  | leaves hf _ _ => cases hf.symm.trans hg
  | removes _ hf => cases hf.symm.trans hg
  | beside _ _ hv => exact ⟨hg, hv⟩
  | _ => exact ⟨hg, rfl⟩

/-- Leave is taken by the removal of the announce, or at once if none is accepted. -/
theorem Proper.gone_of_move (h : a.Proper c) {x : Move} (hf : a.farewell ≠ .gone)
    (hg : (a.move x).farewell = .gone) :
    (x = .act .leave ∧ a.session.member.heldKey? = none) ∨
      ∃ key answer, x = .receive .farewell answer ∧ a.farewell = .removing key ∧
        a.session.member.heldKey? = some key := by
  have hpasses := a.passes_move x
  generalize a.move x = a' at hpasses hg
  cases hpasses with
  | withdraws _ _ _ => cases hg
  | stops _ => cases hg
  | leaves _ _ hn => exact .inl ⟨rfl, by rw [Member.heldKey?, hn]; rfl⟩
  | removes _ hr => exact .inr ⟨_, _, rfl, hr, h.accounted.removing hr⟩
  | _ => exact absurd hg hf

/-- Who is gone has nothing to do any more: all parts have ended, and none waits for an answer. -/
theorem Proper.idle_of_gone (h : a.Proper c) (hg : a.farewell = .gone)
    (hs : a.session.member.control.started = true) :
    (∀ t, a.request? t = none) ∧ ∀ p, a.session.proceed p = (a.session, .stop, []) := by
  have hended : ∀ p, a.session.hasEnded p = true := fun p => by
    refine Bool.not_eq_false _ ▸ fun he => h.accounted.left (.inl hg) p ⟨?_, he⟩
    by_cases hp : p ∈ Session.loops
    · exact (h.accounted.begun p hp).trans hs
    · cases p with
      | runner g => rfl
      | _ => exact absurd (by decide) hp
  refine ⟨fun t => ?_, fun p => ?_⟩
  · cases t with
    | farewell => simp only [request?, hg]
    | part p => exact Session.request?_of_ended (hended p)
  · unfold Session.proceed
    rw [if_pos (hended p)]

theorem started_move (hs : a.session.member.control.started = true) (x : Move) :
    (a.move x).session.member.control.started = true := by
  have hstop : a.session.member.control.stop.started = true :=
    (a.session.member.control.started_handle .stopped).trans hs
  have hpasses := a.passes_move x
  generalize a.move x = a' at hpasses ⊢
  cases hpasses with
  | starts _ _ => exact Control.started_start _
  | goes _ _ hgoes => exact hgoes.started.trans hs
  | stops _ => exact hstop
  | leaves _ _ _ => rwa [Session.control_withdraw]
  | removes _ _ => rwa [Session.control_withdraw]
  | drops => exact hstop
  | _ => exact hs

theorem Proper.run (h : a.Proper c) (moves : List Move) : (a.run moves).Proper c :=
  run_induction Proper.move h moves

theorem leaving_run (hf : a.farewell ≠ .staying) (moves : List Move) :
    (a.run moves).farewell ≠ .staying :=
  run_induction (P := fun a => a.farewell ≠ .staying) leaving_move hf moves

theorem started_run (hs : a.session.member.control.started = true) (moves : List Move) :
    (a.run moves).session.member.control.started = true :=
  run_induction (P := fun a => a.session.member.control.started = true) started_move hs moves

/-- For good: what is on the board stays. -/
theorem Proper.gone_run (h : a.Proper c) (hg : a.farewell = .gone) (moves : List Move) :
    (a.run moves).farewell = .gone ∧
      (a.run moves).session.member.board.view = a.session.member.board.view := by
  have hrun := run_induction
    (P := fun a' => a'.Proper c ∧ a'.farewell = .gone ∧
      a'.session.member.board.view = a.session.member.board.view)
    (fun ⟨hp, hg, hv⟩ x => ⟨hp.move x, (hp.gone_move hg x).1, (hp.gone_move hg x).2.trans hv⟩)
    ⟨h, hg, rfl⟩ moves
  exact hrun.2

theorem Proper.heldKey_run (h : a.Proper c) (hf : a.farewell ≠ .staying) {moves : List Move}
    (hg : (a.run moves).farewell ≠ .gone) (hk : a.session.member.heldKey? = some key) :
    (a.run moves).session.member.heldKey? = some key := by
  induction moves generalizing a with
  | nil => exact hk
  | cons x moves ih =>
    have hg' : (a.move x).farewell ≠ .gone := fun hgone => hg ((h.move x).gone_run hgone moves).1
    exact ih (h.move x) (leaving_move hf x) hg (h.heldKey_move hf hg' hk)

end Attendance

/-! ## Departures of vigils -/

namespace Vigil

/-- What happens in a vigil whose store may take its time: an action, or a part gets an answer to
what the store was asked before. -/
inductive Happening
  | action (x : Action)
  | answer (p : Part) (answer : Answer)

/-- A vigil after a happening. An answer that comes late may be any. -/
def happen (v : Vigil) : Happening → Vigil
  | .action x => v.step x
  | .answer p answer => { v with
      attendance := v.attendance.receive (.part p) answer
      wakes := v.wakesAfter p (v.session.receive p answer).2 }

/-- A vigil after happenings one after another. -/
def pass (v : Vigil) (xs : List Happening) : Vigil := xs.foldl happen v

/-- The removal of the announce fails: by a failure that was queued, or by a refusal other than that
the key is not there. -/
def RemovalFails (v : Vigil) (x : Happening) : Prop :=
  x = .action (.call .farewell) ∧ ∃ key, v.attendance.farewell = .removing key ∧
    (v.tree.failures ≠ [] ∨ ∃ f, (Registry.withdraw key).outcome
      (v.tree.run v.now (Registry.withdraw key).request).2 = .error f)

variable {v : Vigil} {c : Config} {x : Happening} {key : String}

private theorem exists_move (v : Vigil) (x : Happening) :
    (v.happen x).attendance = v.attendance ∨
      ∃ y, (v.happen x).attendance = v.attendance.move y := by
  cases x with
  | answer p answer => exact .inr ⟨.receive (.part p) answer, rfl⟩
  | action x =>
    have hs := v.steps_step x
    rw [happen]
    generalize v.step x = v' at hs ⊢
    cases hs with
    | @act x _ => exact .inr ⟨.act x, rfl⟩
    | @proceed p _ => exact .inr ⟨.act (.proceed p), rfl⟩
    | @call p r _ => exact .inr ⟨.receive (.part p) (v.tree.run v.now r).2, rfl⟩
    | @farewell r _ => exact .inr ⟨.receive .farewell (v.tree.run v.now r).2, rfl⟩
    | _ => exact .inl rfl

private theorem exists_run (v : Vigil) (xs : List Happening) :
    ∃ moves, (v.pass xs).attendance = v.attendance.run moves := by
  induction xs generalizing v with
  | nil => exact ⟨[], rfl⟩
  | cons x xs ih =>
    obtain ⟨moves, hm⟩ := ih (v.happen x)
    have hm : (v.pass (x :: xs)).attendance = (v.happen x).attendance.run moves := hm
    rcases v.exists_move x with he | ⟨y, he⟩
    · exact ⟨moves, by rw [hm, he]⟩
    · exact ⟨y :: moves, by rw [hm, he]; rfl⟩

private theorem proper_pass (h : v.attendance.Proper c) (xs : List Happening) :
    (v.pass xs).attendance.Proper c := by
  obtain ⟨moves, hm⟩ := v.exists_run xs
  exact hm ▸ h.run moves

private theorem heldKey_pass (h : v.attendance.Proper c) (hf : v.attendance.farewell ≠ .staying)
    {xs : List Happening} (hg : (v.pass xs).attendance.farewell ≠ .gone)
    (hk : v.member.heldKey? = some key) : (v.pass xs).member.heldKey? = some key := by
  obtain ⟨moves, hm⟩ := v.exists_run xs
  rw [hm] at hg
  have hkey := h.heldKey_run hf hg hk
  rwa [← hm] at hkey

private theorem started_pass (hs : v.control.started = true) (xs : List Happening) :
    (v.pass xs).control.started = true := by
  obtain ⟨moves, hm⟩ := v.exists_run xs
  have hstarted := Attendance.started_run hs moves
  rwa [← hm] at hstarted

private theorem leaving_pass (hf : v.attendance.farewell ≠ .staying) (xs : List Happening) :
    (v.pass xs).attendance.farewell ≠ .staying := by
  obtain ⟨moves, hm⟩ := v.exists_run xs
  exact hm ▸ Attendance.leaving_run hf moves

private theorem leaving_stop (hs : v.member.stopping = false) :
    (v.step (.act .stop)).attendance.farewell ≠ .staying := by
  have hnot : ¬v.attendance.session.member.stopping = true := Bool.eq_false_iff.mp hs
  show (v.attendance.act .stop).farewell ≠ .staying
  rw [Attendance.act, if_neg hnot]
  simp

/-- Nothing is left to do in the vigil of a member that was started and is gone. -/
private theorem idle_pass (h : v.attendance.Proper c) (hg : v.attendance.farewell = .gone)
    (hs : v.control.started = true) (xs : List Happening) :
    (v.pass xs).control.state = .stop ∧
      (v.pass xs).member.board.view = v.member.board.view ∧
      (∀ t, (v.pass xs).attendance.request? t = none) ∧
      ∀ p, (v.pass xs).session.proceed p = ((v.pass xs).session, .stop, []) := by
  have hproper := v.proper_pass h xs
  obtain ⟨moves, hm⟩ := v.exists_run xs
  obtain ⟨hgone, hview⟩ := h.gone_run hg moves
  have hstarted := Attendance.started_run hs moves
  rw [← hm] at hgone hview hstarted
  exact ⟨hproper.state_of_leaving (by rw [hgone]; nofun), hview,
    hproper.idle_of_gone hgone hstarted⟩

/-- A member is gone when the store has answered the removal of the announce that was accepted to
the end, or when none was. -/
private theorem gone_of_happen (h : v.attendance.Proper c) (hf : v.attendance.farewell ≠ .gone)
    (hg : (v.happen x).attendance.farewell = .gone) :
    v.member.heldKey? = none ∨ ∃ key, x = .action (.call .farewell) ∧
      v.attendance.farewell = .removing key ∧ v.member.heldKey? = some key ∧
      (v.happen x).tree = (v.tree.run v.now (Registry.withdraw key).request).1 := by
  cases x with
  | answer p answer =>
    rcases h.gone_of_move hf (x := .receive (.part p) answer) hg with ⟨hx, -⟩ | ⟨_, _, hx, -⟩
    · cases hx
    · cases hx
  | action x =>
    have hs := v.steps_step x
    rw [happen] at hg ⊢
    generalize v.step x = v' at hs hg ⊢
    cases hs with
    | act _ =>
      rcases h.gone_of_move hf hg with ⟨-, hk⟩ | ⟨_, _, hx, -⟩
      · exact .inl hk
      · cases hx
    | proceed _ =>
      rcases h.gone_of_move hf hg with ⟨hx, -⟩ | ⟨_, _, hx, -⟩
      · cases hx
      · cases hx
    | call _ =>
      rcases h.gone_of_move hf hg with ⟨hx, -⟩ | ⟨_, _, hx, -⟩
      · cases hx
      · cases hx
    | farewell hr =>
      rcases h.gone_of_move hf hg with ⟨hx, -⟩ | ⟨key, _, -, hkey, hk⟩
      · cases hx
      · simp only [Attendance.request?, hkey, Option.some.injEq] at hr
        exact .inr ⟨key, rfl, hkey, hk, by rw [hr]⟩
    | _ => exact absurd hg hf

private theorem absent_of_removal {t : Tree} {now : Nat} (hf : t.failures = [])
    (h : ∀ f, (Registry.withdraw key).outcome (t.run now (Registry.withdraw key).request).2 ≠
      .error f) :
    (t.run now (Registry.withdraw key).request).1.present (Store.Path.normalize key) = false := by
  refine Tree.absent_of_run_delete hf fun refusal hr => ?_
  by_contra hn
  have hx : (Registry.withdraw key).expects refusal = false := Bool.not_eq_true _ ▸ hn
  refine h (.refused refusal) ?_
  rw [show (t.run now (Registry.withdraw key).request).2 = .error (.refused refusal) from hr,
    Registry.Operation.outcome]
  simp only [Registry.Operation.accept, hx, Bool.false_eq_true, if_false]

/-- Whenever a member that was started is told to stop for the first time, whatever its parts wait
for and whatever answers they still get, and however late: when it is gone all is over, no announce
is accepted, and the view is not current. An announce that was accepted when it was told to stop, or
came to be accepted after that, is not in the store then, unless its removal fails. From then on no
task of the member asks the store for anything, and no part does anything or tells any listener; the
state and the view stay as they are. -/
theorem departs_for_good (c : Config) (naming : Option Naming) (before after : List Happening)
    (x : Happening) :
    let v := (ofConfig c naming).pass before
    let left := (v.step (.act .stop)).pass
    let w := (left after).happen x
    v.control.started = true → v.member.stopping = false →
    (left after).attendance.farewell ≠ .gone → w.attendance.farewell = .gone →
    w.control.state = .stop ∧ w.member.known.accepted = none ∧
    w.member.board.view.current = false ∧
    (¬(left after).RemovalFails x → ∀ first, first <+: after → ∀ b,
      (left first).member.known.accepted = some b →
      w.tree.present (Store.Path.normalize b.key) = false) ∧
    ∀ later, let u := w.pass later
      u.control.state = .stop ∧ u.member.board.view = w.member.board.view ∧
      (∀ t, u.attendance.request? t = none) ∧
      ∀ p, u.session.proceed p = (u.session, .stop, []) := by
  intro v left w hstarted hfirst hstay hgone
  have hv : (v.step (.act .stop)).attendance.Proper c :=
    ((ofConfig c naming).proper_pass (Attendance.proper_ofConfig c naming) before).move (.act .stop)
  have hproper : ∀ xs, (left xs).attendance.Proper c := fun xs => proper_pass hv xs
  have hw : w.attendance.Proper c := proper_pass (hproper after) [x]
  have hleaving : ∀ xs, (left xs).attendance.farewell ≠ .staying :=
    leaving_pass (leaving_stop hfirst)
  have hstate : w.control.state = .stop := hw.state_of_leaving (by rw [hgone]; nofun)
  have hwstarted : w.control.started = true :=
    started_pass (started_pass (v := v) hstarted (.action (.act .stop) :: after)) [x]
  obtain ⟨haccepted, hcurrent⟩ := hw.accounted.gone hgone
  refine ⟨hstate, haccepted, hcurrent, fun hfails first hfirst b hb => ?_,
    fun later => idle_pass hw hgone hwstarted later⟩
  -- What is accepted on the way is accepted under its key to the end.
  have hkey : (left after).member.heldKey? = some b.key := by
    obtain ⟨rest, rfl⟩ := hfirst
    rw [show left (first ++ rest) = (left first).pass rest from List.foldl_append ..] at hstay ⊢
    refine heldKey_pass (hproper first) (hleaving first) hstay ?_
    rw [Member.heldKey?, hb]
    rfl
  rcases gone_of_happen (hproper after) hstay hgone with hnone | ⟨key, hx, hremoving, hheld, htree⟩
  · cases hnone.symm.trans hkey
  · obtain rfl : key = b.key := Option.some.inj (hheld.symm.trans hkey)
    simp only [RemovalFails, hx, true_and, not_exists, not_and, not_or, not_not] at hfails
    obtain ⟨hf, herror⟩ := hfails _ hremoving
    exact htree ▸ absent_of_removal hf herror

/-- A member with a cluster id of its own. -/
def solitary : Config :=
  { self := { id := "a" }, store := { root := "/d" }, cluster := { id := some "c" } }

/-- The member is about to create its announce. -/
def untilCreating : List Happening :=
  [.action (.act .start), .action (.act (.proceed (.runner 1))),
    .action (.act (.proceed (.runner 1))), .action (.call (.part (.runner 1)))]

/-- The loops end, the announce is created and confirmed, and the runner that was told to stop ends
with that. -/
def untilRemoving : List Happening :=
  [.action (.act (.proceed .display)), .action (.act (.proceed .renewal)),
    .action (.act (.proceed .survey)), .action (.call (.part (.runner 1))),
    .action (.call (.part (.runner 1))), .action (.act .leave)]

/-- The member is told to stop while it creates its announce, which is now to be removed. -/
def removing : Vigil :=
  (((ofConfig solitary none).pass untilCreating).step (.act .stop)).pass untilRemoving

/-- The announce was removed. -/
def departed : Vigil := removing.happen (.action (.call .farewell))

private theorem not_removalFails_removing : ¬removing.RemovalFails (.action (.call .farewell)) := by
  have hremoving : removing.attendance.farewell =
      .removing "/d/announces/00000000000000000001" := by decide +kernel
  have hok : ((Registry.withdraw "/d/announces/00000000000000000001").outcome
      (removing.tree.run removing.now
        (Registry.withdraw "/d/announces/00000000000000000001").request).2).isOk = true := by
    decide +kernel
  rintro ⟨-, key, hkey, hf | ⟨f, hf⟩⟩
  · exact hf (by decide +kernel)
  · cases hremoving.symm.trans hkey
    rw [hf] at hok
    cases hok

/-- A member that is told to stop while it creates its announce removes it and is gone. -/
theorem departs_while_creating :
    ((ofConfig solitary none).pass untilCreating).session.activity? 1 =
        some (.within (.answer (.creating ⟨"a", "", "c", 0⟩))) ∧
      removing.member.heldKey? = some "/d/announces/00000000000000000001" ∧
      removing.tree.present "/d/announces/00000000000000000001" = true ∧
      departed.control.state = .stop ∧ departed.member.known.accepted = none ∧
      departed.member.board.view.current = false ∧
      departed.tree.present "/d/announces/00000000000000000001" = false ∧
      ∀ later, ∀ t, (departed.pass later).attendance.request? t = none := by
  have h := departs_for_good solitary none untilCreating untilRemoving (.action (.call .farewell))
    (by decide +kernel) (by decide +kernel) (by decide +kernel) (by decide +kernel)
  have hkey : removing.member.heldKey? = some "/d/announces/00000000000000000001" := by
    decide +kernel
  have hname : Store.Path.normalize "/d/announces/00000000000000000001" =
      "/d/announces/00000000000000000001" := by decide +kernel
  obtain ⟨b, hb, hbkey⟩ := Option.map_eq_some_iff.mp hkey
  unfold removing at hb
  have habsent := h.2.2.2.1 not_removalFails_removing untilRemoving List.prefix_rfl b hb
  rw [hbkey, hname] at habsent
  refine ⟨by decide +kernel, hkey, by decide +kernel, ?_⟩
  unfold departed removing
  exact ⟨h.1, h.2.1, h.2.2.1, habsent, fun later => (h.2.2.2.2 later).2.2.1⟩

end Vigil

end Rollcall
