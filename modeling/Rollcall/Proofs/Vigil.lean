import Rollcall.Agenda
import Rollcall.Proofs.Waits
import Rollcall.Store.Tree

/-!
# Vigils

A vigil is one member with the store that it uses and a clock. The parts of the member take turns,
the store answers their requests one at a time, and time passes in between. A part at rest goes on
when its rest is over, or before that if it was told to stop. Others may use the store, and requests
may fail.
-/

namespace Rollcall

open Store (Request Answer Failure Tree)
open Attendance (Keeps own)

/-- A part that goes on changes no settings; another announce in the way is remembered only when a
runner that announces gets an answer. -/
theorem Session.Goes.alike {s s' : Session} {p : Part} {input : Option Answer}
    (h : s.Goes p input s') :
    ∃ b, ({ s.member with blockingTtl := b } : Member).Alike s'.member ∧
      (b = s.member.blockingTtl ∨ ∃ g asked answer, p = .runner g ∧ input = some answer ∧
        asked.state = .announce ∧ s.member.control.Waits g (.answer asked)) := by
  cases h with
  | displays _ _ =>
    obtain ⟨_, _, _, hd⟩ := Terms.display_eq s.member
    rw [hd]
    exact ⟨_, ⟨rfl, rfl, rfl⟩, .inl rfl⟩
  | renews _ _ =>
    rw [member_afterRenewal]
    exact ⟨_, Renewal.alike_begin s.member, .inl rfl⟩
  | renewed _ =>
    rw [member_afterRenewal]
    exact ⟨_, Renewal.alike_answered s.member _ _, .inl rfl⟩
  | surveys _ _ =>
    rw [member_afterSurvey]
    exact ⟨_, Survey.alike_begin s.member, .inl rfl⟩
  | surveyed _ =>
    rw [member_afterSurvey]
    exact ⟨_, Survey.alike_roundAnswered s.member _ _, .inl rfl⟩
  | @begins g _ _ =>
    obtain ⟨_, hc⟩ := s.member_afterStep g (Step.begin s.member s.member.control.state)
    have hb := Step.alike_begin s.member s.member.control.state
    rw [hc]
    exact ⟨_, ⟨hb.maxTtl, hb.policy, hb.blockingTtl⟩, .inl rfl⟩
  | @answered g asked answer hact =>
    obtain ⟨b, ha, hb⟩ := Step.alike_answered s.member asked answer
    obtain ⟨_, hc⟩ := s.member_afterStep g (Step.answered s.member asked answer)
    rw [hc]
    refine ⟨b, ⟨ha.maxTtl, ha.policy, ha.blockingTtl⟩, ?_⟩
    by_cases hs : asked.state = .announce
    · exact .inr ⟨g, asked, answer, rfl, rfl, hs, Control.waits_of_activity hact⟩
    · exact .inl (hb hs)
  | _ => exact ⟨_, ⟨rfl, rfl, rfl⟩, .inl rfl⟩

/-- A move changes no settings; another announce in the way is remembered only when a runner that
announces gets an answer. -/
theorem Attendance.alike_move (a : Attendance) (x : Attendance.Move) :
    ∃ b, ({ a.session.member with blockingTtl := b } : Member).Alike (a.move x).session.member ∧
      (b = a.session.member.blockingTtl ∨ ∃ g asked answer,
        x = .receive (.part (.runner g)) answer ∧ asked.state = .announce ∧
          a.session.member.control.Waits g (.answer asked)) := by
  have hpasses := a.passes_move x
  generalize a.move x = a' at hpasses
  cases hpasses with
  | goes hx _ hgoes =>
    obtain ⟨b, ha, hb⟩ := hgoes.alike
    refine ⟨b, ha, hb.imp_right ?_⟩
    rintro ⟨g, asked, answer, rfl, rfl, hs, hw⟩
    exact ⟨g, asked, answer, Move.eq_receive hx, hs, hw⟩
  | leaves _ _ _ =>
    obtain ⟨_, hw⟩ := a.session.withdraw_eq
    rw [hw]
    exact ⟨_, ⟨rfl, rfl, rfl⟩, .inl rfl⟩
  | removes tally _ =>
    obtain ⟨_, hw⟩ := Session.withdraw_eq
      { a.session with member := { a.session.member with tally } }
    rw [hw]
    exact ⟨_, ⟨rfl, rfl, rfl⟩, .inl rfl⟩
  | _ => exact ⟨_, ⟨rfl, rfl, rfl⟩, .inl rfl⟩

/-- A member with a store and a clock. -/
structure Vigil where
  /-- Nanoseconds since the beginning. -/
  now : Nat := 0
  tree : Tree := {}
  attendance : Attendance
  /-- The instant at which a part at rest wakes up by itself. -/
  wakes : Part → Nat := fun _ => 0

namespace Vigil

/-- The vigil of a member that has not begun. -/
def ofConfig (c : Config) (naming : Option Naming) : Vigil where
  attendance := .ofMember (.ofConfig c naming)

/-- The session of the member. -/
def session (v : Vigil) : Session := v.attendance.session

/-- The member. -/
def member (v : Vigil) : Member := v.session.member

/-- The control of the member's runners. -/
def control (v : Vigil) : Control Wait := v.member.control

/-- Whether a part is at rest. -/
def isResting (v : Vigil) : Part → Bool
  | .display => v.session.display = .resting
  | .renewal => v.session.renewal = .resting
  | .survey => v.session.survey = .resting
  | .runner g =>
    match (v.control.runner? g).map Runner.activity with
    | some (.within (.rest _ _)) => true
    | _ => false

/-- Whether a part may go on. -/
def isAwake (v : Vigil) (p : Part) : Bool :=
  !v.isResting p || v.session.isSignalled p || v.wakes p ≤ v.now

/-- When the parts wake up after one of them ran. -/
def wakesAfter (v : Vigil) (p : Part) : Then → Part → Nat
  | .rest d => fun q => if q = p then Agenda.wakeTime v.now d else v.wakes q
  | _ => v.wakes

/-- What happens in a vigil. -/
inductive Action
  | act (x : Attendance.Act)
  /-- The store carries out the request of a task and answers it. -/
  | call (t : Task)
  | elapse (d : Duration)
  /-- A request is going to fail. -/
  | fail (f : Failure)
  /-- Someone pins the seconds shown for a key. -/
  | pin (key : String) (ttl : Int)
  /-- A request of someone else. -/
  | other (r : Request)

/-- A vigil after an action; one that cannot happen changes nothing. -/
def step (v : Vigil) : Action → Vigil
  | .act (.proceed p) =>
    if v.isAwake p then
      { v with
        attendance := v.attendance.act (.proceed p)
        wakes := v.wakesAfter p (v.session.proceed p).2.1 }
    else v
  | .act x => { v with attendance := v.attendance.act x }
  | .call t =>
    match v.attendance.request? t with
    | none => v
    | some r =>
      let (tree, answer) := v.tree.run v.now r
      { v with
        tree
        attendance := v.attendance.receive t answer
        wakes :=
          match t with
          | .part p => v.wakesAfter p (v.session.receive p answer).2
          | .farewell => v.wakes }
  | .elapse d => { v with now := v.now + d }
  | .fail f => { v with tree := v.tree.queueFailure f }
  | .pin key ttl => { v with tree := (v.tree.pinTtl key ttl).1 }
  | .other r => { v with tree := (v.tree.run v.now r).1 }

/-- A vigil after actions one after another. -/
def run (v : Vigil) (actions : List Action) : Vigil := actions.foldl step v

variable {v : Vigil}

/-- The ways in which an action comes out. -/
inductive Steps (v : Vigil) : Action → Vigil → Prop
  | idle {x : Action} : Steps v x v
  | act {x : Attendance.Act} (h : ∀ p, x ≠ .proceed p) :
      Steps v (.act x) { v with attendance := v.attendance.move (.act x) }
  | proceed {p : Part} (h : v.isAwake p = true) :
      Steps v (.act (.proceed p)) { v with
        attendance := v.attendance.move (.act (.proceed p))
        wakes := v.wakesAfter p (v.session.proceed p).2.1 }
  | call {p : Part} {r : Request} (h : v.attendance.request? (.part p) = some r) :
      Steps v (.call (.part p)) { v with
        tree := (v.tree.run v.now r).1
        attendance := v.attendance.move (.receive (.part p) (v.tree.run v.now r).2)
        wakes := v.wakesAfter p (v.session.receive p (v.tree.run v.now r).2).2 }
  | farewell {r : Request} (h : v.attendance.request? .farewell = some r) :
      Steps v (.call .farewell) { v with
        tree := (v.tree.run v.now r).1
        attendance := v.attendance.move (.receive .farewell (v.tree.run v.now r).2) }
  | elapse (d : Duration) : Steps v (.elapse d) { v with now := v.now + d }
  | fail (f : Failure) : Steps v (.fail f) { v with tree := v.tree.queueFailure f }
  | pin (key : String) (ttl : Int) :
      Steps v (.pin key ttl) { v with tree := (v.tree.pinTtl key ttl).1 }
  | other (r : Request) : Steps v (.other r) { v with tree := (v.tree.run v.now r).1 }

theorem steps_step (v : Vigil) (x : Action) : v.Steps x (v.step x) := by
  cases x with
  | act x =>
    cases x with
    | proceed p =>
      rw [step]
      split
      · next h => exact .proceed h
      · exact .idle
    | _ => exact .act nofun
  | call t =>
    rw [step]
    cases hr : v.attendance.request? t with
    | none => exact .idle
    | some r =>
      cases t with
      | part p => exact .call hr
      | farewell => exact .farewell hr
  | elapse d => exact .elapse d
  | fail f => exact .fail f
  | pin key ttl => exact .pin key ttl
  | other r => exact .other r

theorem now_le_step (v : Vigil) (x : Action) : v.now ≤ (v.step x).now := by
  have hs := v.steps_step x
  generalize v.step x = v' at hs ⊢
  cases hs with
  | elapse d => exact Nat.le_add_right _ _
  | _ => exact Nat.le_refl _

/-- A vigil of a configuration whose member works on its own terms and whose runners serve the
state. -/
structure Regular (c : Config) (v : Vigil) : Prop where
  keeps : Keeps (own c.self (.ofRoot c.store.root)) v.attendance
  serving : v.session.Serving

variable {c : Config}

theorem regular_ofConfig (c : Config) (naming : Option Naming) : (ofConfig c naming).Regular c where
  keeps := Attendance.keeps_ofConfig c naming rfl rfl
  serving _ _ _ hw := absurd hw Member.not_waits_ofConfig

private theorem Regular.moved (h : v.Regular c) (x : Attendance.Move) {now : Nat} {tree : Tree}
    {wakes : Part → Nat} :
    Regular c { now, tree, attendance := v.attendance.move x, wakes } where
  keeps := h.keeps.move_own x
  serving := Attendance.serving_move h.keeps h.serving x

theorem Regular.step (h : v.Regular c) (x : Action) : (v.step x).Regular c := by
  have hs := v.steps_step x
  generalize v.step x = v' at hs ⊢
  cases hs with
  | act _ => exact h.moved _
  | proceed _ => exact h.moved _
  | call _ => exact h.moved _
  | farewell _ => exact h.moved _
  | _ => exact ⟨h.keeps, h.serving⟩

theorem Regular.run (h : v.Regular c) (actions : List Action) : (v.run actions).Regular c := by
  induction actions generalizing v with
  | nil => exact h
  | cons x actions ih => exact ih (h.step x)

/-- A state other than before finds no runner inside a step, unless all is over. -/
theorem Regular.quiet_step (h : v.Regular c) {x : Action}
    (hne : (v.step x).control.state ≠ v.control.state) (hs : (v.step x).control.state ≠ .stop) :
    (v.step x).control.Quiet := by
  have hmoved : ∀ y : Attendance.Move,
      (v.attendance.move y).session.member.control.state ≠ v.control.state →
      (v.attendance.move y).session.member.control.state ≠ .stop →
      (v.attendance.move y).session.member.control.Quiet := by
    intro y hne hs
    rcases (Attendance.moved_move h.keeps y).state with heq | ⟨_, _, _, hstop | hquiet⟩
    · exact absurd heq hne
    · exact absurd hstop hs
    · exact hquiet
  have hsteps := v.steps_step x
  generalize v.step x = v' at hsteps hne hs ⊢
  cases hsteps with
  | act _ => exact hmoved _ hne hs
  | proceed _ => exact hmoved _ hne hs
  | call _ => exact hmoved _ hne hs
  | farewell _ => exact hmoved _ hne hs
  | _ => exact absurd rfl hne

theorem wakesAfter_rest (v : Vigil) (p : Part) (d : Duration) :
    v.wakesAfter p (.rest d) p = Agenda.wakeTime v.now d := if_pos rfl

theorem wakesAfter_of_ne (v : Vigil) {p q : Part} (h : q ≠ p) (t : Then) :
    v.wakesAfter p t q = v.wakes q := by
  cases t with
  | rest d => exact if_neg h
  | _ => rfl

/-- The settings stay as they are. Another announce in the way is remembered only when a runner that
announces gets an answer. -/
theorem alike_step (v : Vigil) (x : Action) :
    ∃ b, ({ v.member with blockingTtl := b } : Member).Alike (v.step x).member ∧
      (b = v.member.blockingTtl ∨ ∃ g asked, x = .call (.part (.runner g)) ∧
        asked.state = .announce ∧ v.control.Waits g (.answer asked)) := by
  have hs := v.steps_step x
  generalize v.step x = v' at hs ⊢
  cases hs with
  | act _ =>
    obtain ⟨b, ha, hb⟩ := v.attendance.alike_move (.act _)
    exact ⟨b, ha, .inl (hb.resolve_right (by simp))⟩
  | proceed _ =>
    obtain ⟨b, ha, hb⟩ := v.attendance.alike_move (.act _)
    exact ⟨b, ha, .inl (hb.resolve_right (by simp))⟩
  | farewell _ =>
    obtain ⟨b, ha, hb⟩ := v.attendance.alike_move (.receive .farewell _)
    exact ⟨b, ha, .inl (hb.resolve_right (by simp))⟩
  | call _ =>
    rename_i p r _
    obtain ⟨b, ha, hb⟩ := v.attendance.alike_move (.receive (.part p) (v.tree.run v.now r).2)
    refine ⟨b, ha, hb.imp_right ?_⟩
    rintro ⟨g, asked, _, hx, hstate, hw⟩
    cases hx
    exact ⟨g, asked, rfl, hstate, hw⟩
  | _ => exact ⟨_, ⟨rfl, rfl, rfl⟩, .inl rfl⟩

theorem Regular.orderly (h : v.Regular c) : v.control.Orderly := h.keeps.member.orderly

end Vigil

end Rollcall
