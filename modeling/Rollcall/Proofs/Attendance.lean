import Rollcall.Proofs.Rounds
import Rollcall.Proofs.View

/-!
# Attendances

An attendance is a session with the way in which it is started, stopped and let go. Its moves are
those of its parts, one run at a time in any order, and those of whoever holds it; answers of the
store come in when they come, whatever they are. The theorem at the end says what a member can rely
on in every run.
-/

namespace Rollcall

open Store (Request Answer)

/-- How far an attendance is with taking leave. -/
inductive Farewell
  | staying
  /-- The session was told to stop, and these parts have to end. -/
  | waiting (parts : List Part)
  /-- The accepted announce is to be removed. -/
  | removing (key : String)
  | gone
  deriving DecidableEq, Repr

/-- What may wait for an answer of the store. -/
inductive Task
  | part (p : Part)
  /-- The removal of the announce at the end. -/
  | farewell
  deriving DecidableEq, Repr

/-- A session and how far it is with taking leave. -/
structure Attendance where
  session : Session
  farewell : Farewell := .staying

namespace Attendance

/-- The attendance of a member that has not begun. -/
def ofMember (m : Member) : Attendance := { session := { member := m } }

/-- The request that a task waits to be answered. -/
def request? (a : Attendance) : Task → Option Request
  | .part p => a.session.request? p
  | .farewell =>
    match a.farewell with
    | .removing key => some (Registry.withdraw key).request
    | _ => none

/-- Whether a part was started; a runner is there only when it was. -/
def hasBegun (s : Session) : Part → Bool
  | .display => s.display ≠ .unstarted
  | .renewal => s.renewal ≠ .unstarted
  | .survey => s.survey ≠ .unstarted
  | .runner _ => true

/-- What an attendance does without an answer of the store, or what is done to it. -/
inductive Act
  | start
  /-- A part that does not wait for an answer goes on, at the end of its rest if it rests. -/
  | proceed (p : Part)
  | stop
  /-- The parts that stopping waits for have ended. -/
  | leave
  /-- Nobody holds the session any more. -/
  | drop
  | bind
  | unbind (id : Nat)
  /-- Other contributors of properties. -/
  | contribute (c : Contributors)

/-- An attendance after an act. -/
def act (a : Attendance) : Act → Attendance
  | .start => { a with session := a.session.start }
  | .proceed p =>
    if hasBegun a.session p then { a with session := (a.session.proceed p).1 } else a
  | .stop =>
    if a.session.member.stopping then a
    else
      let s := a.session.halt
      let (retired, control) := s.member.control.takeRetired
      let loops := if control.started then Session.loops else []
      { session := { s with member := { s.member with control } }
        farewell := .waiting (retired.map Part.runner ++ loops) }
  | .leave =>
    match a.farewell with
    | .waiting parts =>
      if parts.all a.session.hasEnded then
        match a.session.member.known.accepted with
        | some b => { a with farewell := .removing b.key }
        | none => { session := a.session.withdraw.1, farewell := .gone }
      else a
    | _ => a
  | .drop => { a with session := a.session.halt }
  | .bind =>
    { a with session.member.board := a.session.member.board.bind.1 }
  | .unbind id =>
    { a with session.member.board := a.session.member.board.unbind id }
  | .contribute c => { a with session.member.contributors := c }

/-- An attendance after an answer to what a task waits for. -/
def receive (a : Attendance) (t : Task) (answer : Answer) : Attendance :=
  match t with
  | .part p => { a with session := (a.session.receive p answer).1 }
  | .farewell =>
    match a.farewell with
    | .removing key =>
      let member := (a.session.member.accept (Registry.withdraw key) answer).1
      { session := (Session.withdraw { a.session with member }).1, farewell := .gone }
    | _ => a

/-- A move of an attendance. -/
inductive Move
  | act (x : Act)
  | receive (t : Task) (answer : Answer)

/-- An attendance after a move. -/
def move (a : Attendance) : Move → Attendance
  | .act x => a.act x
  | .receive t answer => a.receive t answer

/-- An attendance after moves one after another. -/
def run (a : Attendance) (moves : List Move) : Attendance := moves.foldl move a

/-- What every move preserves a run preserves. -/
theorem run_induction {P : Attendance → Prop} (hmove : ∀ {a}, P a → ∀ x, P (a.move x))
    {a : Attendance} (h : P a) (moves : List Move) : P (a.run moves) := by
  induction moves generalizing a with
  | nil => exact h
  | cons x moves ih => exact ih (hmove h x)

/-! ## Terms -/

/-- An attendance that keeps to its terms; once it takes leave its member has stopped. -/
def Keeps (T : Terms) (a : Attendance) : Prop :=
  Terms.Attends { T with stopped := a.farewell ≠ .staying } a.session

variable {T : Terms} {a : Attendance}

private theorem weaker_stopped {p q : Prop} (h : q → p) :
    Terms.Weaker { T with stopped := p } { T with stopped := q } :=
  ⟨rfl, rfl, id, id, id, id, h⟩

/-- Terms that are kept may be weakened. -/
theorem Keeps.mono {T' : Terms} (hw : T.Weaker T') (h : Keeps T a) : Keeps T' a :=
  Terms.Attends.mono (T := { T with stopped := a.farewell ≠ .staying }) { hw with stopped := id } h

private theorem keeps_withdraw {s : Session}
    (h : Terms.Attends { T with stopped := True } s) :
    Keeps T { session := s.withdraw.1, farewell := .gone } := by
  refine (h.withdraw ?_).mono (weaker_stopped fun _ => trivial)
  rw [h.member.stopped trivial]
  decide

/-- Terms are kept in every act. -/
theorem Keeps.act (hT : T.Sound) (h : Keeps T a) (x : Act) : Keeps T (a.act x) := by
  have hS : Terms.Sound { T with stopped := a.farewell ≠ .staying } := ⟨hT.renewable, hT.renewed⟩
  cases x with
  | start => exact Terms.Attends.start h
  | proceed p =>
    rw [Attendance.act]
    split
    · exact Terms.Attends.proceed hS h p
    · exact h
  | stop =>
    rw [Attendance.act]
    split
    · exact h
    · have hh := Terms.Attends.halt h (Farewell.waiting [] ≠ .staying)
      have hw : Farewell.waiting [] ≠ .staying := by decide
      refine Terms.Attends.mono (weaker_stopped fun _ => hw) ?_
      exact { hh with
        member := hh.member.withControl rfl (.inl rfl) hh.member.waits { hh.member.orderly with } }
  | leave =>
    rw [Attendance.act]
    split
    · next parts hf =>
      split
      · split
        · exact Terms.Attends.mono (weaker_stopped fun _ => by rw [hf]; simp) h
        · exact keeps_withdraw
            (Terms.Attends.mono (weaker_stopped fun _ => by rw [hf]; simp) h)
      · exact h
    · exact h
  | drop => exact Terms.Attends.halt h _
  | bind => exact { h with member := h.member.congr rfl rfl rfl rfl rfl rfl }
  | unbind id => exact { h with member := h.member.congr rfl rfl rfl rfl rfl rfl }
  | contribute c => exact { h with member := h.member.congr rfl rfl rfl rfl rfl rfl }

/-- What a task of an attendance may make of an answer. -/
def Trusts (T : Terms) (a : Attendance) : Task → Answer → Prop
  | .part p, answer => T.Trusts a.session p answer
  | .farewell, _ => True

/-- Terms are kept on every answer that may be trusted. -/
theorem Keeps.receive (hT : T.Sound) (h : Keeps T a) {t : Task} {answer : Answer}
    (ht : Trusts T a t answer) : Keeps T (a.receive t answer) := by
  have hS : Terms.Sound { T with stopped := a.farewell ≠ .staying } := ⟨hT.renewable, hT.renewed⟩
  cases t with
  | part p => exact Terms.Attends.receive hS h ht
  | farewell =>
    rw [Attendance.receive]
    split
    · next key hf =>
      have hh : Terms.Attends { T with stopped := True } a.session :=
        Terms.Attends.mono (weaker_stopped fun _ => by rw [hf]; simp) h
      simp only [Terms.accept_eq]
      exact keeps_withdraw { hh with member := hh.member.withTally _ }
    · exact h

/-- A member that has not begun keeps to any terms made for it. -/
theorem keeps_ofConfig (c : Config) (naming : Option Naming) (hself : T.self = c.self)
    (hlayout : T.layout = .ofRoot c.store.root) :
    Keeps T (ofMember (Member.ofConfig c naming)) := by
  obtain ⟨contributors, he⟩ := Member.ofConfig_eq c naming
  rw [he]
  exact {
    member := {
      self := hself.symm
      layout := hlayout.symm
      localId := by rw [hself]; rfl
      accepted := fun ha => nomatch ha
      remote := fun a ha => nomatch ha
      canonical := ⟨.nil, .nil⟩
      settled := fun hs => nomatch hs
      running := fun hs => nomatch hs
      stopped := fun hs => absurd rfl hs
      waits := fun r hr => nomatch hr
      orderly := {
        numbered := fun r hr => nomatch hr
        unique := fun r hr => nomatch hr
        unsignalled := fun r hr => nomatch hr
        held := fun _ r hr => nomatch hr
        serving := fun hh => nomatch hh
        begun := fun hs => nomatch hs } }
    renewal := fun _ hs => nomatch hs
    survey := fun _ hs => nomatch hs }

/-! ## What a member can rely on -/

/-- The terms on which every member works, whatever answers it gets: what it accepts and renews is
its own, and the others are not itself. -/
def own (self : Profile) (layout : Registry.Layout) : Terms where
  self
  layout
  accepts a := a.instanceId = self.id
  creates _ := True
  renews _ d := d.instanceId = self.id
  lists a := a.instanceId ≠ self.id

theorem sound_own (self : Profile) (layout : Registry.Layout) : (own self layout).Sound where
  renewable _ _ := rfl
  renewed _ hr _ := hr

/-- Any answer may be trusted that far. -/
theorem trusts_own {self : Profile} {layout : Registry.Layout} (h : Keeps (own self layout) a)
    (t : Task) (answer : Answer) : Trusts (own self layout) a t answer := by
  have hself : a.session.member.self = self := h.member.self
  cases t with
  | farewell => trivial
  | part p =>
    cases p with
    | display => trivial
    | renewal => trivial
    | survey =>
      intro stage _
      cases stage with
      | listing =>
        intro nodes l _ _ b _ hb
        rwa [hself] at hb
      | fetching remote ids => trivial
    | runner g =>
      intro asked _
      cases asked with
      | creating d => exact fun _ => trivial
      | confirming key =>
        intro l b _ _ hget _
        rw [hself] at hget
        exact (Listing.mem_of_get? hget).2
      | _ => trivial

/-- Every member keeps to its own terms, whatever happens to it. -/
theorem Keeps.move_own {self : Profile} {layout : Registry.Layout} (h : Keeps (own self layout) a)
    (x : Move) : Keeps (own self layout) (a.move x) := by
  cases x with
  | act x => exact h.act (sound_own _ _) x
  | receive t answer => exact h.receive (sound_own _ _) (trusts_own h t answer)

theorem keeps_own (c : Config) (naming : Option Naming) (moves : List Move) :
    Keeps (own c.self (.ofRoot c.store.root))
      ((ofMember (Member.ofConfig c naming)).run moves) :=
  run_induction Keeps.move_own (keeps_ofConfig c naming rfl rfl) moves

private theorem state_ne_running {s : Session} (h : T.Attends s)
    (ha : s.member.known.accepted = none) : s.member.control.state ≠ .running := by
  intro hs
  have hr := h.member.running hs
  rw [ha] at hr
  cases hr

/-- A loop of renewal leaves the control of a member that does not run. -/
private theorem control_proceed_renewal {s : Session} (h : s.member.control.state ≠ .running) :
    (s.proceed .renewal).1.member.control = s.member.control :=
  Session.control_proceed (by simp [Session.loops]) fun hr =>
    absurd (by simpa [Member.isRunning] using hr) h

private theorem control_receive_renewal {s : Session} (h : s.member.control.state ≠ .running)
    (answer : Answer) : (s.receive .renewal answer).1.member.control = s.member.control := by
  rw [(s.receive_failure (by simp [Session.loops]) answer).1, Control.afterRound_of_ne h]

/-- A view that says nothing new is not put on the board, where the same is shown already. -/
theorem shown_present (m : Member) (v : View) :
    (m.present v).1.board.view.current = v.current ∧
      (m.present v).1.board.view.memberships = v.memberships := by
  unfold Member.present Board.post
  by_cases hn : m.board.isNews v = true
  · rw [if_pos hn]
    exact ⟨rfl, rfl⟩
  · rw [if_neg hn]
    simp only [Board.isNews, View.membersDiffer, Bool.or_eq_true, decide_eq_true_eq, not_or, ne_eq,
      Decidable.not_not] at hn
    exact ⟨hn.2, hn.1.1.1⟩

private theorem exists_view {k : Known} {a : Announce} (ha : k.accepted = some a)
    (hid : a.instanceId = k.localId) (current : Bool) :
    ∃ v, k.view current = .ok v ∧ v.current = current := by
  have hc := Listing.canonical_ofList (k.remote.entries ++ [a])
  obtain ⟨b, hb, hi, _⟩ := Listing.exists_mem_ofList (l := k.remote.entries ++ [a]) (b := a)
    (by simp)
  have hall : k.all = Listing.ofList (k.remote.entries ++ [a]) := by
    rw [Known.all, Listing.withAnnounce, ha]
    rfl
  have hcontains : k.all.contains k.localId = true := by
    rw [hall, ← hid, ← hi, Listing.contains, Listing.get?_of_mem hc hb]
    rfl
  exact ⟨_, View.build_of_canonical (hall ▸ hc) hcontains _ _, rfl⟩

/-- A member that holds its own announce while it runs always has a view. -/
theorem compute_eq_some {m : Member} (h : m.isRunning = true →
    ∃ a, m.known.accepted = some a ∧ a.instanceId = m.known.localId) :
    ∃ v, (Display.compute m).2 = some v ∧ v.current = m.isRunning := by
  unfold Display.compute
  simp only
  split
  · next hr =>
    have hr : m.isRunning = true := hr
    obtain ⟨a, ha, hid⟩ := h hr
    obtain ⟨v, hv, hcur⟩ := exists_view
      (k := { m.known with properties := m.contributors.collect }) ha hid true
    exact ⟨v, by rw [hv]; rfl, hcur.trans hr.symm⟩
  · next hr =>
    have hr : m.isRunning = false := Bool.eq_false_iff.mpr hr
    exact ⟨_, rfl, hr.symm⟩

/-- The view that a member computes while it runs is that of what it knows. -/
theorem view_of_compute {m : Member} (hr : m.isRunning = true) {v : View}
    (hv : (Display.compute m).2 = some v) :
    ({ m.known with properties := m.contributors.collect } : Known).view true = .ok v := by
  have hc : (Display.compute m).2 =
      (({ m.known with properties := m.contributors.collect } : Known).view true).toOption :=
    if_pos hr
  rw [hc] at hv
  generalize ({ m.known with properties := m.contributors.collect } : Known).view true = r at hv
  cases r with
  | error e => cases hv
  | ok w =>
    cases hv
    rfl

/-- A round of display leaves a view that shows what was computed. -/
theorem shown_round {m : Member} {v : View} (hv : (Display.compute m).2 = some v) :
    (Display.round m).1.board.view.current = v.current ∧
      (Display.round m).1.board.view.memberships = v.memberships := by
  unfold Display.round
  simp only [hv]
  exact shown_present _ v

private theorem proceed_display {s : Session} (hd : s.display ≠ .ended)
    (hs : s.member.stopping = false) :
    (s.proceed .display).1.member = (Display.round s.member).1 := by
  have he : s.hasEnded .display = false := by simpa [Session.hasEnded] using hd
  unfold Session.proceed
  rw [he]
  show (s.proceedLoop .display).1.member = (Display.round s.member).1
  simp [Session.proceedLoop, hs]

/-- In every run of a member, however its parts take turns and whatever the store answers: it knows
its cluster while it announces itself, waits for another announce of its to go, or runs, so it never
fails to announce itself for lack of a cluster; while it runs it holds an announce of its own, and
none among those of the others, so its view can always be built; a renewal that does not find the
own announce changes nothing; and a round of display leaves a view that is current if and only if
the member runs. -/
theorem run_keeps_standing (c : Config) (naming : Option Naming) (moves : List Move) :
    let s := ((ofMember (Member.ofConfig c naming)).run moves).session
    (s.member.control.state ∈ [State.announce, .clearAnnounce, .running] →
      s.member.control.clusterId.isSome = true) ∧
    (s.member.control.state = .running →
      (∃ a, s.member.known.accepted = some a ∧ a.instanceId = c.self.id) ∧
      s.member.known.remote.contains c.self.id = false) ∧
    (s.member.control.state = .announce →
      ∃ id, (Step.begin s.member .announce).2 = Step.ask (.listing id)) ∧
    (∃ v, (Display.compute s.member).2 = some v ∧ v.current = s.member.isRunning) ∧
    (s.member.known.accepted = none →
      (s.proceed .renewal).1.member.control = s.member.control ∧
      ∀ answer, (s.receive .renewal answer).1.member.control = s.member.control) ∧
    (s.display ≠ .ended → s.member.stopping = false →
      (s.proceed .display).1.member.board.view.current = s.member.isRunning) := by
  intro s
  have h : Terms.Attends _ s := keeps_own c naming moves
  have hown : s.member.control.state = .running →
      ∃ a, s.member.known.accepted = some a ∧ a.instanceId = c.self.id := by
    intro hs
    obtain ⟨a, ha⟩ := Option.isSome_iff_exists.mp (h.member.running hs)
    exact ⟨a, ha, h.member.accepted ha⟩
  have hview := compute_eq_some (m := s.member) fun hr => by
    rw [h.member.localId]
    exact hown (by simpa [Member.isRunning] using hr)
  refine ⟨fun hs => h.member.settled ?_, fun hs => ⟨hown hs, ?_⟩, fun hs => ?_, hview,
    fun ha => ?_, fun hd hs => ?_⟩
  · simp only [List.mem_cons, List.not_mem_nil, or_false] at hs
    rcases hs with hs | hs | hs
    · rw [hs]; rfl
    · rw [hs]; rfl
    · rw [hs]; rfl
  · cases hg : s.member.known.remote.get? c.self.id with
    | none => rw [Listing.contains, hg]; rfl
    | some b =>
      obtain ⟨hb, hid⟩ := Listing.mem_of_get? hg
      exact absurd hid (h.member.remote b hb)
  · obtain ⟨id, hid⟩ := Option.isSome_iff_exists.mp (h.member.settled (by rw [hs]; rfl))
    refine ⟨id, ?_⟩
    have hc : (s.member.setAccepted none).control.clusterId = some id := hid
    simp only [Step.begin, hc]
  · have hne := state_ne_running h ha
    exact ⟨control_proceed_renewal hne, control_receive_renewal hne⟩
  · obtain ⟨v, hv, hcur⟩ := hview
    rw [proceed_display hd hs, (shown_round hv).1, hcur]

end Attendance

end Rollcall
