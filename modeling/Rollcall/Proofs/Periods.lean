import Rollcall.Proofs.Parts

/-!
# Periods of running

A member may stop running and run again while a round of one of its loops still waits for the store.
A chronicle counts how often the member got to run and keeps for each loop the period in which its
round began. What a failed round raises counts if and only if the member runs at that moment, be it
in the period in which the round began or in a later one, and that ends the period.
-/

namespace Rollcall

open Store (Answer)

/-- A round gets under way only when a member that runs begins it. -/
theorem Session.Goes.isAsking {s s' : Session} {p q : Part} {input : Option Answer}
    (h : s.Goes p input s') (hq : s'.isAsking q = true) :
    s.isAsking q = true ∨ s.member.isRunning = true := by
  cases h with
  | renewalEnds _ =>
    cases q with
    | renewal => cases hq
    | _ => exact .inl hq
  | renews _ _ =>
    rcases isAsking_afterRenewal hq with ⟨_, hq⟩ | ⟨_, _, hw⟩
    · exact .inl hq
    · exact .inr (Renewal.isRunning_of_begin hw)
  | renewed hs =>
    rcases isAsking_afterRenewal hq with ⟨_, hq⟩ | ⟨rfl, _⟩
    · exact .inl hq
    · exact .inl (by simp [Session.isAsking, hs])
  | surveyEnds _ =>
    cases q with
    | survey => cases hq
    | _ => exact .inl hq
  | surveys _ _ =>
    rcases isAsking_afterSurvey hq with ⟨_, hq⟩ | ⟨_, _, hw⟩
    · exact .inl hq
    · exact .inr (Survey.isRunning_of_begin hw)
  | surveyed hs =>
    rcases isAsking_afterSurvey hq with ⟨_, hq⟩ | ⟨rfl, _⟩
    · exact .inl hq
    · exact .inl (by simp [Session.isAsking, hs])
  | begins _ _ => exact .inl (by rwa [isAsking_afterStep] at hq)
  | answered _ => exact .inl (by rwa [isAsking_afterStep] at hq)
  | _ => exact .inl hq

/-- An attendance with the periods in which its member ran. -/
structure Chronicle where
  attendance : Attendance
  /-- How often the member got to run. -/
  period : Nat := 0
  /-- The period in which the round began that a loop is in. -/
  since : Part → Option Nat := fun _ => none

namespace Chronicle

/-- The chronicle of a member that has not begun. -/
def ofMember (m : Member) : Chronicle := { attendance := .ofMember m }

/-- Whether the member runs. -/
def isRunning (h : Chronicle) : Bool := h.attendance.session.member.isRunning

/-- Whether a round of a loop has asked the store and is not over. -/
def isAsking (h : Chronicle) (p : Part) : Bool := h.attendance.session.isAsking p

/-- A chronicle after a move. -/
def move (h : Chronicle) (x : Attendance.Move) : Chronicle :=
  let a := h.attendance.move x
  { attendance := a
    period :=
      if a.session.member.isRunning && !h.isRunning then h.period + 1 else h.period
    since := fun p =>
      if a.session.isAsking p then if h.isAsking p then h.since p else some h.period else none }

/-- A chronicle after moves one after another. -/
def run (h : Chronicle) (moves : List Attendance.Move) : Chronicle := moves.foldl move h

/-! ## Rounds and their periods -/

/-- A round gets under way only while the member runs. -/
private theorem isAsking_move {a : Attendance} {x : Attendance.Move} {p : Part}
    (h : (a.move x).session.isAsking p = true) :
    a.session.isAsking p = true ∨ a.session.member.isRunning = true := by
  have hpasses := a.passes_move x
  generalize a.move x = a' at hpasses h
  cases hpasses with
  | starts _ _ => cases p <;> cases h
  | goes _ _ hgoes => exact hgoes.isAsking h
  | _ => exact .inl h

/-- A chronicle that is right about its periods: a member that runs is in one of them, and a round
is under way since one of them. -/
structure Dated (h : Chronicle) : Prop where
  running : h.isRunning = true → 1 ≤ h.period
  asking : ∀ p, (h.since p).isSome = h.isAsking p
  bounded : ∀ p n, h.since p = some n → 1 ≤ n ∧ n ≤ h.period

variable {h : Chronicle}

theorem period_le_move (h : Chronicle) (x : Attendance.Move) : h.period ≤ (h.move x).period := by
  rw [move]
  split
  · exact Nat.le_succ _
  · exact Nat.le_refl _

theorem period_le_run (h : Chronicle) (moves : List Attendance.Move) :
    h.period ≤ (h.run moves).period := by
  induction moves generalizing h with
  | nil => exact Nat.le_refl _
  | cons x moves ih => exact Nat.le_trans (h.period_le_move x) (ih _)

theorem dated_ofMember {m : Member} (hm : m.isRunning = false) : (ofMember m).Dated where
  running hr := by
    rw [show (ofMember m).isRunning = m.isRunning from rfl, hm] at hr
    cases hr
  asking p := by cases p <;> rfl
  bounded p n hn := nomatch hn

private theorem since_move (h : Chronicle) (x : Attendance.Move) (p : Part) :
    (h.move x).since p =
      if (h.move x).isAsking p then if h.isAsking p then h.since p else some h.period else none :=
  rfl

theorem Dated.move (hd : h.Dated) (x : Attendance.Move) : (h.move x).Dated where
  running hr := by
    have hr : (h.attendance.move x).session.member.isRunning = true := hr
    rw [Chronicle.move, hr]
    cases hrun : h.isRunning with
    | true => exact hd.running hrun
    | false => exact Nat.succ_le_succ (Nat.zero_le _)
  asking p := by
    rw [since_move]
    cases hask : (h.move x).isAsking p with
    | false => rfl
    | true =>
      cases hold : h.isAsking p with
      | false => rfl
      | true => rw [if_pos rfl, if_pos rfl, hd.asking, hold]
  bounded p n hn := by
    have hle := h.period_le_move x
    rw [since_move] at hn
    split at hn
    · next hask =>
      split at hn
      · obtain ⟨hpos, hn⟩ := hd.bounded p n hn
        exact ⟨hpos, Nat.le_trans hn hle⟩
      · next hold =>
        have hrun := (isAsking_move hask).resolve_left hold
        cases hn
        exact ⟨hd.running hrun, hle⟩
    · cases hn

theorem Dated.run (hd : h.Dated) (moves : List Attendance.Move) : (h.run moves).Dated := by
  induction moves generalizing h with
  | nil => exact hd
  | cons x moves ih => exact ih (hd.move x)

/-- No round of a loop is under way since an earlier period. -/
def UpToDate (h : Chronicle) (p : Part) : Prop := h.since p = none ∨ h.since p = some h.period

/-- Within one period no round comes to be left over from an earlier one. -/
theorem UpToDate.run {p : Part} (hu : h.UpToDate p) {moves : List Attendance.Move}
    (hp : (h.run moves).period = h.period) : (h.run moves).UpToDate p := by
  induction moves generalizing h with
  | nil => exact hu
  | cons x moves ih =>
    have hfirst : (h.move x).period = h.period :=
      Nat.le_antisymm (hp ▸ period_le_run (h.move x) moves) (h.period_le_move x)
    refine ih ?_ (hp.trans hfirst.symm)
    rw [UpToDate, since_move, hfirst]
    split
    · split
      · exact hu
      · exact .inr rfl
    · exact .inl rfl

private theorem isRunning_ofConfig (c : Config) (naming : Option Naming) :
    (Member.ofConfig c naming).isRunning = false := by
  rw [Member.isRunning, Member.control_ofConfig]
  rfl

private theorem attendance_run (h : Chronicle) (moves : List Attendance.Move) :
    (h.run moves).attendance = h.attendance.run moves := by
  induction moves generalizing h with
  | nil => rfl
  | cons x moves ih => exact ih (h.move x)

/-- In every run of a member, however long the store takes to answer and whatever else goes on
meanwhile: a round that is under way began in one of the periods of running so far, rounds get under
way only while the member runs, and nothing that a loop does changes the control of the member
except the failure of a round. A failure ends the
round. It counts if and only if the member runs at that moment, and then the member does not run any
more. So it may count in a later period than that in which the round began, but only one round of
each loop can be left over then: within a period no further one comes to be. -/
theorem run_counts_failures (c : Config) (naming : Option Naming)
    (moves more : List Attendance.Move) :
    let h := (ofMember (Member.ofConfig c naming)).run moves
    let s := h.attendance.session
    (∀ p n, h.since p = some n → 1 ≤ n ∧ n ≤ h.period) ∧
    (∀ p x, h.isAsking p = false → (h.move x).isAsking p = true → h.isRunning = true) ∧
    (∀ p ∈ Session.loops, (s.proceed p).1.member.control = s.member.control) ∧
    (∀ p ∈ Session.loops, ∀ answer, s.failure p answer = none →
      (s.receive p answer).1.member.control = s.member.control) ∧
    (∀ p ∈ Session.loops, ∀ answer e, s.failure p answer = some e →
      (h.since p).isSome = true ∧ (h.move (.receive (.part p) answer)).since p = none ∧
      (h.isRunning = true →
        (s.receive p answer).1.member.control = s.member.control.handle e ∧
        (s.receive p answer).1.member.isRunning = false) ∧
      (h.isRunning = false → (s.receive p answer).1.member.control = s.member.control)) ∧
    (∀ p, h.UpToDate p → (h.run more).period = h.period → (h.run more).UpToDate p) := by
  intro h s
  have hd : h.Dated := (dated_ofMember (isRunning_ofConfig c naming)).run moves
  have hk : Attendance.Keeps (Attendance.own c.self (.ofRoot c.store.root)) h.attendance := by
    rw [show h.attendance = _ from attendance_run _ moves]
    exact Attendance.keeps_own c naming moves
  refine ⟨hd.bounded, fun p x hold hnew => ?_, fun p hp => ?_, fun p hp answer hf => ?_,
    fun p hp answer e hf => ?_, fun p hu hp => hu.run hp⟩
  · exact (isAsking_move hnew).resolve_left (Bool.eq_false_iff.mp hold)
  · exact Session.control_proceed hp fun hr =>
      hk.member.running (by simpa [Member.isRunning] using hr)
  · rw [(Session.receive_failure s hp answer).1, hf]
    rfl
  · obtain ⟨hc, hover⟩ := Session.receive_failure s hp answer
    obtain ⟨hask, hnext⟩ := Session.failure_spec hf
    rw [hf] at hc hover
    refine ⟨(hd.asking p).trans hask, ?_, fun hr => ?_, fun hr => ?_⟩
    · rw [since_move, if_neg]
      exact Bool.eq_false_iff.mp (hover rfl)
    · have hr : s.member.control.state = .running := by simpa [isRunning, Member.isRunning] using hr
      have hh : (s.receive p answer).1.member.control = s.member.control.handle e := by
        rw [hc, Control.afterRound, Control.handleIf, if_pos hr]
      refine ⟨hh, ?_⟩
      rw [Member.isRunning, hh, Control.state_handle, hr]
      exact decide_eq_false hnext
    · have hr : s.member.control.state ≠ .running := by
        simpa [isRunning, Member.isRunning] using hr
      rw [hc, Control.afterRound_of_ne hr]

/-- A member that is on its own. -/
def loner : Config :=
  { self := { id := "x" }, store := { root := "/d" }, cluster := { id := some "c" } }

/-- A runner gets the member to run: it finds no announces, creates one under a key, and finds that
one. -/
def announcing (g : Nat) (key : String) : List Attendance.Move :=
  let data : Payload :=
    { instanceId := "x", serverInfo := "", clusterId := "c", propertiesIndex := 0 }
  let node : Store.Node := { key, value := some data.encode, ttl := some 13 }
  let directory : Store.Node := { key := "/d/announces", dir := true, nodes := [node] }
  [.act (.proceed (.runner g)),
    .act (.proceed (.runner g)),
    .receive (.part (.runner g)) (.error (.refused { code := Store.Refusal.keyNotFoundCode })),
    .receive (.part (.runner g)) (.ok { action := "create", node := some node }),
    .receive (.part (.runner g)) (.ok { action := "get", node := some directory })]

/-- An answer that does not come. -/
def timeout : Answer := .error (.transport "timeout")

/-- A member that has run, where both loops asked the store, and runs again after the round of one
of them failed. -/
def runningAgain (failing : Part) : Chronicle :=
  (ofMember (Member.ofConfig loner none)).run
    (.act .start :: announcing 1 "/d/announces/00000000000000000001" ++
      [.act (.proceed .renewal), .act (.proceed .survey), .receive (.part failing) timeout] ++
      announcing 2 "/d/announces/00000000000000000002")

/-- The failure of a round that is left over from the first period of running ends the second one,
be it a round of renewal or one of survey. -/
theorem failures_left_over_count :
    (let h := runningAgain .survey
     h.isRunning = true ∧ h.period = 2 ∧ h.since .renewal = some 1 ∧
       h.attendance.session.failure .renewal timeout = some .reset ∧
       (h.move (.receive (.part .renewal) timeout)).isRunning = false) ∧
    (let h := runningAgain .renewal
     h.isRunning = true ∧ h.period = 2 ∧ h.since .survey = some 1 ∧
       h.attendance.session.failure .survey timeout = some .reset ∧
       (h.move (.receive (.part .survey) timeout)).isRunning = false) := by
  decide +kernel

end Chronicle

end Rollcall
