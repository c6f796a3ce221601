import Rollcall.Proofs.Parts

/-!
# What goes on apart from surveys

What a member knows of the others it knows from its surveys. Steps, rounds of renewal and display
and whoever holds a session leave it alone, and so they leave the survey under way.
-/

namespace Rollcall

open Store (Answer)

/-- What leaves alone who a member is and what it knows of the others. -/
structure Member.Aside (m m' : Member) : Prop where
  self : m'.self = m.self
  layout : m'.layout = m.layout
  keepExpired : m'.keepExpired = m.keepExpired
  remote : m'.known.remote = m.known.remote
  properties : m'.known.remoteProperties = m.known.remoteProperties

namespace Member.Aside

variable {m m' m'' : Member}

theorem refl (m : Member) : m.Aside m := ⟨rfl, rfl, rfl, rfl, rfl⟩

theorem trans (h : m.Aside m') (h' : m'.Aside m'') : m.Aside m'' :=
  ⟨h'.self.trans h.self, h'.layout.trans h.layout, h'.keepExpired.trans h.keepExpired,
    h'.remote.trans h.remote, h'.properties.trans h.properties⟩

theorem beginStep (m : Member) (s : State) : m.Aside (Step.begin m s).1 := by
  obtain ⟨_, _, _, he⟩ := Step.begin_eq m s
  rw [he]
  exact ⟨rfl, rfl, rfl, rfl, rfl⟩

theorem stepAnswered (m : Member) (asked : Asked) (answer : Answer) :
    m.Aside (Step.answered m asked answer).1 := by
  obtain ⟨_, _, _, _, he⟩ := Step.answered_eq m asked answer
  rw [he]
  exact ⟨rfl, rfl, rfl, rfl, rfl⟩

theorem beginRenewal (m : Member) : m.Aside (Renewal.begin m).1 := by
  have hb := Renewal.begins_begin m
  generalize Renewal.begin m = x at hb ⊢
  cases hb with
  | _ => exact ⟨rfl, rfl, rfl, rfl, rfl⟩

theorem renewalAnswered (m : Member) (stage : Renewal.Stage) (answer : Answer) :
    m.Aside (Renewal.answered m stage answer).1 := by
  have ha := Renewal.answers_answered m stage answer
  generalize Renewal.answered m stage answer = x at ha ⊢
  cases ha with
  | renewed _ _ =>
    simp only [Known.replaceIfHeld]
    split <;> exact ⟨rfl, rfl, rfl, rfl, rfl⟩
  | _ => exact ⟨rfl, rfl, rfl, rfl, rfl⟩

theorem beginSurvey (m : Member) : m.Aside (Survey.begin m).1 := by
  obtain ⟨_, hb⟩ := Survey.begin_eq m
  rw [hb]
  exact ⟨rfl, rfl, rfl, rfl, rfl⟩

theorem display (m : Member) : m.Aside (Display.round m).1 := by
  obtain ⟨p, b, d, hd⟩ := Terms.display_eq m
  rw [hd]
  exact ⟨rfl, rfl, rfl, rfl, rfl⟩

theorem conclude (m : Member) (r : Except MemberError Bool) : m.Aside (Survey.conclude m r).1 := by
  unfold Survey.conclude
  split <;> exact ⟨rfl, rfl, rfl, rfl, rfl⟩

end Member.Aside

namespace Session

/-- What a survey of a session has asked, if one is under way. -/
def surveying (s : Session) : Option Survey.Stage :=
  match s.survey with
  | .asking stage => some stage
  | _ => none

/-- What a round of renewal of a session has asked, if one is under way. -/
def renewing (s : Session) : Option Renewal.Stage :=
  match s.renewal with
  | .asking stage => some stage
  | _ => none

/-- What goes on in a session apart from its surveys. -/
structure Apart (s s' : Session) : Prop where
  member : s.member.Aside s'.member
  survey : s'.survey = s.survey

variable {s s' : Session}

theorem Apart.refl (s : Session) : s.Apart s := ⟨.refl _, rfl⟩

private theorem apart_afterStep {x : Member × Step.Progress} (hx : s.member.Aside x.1) (g : Nat) :
    s.Apart (s.afterStep g x).1 := by
  obtain ⟨m, w | e⟩ := x
  · exact ⟨hx.trans ⟨rfl, rfl, rfl, rfl, rfl⟩, rfl⟩
  · exact ⟨hx.trans ⟨rfl, rfl, rfl, rfl, rfl⟩, rfl⟩

private theorem apart_afterRenewal {x : Member × Turn Renewal.Stage Duration}
    (hx : s.member.Aside x.1) : s.Apart (s.afterRenewal x).1 := by
  obtain ⟨m, stage | d⟩ := x
  · exact ⟨hx, rfl⟩
  · exact ⟨hx, rfl⟩

/-- Parts other than the surveys leave alone what is known of the others. -/
theorem Goes.apart {p : Part} {input : Option Answer} (h : s.Goes p input s') (hp : p ≠ .survey) :
    s.Apart s' := by
  cases h with
  | still => exact .refl s
  | displayEnds _ => exact ⟨.refl _, rfl⟩
  | displays _ _ => exact ⟨.display _, rfl⟩
  | renewalEnds _ => exact ⟨.refl _, rfl⟩
  | renews _ _ => exact apart_afterRenewal (.beginRenewal _)
  | renewed _ => exact apart_afterRenewal (.renewalAnswered _ _ _)
  | surveyEnds _ => exact absurd rfl hp
  | surveys _ _ => exact absurd rfl hp
  | surveyed _ => exact absurd rfl hp
  | begins _ _ => exact apart_afterStep (.beginStep _ _) _
  | answered _ => exact apart_afterStep (.stepAnswered _ _ _) _
  | runnerEnds _ => exact ⟨⟨rfl, rfl, rfl, rfl, rfl⟩, rfl⟩
  | rested _ => exact ⟨⟨rfl, rfl, rfl, rfl, rfl⟩, rfl⟩

theorem Apart.withdraw (h : s.Apart s') : s.Apart s'.withdraw.1 := by
  obtain ⟨_, hw⟩ := s'.withdraw_eq
  rw [hw]
  exact ⟨h.member.trans ⟨rfl, rfl, rfl, rfl, rfl⟩, h.survey⟩

end Session

namespace Attendance

/-- Starts and surveys apart, what happens to an attendance leaves alone what it knows of the
others. -/
theorem apart_move (a : Attendance) {x : Move} (hstart : x ≠ .act .start)
    (hsurvey : ∀ input, x.part? ≠ some (.survey, input)) :
    a.session.Apart (a.move x).session := by
  have hpasses := a.passes_move x
  generalize a.move x = a' at hpasses
  cases hpasses with
  | idle => exact .refl _
  | starts _ _ => exact absurd rfl hstart
  | goes hx _ hgoes => exact hgoes.apart fun hp => hsurvey _ (hp ▸ hx)
  | leaves _ _ _ => exact (Session.Apart.refl _).withdraw
  | removes tally _ => exact Session.Apart.withdraw ⟨⟨rfl, rfl, rfl, rfl, rfl⟩, rfl⟩
  | _ => exact ⟨⟨rfl, rfl, rfl, rfl, rfl⟩, rfl⟩

theorem apart_act (a : Attendance) {x : Act} (hstart : x ≠ .start)
    (hsurvey : x ≠ .proceed .survey) : a.session.Apart (a.act x).session :=
  a.apart_move (x := .act x) (by simpa using hstart) (by simpa using hsurvey)

theorem apart_receive (a : Attendance) {t : Task} (ht : t ≠ .part .survey) (answer : Answer) :
    a.session.Apart (a.receive t answer).session :=
  a.apart_move (x := .receive t answer) nofun (by simpa using ht)

end Attendance

end Rollcall
