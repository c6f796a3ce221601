import Rollcall.Proofs.Editions

/-!
# Rounds under way

A round of renewal that is under way goes on with the properties that it read when it began. A
survey that is under way is to look at the announces or goes on with what it saw there, and when it
succeeds that is known. Restarts apart, nothing else that a member does or hears changes this.
-/

namespace Rollcall

open Store (Answer)

namespace Attendance

/-- A round of renewal is under way that read the properties `p`, and these are written or will
be. -/
inductive Ticking (p : Properties) (a : Attendance) : Prop
  | sending (hs : a.session.renewal = .asking (.sending p))
  | renewing {key : String} {d : Payload} {ttl : Nat}
      (hs : a.session.renewal = .asking (.renewing key d ttl)) (hp : a.session.member.sent = some p)

/-- A survey is under way that is to look at the announces, or saw there that an instance has an
index. -/
inductive Learning (id : String) (index : Int) (a : Attendance) : Prop
  | looking (hs : a.session.survey = .asking .listing)
  | fetching {remote : Listing} {ids : List String}
      (hs : a.session.survey = .asking (.fetching remote ids)) (ht : remote.Tells id index)

variable {a a' : Attendance} {p : Properties} {id : String} {index : Int}

private theorem exists_of_renewing {s : Session} (h : s.renewing.isSome = true) :
    ∃ stage, s.renewal = .asking stage := by
  unfold Session.renewing at h
  split at h
  · next stage hs => exact ⟨stage, hs⟩
  · cases h

theorem renewal_of_renewing {s : Session} {stage : Renewal.Stage}
    (h : s.renewing = some stage) : s.renewal = .asking stage := by
  unfold Session.renewing at h
  split at h
  · next hs =>
    cases h
    exact hs
  · cases h

private theorem exists_of_surveying {s : Session} (h : s.surveying.isSome = true) :
    ∃ stage, s.survey = .asking stage := by
  unfold Session.surveying at h
  split at h
  · next stage hs => exact ⟨stage, hs⟩
  · cases h

private theorem Ticking.reticent (h : Ticking p a) (hr : Reticent a a')
    (hs : a'.session.renewing.isSome = true) : Ticking p a' := by
  obtain ⟨stage, hs⟩ := exists_of_renewing hs
  cases h with
  | sending ha =>
    cases ha.symm.trans (hr.renewal hs)
    exact .sending hs
  | renewing ha hp =>
    cases ha.symm.trans (hr.renewal hs)
    exact .renewing hs (hr.sent.trans hp)

theorem Ticking.act (h : Ticking p a) (x : Act)
    (hs : (a.act x).session.renewing.isSome = true) : Ticking p (a.act x) := by
  by_cases hx : x = .proceed .renewal
  · subst hx
    revert hs
    rw [Attendance.act]
    split
    · intro hs
      rcases a.session.proceed_renewal with ⟨-, he, -⟩ | ⟨-, he, -⟩ | ⟨-, hidle, -⟩
      · rw [he]
        exact h
      · simp [he, Session.renewing] at hs
      · cases h with
        | sending ha => exact absurd ha (hidle _)
        | renewing ha _ => exact absurd ha (hidle _)
    · exact fun _ => h
  · exact h.reticent (reticent_act hx) hs

theorem Ticking.receive (h : Ticking p a) (t : Task) (answer : Answer)
    (hs : (a.receive t answer).session.renewing.isSome = true) :
    Ticking p (a.receive t answer) := by
  by_cases ht : t = .part .renewal
  · subst ht
    obtain ⟨stage, ha⟩ : ∃ stage, a.session.renewal = .asking stage := by
      cases h with
      | sending ha => exact ⟨_, ha⟩
      | renewing ha _ => exact ⟨_, ha⟩
    have hr : (a.receive (.part .renewal) answer).session =
        (a.session.afterRenewal (Renewal.answered a.session.member stage answer)).1 :=
      congrArg Prod.fst (Session.receive_renewal ha answer)
    obtain ⟨stage', hs⟩ := exists_of_renewing hs
    have hmember := a.session.member_afterRenewal (Renewal.answered a.session.member stage answer)
    rw [← hr] at hmember
    have hloop := a.session.renewal_afterRenewal (Renewal.answered a.session.member stage answer)
    rw [← hr] at hloop
    have hwait := Turn.loop_eq_asking (hloop.symm.trans hs)
    have hanswers := Renewal.answers_answered a.session.member stage answer
    generalize Renewal.answered a.session.member stage answer = x at hanswers hmember hwait
    cases hanswers with
    | sent tally hok hacc =>
      cases hwait
      refine .renewing hs ?_
      rw [hmember]
      cases h with
      | sending ha' =>
        cases ha.symm.trans ha'
        rfl
      | renewing ha' _ => cases ha.symm.trans ha'
    | _ => cases hwait
  · exact h.reticent (reticent_receive ht answer) hs

/-- A round of renewal that begins reads the properties of the moment. -/
theorem ticking_begin (hidle : a.session.renewing = none)
    (hs : (a.act (.proceed .renewal)).session.renewing.isSome = true) :
    Ticking a.session.member.known.properties (a.act (.proceed .renewal)) := by
  have hnot : ∀ stage, a.session.renewal ≠ .asking stage := fun stage ha => by
    simp [Session.renewing, ha] at hidle
  obtain ⟨stage, hs⟩ := exists_of_renewing hs
  revert hs
  rw [act]
  split
  · intro hs
    rcases a.session.proceed_renewal with ⟨-, he, -⟩ | ⟨-, he, -⟩ | ⟨-, -, he, -⟩
    · rw [he] at hs
      exact absurd hs (hnot stage)
    · rw [he] at hs
      cases hs
    · have hmember := a.session.member_afterRenewal (Renewal.begin a.session.member)
      have hloop := a.session.renewal_afterRenewal (Renewal.begin a.session.member)
      rw [← he] at hmember hloop
      have hwait := Turn.loop_eq_asking (hloop.symm.trans hs)
      have hbegins := Renewal.begins_begin a.session.member
      generalize Renewal.begin a.session.member = x at hbegins hmember hwait
      cases hbegins with
      | sending _ _ =>
        cases hwait
        exact .sending hs
      | renewing _ hsent _ =>
        cases hwait
        exact .renewing hs (by rw [hmember, hsent])
      | _ => cases hwait
  · exact fun hs => absurd hs (hnot stage)

theorem Learning.act (h : Learning id index a) (x : Act)
    (hs : (a.act x).session.surveying.isSome = true) : Learning id index (a.act x) := by
  have hkept : (a.act x).session.survey = a.session.survey := by
    obtain ⟨stage, hs⟩ := exists_of_surveying hs
    have hasking : ∃ stage, a.session.survey = .asking stage := by
      cases h with
      | looking ha => exact ⟨_, ha⟩
      | fetching ha _ => exact ⟨_, ha⟩
    by_cases hstart : x = .start
    · subst hstart
      revert hs
      show a.session.start.survey = .asking stage → a.session.start.survey = _
      unfold Session.start
      split
      · exact fun _ => rfl
      · exact nofun
    by_cases hsurvey : x = .proceed .survey
    · subst hsurvey
      obtain ⟨stage', ha⟩ := hasking
      rw [Attendance.act]
      split
      · rcases a.session.proceed_cases .survey with he | ⟨hidle, -⟩
        · rw [he]
        · exact absurd ha (hidle stage')
      · rfl
    · exact (a.apart_act hstart hsurvey).survey
  cases h with
  | looking ha => exact .looking (hkept.trans ha)
  | fetching ha ht => exact .fetching (hkept.trans ha) ht

/-- A survey that begins is to look at the announces. -/
theorem learning_begin (hidle : a.session.surveying = none)
    (hs : (a.act (.proceed .survey)).session.surveying.isSome = true) :
    Learning id index (a.act (.proceed .survey)) := by
  obtain ⟨stage, hs⟩ := exists_of_surveying hs
  have hnot : a.session.survey ≠ .asking stage := fun ha => by
    simp [Session.surveying, ha] at hidle
  have hlooks : stage = .listing := by
    revert hs
    rw [act]
    split
    · rcases a.session.proceed_cases .survey with he | ⟨-, he | he⟩
      · rw [he]
        exact fun hs => absurd hs hnot
      · rw [he]
        simp
      · rw [he, Session.survey_afterSurvey, Survey.begin]
        split
        · intro hs
          cases hs
          rfl
        · exact fun hs => by cases hs
    · exact fun hs => absurd hs hnot
  exact .looking (hlooks ▸ hs)

end Attendance

namespace Survey

variable {m : Member} {id : String} {index : Int}

/-- An answer by which a survey learns that an instance has an index, unless it knows so already. -/
def Learns (id : String) (index : Int) (m : Member) (answer : Answer) : Stage → Prop
  | .listing => ∀ nodes l, (Registry.announces m.layout).outcome answer = .ok nodes →
      Listing.ofNodes nodes (!m.keepExpired) = .ok l → l.Tells id index
  | .fetching remote _ => remote.Tells id index

/-- A survey that learns an index has it known when it succeeds, or goes on with it. -/
theorem tells_answered (hne : id ≠ m.self.id) {stage : Stage} {answer : Answer}
    (h : Learns id index m answer stage) :
    (∀ {b}, (answered m stage answer).2 = .over (.ok b) →
      (answered m stage answer).1.known.remote.Tells id index) ∧
    ∀ {stage'}, (answered m stage answer).2 = .wait stage' →
      ∃ remote ids, stage' = .fetching remote ids ∧ remote.Tells id index := by
  have ha := answers_answered m stage answer
  generalize answered m stage answer = x at ha ⊢
  cases ha with
  | failed _ _ => exact ⟨nofun, nofun⟩
  | agreed tally hok hof hagrees =>
    exact ⟨fun _ => ((h _ _ hok hof).without hne).of_agrees hagrees, nofun⟩
  | published tally hok hof _ => exact ⟨fun _ => (h _ _ hok hof).without hne, nofun⟩
  | found tally hok hof =>
    refine ⟨nofun, fun hw => ?_⟩
    cases hw
    exact ⟨_, _, rfl, (h _ _ hok hof).without hne⟩
  | fetched tally _ => exact ⟨fun _ => h, nofun⟩

end Survey

namespace Attendance

variable {a : Attendance} {id : String} {index : Int}

theorem Learning.receive (h : Learning id index a) (hne : id ≠ a.session.member.self.id) {t : Task}
    {answer : Answer}
    (hl : t = .part .survey → a.session.survey = .asking .listing →
      Survey.Learns id index a.session.member answer .listing)
    (hs : (a.receive t answer).session.surveying.isSome = true) :
    Learning id index (a.receive t answer) := by
  by_cases ht : t = .part .survey
  · subst ht
    obtain ⟨stage, ha, hlearns⟩ : ∃ stage, a.session.survey = .asking stage ∧
        Survey.Learns id index a.session.member answer stage := by
      cases h with
      | looking ha => exact ⟨_, ha, hl rfl ha⟩
      | fetching ha ht => exact ⟨_, ha, ht⟩
    have hloop : (a.receive (.part .survey) answer).session.survey =
        (Survey.answered a.session.member stage answer).2.loop := by
      rw [Attendance.receive, Session.receive_survey ha, Session.survey_afterSurvey,
        (Survey.loop_roundAnswered _ _ _).2]
    obtain ⟨stage', hs⟩ := exists_of_surveying hs
    obtain ⟨remote, ids, rfl, ht⟩ :=
      (Survey.tells_answered hne hlearns).2 (Turn.loop_eq_asking (hloop.symm.trans hs))
    exact .fetching hs ht
  · have hkept := (a.apart_receive ht answer).survey
    cases h with
    | looking ha => exact .looking (hkept.trans ha)
    | fetching ha ht => exact .fetching (hkept.trans ha) ht

end Attendance

end Rollcall
