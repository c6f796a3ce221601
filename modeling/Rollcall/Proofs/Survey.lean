import Rollcall.Proofs.Attendance
import Rollcall.Proofs.Steps

/-!
# What surveys bring to a member that runs

While a member goes on running no step is under way, so its announce stays under the key under which
it was accepted, and what it knows of the others changes by its surveys only. An announce that the
store shows to everyone who looks is known to the member from its next survey on.
-/

namespace Rollcall

open Store (Answer)

namespace Listing

/-- Whether an announce is listed under a key. -/
def HasKey (l : Listing) (key : String) : Prop := ∃ a ∈ l.entries, a.key = key

/-- Listings that agree list the same keys. -/
theorem HasKey.of_agrees {l m : Listing} {key : String} (h : l.HasKey key)
    (hlm : l.agrees m = true) : m.HasKey key := by
  obtain ⟨a, ha, rfl⟩ := h
  have hc : l.content = m.content := by simpa [agrees] using hlm
  have hm : a.content ∈ m.content := hc ▸ List.mem_map_of_mem ha
  obtain ⟨b, hb, he⟩ := List.mem_map.mp hm
  exact ⟨b, hb, congrArg Prod.fst he⟩

end Listing

namespace Session

/-- How what a member knows of the others comes about: by a survey that begins, looks at the
announces, fetches what is missing, and publishes. The listings looked at are those of `L`. -/
inductive Surveys (L : Listing → Prop) (s s' : Session) : Prop
  | kept (hr : s'.member.known.remote = s.member.known.remote) (hs : s'.survey = s.survey)
  | turned (hr : s'.member.known.remote = s.member.known.remote)
      (hs : ∀ stage, s.survey ≠ .asking stage)
      (hs' : ∀ stage, s'.survey = .asking stage → stage = .listing)
  | unchanged {l : Listing} (hl : L l) (hs : s.survey = .asking .listing)
      (hr : s'.member.known.remote = s.member.known.remote)
      (ha : (l.without s.member.self.id).agrees s.member.known.remote = true)
      (hs' : s'.survey = .resting)
  | published {l : Listing} (hl : L l) (hs : s.survey = .asking .listing)
      (hr : s'.member.known.remote = l.without s.member.self.id) (hs' : s'.survey = .resting)
  | found {l : Listing} {ids : List String} (hl : L l) (hs : s.survey = .asking .listing)
      (hr : s'.member.known.remote = s.member.known.remote)
      (hs' : s'.survey = .asking (.fetching (l.without s.member.self.id) ids))
  | fetched {remote : Listing} {ids : List String} (hs : s.survey = .asking (.fetching remote ids))
      (hr : s'.member.known.remote = remote) (hs' : s'.survey = .resting)

/-- What a member that goes on running keeps: who it is and the key of its announce. -/
structure GoesOn (L : Listing → Prop) (s s' : Session) : Prop where
  self : s'.member.self = s.member.self
  accepted : ∀ {b : Announce}, s'.member.known.accepted = some b →
    ∃ a, s.member.known.accepted = some a ∧ b.key = a.key
  surveys : Surveys L s s'

variable {L : Listing → Prop} {s s' : Session}

theorem GoesOn.same (hself : s'.member.self = s.member.self)
    (ha : s'.member.known.accepted = s.member.known.accepted)
    (hr : s'.member.known.remote = s.member.known.remote) (hs : s'.survey = s.survey) :
    GoesOn L s s' where
  self := hself
  accepted hb := ⟨_, ha ▸ hb, rfl⟩
  surveys := .kept hr hs

/-- The announce under a key is known, and what is under way does not take it away. -/
structure Informed (key : String) (s : Session) : Prop where
  known : s.member.known.remote.HasKey key
  fetching : ∀ remote ids, s.survey = .asking (.fetching remote ids) → remote.HasKey key

/-- The announce under a key is known, or a survey is under way that finds it. -/
inductive Awaits (key : String) (s : Session) : Prop
  | looking (hs : s.survey = .asking .listing)
  | fetching {remote : Listing} {ids : List String} (hs : s.survey = .asking (.fetching remote ids))
      (hk : remote.HasKey key)
  | informed (h : Informed key s)

variable {key : String}

/-- A member that is informed of an announce stays so while every look at the others shows it. -/
theorem Informed.goesOn (h : Informed key s) (hg : GoesOn L s s')
    (hL : ∀ l, L l → (l.without s.member.self.id).HasKey key) : Informed key s' := by
  cases hg.surveys with
  | kept hr hs => exact ⟨by rw [hr]; exact h.known, by rw [hs]; exact h.fetching⟩
  | turned hr hs hs' => exact ⟨by rw [hr]; exact h.known, fun _ _ he => nomatch hs' _ he⟩
  | unchanged hl hs hr ha hs' => exact ⟨by rw [hr]; exact h.known, by simp [hs']⟩
  | published hl hs hr hs' => exact ⟨by rw [hr]; exact hL _ hl, by simp [hs']⟩
  | found hl hs hr hs' =>
    refine ⟨by rw [hr]; exact h.known, ?_⟩
    intro remote ids he
    rw [hs'] at he
    cases he
    exact hL _ hl
  | fetched hs hr hs' => exact ⟨by rw [hr]; exact h.fetching _ _ hs, by simp [hs']⟩

/-- A survey that is under way brings the announce in. -/
theorem Awaits.goesOn (h : Awaits key s) (hg : GoesOn L s s')
    (hL : ∀ l, L l → (l.without s.member.self.id).HasKey key) : Awaits key s' := by
  cases h with
  | informed h => exact .informed (h.goesOn hg hL)
  | looking hl =>
    cases hg.surveys with
    | kept hr hs => exact .looking (hs.trans hl)
    | turned hr hs hs' => exact absurd hl (hs _)
    | unchanged hl' hs hr ha hs' =>
      exact .informed ⟨by rw [hr]; exact (hL _ hl').of_agrees ha, by simp [hs']⟩
    | published hl' hs hr hs' => exact .informed ⟨by rw [hr]; exact hL _ hl', by simp [hs']⟩
    | found hl' hs hr hs' => exact .fetching hs' (hL _ hl')
    | fetched hs hr hs' => exact nomatch hl.symm.trans hs
  | fetching hf hk =>
    cases hg.surveys with
    | kept hr hs => exact .fetching (hs.trans hf) hk
    | turned hr hs hs' => exact absurd hf (hs _)
    | fetched hs hr hs' =>
      rw [hf] at hs
      cases hs
      exact .informed ⟨by rw [hr]; exact hk, by simp [hs']⟩
    | unchanged hl hs hr ha hs' => exact nomatch hf.symm.trans hs
    | published hl hs hr hs' => exact nomatch hf.symm.trans hs
    | found hl hs hr hs' => exact nomatch hf.symm.trans hs

/-- When the survey is over the announce is known. -/
theorem Awaits.informed_of_resting (h : Awaits key s) (hs : s.survey = .resting) :
    Informed key s := by
  cases h with
  | informed h => exact h
  | looking hl => exact nomatch hs.symm.trans hl
  | fetching hf hk => exact nomatch hs.symm.trans hf

/-! ## Runners and renewal -/

private theorem goesOn_proceedRunner (hr : s.member.control.state = .running) (g : Nat) :
    GoesOn L s (s.proceedRunner g).1 := by
  rcases s.proceedRunner_cases g with he | he | ⟨_, _, hactive, _⟩ | ⟨_, _, e, _, _, he⟩
  · rw [he]
    exact .same rfl rfl rfl rfl
  · rw [he]
    exact .same rfl rfl rfl rfl
  · rw [hr] at hactive
    cases hactive
  · rw [he]
    exact .same rfl rfl rfl rfl

private theorem goesOn_afterRenewal {x : Member × Turn Renewal.Stage Duration}
    (hself : x.1.self = s.member.self)
    (ha : ∀ {b : Announce}, x.1.known.accepted = some b →
      ∃ a, s.member.known.accepted = some a ∧ b.key = a.key)
    (hr : x.1.known.remote = s.member.known.remote) : GoesOn L s (s.afterRenewal x).1 := by
  obtain ⟨m, stage | d⟩ := x
  · exact ⟨hself, ha, .kept hr rfl⟩
  · exact ⟨hself, ha, .kept hr rfl⟩

private theorem renew_known (m : Member) :
    (Renewal.renew m).1.self = m.self ∧ (Renewal.renew m).1.known = m.known := by
  unfold Renewal.renew
  split
  · exact ⟨rfl, rfl⟩
  · exact ⟨rfl, rfl⟩

private theorem goesOn_beginRenewal : GoesOn L s (s.afterRenewal (Renewal.begin s.member)).1 := by
  have hk : (Renewal.begin s.member).1.self = s.member.self ∧
      (Renewal.begin s.member).1.known = s.member.known := by
    unfold Renewal.begin
    split
    · exact ⟨rfl, rfl⟩
    · split
      · exact renew_known s.member
      · exact ⟨rfl, rfl⟩
  refine goesOn_afterRenewal hk.1 (fun hb => ⟨_, ?_, rfl⟩) (by rw [hk.2])
  rwa [hk.2] at hb

private theorem goesOn_renewalAnswered (stage : Renewal.Stage) (answer : Answer) :
    GoesOn L s (s.afterRenewal (Renewal.answered s.member stage answer)).1 := by
  cases stage with
  | sending p =>
    have hk : (Renewal.answered s.member (.sending p) answer).1.self = s.member.self ∧
        (Renewal.answered s.member (.sending p) answer).1.known.accepted =
          s.member.known.accepted ∧
        (Renewal.answered s.member (.sending p) answer).1.known.remote =
          s.member.known.remote := by
      simp only [Renewal.answered, Terms.accept_eq]
      split
      · rw [(renew_known _).1, (renew_known _).2]
        exact ⟨rfl, rfl, rfl⟩
      · exact ⟨rfl, rfl, rfl⟩
    refine goesOn_afterRenewal hk.1 (fun hb => ⟨_, ?_, rfl⟩) hk.2.2
    rwa [hk.2.1] at hb
  | renewing key d ttl =>
    refine goesOn_afterRenewal ?_ (fun {b} hb => ?_) ?_
    · simp only [Renewal.answered, Terms.accept_eq]
      split <;> rfl
    · simp only [Renewal.answered, Terms.accept_eq] at hb
      split at hb
      · next renewed hok =>
        simp only [Known.replaceIfHeld] at hb
        split at hb
        · next hheld =>
          cases hb
          obtain ⟨a, ha, hak⟩ := Option.any_eq_true _ _ |>.mp hheld
          exact ⟨a, ha, (Terms.renewed_eq hok).1.trans (by simpa [eq_comm] using hak)⟩
        · exact ⟨b, hb, rfl⟩
      · exact ⟨b, hb, rfl⟩
    · simp only [Renewal.answered, Terms.accept_eq]
      split
      · simp only [Known.replaceIfHeld]
        split <;> rfl
      · rfl

/-! ## Surveys -/

private theorem goesOn_beginSurvey (hr : s.member.isRunning = true)
    (hs : ∀ stage, s.survey ≠ .asking stage) :
    GoesOn L s (s.afterSurvey (Survey.begin s.member)).1 := by
  have hb : Survey.begin s.member = (s.member, .wait .listing) := by
    rw [Survey.begin, if_pos hr]
  rw [hb]
  exact {
    self := rfl
    accepted := fun hb => ⟨_, hb, rfl⟩
    surveys := .turned rfl hs fun stage he => by cases he; rfl }

private theorem roundAnswered_over {m m' : Member} {stage : Survey.Stage} {answer : Answer}
    {r : Except MemberError Bool} (h : Survey.answered m stage answer = (m', .over r)) :
    Survey.roundAnswered m stage answer =
      ((Survey.conclude m' r).1, .over (Survey.conclude m' r).2) := by
  rw [Survey.roundAnswered, h]

/-- A member whose survey failed does not run any more. -/
private theorem state_conclude_error (m : Member) (e : MemberError) :
    (Survey.conclude m (.error e)).1.control.state ≠ .running := by
  show (m.control.handleIf .running .reset).state ≠ .running
  unfold Control.handleIf
  split
  · next hs =>
    rw [Control.state_handle, hs]
    decide
  · next hs => exact hs

private theorem goesOn_conclude {m : Member} (b : Bool) (hself : m.self = s.member.self)
    (ha : m.known.accepted = s.member.known.accepted)
    (hs : ∀ s' : Session, s'.member.known.remote = m.known.remote → s'.survey = .resting →
      Surveys L s s') :
    GoesOn L s (s.afterSurvey
      ((Survey.conclude m (.ok b)).1, .over (Survey.conclude m (.ok b)).2)).1 := by
  cases b with
  | true => exact ⟨hself, fun {c} hc => ⟨c, ha ▸ hc, rfl⟩, hs _ rfl rfl⟩
  | false => exact ⟨hself, fun {c} hc => ⟨c, ha ▸ hc, rfl⟩, hs _ rfl rfl⟩

private theorem goesOn_surveyed {stage : Survey.Stage} {answer : Answer}
    (hs : s.survey = .asking stage)
    (hL : stage = .listing → ∀ {nodes : List Store.Node} {l : Listing},
      (Registry.announces s.member.layout).outcome answer = .ok nodes →
      Listing.ofNodes nodes (!s.member.keepExpired) = .ok l → L l)
    (hr : (Survey.roundAnswered s.member stage answer).1.control.state = .running) :
    GoesOn L s (s.afterSurvey (Survey.roundAnswered s.member stage answer)).1 := by
  have ha := Survey.answers_answered s.member stage answer
  generalize h : Survey.answered s.member stage answer = x at ha
  cases ha with
  | failed tally f =>
    rw [roundAnswered_over h] at hr
    exact absurd hr (state_conclude_error _ (.store f))
  | agreed tally hok hof ha =>
    rw [roundAnswered_over h]
    exact goesOn_conclude _ rfl rfl fun s' hr hs' => .unchanged (hL rfl hok hof) hs hr ha hs'
  | published tally hok hof _ =>
    rw [roundAnswered_over h]
    exact goesOn_conclude _ rfl rfl fun s' hr hs' => .published (hL rfl hok hof) hs hr hs'
  | found tally hok hof =>
    rw [Survey.roundAnswered, h]
    exact ⟨rfl, fun hc => ⟨_, hc, rfl⟩, .found (hL rfl hok hof) hs rfl rfl⟩
  | fetched tally _ =>
    rw [roundAnswered_over h]
    exact goesOn_conclude _ rfl rfl fun s' hr hs' => .fetched hs hr hs'

/-! ## Parts of a session -/

private theorem goesOn_proceed (hr : s.member.control.state = .running) (p : Part) :
    GoesOn L s (s.proceed p).1 := by
  rcases s.proceed_cases p with he | hp
  · rw [he]
    exact .same rfl rfl rfl rfl
  cases p with
  | runner g =>
    rw [hp]
    exact goesOn_proceedRunner hr g
  | display =>
    rcases hp with he | he
    · rw [he]
      exact .same rfl rfl rfl rfl
    · obtain ⟨p, b, d, hd⟩ := Terms.display_eq s.member
      rw [he, hd]
      exact .same rfl rfl rfl rfl
  | renewal =>
    rcases hp with he | he
    · rw [he]
      exact .same rfl rfl rfl rfl
    · rw [he]
      exact goesOn_beginRenewal
  | survey =>
    obtain ⟨hs, he | he⟩ := hp
    · rw [he]
      exact ⟨rfl, fun hb => ⟨_, hb, rfl⟩, .turned rfl hs fun _ he => by cases he⟩
    · rw [he]
      exact goesOn_beginSurvey (by simpa [Member.isRunning] using hr) hs

private theorem goesOn_receive (ho : s.member.control.Orderly)
    (hr : s.member.control.state = .running) {p : Part} {answer : Answer}
    (hr' : (s.receive p answer).1.member.control.state = .running)
    (hL : p = .survey → s.survey = .asking .listing → ∀ {nodes : List Store.Node} {l : Listing},
      (Registry.announces s.member.layout).outcome answer = .ok nodes →
      Listing.ofNodes nodes (!s.member.keepExpired) = .ok l → L l) :
    GoesOn L s (s.receive p answer).1 := by
  unfold Session.receive at hr' ⊢
  cases p with
  | display => exact .same rfl rfl rfl rfl
  | renewal =>
    simp only
    split
    · exact goesOn_renewalAnswered _ answer
    · exact .same rfl rfl rfl rfl
  | survey =>
    simp only at hr' ⊢
    split at hr'
    · next stage hs =>
      refine goesOn_surveyed hs (fun he => hL rfl (he ▸ hs)) ?_
      generalize Survey.roundAnswered s.member stage answer = x at hr'
      obtain ⟨m, stage | d⟩ := x
      · exact hr'
      · exact hr'
    · exact .same rfl rfl rfl rfl
  | runner g =>
    simp only
    split
    · next asked ha =>
      -- No runner waits for an answer while the member runs.
      obtain ⟨r, hf, hw⟩ := Option.map_eq_some_iff.mp ha
      exact absurd hw (ho.quiet hr r (List.mem_of_find?_eq_some hf) _)
    · exact .same rfl rfl rfl rfl

end Session

namespace Attendance

open Session (GoesOn)

variable {T : Terms} {a : Attendance} {L : Listing → Prop}

private theorem staying (h : Keeps T a) (hr : a.session.member.control.state = .running) :
    a.farewell = .staying := by
  cases Decidable.em (a.farewell = .staying) with
  | inl hf => exact hf
  | inr hf =>
    have hs : a.session.member.control.state = .stop := h.member.stopped hf
    rw [hr] at hs
    cases hs

/-- An act of a member that goes on running. -/
theorem goesOn_act (h : Keeps T a) (hr : a.session.member.control.state = .running) {x : Act}
    (hr' : (a.act x).session.member.control.state = .running) :
    GoesOn L a.session (a.act x).session := by
  cases x with
  | start =>
    rw [act, Session.start_of_started _ (h.member.orderly.begun hr)]
    exact .same rfl rfl rfl rfl
  | proceed p =>
    rw [act]
    split
    · exact Session.goesOn_proceed hr p
    · exact .same rfl rfl rfl rfl
  | stop =>
    rw [act] at hr' ⊢
    split at hr'
    · next hs =>
      rw [if_pos hs]
      exact .same rfl rfl rfl rfl
    · have hs : (a.session.member.control.handle .stopped).state = .stop :=
        Control.state_handle _ _
      exact absurd (hs.symm.trans hr') (by decide)
  | leave =>
    rw [act, staying h hr]
    exact .same rfl rfl rfl rfl
  | drop =>
    have hs : (a.session.member.control.handle .stopped).state = .stop :=
      Control.state_handle _ _
    exact absurd (hs.symm.trans hr') (by decide)
  | bind => exact .same rfl rfl rfl rfl
  | unbind id => exact .same rfl rfl rfl rfl
  | contribute c => exact .same rfl rfl rfl rfl

/-- What a member makes of an answer that goes on running. -/
theorem goesOn_receive (h : Keeps T a) (hr : a.session.member.control.state = .running) {t : Task}
    {answer : Answer} (hr' : (a.receive t answer).session.member.control.state = .running)
    (hL : t = .part .survey → a.session.survey = .asking .listing →
      ∀ {nodes : List Store.Node} {l : Listing},
        (Registry.announces a.session.member.layout).outcome answer = .ok nodes →
        Listing.ofNodes nodes (!a.session.member.keepExpired) = .ok l → L l) :
    GoesOn L a.session (a.receive t answer).session := by
  cases t with
  | part p => exact Session.goesOn_receive h.member.orderly hr hr' fun hp => hL (by rw [hp])
  | farewell =>
    rw [receive, staying h hr]
    exact .same rfl rfl rfl rfl

end Attendance

end Rollcall
