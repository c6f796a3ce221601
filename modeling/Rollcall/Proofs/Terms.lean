import Rollcall.Proofs.Control
import Rollcall.Proofs.Ledger
import Rollcall.Session

/-!
# Terms on which a member works

A member that is given what it may rely on keeps to it: what it accepts, what it puts into requests
and what it knows of the others is what its answers allow. Apart from that, whatever the answers
are, its runners are in order, it knows its cluster when it announces itself or runs, and it runs
only with an accepted announce.
-/

namespace Rollcall

open Store (Request Answer Failure)

namespace Step

/-- What is listed comes from the nodes that were found. -/
theorem listed_eq_ok {r : Except Failure (List Store.Node)} {l : Listing}
    (h : listed r = .ok l) :
    ∃ nodes, r = .ok nodes ∧ Listing.ofNodes nodes false = .ok l := by
  cases r with
  | error e => cases h
  | ok nodes =>
    refine ⟨nodes, rfl, ?_⟩
    have h : (Registry.ofPayload (Listing.ofNodes nodes false)) = .ok l := h
    cases hn : Listing.ofNodes nodes false with
    | error e => rw [hn] at h; cases h
    | ok l' => rw [hn] at h; cases h; rfl

end Step

/-- What a member may rely on. -/
structure Terms where
  self : Profile
  layout : Registry.Layout
  /-- Of the announce that it accepted. -/
  accepts : Announce → Prop
  /-- Of the key of an announce that it created. -/
  creates : String → Prop
  /-- Of a key and what it writes there to renew its announce. -/
  renews : String → Payload → Prop
  /-- Of the announces of others that it knows. -/
  lists : Announce → Prop
  /-- Whether it was told to stop. -/
  stopped : Prop := False

namespace Terms

/-- Terms that agree with each other: an accepted announce may be renewed, and stays accepted. -/
structure Sound (T : Terms) : Prop where
  renewable : ∀ {a : Announce}, T.accepts a → ∀ i : Int,
    T.renews a.key (T.self.payload a.clusterId i)
  renewed : ∀ {a b : Announce}, T.accepts a → T.renews a.key b.data → b.key = a.key → T.accepts b

variable (T : Terms)

/-- What a step may wait for. After a rest only a reset follows, or the end of the time for which
an announce was in the way. -/
def Bears : Wait → Prop
  | .answer (.confirming key) => T.creates key
  | .answer _ => True
  | .rest _ after => after = none ∨ after = some .reset ∨ after = some .announceCleared

/-- What a member is like before an event. -/
def Allows (m : Member) (e : Event) : Prop :=
  (e = .clusterDefined ∨ e = .clusterCreated → m.control.clusterId.isSome = true) ∧
    (e = .announced → m.known.accepted.isSome = true)

/-- How a step may go on. -/
def Permits (m : Member) : Step.Progress → Prop
  | .wait w => T.Bears w
  | .over none => True
  | .over (some e) => Allows m e

/-- What a round of renewal may have asked. -/
def BearsRenewal : Renewal.Stage → Prop
  | .sending _ => True
  | .renewing key data _ => T.renews key data

/-- What a round of survey may have asked. -/
def BearsSurvey : Survey.Stage → Prop
  | .listing => True
  | .fetching remote _ => Listing.Canonical remote.entries ∧ ∀ a ∈ remote.entries, T.lists a

/-- A member that keeps to its terms. -/
structure Holds (m : Member) : Prop where
  self : m.self = T.self
  layout : m.layout = T.layout
  localId : m.known.localId = T.self.id
  accepted : ∀ {a : Announce}, m.known.accepted = some a → T.accepts a
  remote : ∀ a ∈ m.known.remote.entries, T.lists a
  canonical : Listing.Canonical m.known.remote.entries
  settled : m.control.state.isSettled = true → m.control.clusterId.isSome = true
  running : m.control.state = .running → m.known.accepted.isSome = true
  stopped : T.stopped → m.control.state = .stop
  waits : m.control.AllWait T.Bears
  orderly : m.control.Orderly

/-- Terms that promise no more than others do. -/
structure Weaker (T T' : Terms) : Prop where
  self : T'.self = T.self
  layout : T'.layout = T.layout
  accepts : ∀ {a : Announce}, T.accepts a → T'.accepts a
  creates : ∀ {key : String}, T.creates key → T'.creates key
  renews : ∀ {key : String} {d : Payload}, T.renews key d → T'.renews key d
  lists : ∀ {a : Announce}, T.lists a → T'.lists a
  stopped : T'.stopped → T.stopped

/-- What a step may make of an answer. -/
def TrustsStep (m : Member) : Asked → Answer → Prop
  | .creating d, answer => ∀ {a : Announce},
    (Registry.announce m.layout d m.maxTtl).outcome answer = .ok a → T.creates a.key
  | .confirming key, answer => ∀ {l : Listing} {a : Announce}, T.creates key →
    Step.listed ((Registry.announces m.layout).outcome answer) = .ok l →
    l.get? m.self.id = some a → a.key = key → T.accepts a
  | _, _ => True

/-- What a survey may make of an answer. -/
def TrustsSurvey (m : Member) : Survey.Stage → Answer → Prop
  | .listing, answer => ∀ {nodes : List Store.Node} {l : Listing},
    (Registry.announces m.layout).outcome answer = .ok nodes →
    Listing.ofNodes nodes (!m.keepExpired) = .ok l →
    ∀ a ∈ l.entries, a.instanceId ≠ m.self.id → T.lists a
  | .fetching _ _, _ => True

variable {T} {m m' : Member}

theorem Holds.congr (h : T.Holds m) (hself : m'.self = m.self) (hlayout : m'.layout = m.layout)
    (hid : m'.known.localId = m.known.localId) (ha : m'.known.accepted = m.known.accepted)
    (hr : m'.known.remote = m.known.remote) (hc : m'.control = m.control) : T.Holds m' where
  self := hself.trans h.self
  layout := hlayout.trans h.layout
  localId := hid.trans h.localId
  accepted := by rw [ha]; exact h.accepted
  remote := by rw [hr]; exact h.remote
  canonical := by rw [hr]; exact h.canonical
  settled := by rw [hc]; exact h.settled
  running := by rw [hc, ha]; exact h.running
  stopped := by rw [hc]; exact h.stopped
  waits := by rw [hc]; exact h.waits
  orderly := by rw [hc]; exact h.orderly

/-- A control that differs by an event that is allowed, and in what runners wait for. -/
theorem Holds.withControl (h : T.Holds m) {c : Control Wait}
    (hid : c.clusterId = m.control.clusterId)
    (hs : c.state = m.control.state ∨ ∃ e, Allows m e ∧ c.state = m.control.state.next e)
    (hw : c.AllWait T.Bears) (ho : c.Orderly) : T.Holds { m with control := c } := by
  refine { h with
    settled := fun hc => ?_, running := fun hc => ?_, stopped := fun hp => ?_
    waits := hw, orderly := ho }
  · show c.clusterId.isSome = true
    have hc : c.state.isSettled = true := hc
    rw [hid]
    rcases hs with hs | ⟨e, he, hs⟩
    · exact h.settled (hs ▸ hc)
    · rw [hs] at hc
      exact (State.isSettled_of_next hc).elim h.settled he.1
  · show m.known.accepted.isSome = true
    have hc : c.state = .running := hc
    rcases hs with hs | ⟨e, he, hs⟩
    · exact h.running (hs ▸ hc)
    · rw [hs] at hc
      exact (State.next_eq_running hc).elim h.running he.2
  · show c.state = .stop
    rcases hs with hs | ⟨e, _, hs⟩
    · exact hs.trans (h.stopped hp)
    · rw [hs, h.stopped hp, State.next_stop]

/-- An allowed event, with the runners out of their steps if the member gets to run by it. -/
theorem Holds.next (h : T.Holds m) {e : Event} (he : Allows m e)
    (hq : m.control.state.next e = .running → m.control.started = true ∧ m.control.Quiet) :
    T.Holds (m.next e) :=
  h.withControl (Control.clusterId_handle _ _) (.inr ⟨e, he, Control.state_handle _ _⟩)
    (h.waits.handle e) (h.orderly.handle hq)

/-- An allowed event that counts only while the member runs. -/
theorem Holds.nextIf (h : T.Holds m) {e : Event} (he : Allows m e) :
    T.Holds (m.nextIf .running e) := by
  by_cases hs : m.control.state = .running
  · have hn : m.nextIf .running e = m.next e := by
      rw [Member.nextIf, Control.handleIf, if_pos hs, Member.next]
    rw [hn]
    exact h.next he fun _ => ⟨h.orderly.begun hs, h.orderly.quiet hs⟩
  · have hn : m.nextIf .running e = m := by
      rw [Member.nextIf, Control.handleIf, if_neg hs]
    rwa [hn]

theorem Holds.setClusterId (h : T.Holds m) (id : String) : T.Holds (m.setClusterId (some id)) :=
  { h with settled := fun _ => rfl, orderly := { h.orderly with } }

theorem Holds.setAccepted (h : T.Holds m) {a : Announce} (ha : T.accepts a) :
    T.Holds (m.setAccepted (some a)) :=
  { h with accepted := fun hb => Option.some.inj hb ▸ ha, running := fun _ => rfl }

theorem Holds.clearAccepted (h : T.Holds m) (hs : m.control.state ≠ .running) :
    T.Holds (m.setAccepted none) :=
  { h with accepted := fun ha => (nomatch ha), running := fun hr => absurd hr hs }

/-- What a member makes of an answer, apart from counting failures. -/
theorem accept_eq {α : Type} (m : Member) (op : Registry.Operation α) (a : Answer) :
    m.accept op a = ({ m with tally := (op.accept m.tally a).1 }, op.outcome a) := by
  rw [Member.accept, ← op.accept_snd m.tally a]

theorem Holds.withTally (h : T.Holds m) (t : Registry.Tally) : T.Holds { m with tally := t } :=
  h.congr rfl rfl rfl rfl rfl rfl

/-! ## Steps -/

private theorem permits_recover (m m' : Member) (e : MemberError) :
    T.Permits m (Step.recover m' e) := by
  unfold Step.recover
  split
  · exact .inr (.inl rfl)
  · exact ⟨by simp, by simp⟩

private theorem holds_resolved (h : T.Holds m) (r : IdResult) :
    T.Holds (Step.resolved m r).1 ∧ T.Permits (Step.resolved m r).1 (Step.resolved m r).2 := by
  unfold Step.resolved
  split
  · exact ⟨h.setClusterId _, ⟨fun _ => rfl, by simp⟩⟩
  · exact ⟨h, ⟨by simp, by simp⟩⟩
  · exact ⟨h, permits_recover _ _ _⟩

private theorem holds_defined (h : T.Holds m) (r : IdResult) :
    T.Holds (Step.defined m r).1 ∧ T.Permits (Step.defined m r).1 (Step.defined m r).2 := by
  unfold Step.defined
  split
  · exact ⟨h.setClusterId _, ⟨fun _ => rfl, by simp⟩⟩
  · exact ⟨h, .inl rfl⟩

/-- A step begun in a state without an accepted announce to lose. -/
theorem holds_begin (h : T.Holds m) {s : State} (hs : s = .announce → m.control.state ≠ .running) :
    T.Holds (Step.begin m s).1 ∧ T.Permits (Step.begin m s).1 (Step.begin m s).2 := by
  cases s with
  | getCluster =>
    rw [Step.begin]
    split
    · next r naming _ =>
      exact holds_resolved (m := { m with naming }) (h.congr rfl rfl rfl rfl rfl rfl) r
    · exact ⟨h, trivial⟩
  | createCluster =>
    rw [Step.begin]
    split
    · next r naming _ =>
      exact holds_defined (m := { m with naming }) (h.congr rfl rfl rfl rfl rfl rfl) r
    · exact ⟨h, trivial⟩
  | announce =>
    have hc := h.clearAccepted (hs rfl)
    simp only [Step.begin]
    split
    · exact ⟨hc, trivial⟩
    · exact ⟨hc, permits_recover (m.setAccepted none) (m.setAccepted none) .clusterUndefined⟩
  | clearAnnounce => exact ⟨h, .inr (.inr rfl)⟩
  | running => exact ⟨h, .inl rfl⟩
  | stop => exact ⟨h, .inl rfl⟩

private theorem holds_confirm (h : T.Holds m) {key : String} {l : Listing}
    (ha : ∀ {a : Announce}, l.get? m.self.id = some a → a.key = key → T.accepts a) :
    T.Holds (Step.confirm m key l).1 ∧
      T.Permits (Step.confirm m key l).1 (Step.confirm m key l).2 := by
  unfold Step.confirm
  split
  · next a hget =>
    split
    · next hkey => exact ⟨h.setAccepted (ha hget hkey), ⟨by simp, fun _ => rfl⟩⟩
    · exact ⟨h.congr rfl rfl rfl rfl rfl rfl, ⟨by simp, by simp⟩⟩
  · exact ⟨h, ⟨by simp, by simp⟩⟩

private theorem holds_announceIn (h : T.Holds m) (id : String) (l : Listing) :
    T.Holds (Step.announceIn m id l).1 ∧
      T.Permits (Step.announceIn m id l).1 (Step.announceIn m id l).2 := by
  unfold Step.announceIn
  split
  · exact ⟨h.congr rfl rfl rfl rfl rfl rfl, ⟨by simp, by simp⟩⟩
  · exact ⟨h, trivial⟩

/-- A step that goes on from an answer it may trust. -/
theorem holds_answered (h : T.Holds m) {asked : Asked} {answer : Answer}
    (hb : T.Bears (.answer asked)) (ht : T.TrustsStep m asked answer) :
    T.Holds (Step.answered m asked answer).1 ∧
      T.Permits (Step.answered m asked answer).1 (Step.answered m asked answer).2 := by
  cases asked with
  | resolving =>
    simp only [Step.answered, accept_eq]
    exact holds_resolved (h.withTally _) _
  | claiming candidate =>
    simp only [Step.answered, accept_eq]
    split
    · exact holds_defined (h.withTally _) _
    · exact ⟨h.withTally _, trivial⟩
    · exact holds_defined (h.withTally _) _
  | rereading refusal =>
    simp only [Step.answered, accept_eq]
    exact holds_defined (h.withTally _) _
  | listing id =>
    simp only [Step.answered, accept_eq]
    split
    · exact holds_announceIn (h.withTally _) _ _
    · exact ⟨h.withTally _, permits_recover _ _ _⟩
  | creating d =>
    simp only [Step.answered, accept_eq]
    split
    · next a ha => exact ⟨h.withTally _, ht ha⟩
    · exact ⟨h.withTally _, permits_recover _ _ _⟩
  | confirming key =>
    simp only [Step.answered, accept_eq]
    split
    · next l hl => exact holds_confirm (h.withTally _) fun hget hkey => ht hb hl hget hkey
    · exact ⟨h.withTally _, permits_recover _ _ _⟩

/-! ## Rounds -/

private theorem allows_failureEvent (m : Member) (e : MemberError) :
    Allows m (Renewal.failureEvent e) := by
  unfold Renewal.failureEvent
  split
  · split
    · exact ⟨by simp, by simp⟩
    · exact ⟨by simp, by simp⟩
  · exact ⟨by simp, by simp⟩
  · exact ⟨by simp, by simp⟩

private theorem holds_fail (h : T.Holds m) (e : MemberError) : T.Holds (Renewal.fail m e).1 :=
  Holds.nextIf (m := { m with renewal := m.renewal.reset }) (h.congr rfl rfl rfl rfl rfl rfl)
    (allows_failureEvent _ e)

private theorem holds_renew (hT : T.Sound) (h : T.Holds m) :
    T.Holds (Renewal.renew m).1 ∧
      ∀ stage, (Renewal.renew m).2 = .wait stage → T.BearsRenewal stage := by
  unfold Renewal.renew
  split
  · exact ⟨holds_fail h _, by simp [Renewal.fail, Renewal.pause]⟩
  · next a ha =>
    refine ⟨h, ?_⟩
    intro stage hs
    cases hs
    show T.renews a.key (m.self.payload a.clusterId m.known.propertiesIndex)
    rw [h.self]
    exact hT.renewable (h.accepted ha) _

theorem holds_beginRenewal (hT : T.Sound) (h : T.Holds m) :
    T.Holds (Renewal.begin m).1 ∧
      ∀ stage, (Renewal.begin m).2 = .wait stage → T.BearsRenewal stage := by
  unfold Renewal.begin
  split
  · exact ⟨h.congr rfl rfl rfl rfl rfl rfl, by simp [Renewal.pause]⟩
  · split
    · exact holds_renew hT h
    · refine ⟨h, ?_⟩
      intro stage hs
      cases hs
      trivial

/-- A renewed announce has the key and the payload that were written. -/
theorem renewed_eq {key : String} {d : Payload} {ttl : Nat} {answer : Answer}
    {b : Announce} (h : (Registry.renew key d ttl).outcome answer = .ok b) :
    b.key = key ∧ b.data = d := by
  unfold Registry.Operation.outcome Registry.Operation.accept at h
  split at h
  · next response =>
    simp only [Registry.renew, Registry.ofPayload] at h
    cases hm : Announce.make key d
        (response.node.bind Store.Node.ttl <|> some (Store.signed ttl)) with
    | error e =>
      rw [hm] at h
      cases h
    | ok a =>
      rw [hm] at h
      cases h
      obtain ⟨hk, hd, _⟩ := Announce.make_eq_ok hm
      exact ⟨hk, hd⟩
  · split at h <;> cases h
  · cases h

private theorem holds_replaceIfHeld (hT : T.Sound) (h : T.Holds m) {key : String} {b : Announce}
    (hr : T.renews key b.data) (hb : b.key = key) :
    T.Holds { m with known := m.known.replaceIfHeld key b } := by
  unfold Known.replaceIfHeld
  split
  · next hk =>
    obtain ⟨a, ha, hak⟩ := Option.any_eq_true _ _ |>.mp hk
    have hak : a.key = key := by simpa using hak
    exact h.setAccepted (hT.renewed (h.accepted ha) (hak ▸ hr) (hb.trans hak.symm))
  · exact h

theorem holds_renewalAnswered (hT : T.Sound) (h : T.Holds m) {stage : Renewal.Stage}
    (hb : T.BearsRenewal stage) (answer : Answer) :
    T.Holds (Renewal.answered m stage answer).1 ∧
      ∀ stage', (Renewal.answered m stage answer).2 = .wait stage' → T.BearsRenewal stage' := by
  cases stage with
  | sending p =>
    simp only [Renewal.answered, accept_eq]
    split
    · exact holds_renew hT (h.congr rfl rfl rfl rfl rfl rfl)
    · exact ⟨holds_fail (h.withTally _) _, by simp [Renewal.fail, Renewal.pause]⟩
  | renewing key d ttl =>
    simp only [Renewal.answered, accept_eq]
    split
    · next b hok =>
      obtain ⟨hk, hd⟩ := renewed_eq hok
      have ht := h.withTally ((Registry.renew key d ttl).accept m.tally answer).1
      have hh := holds_replaceIfHeld hT ht (hd ▸ hb) hk
      exact ⟨hh.congr rfl rfl rfl rfl rfl rfl, by simp [Renewal.pause]⟩
    · exact ⟨holds_fail (h.withTally _) _, by simp [Renewal.fail, Renewal.pause]⟩

theorem holds_beginSurvey (h : T.Holds m) :
    T.Holds (Survey.begin m).1 ∧
      ∀ stage, (Survey.begin m).2 = .wait stage → T.BearsSurvey stage := by
  unfold Survey.begin
  split
  · refine ⟨h, ?_⟩
    intro stage hs
    cases hs
    trivial
  · exact ⟨h.congr rfl rfl rfl rfl rfl rfl, by simp⟩

private theorem holds_publish (h : T.Holds m) {remote : Listing}
    (hr : Listing.Canonical remote.entries ∧ ∀ a ∈ remote.entries, T.lists a) (ids : List String)
    (fetched : Dict String Properties) : T.Holds (Survey.publish m remote ids fetched) :=
  { h with remote := hr.2, canonical := hr.1 }

theorem fetched_eq (m : Member) (ids : List String) (a : Answer) :
    ∃ t, (Survey.fetched m ids a).1 = { m with tally := t } := by
  unfold Survey.fetched
  split
  · exact ⟨_, rfl⟩
  · exact ⟨_, rfl⟩

theorem holds_surveyed (h : T.Holds m) {stage : Survey.Stage} {answer : Answer}
    (hb : T.BearsSurvey stage) (ht : T.TrustsSurvey m stage answer) :
    T.Holds (Survey.answered m stage answer).1 ∧
      ∀ stage', (Survey.answered m stage answer).2 = .wait stage' → T.BearsSurvey stage' := by
  cases stage with
  | listing =>
    simp only [Survey.answered, accept_eq]
    split
    · next nodes hok =>
      unfold Survey.compare
      split
      · exact ⟨h.withTally _, by simp [Survey.failed]⟩
      · next l hl =>
        have hr : ∀ a ∈ (l.without m.self.id).entries, T.lists a := fun a ha =>
          ht hok hl a (Listing.mem_without.mp ha).1 (Listing.mem_without.mp ha).2
        have hc := Listing.canonical_without (Listing.canonical_ofNodes hl) m.self.id
        simp only
        split
        · exact ⟨h.withTally _, by simp⟩
        · split
          · exact ⟨holds_publish (h.withTally _) ⟨hc, hr⟩ _ _, by simp⟩
          · refine ⟨h.withTally _, ?_⟩
            intro stage' hs
            cases hs
            exact ⟨hc, hr⟩
    · exact ⟨h.withTally _, by simp [Survey.failed]⟩
  | fetching remote ids =>
    obtain ⟨t, hf⟩ := fetched_eq m ids answer
    simp only [Survey.answered]
    split
    · rw [hf]
      exact ⟨holds_publish (h.withTally t) hb _ _, by simp⟩
    · rw [hf]
      exact ⟨h.withTally t, by simp [Survey.failed]⟩

private theorem holds_conclude (h : T.Holds m) (r : Except MemberError Bool) :
    T.Holds (Survey.conclude m r).1 := by
  have hreset : T.Holds { m with survey := m.survey.reset } := h.congr rfl rfl rfl rfl rfl rfl
  cases r with
  | error e => exact hreset.nextIf ⟨by simp, by simp⟩
  | ok b =>
    cases b with
    | true => exact hreset
    | false => exact h.congr rfl rfl rfl rfl rfl rfl

theorem holds_roundAnswered (h : T.Holds m) {stage : Survey.Stage} {answer : Answer}
    (hb : T.BearsSurvey stage) (ht : T.TrustsSurvey m stage answer) :
    T.Holds (Survey.roundAnswered m stage answer).1 ∧
      ∀ stage', (Survey.roundAnswered m stage answer).2 = .wait stage' → T.BearsSurvey stage' := by
  obtain ⟨hh, hw⟩ := holds_surveyed h hb ht
  unfold Survey.roundAnswered
  split
  · next m' stage' heq =>
    rw [heq] at hh hw
    refine ⟨hh, fun s hs => hw s ?_⟩
    cases hs
    rfl
  · next m' r heq =>
    rw [heq] at hh
    exact ⟨holds_conclude hh r, by simp⟩

theorem present_eq (m : Member) (v : View) :
    ∃ b, (m.present v).1 = { m with board := b } := by
  unfold Member.present
  split
  · exact ⟨_, rfl⟩
  · exact ⟨m.board, rfl⟩

theorem Holds.present (h : T.Holds m) (v : View) : T.Holds (m.present v).1 := by
  obtain ⟨b, hb⟩ := present_eq m v
  rw [hb]
  exact h.congr rfl rfl rfl rfl rfl rfl

/-- A round of display leaves a member as it is, apart from its own properties and its board. -/
theorem display_eq (m : Member) : ∃ p b d, (Display.round m).1 =
    { m with known := { m.known with properties := p }, board := b, display := d } := by
  unfold Display.round
  simp only
  split
  · next v _ =>
    obtain ⟨b, hb⟩ := present_eq (Display.compute m).1 v
    rw [hb]
    exact ⟨_, b, _, rfl⟩
  · exact ⟨_, _, _, rfl⟩

theorem holds_display (h : T.Holds m) : T.Holds (Display.round m).1 := by
  obtain ⟨p, b, d, hd⟩ := display_eq m
  rw [hd]
  exact h.congr rfl rfl rfl rfl rfl rfl

end Terms

/-! ## Sessions -/

/-- What a runner does that goes on without an answer: nothing, its end, its next step, or the end
of its rest. -/
theorem Session.proceedRunner_cases (s : Session) (g : Nat) :
    (s.proceedRunner g).1 = s ∨
      (s.proceedRunner g).1 = s.withControl (·.setActivity g .ended) ∨
      ((s.member.control.runner? g).map Runner.activity = some .poised ∧
        s.member.control.isSignalled g = false ∧ s.member.control.state.active = true ∧
        (s.proceedRunner g).1 = (s.afterStep g (Step.begin s.member s.member.control.state)).1) ∨
      ∃ length after e, (s.member.control.runner? g).map Runner.activity =
          some (.within (.rest length after)) ∧
        (e = none ∨ e = after) ∧ (s.proceedRunner g).1 = (s.leave g e).1 := by
  unfold Session.proceedRunner
  split
  · next hact =>
    by_cases hin : (s.member.control.isSignalled g || !s.member.control.state.active) = true
    · rw [Control.enter, if_pos hin]
      exact .inr (.inl rfl)
    · rw [Control.enter, if_neg hin]
      simp only [Bool.or_eq_true, Bool.not_eq_true', not_or, Bool.not_eq_true,
        Bool.not_eq_false] at hin
      exact .inr (.inr (.inl ⟨hact, hin.1, hin.2, rfl⟩))
  · next length after hact =>
    refine .inr (.inr (.inr ⟨length, after, _, hact, ?_, rfl⟩))
    split
    · exact .inl rfl
    · exact .inr rfl
  · exact .inl rfl
  · exact .inl rfl

/-- What a part does that goes on without an answer: nothing, its end, or its next round or step. -/
theorem Session.proceed_cases (s : Session) (p : Part) :
    (s.proceed p).1 = s ∨
      match p with
      | .runner g => (s.proceed p).1 = (s.proceedRunner g).1
      | .display =>
        (s.proceed p).1 = { s with display := .ended } ∨
          (s.proceed p).1 = { s with member := (Display.round s.member).1, display := .resting }
      | .renewal =>
        (s.proceed p).1 = { s with renewal := .ended } ∨
          (s.proceed p).1 = (s.afterRenewal (Renewal.begin s.member)).1
      | .survey => (∀ stage, s.survey ≠ .asking stage) ∧
        ((s.proceed p).1 = { s with survey := .ended } ∨
          (s.proceed p).1 = (s.afterSurvey (Survey.begin s.member)).1) := by
  unfold Session.proceed
  split
  · exact .inl rfl
  split
  · exact .inl rfl
  next hask =>
  right
  cases p with
  | runner g => rfl
  | display =>
    simp only [Session.proceedLoop]
    split
    · exact .inl rfl
    · exact .inr rfl
  | renewal =>
    simp only [Session.proceedLoop]
    split
    · exact .inl rfl
    · exact .inr rfl
  | survey =>
    refine ⟨fun stage hs => by simp [Session.request?, hs] at hask, ?_⟩
    simp only [Session.proceedLoop]
    split
    · exact .inl rfl
    · exact .inr rfl

namespace Terms

variable {T : Terms}

variable (T) in
/-- A session that keeps to its terms. -/
structure Attends (s : Session) : Prop where
  member : T.Holds s.member
  renewal : ∀ stage, s.renewal = .asking stage → T.BearsRenewal stage
  survey : ∀ stage, s.survey = .asking stage → T.BearsSurvey stage

variable (T) in
/-- What a part of a session may make of an answer. -/
def Trusts (s : Session) : Part → Answer → Prop
  | .survey, answer => ∀ stage, s.survey = .asking stage → T.TrustsSurvey s.member stage answer
  | .runner g, answer => ∀ asked,
    (s.member.control.runner? g).map Runner.activity = some (.within (.answer asked)) →
      T.TrustsStep s.member asked answer
  | _, _ => True

variable {s : Session}

theorem Attends.withControl (h : T.Attends s) {f : Control Wait → Control Wait}
    (hid : (f s.member.control).clusterId = s.member.control.clusterId)
    (hs : (f s.member.control).state = s.member.control.state ∨
      ∃ e, Allows s.member e ∧ (f s.member.control).state = s.member.control.state.next e)
    (hw : (f s.member.control).AllWait T.Bears) (ho : (f s.member.control).Orderly) :
    T.Attends (s.withControl f) :=
  { h with member := h.member.withControl hid hs hw ho }

theorem Attends.start (h : T.Attends s) : T.Attends s.start := by
  unfold Session.start
  split
  · exact h
  · refine ⟨h.member.withControl (Control.clusterId_start _) (.inl (Control.state_start _))
      h.member.waits.start h.member.orderly.start, ?_, ?_⟩
    · intro stage hs
      cases hs
    · intro stage hs
      cases hs

/-- A session that is told to stop. -/
theorem Attends.halt (h : T.Attends s) (p : Prop) :
    Attends { T with stopped := p } s.halt := by
  have hc : T.Holds (s.member.next .stopped) := h.member.next ⟨by simp, by simp⟩ fun hr => by
    cases hr
  have hs : (s.member.next .stopped).control.state = .stop := by
    rw [Member.next, Control.state_handle]
    rfl
  have hm : Holds { T with stopped := p } (s.member.next .stopped) :=
    { hc with stopped := fun _ => hs }
  exact ⟨hm.congr rfl rfl rfl rfl rfl rfl, h.renewal, h.survey⟩

private theorem Attends.leave (h : T.Attends s) {g : Nat}
    (hg : s.member.control.state ≠ .stop → s.member.control.held = some g) {e : Option Event}
    (he : ∀ e', e = some e' → Allows s.member e') : T.Attends (s.leave g e).1 := by
  show T.Attends (s.withControl (·.leave g e))
  have ho := h.member.orderly.leave hg e
  rcases s.member.control.leave_cases g e with ⟨a, ha, hl⟩ | ⟨e', rfl, hl⟩
  · refine h.withControl ?_ (.inl ?_) ?_ ho
    · rw [hl, Control.clusterId_setActivity]
    · rw [hl, Control.state_setActivity]
    · rw [hl]
      exact h.member.waits.setActivity g fun w hw => absurd hw (ha w)
  · refine h.withControl ?_ (.inr ⟨e', he e' rfl, ?_⟩) ?_ ho
    · rw [hl, Control.clusterId_handle, Control.clusterId_setActivity]
    · rw [hl, Control.state_handle, Control.state_setActivity]
    · rw [hl]
      exact (h.member.waits.setActivity g fun w hw => by cases hw).handle e'

private theorem Attends.afterStep (h : T.Attends s) {g : Nat} {m : Member} {p : Step.Progress}
    (hg : m.control.state ≠ .stop → m.control.held = some g) (hm : T.Holds m)
    (hp : T.Permits m p) : T.Attends (s.afterStep g (m, p)).1 := by
  have hs : T.Attends { s with member := m } := { h with member := hm }
  rcases p with w | e
  · show T.Attends (Session.withControl { s with member := m } (·.suspend g w))
    refine hs.withControl ?_ (.inl ?_) ?_ ?_
    · exact Control.clusterId_setActivity _ _ _
    · exact Control.state_setActivity _ _ _
    · exact hm.waits.setActivity g fun w' hw => by cases hw; exact hp
    · exact hm.orderly.setActivity g (.inr hg)
  · exact hs.leave hg fun e' he' => by cases he'; exact hp

private theorem Attends.proceedRunner (h : T.Attends s) (g : Nat) :
    T.Attends (s.proceedRunner g).1 := by
  have ho := h.member.orderly
  rcases s.proceedRunner_cases g with
    he | he | ⟨hact, hsig, _, he⟩ | ⟨length, after, e, hact, hafter, he⟩
  · rwa [he]
  · rw [he]
    exact h.withControl rfl (.inl rfl)
      (h.member.waits.setActivity g fun w hw => by cases hw) (ho.setActivity g (.inl rfl))
  · obtain ⟨hm, hp⟩ := holds_begin h.member (s := s.member.control.state) fun hs => by
      rw [hs]
      decide
    obtain ⟨id, hc⟩ := Step.control_begin s.member s.member.control.state
    have hg : (Step.begin s.member s.member.control.state).1.control.state ≠ .stop →
        (Step.begin s.member s.member.control.state).1.control.held = some g := by
      rw [hc]
      exact ho.held_of_activity hact (.inr ⟨by simp, hsig⟩)
    rw [he]
    exact h.afterStep hg hm hp
  · rw [he]
    apply h.leave (ho.held_of_activity hact (.inl ⟨_, rfl⟩))
    intro e' he'
    have hb := h.member.waits.of_activity hact
    rcases hafter with rfl | rfl
    · cases he'
    · rcases hb with rfl | rfl | rfl
      · cases he'
      · cases he'
        exact ⟨by simp, by simp⟩
      · cases he'
        exact ⟨by simp, by simp⟩

private theorem Attends.afterRenewal (h : T.Attends s) {m : Member}
    {turn : Turn Renewal.Stage Duration} (hm : T.Holds m)
    (hw : ∀ stage, turn = .wait stage → T.BearsRenewal stage) :
    T.Attends (s.afterRenewal (m, turn)).1 := by
  rcases turn with stage | d
  · exact { h with member := hm, renewal := fun _ he => by cases he; exact hw _ rfl }
  · exact { h with member := hm, renewal := fun _ he => nomatch he }

private theorem Attends.afterSurvey (h : T.Attends s) {m : Member}
    {turn : Turn Survey.Stage Duration} (hm : T.Holds m)
    (hw : ∀ stage, turn = .wait stage → T.BearsSurvey stage) :
    T.Attends (s.afterSurvey (m, turn)).1 := by
  rcases turn with stage | d
  · exact { h with member := hm, survey := fun _ he => by cases he; exact hw _ rfl }
  · exact { h with member := hm, survey := fun _ he => nomatch he }

/-- A part that goes on without an answer. -/
theorem Attends.proceed (hT : T.Sound) (h : T.Attends s) (p : Part) :
    T.Attends (s.proceed p).1 := by
  rcases s.proceed_cases p with he | hp
  · rwa [he]
  cases p with
  | runner g =>
    rw [hp]
    exact h.proceedRunner g
  | display =>
    rcases hp with he | he
    · rw [he]
      exact { h with }
    · rw [he]
      exact { h with member := holds_display h.member }
  | renewal =>
    rcases hp with he | he
    · rw [he]
      exact { h with renewal := fun _ hs => nomatch hs }
    · obtain ⟨hm, hw⟩ := holds_beginRenewal hT h.member
      rw [he]
      exact h.afterRenewal hm hw
  | survey =>
    rcases hp with ⟨_, he | he⟩
    · rw [he]
      exact { h with survey := fun _ hs => nomatch hs }
    · obtain ⟨hm, hw⟩ := holds_beginSurvey h.member
      rw [he]
      exact h.afterSurvey hm hw

/-- A part that goes on from an answer it may trust. -/
theorem Attends.receive (hT : T.Sound) (h : T.Attends s) {p : Part} {answer : Answer}
    (ht : T.Trusts s p answer) : T.Attends (s.receive p answer).1 := by
  cases p with
  | display => exact h
  | renewal =>
    unfold Session.receive
    simp only
    split
    · next stage hs =>
      obtain ⟨hm, hw⟩ := holds_renewalAnswered hT h.member (h.renewal stage hs) answer
      exact h.afterRenewal hm hw
    · exact h
  | survey =>
    unfold Session.receive
    simp only
    split
    · next stage hs =>
      obtain ⟨hm, hw⟩ := holds_roundAnswered h.member (h.survey stage hs) (ht stage hs)
      exact h.afterSurvey hm hw
    · exact h
  | runner g =>
    unfold Session.receive
    simp only
    split
    · next asked ha =>
      have hb := h.member.waits.of_activity ha
      obtain ⟨hm, hp⟩ := holds_answered h.member hb (ht asked ha)
      obtain ⟨id, hc⟩ := Step.control_answered s.member asked answer
      have hg : (Step.answered s.member asked answer).1.control.state ≠ .stop →
          (Step.answered s.member asked answer).1.control.held = some g := by
        rw [hc]
        exact h.member.orderly.held_of_activity ha (.inl ⟨_, rfl⟩)
      exact h.afterStep hg hm hp
    · exact h

/-- Terms that are kept may be weakened. -/
theorem Attends.mono {T' : Terms} (hw : Weaker T T') (h : T.Attends s) : T'.Attends s where
  member := {
    self := h.member.self.trans hw.self.symm
    layout := h.member.layout.trans hw.layout.symm
    localId := by rw [hw.self]; exact h.member.localId
    accepted := fun ha => hw.accepts (h.member.accepted ha)
    remote := fun a ha => hw.lists (h.member.remote a ha)
    canonical := h.member.canonical
    settled := h.member.settled
    running := h.member.running
    stopped := fun hs => h.member.stopped (hw.stopped hs)
    waits := fun r hr w hrw => by
      have hb := h.member.waits r hr w hrw
      cases w with
      | rest length after => exact hb
      | answer asked =>
        cases asked with
        | confirming key => exact hw.creates hb
        | _ => trivial
    orderly := h.member.orderly }
  renewal stage hs := by
    have hb := h.renewal stage hs
    cases stage with
    | sending p => trivial
    | renewing key d ttl => exact hw.renews hb
  survey stage hs := by
    have hb := h.survey stage hs
    cases stage with
    | listing => trivial
    | fetching remote ids => exact ⟨hb.1, fun a ha => hw.lists (hb.2 a ha)⟩

/-- The end of a session that does not run. -/
theorem Attends.withdraw (h : T.Attends s) (hs : s.member.control.state ≠ .running) :
    T.Attends s.withdraw.1 :=
  { h with member := (h.member.clearAccepted hs).present _ }

end Terms

end Rollcall
