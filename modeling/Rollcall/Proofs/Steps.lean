import Rollcall.Proofs.Terms

/-!
# What steps and rounds come to

A step changes little of its member, and most steps have nothing to do with an announce. The
relations here list the ways in which a step or a round of renewal begins and goes on from an
answer, each with the member after it, so that a proof about a run looks at one way at a time.
-/

namespace Rollcall

open Store (Answer Failure)

/-- The state in which a runner asks something. -/
def Asked.state : Asked → State
  | resolving => .getCluster
  | claiming _ | rereading _ => .createCluster
  | listing _ | creating _ | confirming _ => .announce

/-- What a runner may wait for while it serves a state. -/
def Wait.Serves (s : State) : Wait → Prop
  | .answer asked => asked.state = s
  | .rest _ after => after = some .announceCleared → s = .clearAnnounce

/-- A member that has the same settings as before, and remembers the same announce in the way. -/
structure Member.Alike (m m' : Member) : Prop where
  maxTtl : m'.maxTtl = m.maxTtl
  policy : m'.renewal.policy = m.renewal.policy
  blockingTtl : m'.blockingTtl = m.blockingTtl

namespace Step

/-- How a step goes on in a state without having come across an announce. -/
inductive Plain (s : State) : Progress → Prop
  | ask {asked : Asked} (hs : asked.state = s) (hcreating : ∀ d, asked ≠ .creating d)
      (hconfirming : ∀ key, asked ≠ .confirming key) : Plain s (.wait (.answer asked))
  | rest (d : Duration) {after : Option Event} (h : after = none ∨ after = some .reset) :
      Plain s (.wait (.rest d after))
  | over {e : Event} (hannounced : e ≠ .announced) (hduplicated : e ≠ .announceDuplicated) :
      Plain s (.over (some e))

/-- The ways in which a step begins. -/
inductive Begins (m : Member) : State → Member × Progress → Prop
  | aside {s : State} {p : Progress} (naming : Naming) (id : Option String) (h : Plain s p) :
      Begins m s ({ m with naming, control := { m.control with clusterId := id } }, p)
  | announce {p : Progress} (h : Plain .announce p) :
      Begins m .announce (m.setAccepted none, p)
  | clear : Begins m .clearAnnounce (m, rest m.blockingWait (some .announceCleared))

/-- The ways in which a step goes on from an answer. -/
inductive Answers (m : Member) (answer : Answer) : Asked → Member × Progress → Prop
  | aside {asked : Asked} {p : Progress} (tally : Registry.Tally) (id : Option String)
      (h : Plain asked.state p) :
      Answers m answer asked
        ({ m with tally, control := { m.control with clusterId := id } }, p)
  | inTheWay {id : String} {l : Listing} {a : Announce} (tally : Registry.Tally)
      (hl : listed ((Registry.announces m.layout).outcome answer) = .ok l)
      (ha : l.get? m.self.id = some a) :
      Answers m answer (.listing id)
        ({ m with tally, blockingTtl := ttlInTheWay m a }, .over (some .announceDuplicated))
  | free {id : String} {l : Listing} (tally : Registry.Tally)
      (hl : listed ((Registry.announces m.layout).outcome answer) = .ok l)
      (ha : l.get? m.self.id = none) :
      Answers m answer (.listing id) ({ m with tally }, ask (.creating (m.payload id)))
  | created {d : Payload} {a : Announce} (tally : Registry.Tally)
      (ha : (Registry.announce m.layout d m.maxTtl).outcome answer = .ok a) :
      Answers m answer (.creating d) ({ m with tally }, ask (.confirming a.key))
  | accepted {key : String} {l : Listing} {a : Announce} (tally : Registry.Tally)
      (hl : listed ((Registry.announces m.layout).outcome answer) = .ok l)
      (ha : l.get? m.self.id = some a) (hk : a.key = key) :
      Answers m answer (.confirming key)
        (({ m with tally } : Member).setAccepted (some a), .over (some .announced))
  | older {key : String} {l : Listing} {a : Announce} (tally : Registry.Tally)
      (hl : listed ((Registry.announces m.layout).outcome answer) = .ok l)
      (ha : l.get? m.self.id = some a) (hk : a.key ≠ key) :
      Answers m answer (.confirming key)
        ({ m with tally, blockingTtl := m.maxTtl }, .over (some .announceDuplicated))

private theorem plain_recover (s : State) (m : Member) (e : MemberError) :
    Plain s (recover m e) := by
  unfold recover
  split
  · exact .rest _ (.inr rfl)
  · exact .over nofun nofun

private theorem resolved_eq (m : Member) (r : IdResult) (s : State) :
    ∃ id p, resolved m r = ({ m with control := { m.control with clusterId := id } }, p) ∧
      Plain s p := by
  unfold resolved
  split
  · exact ⟨_, _, rfl, .over nofun nofun⟩
  · exact ⟨_, _, rfl, .over nofun nofun⟩
  · exact ⟨_, _, rfl, plain_recover s _ _⟩

private theorem defined_eq (m : Member) (r : IdResult) (s : State) :
    ∃ id p, defined m r = ({ m with control := { m.control with clusterId := id } }, p) ∧
      Plain s p := by
  unfold defined
  split
  · exact ⟨_, _, rfl, .over nofun nofun⟩
  · exact ⟨_, _, rfl, .rest _ (.inl rfl)⟩

theorem begins_begin (m : Member) (s : State) : Begins m s (begin m s) := by
  cases s with
  | getCluster =>
    rw [begin]
    split
    · next r naming _ =>
      obtain ⟨id, p, he, hp⟩ := resolved_eq { m with naming } r .getCluster
      rw [he]
      exact .aside naming id hp
    · exact .aside m.naming m.control.clusterId (.ask rfl (by simp) (by simp))
  | createCluster =>
    rw [begin]
    split
    · next r naming _ =>
      obtain ⟨id, p, he, hp⟩ := defined_eq { m with naming } r .createCluster
      rw [he]
      exact .aside naming id hp
    · exact .aside m.naming m.control.clusterId (.ask rfl (by simp) (by simp))
  | announce =>
    simp only [begin]
    split
    · exact .announce (.ask rfl (by simp) (by simp))
    · exact .announce (plain_recover _ _ _)
  | clearAnnounce => exact .clear
  | running => exact .aside m.naming m.control.clusterId (.rest _ (.inl rfl))
  | stop => exact .aside m.naming m.control.clusterId (.rest _ (.inl rfl))

theorem answers_answered (m : Member) (asked : Asked) (answer : Answer) :
    Answers m answer asked (answered m asked answer) := by
  cases asked with
  | resolving =>
    simp only [answered, Terms.accept_eq]
    obtain ⟨id, p, he, hp⟩ := resolved_eq { m with tally := _ } _ .getCluster
    rw [he]
    exact .aside _ id hp
  | claiming candidate =>
    simp only [answered, Terms.accept_eq]
    split
    · obtain ⟨id, p, he, hp⟩ := defined_eq { m with tally := _ } _ .createCluster
      rw [he]
      exact .aside _ id hp
    · exact .aside _ m.control.clusterId (.ask rfl (by simp) (by simp))
    · obtain ⟨id, p, he, hp⟩ := defined_eq { m with tally := _ } _ .createCluster
      rw [he]
      exact .aside _ id hp
  | rereading refusal =>
    simp only [answered, Terms.accept_eq]
    obtain ⟨id, p, he, hp⟩ := defined_eq { m with tally := _ } _ .createCluster
    rw [he]
    exact .aside _ id hp
  | listing id =>
    simp only [answered, Terms.accept_eq]
    split
    · next l hl =>
      unfold announceIn
      split
      · next a ha => exact .inTheWay _ hl ha
      · next ha => exact .free _ hl ha
    · exact .aside _ m.control.clusterId (plain_recover _ _ _)
  | creating d =>
    simp only [answered, Terms.accept_eq]
    split
    · next a ha => exact .created _ ha
    · exact .aside _ m.control.clusterId (plain_recover _ _ _)
  | confirming key =>
    simp only [answered, Terms.accept_eq]
    split
    · next l hl =>
      unfold confirm
      split
      · next a ha =>
        split
        · next hk => exact .accepted _ hl ha hk
        · next hk => exact .older _ hl ha hk
      · exact .aside _ m.control.clusterId (.over (by simp) (by simp))
    · exact .aside _ m.control.clusterId (plain_recover _ _ _)

/-- A plain step waits for something that serves its state. -/
theorem Plain.serves {s : State} {p : Progress} {w : Wait} (h : Plain s p) (hp : p = .wait w) :
    w.Serves s := by
  cases h with
  | ask hs =>
    cases hp
    exact hs
  | rest d h =>
    cases hp
    rcases h with rfl | rfl <;> nofun
  | «over» _ _ => cases hp

/-- A step that begins to wait serves its state. -/
theorem serves_begin {m : Member} {s : State} {w : Wait} (h : (begin m s).2 = .wait w) :
    w.Serves s := by
  have hb := begins_begin m s
  generalize begin m s = x at h hb
  cases hb with
  | aside naming id hp => exact hp.serves h
  | announce hp => exact hp.serves h
  | clear =>
    cases h
    exact fun _ => rfl

/-- A step that is over at once says nothing of an announce. -/
theorem over_begin {m : Member} {s : State} {e : Event} (h : (begin m s).2 = .over (some e)) :
    e ≠ .announced ∧ e ≠ .announceDuplicated := by
  have hplain : ∀ {p : Progress}, p = .over (some e) → Plain s p →
      e ≠ .announced ∧ e ≠ .announceDuplicated := by
    rintro p rfl hp
    cases hp with
    | «over» ha hd => exact ⟨ha, hd⟩
  have hb := begins_begin m s
  generalize begin m s = x at h hb
  cases hb with
  | aside naming id hp => exact hplain h hp
  | announce hp => exact hplain h hp
  | clear => cases h

/-- A step that goes on to wait serves the state that it served before. -/
theorem serves_answered {m : Member} {asked : Asked} {answer : Answer} {w : Wait}
    (h : (answered m asked answer).2 = .wait w) : w.Serves asked.state := by
  have ha := answers_answered m asked answer
  generalize answered m asked answer = x at h ha
  cases ha with
  | aside tally id hp => exact hp.serves h
  | inTheWay => cases h
  | free =>
    cases h
    rfl
  | created =>
    cases h
    rfl
  | accepted => cases h
  | older => cases h

/-- A step that begins looks for the cluster id, or gives up the accepted announce. -/
theorem begin_eq (m : Member) (s : State) : ∃ naming control accepted,
    (begin m s).1 = { m with naming, control, known := { m.known with accepted } } := by
  have hb := begins_begin m s
  generalize begin m s = x at hb ⊢
  cases hb with
  | aside naming id _ => exact ⟨naming, _, m.known.accepted, rfl⟩
  | announce _ => exact ⟨m.naming, m.control, none, rfl⟩
  | clear => exact ⟨m.naming, m.control, m.known.accepted, rfl⟩

/-- A step that goes on from an answer counts failures, puts down the cluster id, accepts an
announce, or remembers one in the way. -/
theorem answered_eq (m : Member) (asked : Asked) (answer : Answer) :
    ∃ tally control accepted blockingTtl, (answered m asked answer).1 =
      { m with tally, control, blockingTtl, known := { m.known with accepted } } := by
  have ha := answers_answered m asked answer
  generalize answered m asked answer = x at ha ⊢
  cases ha with
  | aside tally id _ => exact ⟨tally, _, m.known.accepted, m.blockingTtl, rfl⟩
  | inTheWay tally _ _ => exact ⟨tally, m.control, m.known.accepted, _, rfl⟩
  | free tally _ _ => exact ⟨tally, m.control, m.known.accepted, m.blockingTtl, rfl⟩
  | created tally _ => exact ⟨tally, m.control, m.known.accepted, m.blockingTtl, rfl⟩
  | accepted tally _ _ _ => exact ⟨tally, m.control, _, m.blockingTtl, rfl⟩
  | older tally _ _ _ => exact ⟨tally, m.control, m.known.accepted, _, rfl⟩

theorem alike_begin (m : Member) (s : State) : m.Alike (begin m s).1 := by
  have hb := begins_begin m s
  generalize begin m s = x at hb ⊢
  cases hb with
  | _ => exact ⟨rfl, rfl, rfl⟩

/-- A step remembers another announce in the way only when it announces. -/
theorem alike_answered (m : Member) (asked : Asked) (answer : Answer) :
    ∃ b, ({ m with blockingTtl := b } : Member).Alike (answered m asked answer).1 ∧
      (asked.state ≠ .announce → b = m.blockingTtl) := by
  have ha := answers_answered m asked answer
  generalize answered m asked answer = x at ha ⊢
  cases ha with
  | aside _ _ _ => exact ⟨m.blockingTtl, ⟨rfl, rfl, rfl⟩, fun _ => rfl⟩
  | _ => exact ⟨_, ⟨rfl, rfl, rfl⟩, fun hs => absurd rfl hs⟩

end Step

namespace Renewal

/-- The ways in which a round begins. -/
inductive Begins (m : Member) : Member × Turn Stage Duration → Prop
  | idle (hr : m.isRunning = false) :
      Begins m ({ m with renewal := m.renewal.reset, sent := none },
        .over m.renewal.reset.current)
  | sending (hr : m.isRunning = true) (hs : m.sent ≠ some m.known.properties) :
      Begins m (m, .wait (.sending m.known.properties))
  | renewing {a : Announce} (hr : m.isRunning = true) (hs : m.sent = some m.known.properties)
      (ha : m.known.accepted = some a) :
      Begins m (m, .wait (.renewing a.key (m.payload a.clusterId) m.renewal.next.timeToLive))
  | missing (hr : m.isRunning = true) (ha : m.known.accepted = none) :
      Begins m (fail m .announceMissing)

/-- A member that has written its properties. -/
def published (m : Member) (tally : Registry.Tally) (p : Properties) (index : Int) : Member :=
  { m with tally, known := { m.known with propertiesIndex := index }, sent := some p }

/-- The ways in which a round goes on from an answer. -/
inductive Answers (m : Member) (answer : Answer) : Stage → Member × Turn Stage Duration → Prop
  | sent {p : Properties} {index : Int} {a : Announce} (tally : Registry.Tally)
      (hok : (Registry.publish m.layout m.self.id p).outcome answer = .ok index)
      (ha : m.known.accepted = some a) :
      Answers m answer (.sending p) (published m tally p index,
        .wait (.renewing a.key ((published m tally p index).payload a.clusterId)
          m.renewal.next.timeToLive))
  | missing {p : Properties} {index : Int} (tally : Registry.Tally)
      (hok : (Registry.publish m.layout m.self.id p).outcome answer = .ok index)
      (ha : m.known.accepted = none) :
      Answers m answer (.sending p) (fail (published m tally p index) .announceMissing)
  | renewed {key : String} {d : Payload} {ttl : Nat} {b : Announce} (tally : Registry.Tally)
      (hok : (Registry.renew key d ttl).outcome answer = .ok b) :
      Answers m answer (.renewing key d ttl)
        ({ m with tally, known := m.known.replaceIfHeld key b, renewal := m.renewal.increment },
          .over m.renewal.increment.current)
  | unsent {p : Properties} {f : Failure} (tally : Registry.Tally)
      (hf : (Registry.publish m.layout m.self.id p).outcome answer = .error f) :
      Answers m answer (.sending p) (fail { m with tally } (.store f))
  | unrenewed {key : String} {d : Payload} {ttl : Nat} {f : Failure} (tally : Registry.Tally)
      (hf : (Registry.renew key d ttl).outcome answer = .error f) :
      Answers m answer (.renewing key d ttl) (fail { m with tally } (.store f))

theorem begins_begin (m : Member) : Begins m (begin m) := by
  unfold begin
  split
  · next hr => exact .idle (by simpa using hr)
  · next hr =>
    have hr : m.isRunning = true := by simpa using hr
    split
    · next hs =>
      unfold renew
      split
      · next ha => exact .missing hr ha
      · next a ha => exact .renewing hr hs ha
    · next hs => exact .sending hr hs

theorem answers_answered (m : Member) (stage : Stage) (answer : Answer) :
    Answers m answer stage (answered m stage answer) := by
  cases stage with
  | sending p =>
    simp only [answered, Terms.accept_eq]
    split
    · next index hok =>
      unfold renew
      split
      · next ha => exact .missing _ hok ha
      · next a ha => exact .sent _ hok ha
    · next f hf => exact .unsent _ hf
  | renewing key d ttl =>
    simp only [answered, Terms.accept_eq]
    split
    · next b hok => exact .renewed _ hok
    · next f hf => exact .unrenewed _ hf

theorem alike_begin (m : Member) : m.Alike (begin m).1 := by
  have hb := begins_begin m
  generalize begin m = x at hb ⊢
  cases hb with
  | _ => exact ⟨rfl, rfl, rfl⟩

theorem alike_answered (m : Member) (stage : Stage) (answer : Answer) :
    m.Alike (answered m stage answer).1 := by
  have ha := answers_answered m stage answer
  generalize answered m stage answer = x at ha ⊢
  cases ha with
  | _ => exact ⟨rfl, rfl, rfl⟩

end Renewal

/-! ## What sessions make of them -/

namespace Session

/-- Whatever comes of a step, the member is that of the step but for its control. -/
theorem member_afterStep (s : Session) (g : Nat) (x : Member × Step.Progress) :
    ∃ c, (s.afterStep g x).1.member = { x.1 with control := c } := by
  obtain ⟨m, w | e⟩ := x
  · exact ⟨_, rfl⟩
  · exact ⟨_, rfl⟩

theorem member_afterRenewal (s : Session) (x : Member × Turn Renewal.Stage Duration) :
    (s.afterRenewal x).1.member = x.1 := by
  obtain ⟨m, stage | d⟩ := x
  · rfl
  · rfl

theorem member_afterSurvey (s : Session) (x : Member × Turn Survey.Stage Duration) :
    (s.afterSurvey x).1.member = x.1 := by
  obtain ⟨m, stage | d⟩ := x
  · rfl
  · rfl

end Session

namespace Survey

/-- The ways in which a survey goes on from an answer. -/
inductive Answers (m : Member) (answer : Answer) : Stage → Member × Progress → Prop
  | failed {stage : Stage} (tally : Registry.Tally) (f : Failure) :
      Answers m answer stage ({ m with tally }, .over (.error (.store f)))
  | agreed {nodes : List Store.Node} {l : Listing} (tally : Registry.Tally)
      (hok : (Registry.announces m.layout).outcome answer = .ok nodes)
      (hof : Listing.ofNodes nodes (!m.keepExpired) = .ok l)
      (ha : (l.without m.self.id).agrees m.known.remote = true) :
      Answers m answer .listing ({ m with tally }, .over (.ok false))
  | published {nodes : List Store.Node} {l : Listing} (tally : Registry.Tally)
      (hok : (Registry.announces m.layout).outcome answer = .ok nodes)
      (hof : Listing.ofNodes nodes (!m.keepExpired) = .ok l)
      (hs : (Listing.diff m.known.remote (l.without m.self.id)).stale = []) :
      Answers m answer .listing
        (publish { m with tally } (l.without m.self.id) [] ∅, .over (.ok true))
  | found {nodes : List Store.Node} {l : Listing} (tally : Registry.Tally)
      (hok : (Registry.announces m.layout).outcome answer = .ok nodes)
      (hof : Listing.ofNodes nodes (!m.keepExpired) = .ok l) :
      Answers m answer .listing ({ m with tally }, .wait (.fetching (l.without m.self.id)
        (Listing.diff m.known.remote (l.without m.self.id)).stale))
  | fetched {remote : Listing} {ids : List String} {found : Dict String Properties}
      (tally : Registry.Tally) (hf : (fetched m ids answer).2 = .ok found) :
      Answers m answer (.fetching remote ids)
        (publish { m with tally } remote ids found, .over (.ok true))

theorem answers_answered (m : Member) (stage : Stage) (answer : Answer) :
    Answers m answer stage (answered m stage answer) := by
  cases stage with
  | listing =>
    simp only [answered, Terms.accept_eq]
    split
    · next nodes hok =>
      unfold compare
      split
      · exact .failed _ _
      · next l hof =>
        simp only
        split
        · next ha => exact .agreed _ hok hof ha
        · split
          · next hs => exact .published _ hok hof hs
          · exact .found _ hok hof
    · exact .failed _ _
  | fetching remote ids =>
    obtain ⟨tally, ht⟩ := Terms.fetched_eq m ids answer
    simp only [answered]
    split
    · next found hf =>
      rw [ht]
      exact .fetched tally hf
    · rw [ht]
      exact .failed tally _

/-- What follows an answer changes what is known of the others, and counts failures. -/
theorem answered_eq (m : Member) (stage : Stage) (answer : Answer) :
    ∃ tally remote properties, (answered m stage answer).1 =
      { m with tally, known := m.known.publish remote properties } := by
  have ha := answers_answered m stage answer
  generalize answered m stage answer = x at ha ⊢
  cases ha with
  | failed tally _ => exact ⟨tally, m.known.remote, m.known.remoteProperties, rfl⟩
  | agreed tally _ _ _ => exact ⟨tally, m.known.remote, m.known.remoteProperties, rfl⟩
  | published tally _ _ _ => exact ⟨tally, _, _, rfl⟩
  | found tally _ _ => exact ⟨tally, m.known.remote, m.known.remoteProperties, rfl⟩
  | fetched tally _ => exact ⟨tally, _, _, rfl⟩

theorem alike_begin (m : Member) : m.Alike (begin m).1 := by
  unfold begin
  split
  · exact ⟨rfl, rfl, rfl⟩
  · exact ⟨rfl, rfl, rfl⟩

private theorem conclude_eq (m : Member) (r : Except MemberError Bool) :
    ∃ survey control, (conclude m r).1 = { m with survey, control } := by
  unfold conclude
  split <;> exact ⟨_, _, rfl⟩

/-- A round that goes on from an answer besides sets its pauses, and may raise an event. -/
theorem roundAnswered_eq (m : Member) (stage : Stage) (answer : Answer) :
    ∃ tally remote properties survey control, (roundAnswered m stage answer).1 =
      { m with tally, survey, control, known := m.known.publish remote properties } := by
  obtain ⟨tally, remote, properties, he⟩ := answered_eq m stage answer
  unfold roundAnswered
  generalize answered m stage answer = x at he ⊢
  obtain ⟨m', stage' | r⟩ := x
  · exact ⟨tally, remote, properties, m.survey, m.control, he⟩
  · have he : m' = _ := he
    obtain ⟨survey, control, hc⟩ := conclude_eq m' r
    refine ⟨tally, remote, properties, survey, control, hc.trans ?_⟩
    rw [he]

theorem alike_roundAnswered (m : Member) (stage : Stage) (answer : Answer) :
    m.Alike (roundAnswered m stage answer).1 := by
  obtain ⟨_, _, _, _, _, he⟩ := roundAnswered_eq m stage answer
  rw [he]
  exact ⟨rfl, rfl, rfl⟩

end Survey

namespace Session

variable {s : Session}

/-- At the end a session gives up its announce and shows itself alone. -/
theorem withdraw_eq (s : Session) : ∃ board,
    s.withdraw.1 = { s with member := { s.member.setAccepted none with board } } := by
  obtain ⟨b, hb⟩ := Terms.present_eq (s.member.setAccepted none)
    (s.member.setAccepted none).isolated
  exact ⟨b, by simp only [withdraw, hb]⟩

end Session

end Rollcall
