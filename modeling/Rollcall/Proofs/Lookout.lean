import Rollcall.Proofs.Apart
import Rollcall.Proofs.Survey

/-!
# What a member has seen of the others

A lookout is a member with the nodes at which its surveys looked. Surveys are begun, answered and
abandoned one after another, and meanwhile anything else may happen to the member. After a survey
that succeeded the others are known as they stood in the nodes it looked at. Clusters are not
compared, so those known are as they stood when a survey last found a change.
-/

namespace Rollcall

open Store (Answer)

namespace Listing

/-- A listing that shows the others of some announces: in order, and of every other instance with an
announce that counts the oldest of these. -/
structure ShowsOthers (found : List Announce) (keepExpired : Bool) (self : String) (l : Listing) :
    Prop where
  canonical : Canonical l.entries
  oldest : ∀ a ∈ l.entries, (a ∈ found ∧ (keepExpired = true ∨ a.expired = false)) ∧
    a.instanceId ≠ self ∧ ∀ b ∈ found, (keepExpired = true ∨ b.expired = false) →
      b.instanceId = a.instanceId → ¬b.Older a
  complete : ∀ b ∈ found, (keepExpired = true ∨ b.expired = false) → b.instanceId ≠ self →
    ∃ a ∈ l.entries, a.instanceId = b.instanceId

/-- The announces of the others that nodes show, if the nodes can be read. -/
def others (nodes : List Store.Node) (keepExpired : Bool) (self : String) : Option Listing :=
  (ofNodes nodes (!keepExpired)).toOption.map (·.without self)

theorem others_eq {nodes : List Store.Node} {keepExpired : Bool} {l : Listing}
    (h : ofNodes nodes (!keepExpired) = .ok l) (self : String) :
    others nodes keepExpired self = some (l.without self) := by
  rw [others, h]
  rfl

/-- The others that nodes show are those of the announces read from them. -/
theorem showsOthers_of_others {nodes : List Store.Node} {keepExpired : Bool} {self : String}
    {l : Listing} (h : others nodes keepExpired self = some l) :
    ∃ found, readNodes nodes = .ok found ∧ ShowsOthers found keepExpired self l := by
  unfold others at h
  cases hof : ofNodes nodes (!keepExpired) with
  | error e => simp [hof, Except.toOption] at h
  | ok k =>
    obtain rfl : k.without self = l := by simpa [hof, Except.toOption] using h
    obtain ⟨found, hread, rfl⟩ := ofNodes_eq_ok hof
    have hcounts : ∀ a, a ∈ found.filter (fun a => !(!keepExpired && a.expired)) ↔
        a ∈ found ∧ (keepExpired = true ∨ a.expired = false) := by simp
    have hcan := canonical_ofList (found.filter fun a => !(!keepExpired && a.expired))
    refine ⟨found, hread, canonical_without hcan self, ?_, ?_⟩
    · intro a ha
      obtain ⟨ha, hne⟩ := mem_without.mp ha
      refine ⟨(hcounts a).mp (mem_of_mem_ofList ha), hne, fun b hb hkeep hi => ?_⟩
      obtain ⟨c, hc, hci, hcb⟩ := exists_mem_ofList ((hcounts b).mpr ⟨hb, hkeep⟩)
      rw [hcan.eq_of_instanceId hc ha (hci.trans hi)] at hcb
      exact Announce.not_older_of_precedes hcb
    · intro b hb hkeep hne
      obtain ⟨a, ha, hi, _⟩ := exists_mem_ofList ((hcounts b).mpr ⟨hb, hkeep⟩)
      exact ⟨a, mem_without.mpr ⟨ha, hi ▸ hne⟩, hi⟩

/-- Listings of equal content whose announces under one key name one cluster have the same keys and
payloads in the same places. -/
theorem payloads_eq {l m : Listing} (h : l.content = m.content)
    (hc : ∀ a ∈ l.entries, ∀ b ∈ m.entries, a.key = b.key → a.clusterId = b.clusterId) :
    l.entries.map (fun a => (a.key, a.data)) = m.entries.map fun a => (a.key, a.data) := by
  obtain ⟨l⟩ := l
  obtain ⟨m⟩ := m
  simp only [content] at h hc
  induction l generalizing m with
  | nil => rw [List.map_eq_nil_iff.mp h.symm]
  | cons a l ih =>
    cases m with
    | nil => simp at h
    | cons b m =>
      obtain ⟨hab, hlm⟩ := List.cons.inj h
      have hcluster := hc a (by simp) b (by simp) (congrArg Prod.fst hab)
      have hdata : (a.key, a.data) = (b.key, b.data) := by
        obtain ⟨hk, hd⟩ := Prod.mk.inj hab
        obtain ⟨hi, hs, hx⟩ : a.data.instanceId = b.data.instanceId ∧
            a.data.serverInfo = b.data.serverInfo ∧
            a.data.propertiesIndex = b.data.propertiesIndex := by
          simpa [Payload.content] using hd
        rw [hk, show a.data = b.data from by
          rcases hda : a.data with ⟨⟩
          rcases hdb : b.data with ⟨⟩
          simp_all [Announce.clusterId]]
      rw [List.map_cons, List.map_cons, hdata]
      exact congrArg _ (ih m hlm fun c hcl d hdm => hc c (by simp [hcl]) d (by simp [hdm]))

end Listing

/-- The member that another one becomes by something that leaves alone who it is and what it knows
of the others. -/
def Member.becoming (m m' : Member) : Member :=
  { m' with
    self := m.self
    layout := m.layout
    keepExpired := m.keepExpired
    known := { m'.known with remote := m.known.remote } }

/-- A member with what its surveys have seen. -/
structure Lookout where
  member : Member
  /-- What the survey under way has asked. -/
  stage : Option Survey.Stage := none
  /-- The nodes at which the latest survey looked. -/
  looked : Option (List Store.Node) := none
  /-- The nodes at which the latest survey looked that found a change. -/
  taken : Option (List Store.Node) := none
  /-- What the latest survey came to. -/
  result : Option (Except MemberError Bool) := none

namespace Lookout

/-- What happens to a lookout. -/
inductive Move
  /-- A survey begins, unless one is under way. -/
  | begin
  | receive (answer : Answer)
  /-- Nobody waits for the survey any more. -/
  | abandon
  /-- Something else happens to the member. -/
  | meanwhile (m : Member)

/-- A lookout that has not seen anything. -/
def ofMember (m : Member) : Lookout := { member := m }

/-- The nodes looked at after an answer to what a survey has asked. -/
def lookedAfter (s : Lookout) (answer : Answer) : Survey.Stage → Option (List Store.Node)
  | .listing => ((Registry.announces s.member.layout).outcome answer).toOption
  | .fetching _ _ => s.looked

/-- A lookout after an answer to what a survey has asked. -/
def answered (s : Lookout) (stage : Survey.Stage) (answer : Answer) : Lookout :=
  let looked := s.lookedAfter answer stage
  match Survey.answered s.member stage answer with
  | (member, .wait stage) => { s with member, stage := some stage, looked }
  | (member, .over r) =>
    let taken := match r with
      | .ok true => looked
      | _ => s.taken
    { member, stage := none, looked, taken, result := some r }

/-- A lookout after a move. -/
def move (s : Lookout) : Move → Lookout
  | .begin =>
    if s.stage.isSome then s else { s with stage := some .listing, looked := none, result := none }
  | .receive answer =>
    match s.stage with
    | none => s
    | some stage => s.answered stage answer
  | .abandon => { s with stage := none }
  | .meanwhile m => { s with member := s.member.becoming m }

/-- A lookout after moves one after another. -/
def run (s : Lookout) (moves : List Move) : Lookout := moves.foldl move s

/-! ## What is known is what was seen -/

/-- A lookout whose member, `m` at first, knows the others as its surveys saw them. -/
structure Knows (m : Member) (s : Lookout) : Prop where
  self : s.member.self = m.self
  keepExpired : s.member.keepExpired = m.keepExpired
  pending : s.stage.isSome = true → s.result = none
  fetching : ∀ {remote : Listing} {ids : List String}, s.stage = some (.fetching remote ids) →
    ∃ nodes, s.looked = some nodes ∧ Listing.others nodes m.keepExpired m.self.id = some remote
  result : ∀ {b : Bool}, s.result = some (.ok b) → ∃ nodes l, s.looked = some nodes ∧
    Listing.others nodes m.keepExpired m.self.id = some l ∧
    s.member.known.remote.content = l.content ∧ (b = true → s.taken = s.looked)
  taken : ∀ {nodes : List Store.Node}, s.taken = some nodes →
    Listing.others nodes m.keepExpired m.self.id = some s.member.known.remote
  untaken : s.taken = none → s.member.known.remote = m.known.remote

variable {m : Member} {s : Lookout}

theorem knows_ofMember (m : Member) : Knows m (ofMember m) where
  self := rfl
  keepExpired := rfl
  pending := nofun
  fetching := nofun
  result := nofun
  taken := nofun
  untaken _ := rfl

private theorem Knows.answered (h : Knows m s) {stage : Survey.Stage}
    (hs : s.stage = some stage) (answer : Answer) : Knows m (s.answered stage answer) := by
  have ha := Survey.answers_answered s.member stage answer
  generalize hx : Survey.answered s.member stage answer = x at ha
  have hothers : ∀ {nodes l}, Listing.ofNodes nodes (!s.member.keepExpired) = .ok l →
      Listing.others nodes m.keepExpired m.self.id = some (l.without m.self.id) := by
    intro nodes l hof
    rw [← h.self, ← h.keepExpired]
    exact Listing.others_eq hof s.member.self.id
  cases ha with
  | failed tally f =>
    simp only [Lookout.answered, hx]
    exact { h with pending := by simp, fetching := by simp, result := by simp }
  | @agreed nodes l tally hok hof hagrees =>
    simp only [Lookout.answered, hx, lookedAfter, hok, Except.toOption]
    refine { h with pending := by simp, fetching := by simp, result := ?_ }
    intro b hb
    cases hb
    have hc : (l.without s.member.self.id).content = s.member.known.remote.content := by
      simpa [Listing.agrees] using hagrees
    exact ⟨nodes, _, rfl, hothers hof, by rw [← h.self, ← hc], by simp⟩
  | @published nodes l tally hok hof _ =>
    simp only [Lookout.answered, hx, lookedAfter, hok, Except.toOption]
    refine {
      self := h.self, keepExpired := h.keepExpired, pending := by simp, fetching := by simp
      result := ?_, taken := ?_, untaken := by simp }
    · intro b hb
      exact ⟨nodes, _, rfl, hothers hof, by rw [← h.self]; rfl, fun _ => rfl⟩
    · intro nodes' hn
      cases hn
      rw [hothers hof, ← h.self]
      rfl
  | @found nodes l tally hok hof =>
    simp only [Lookout.answered, hx, lookedAfter, hok, Except.toOption]
    refine { h with pending := fun _ => h.pending (by rw [hs]; rfl), fetching := ?_, result := ?_ }
    · intro remote ids hst
      cases hst
      exact ⟨nodes, rfl, by rw [hothers hof, h.self]⟩
    · intro b hb
      cases (h.pending (by rw [hs]; rfl)).symm.trans hb
  | @fetched remote ids found tally _ =>
    obtain ⟨nodes, hlooked, hremote⟩ := h.fetching hs
    simp only [Lookout.answered, hx, lookedAfter]
    refine {
      self := h.self, keepExpired := h.keepExpired, pending := by simp, fetching := by simp
      result := ?_, taken := ?_, untaken := fun hn => by cases hlooked.symm.trans hn }
    · intro b hb
      exact ⟨nodes, remote, hlooked, hremote, rfl, fun _ => rfl⟩
    · intro nodes' hn
      cases hlooked.symm.trans hn
      exact hremote

theorem Knows.move (h : Knows m s) (x : Move) : Knows m (s.move x) := by
  cases x with
  | begin =>
    rw [Lookout.move]
    split
    · exact h
    · exact { h with pending := fun _ => rfl, fetching := nofun, result := nofun }
  | receive answer =>
    rw [Lookout.move]
    split
    · exact h
    · next stage hs => exact h.answered hs answer
  | abandon => exact { h with pending := nofun, fetching := nofun }
  | meanwhile m' => exact { h with }

theorem Knows.run (h : Knows m s) (moves : List Move) : Knows m (s.run moves) := by
  induction moves generalizing s with
  | nil => exact h
  | cons x moves ih => exact ih (h.move x)

end Lookout

/-! ## Sessions are lookouts -/

namespace Lookout

private theorem becoming_eq {m m' : Member} (h : m.Aside m') : m.becoming m' = m' := by
  rw [Member.becoming, ← h.self, ← h.layout, ← h.keepExpired, ← h.remote]

/-- A lookout on what a session does. -/
structure Tracks (s : Lookout) (t : Session) : Prop where
  member : s.member = t.member
  stage : s.stage = t.surveying

variable {s : Lookout} {t t' : Session}

private theorem Tracks.apart (h : s.Tracks t) (ha : t.Apart t') :
    ∃ moves, (s.run moves).Tracks t' := by
  refine ⟨[.meanwhile t'.member], ?_, ?_⟩
  · show s.member.becoming t'.member = t'.member
    rw [h.member]
    exact becoming_eq ha.member
  · show s.stage = t'.surveying
    rw [h.stage, Session.surveying, Session.surveying, ha.survey]

private theorem Tracks.dropped (h : s.Tracks t) (ha : t.member.Aside t'.member)
    (hn : t'.surveying = none) : ∃ moves, (s.run moves).Tracks t' := by
  refine ⟨[.abandon, .meanwhile t'.member], ?_, hn.symm⟩
  show s.member.becoming t'.member = t'.member
  rw [h.member]
  exact becoming_eq ha

private theorem Tracks.proceedSurvey (h : s.Tracks t) :
    ∃ moves, (s.run moves).Tracks (t.proceed .survey).1 := by
  rcases t.proceed_cases .survey with he | ⟨hs, he | he⟩
  · rw [he]
    exact ⟨[], h⟩
  · rw [he]
    exact h.dropped (.refl _) rfl
  · rw [he, Survey.begin]
    split
    · have hnone : s.stage = none := by
        rw [h.stage, Session.surveying]
        split
        · next stage hst => exact absurd hst (hs stage)
        · rfl
      refine ⟨[.begin], ?_⟩
      show (s.move .begin).Tracks _
      rw [move, hnone]
      exact ⟨h.member, rfl⟩
    · exact h.dropped ⟨rfl, rfl, rfl, rfl, rfl⟩ rfl

private theorem Tracks.receiveSurvey (h : s.Tracks t) (answer : Answer) :
    ∃ moves, (s.run moves).Tracks (t.receive .survey answer).1 := by
  unfold Session.receive
  simp only
  split
  · next stage hst =>
    have hstage : s.stage = some stage := by rw [h.stage, Session.surveying, hst]
    have hmove : s.move (.receive answer) = s.answered stage answer := by rw [move, hstage]
    rw [Survey.roundAnswered, ← h.member]
    cases ha : Survey.answered s.member stage answer with
    | mk m turn =>
      cases turn with
      | wait stage' =>
        refine ⟨[.receive answer], ?_⟩
        show (s.move (.receive answer)).Tracks _
        rw [hmove, answered, ha]
        exact ⟨rfl, rfl⟩
      | «over» r =>
        refine ⟨[.receive answer, .meanwhile (Survey.conclude m r).1], ?_⟩
        show ((s.move (.receive answer)).move (.meanwhile (Survey.conclude m r).1)).Tracks
          (t.afterSurvey ((Survey.conclude m r).1, .over (Survey.conclude m r).2)).1
        rw [hmove, answered, ha]
        exact ⟨becoming_eq (.conclude m r), rfl⟩
  · exact ⟨[], h⟩

private theorem Tracks.act {a : Attendance} (h : s.Tracks a.session) (x : Attendance.Act) :
    ∃ moves, (s.run moves).Tracks (a.act x).session := by
  by_cases hstart : x = .start
  · rw [hstart, Attendance.act, Session.start]
    split
    · exact ⟨[], h⟩
    · exact h.dropped ⟨rfl, rfl, rfl, rfl, rfl⟩ rfl
  by_cases hsurvey : x = .proceed .survey
  · rw [hsurvey, Attendance.act]
    split
    · exact h.proceedSurvey
    · exact ⟨[], h⟩
  · exact h.apart (a.apart_act hstart hsurvey)

private theorem Tracks.receive {a : Attendance} (h : s.Tracks a.session) (task : Task)
    (answer : Answer) : ∃ moves, (s.run moves).Tracks (a.receive task answer).session := by
  by_cases ht : task = .part .survey
  · rw [ht]
    exact h.receiveSurvey answer
  · exact h.apart (a.apart_receive ht answer)

/-- Whatever an attendance does, a lookout does it. -/
theorem Tracks.run {a : Attendance} (h : s.Tracks a.session) (moves : List Attendance.Move) :
    ∃ surveys, (s.run surveys).Tracks (a.run moves).session := by
  induction moves generalizing s a with
  | nil => exact ⟨[], h⟩
  | cons x moves ih =>
    have hx : ∃ first, (s.run first).Tracks (a.move x).session := by
      cases x with
      | act x => exact h.act x
      | receive task answer => exact h.receive task answer
    obtain ⟨first, hfirst⟩ := hx
    obtain ⟨rest, hrest⟩ := ih hfirst
    exact ⟨first ++ rest, by rwa [Lookout.run, List.foldl_append]⟩

/-- In every run of surveys of a member, whatever they are answered and whatever else happens to the
member meanwhile, be it in a session or not: after a survey that succeeded, what the member knows of
the others has the keys, the instances, the addresses and the indices of the others in the nodes at
which this survey looked, in their order, and their clusters too unless an announce changed nothing
but its cluster. Altogether, clusters included, what is known of the others is what stood in the
nodes at which a survey last found a change. -/
theorem run_knows_seen (m : Member) :
    (∀ moves,
      let s := (ofMember m).run moves
      (∀ b, s.result = some (.ok b) → ∃ nodes found l, s.looked = some nodes ∧
        Listing.readNodes nodes = .ok found ∧
        Listing.ShowsOthers found m.keepExpired m.self.id l ∧
        s.member.known.remote.content = l.content ∧
        ((∀ a ∈ s.member.known.remote.entries, ∀ c ∈ l.entries,
            a.key = c.key → a.clusterId = c.clusterId) →
          s.member.known.remote.entries.map (fun a => (a.key, a.data)) =
            l.entries.map fun a => (a.key, a.data)) ∧
        (b = true → s.taken = s.looked)) ∧
      (∀ nodes, s.taken = some nodes → ∃ found, Listing.readNodes nodes = .ok found ∧
        Listing.ShowsOthers found m.keepExpired m.self.id s.member.known.remote) ∧
      (s.taken = none → s.member.known.remote = m.known.remote)) ∧
    ∀ moves, ∃ surveys, ((ofMember m).run surveys).Tracks
      ((Attendance.ofMember m).run moves).session := by
  refine ⟨fun moves => ?_, fun moves => Tracks.run (a := .ofMember m) ⟨rfl, rfl⟩ moves⟩
  intro s
  have h : Knows m s := (knows_ofMember m).run moves
  refine ⟨fun b hb => ?_, fun nodes hn => Listing.showsOthers_of_others (h.taken hn), h.untaken⟩
  obtain ⟨nodes, l, hlooked, hothers, hcontent, htaken⟩ := h.result hb
  obtain ⟨found, hread, hshows⟩ := Listing.showsOthers_of_others hothers
  exact ⟨nodes, found, l, hlooked, hread, hshows, hcontent, Listing.payloads_eq hcontent, htaken⟩

/-- A member that surveys the others, one of whom writes its announce again in another cluster. -/
def moved : Lookout :=
  let listing (clusterId : String) : Answer :=
    let data : Payload :=
      { instanceId := "x", serverInfo := "", clusterId, propertiesIndex := 0 }
    let node : Store.Node :=
      { key := "/d/announces/00000000000000000001", value := some data.encode, ttl := some 13 }
    .ok { action := "get", node := some { key := "/d/announces", dir := true, nodes := [node] } }
  let nothing : Answer := .error (.refused { code := Store.Refusal.keyNotFoundCode })
  (ofMember (Member.ofConfig { self := { id := "y" }, store := { root := "/d" } } none)).run
    [.begin, .receive (listing "c"), .receive nothing, .begin, .receive (listing "d")]

/-- A survey that succeeded may leave the former cluster of an announce that changed nothing else:
the second one sees the cluster `d`, and the member goes on to know `c`. -/
theorem known_cluster_of_moved :
    moved.result.map Except.toOption = some (some false) ∧
    (moved.looked.bind fun nodes => Listing.others nodes false "y").map (fun l =>
        l.entries.map fun a => (a.key, a.clusterId)) =
      some [("/d/announces/00000000000000000001", "d")] ∧
    moved.member.known.remote.entries.map (fun a => (a.key, a.clusterId)) =
      [("/d/announces/00000000000000000001", "c")] := by
  decide +kernel

end Lookout

end Rollcall
