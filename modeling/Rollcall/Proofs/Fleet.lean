import Rollcall.Proofs.Attendance

/-!
# Fleets

A fleet is a store and the members that announce themselves in one of its directories. Members act,
the store answers their requests one at a time, time passes, requests fail, answers get lost, and
others use the store as long as they keep their hands off the announces. A fleet has a ledger at
every moment, so of the members of one instance at most one holds an announce that is live.
-/

namespace Rollcall

open Store (Request Answer Failure Tree)
open Registry (Layout)
open Attendance (Keeps)

/-- Members that share a store and the directory of their announces. -/
structure Fleet where
  layout : Layout
  /-- Nanoseconds since the beginning. -/
  now : Nat := 0
  tree : Tree := {}
  /-- The members, each under a name of its own. -/
  members : Dict String Attendance := ∅

namespace Fleet

/-- The live announces. -/
def announces (f : Fleet) (t : Tree) : Dict String Store.Entry :=
  (t.purge f.now).entries.filter fun key _ => Store.Path.isBelow f.layout.directory key

/-- What happens in a fleet. -/
inductive Action
  /-- A member joins in. -/
  | enrol (name : String) (c : Config) (naming : Option Naming)
  | act (name : String) (x : Attendance.Act)
  /-- The store carries out the request of a task and answers it. -/
  | call (name : String) (t : Task)
  /-- The store carries out the request of a task, but the answer does not get through. -/
  | lose (name : String) (t : Task) (text : String)
  | elapse (d : Duration)
  /-- A request is going to fail. -/
  | fail (f : Failure)
  /-- A request of someone else. -/
  | other (r : Request)

/-- A fleet after the store carried out the request of a task, and what is made of the answer. -/
def serve (f : Fleet) (name : String) (t : Task) (received : Answer → Answer) : Fleet :=
  match f.members.find? name with
  | none => f
  | some a =>
    match a.request? t with
    | none => f
    | some r =>
      let (tree, answer) := f.tree.run f.now r
      { f with tree, members := f.members.insert name (a.receive t (received answer)) }

/-- A fleet after an action; one that cannot happen changes nothing. Members join in under new names
and with the same directory, and requests of others leave the live announces as they are. -/
def step (f : Fleet) : Action → Fleet
  | .enrol name c naming =>
    if (f.members.find? name).isNone ∧
        (Layout.ofRoot c.store.root).directory = f.layout.directory then
      { f with members := f.members.insert name (.ofMember (.ofConfig c naming)) }
    else f
  | .act name x => { f with members := f.members.modify name fun a => a.act x }
  | .call name t => f.serve name t id
  | .lose name t text => f.serve name t fun _ => .error (.transport text)
  | .elapse d => { f with now := f.now + d }
  | .fail e => { f with tree := f.tree.queueFailure e }
  | .other r =>
    let tree := (f.tree.run f.now r).1
    if f.announces tree = f.announces f.tree then { f with tree } else f

/-- A fleet after actions one after another. -/
def run (f : Fleet) (actions : List Action) : Fleet := actions.foldl step f

/-- The announce that a member holds as accepted, if it is live in the store. -/
def liveAccepted (f : Fleet) (a : Attendance) : Option Announce :=
  a.session.member.known.accepted.filter fun b => (f.tree.live? f.now b.key).isSome

/-- The members of an instance that hold a live announce, with its key. -/
def holders (f : Fleet) (instanceId : String) : List (String × String) :=
  f.members.toList.filterMap fun x =>
    if x.2.session.member.self.id = instanceId then
      (f.liveAccepted x.2).map fun b => (x.1, b.key)
    else none

/-! ## Terms in a fleet -/

/-- The terms on which a member works in a fleet: what it creates and accepts is in the ledger under
its name, no older announce of its instance is alive when it accepts one, and what it knows of the
others is in the ledger. -/
def terms (o : Ledger) (f : Fleet) (name : String) (self : Profile) (layout : Layout) : Terms where
  self
  layout
  accepts a := a.instanceId = self.id ∧ a.key = Store.Path.allocated f.layout.directory a.name ∧
    a.name ≤ f.tree.index ∧ (o a.name).creator = name ∧ (o a.name).Agrees a.data ∧
    ∀ n < a.name, (o n).instanceId = self.id →
      f.tree.live? f.now (Store.Path.allocated f.layout.directory n) = none
  creates key := ∃ n ≤ f.tree.index, key = Store.Path.allocated f.layout.directory n ∧
    (o n).creator = name
  renews key d := ∃ n ≤ f.tree.index, key = Store.Path.allocated f.layout.directory n ∧
    (o n).Agrees d
  lists a := a.instanceId ≠ self.id ∧ a.key = Store.Path.allocated f.layout.directory a.name ∧
    a.name ≤ f.tree.index ∧ (o a.name).Agrees a.data

variable {o o' : Ledger} {f f' : Fleet} {name : String} {self : Profile} {layout : Layout}

theorem sound_terms (o : Ledger) (f : Fleet) (name : String) (self : Profile) (layout : Layout) :
    (f.terms o name self layout).Sound where
  renewable := by
    rintro a ⟨hid, hkey, hle, _, hagrees, _⟩ i
    exact ⟨a.name, hle, hkey, hid.symm.trans hagrees.1, hagrees.2⟩
  renewed := by
    rintro a b ⟨hid, hkey, hle, hcreator, hagrees, hfirst⟩ ⟨n, _, hn, hb⟩ hk
    have hna : n = a.name := Store.Path.allocated_injective (hn.symm.trans hkey)
    have hba : b.name = a.name := Announce.name_of_key (hk.trans hkey)
    rw [hna] at hb
    refine ⟨?_, ?_, ?_, ?_, ?_, ?_⟩
    · exact (hb.1.trans hagrees.1.symm).trans hid
    · rw [hba, hk, hkey]
    · rwa [hba]
    · rwa [hba]
    · rwa [hba]
    · rwa [hba]

/-- A later fleet with a ledger that has the entries of an earlier one. -/
structure Follows (o : Ledger) (f : Fleet) (o' : Ledger) (f' : Fleet) : Prop where
  layout : f'.layout = f.layout
  ledger : ∀ n ≤ f.tree.index, o' n = o n
  ages : Ages f.layout f.tree f.now f'.tree f'.now

theorem Follows.refl (o : Ledger) (f : Fleet) : Follows o f o f := ⟨rfl, fun _ _ => rfl, .refl _ _⟩

theorem Follows.trans {o'' : Ledger} {f'' : Fleet} (h : Follows o f o' f')
    (h' : Follows o' f' o'' f'') : Follows o f o'' f'' where
  layout := h'.layout.trans h.layout
  ledger n hn := (h'.ledger n (Nat.le_trans hn h.ages.index_le)).trans (h.ledger n hn)
  ages := h.ages.trans (h.layout ▸ h'.ages)

/-- Terms weaken as time goes on. -/
theorem weaker_terms (h : Follows o f o' f') :
    (f.terms o name self layout).Weaker (f'.terms o' name self layout) where
  self := rfl
  layout := rfl
  accepts := by
    rintro a ⟨hid, hkey, hle, hcreator, hagrees, hfirst⟩
    have ho := h.ledger a.name hle
    refine ⟨hid, ?_, Nat.le_trans hle h.ages.index_le, ?_, ?_, fun n hn hi => ?_⟩
    · rwa [h.layout]
    · rwa [ho]
    · rwa [ho]
    · have hni : n ≤ f.tree.index := by omega
      rw [h.ledger n hni] at hi
      rw [h.layout]
      exact h.ages.dead n hni (hfirst n hn hi)
  creates := by
    rintro key ⟨n, hn, hk, hcreator⟩
    refine ⟨n, Nat.le_trans hn h.ages.index_le, ?_, ?_⟩
    · rwa [h.layout]
    · rwa [h.ledger n hn]
  renews := by
    rintro key d ⟨n, hn, hk, hagrees⟩
    refine ⟨n, Nat.le_trans hn h.ages.index_le, ?_, ?_⟩
    · rwa [h.layout]
    · rwa [h.ledger n hn]
  lists := by
    rintro a ⟨hne, hkey, hle, hagrees⟩
    refine ⟨hne, ?_, Nat.le_trans hle h.ages.index_le, ?_⟩
    · rwa [h.layout]
    · rwa [h.ledger _ hle]
  stopped := id

/-- A fleet that a ledger explains. -/
structure Consistent (o : Ledger) (f : Fleet) : Prop where
  covers : o.Covers f.layout f.tree f.now
  keeps : ∀ {name : String} {a : Attendance}, f.members.find? name = some a →
    ∃ self layout, layout.directory = f.layout.directory ∧
      Keeps (f.terms o name self layout) a

/-! ## Requests of members -/

/-- The step of a runner that waits for the creation of an announce. -/
def creates (a : Attendance) (t : Task) (d : Payload) : Prop :=
  ∃ g, t = .part (.runner g) ∧
    (a.session.member.control.runner? g).map Runner.activity =
      some (.within (.answer (.creating d)))

private theorem request?_of_creates {a : Attendance} (hl : a.session.member.layout = layout)
    {t : Task} {d : Payload} (h : creates a t d) :
    a.request? t = some (Registry.announce layout d a.session.member.maxTtl).request := by
  obtain ⟨g, rfl, hact⟩ := h
  simp only [Attendance.request?, Session.request?, hact, Step.request, hl]

private theorem respects_aside (hdir : layout.directory = f.layout.directory) {key : String}
    {c : Char} {rest : List Char} (hk : key.toList = layout.root.toList ++ '/' :: c :: rest)
    (hc : c ≠ '/') (ha : c ≠ 'a') (value : Option String) (options : Store.WriteOptions) :
    o.Respects f.layout (.put key value options) := by
  obtain ⟨hne, hb⟩ := layout.normalize_aside hk hc ha
  rw [hdir] at hne hb
  exact .aside value options hne hb

private theorem respects_renewal (hdir : layout.directory = f.layout.directory) {m : Member}
    (hl : m.layout = layout) {stage : Renewal.Stage}
    (hb : (f.terms o name self layout).BearsRenewal stage) :
    o.Respects f.layout (Renewal.request m stage) := by
  cases stage with
  | sending p =>
    rw [Renewal.request, hl]
    exact respects_aside hdir (layout.toList_propertiesOf _) (by decide) (by decide) _ _
  | renewing key d ttl =>
    obtain ⟨n, _, rfl, hd⟩ := hb
    exact .renew ttl hd

private theorem respects_survey (m : Member) (stage : Survey.Stage) :
    o.Respects f.layout (Survey.request m stage) := by
  unfold Survey.request
  split
  · exact .get _ _ _
  · exact .get _ _ _
  · exact .get _ _ _

private theorem respects_step (hdir : layout.directory = f.layout.directory) {m : Member}
    (hl : m.layout = layout) (asked : Asked) :
    o.Respects f.layout (Step.request m asked) ∨ ∃ d, asked = .creating d := by
  cases asked with
  | resolving => exact .inl (.get _ _ _)
  | rereading refusal => exact .inl (.get _ _ _)
  | listing id => exact .inl (.get _ _ _)
  | confirming key => exact .inl (.get _ _ _)
  | claiming candidate =>
    left
    rw [Step.request, hl]
    exact respects_aside hdir layout.toList_clusterId (by decide) (by decide) _ _
  | creating d => exact .inr ⟨d, rfl⟩

/-- What members ask of the store respects the ledger, except that they create announces. -/
theorem respects_request {a : Attendance} (h : Keeps (f.terms o name self layout) a)
    (hdir : layout.directory = f.layout.directory) {t : Task} {r : Request}
    (hr : a.request? t = some r) :
    o.Respects f.layout r ∨ ∃ d, creates a t d := by
  have hl : a.session.member.layout = layout := h.member.layout
  cases t with
  | farewell =>
    unfold Attendance.request? at hr
    simp only at hr
    split at hr
    · cases hr
      exact .inl (.delete _ _)
    · cases hr
  | part p =>
    cases p with
    | display => cases hr
    | renewal =>
      simp only [Attendance.request?, Session.request?] at hr
      split at hr
      · next stage hs =>
        cases hr
        have hb : (f.terms o name self layout).BearsRenewal stage := h.renewal stage hs
        exact .inl (respects_renewal hdir hl hb)
      · cases hr
    | survey =>
      simp only [Attendance.request?, Session.request?] at hr
      split at hr
      · cases hr
        exact .inl (respects_survey _ _)
      · cases hr
    | runner g =>
      simp only [Attendance.request?, Session.request?] at hr
      split at hr
      · next asked hact =>
        cases hr
        refine (respects_step hdir hl asked).imp_right ?_
        rintro ⟨d, rfl⟩
        exact ⟨d, g, rfl, hact⟩
      · cases hr

/-! ## Answers to members -/

/-- An announce that a member created and finds as that of its instance may be accepted. -/
private theorem accepts_of_shows (hdir : layout.directory = f.layout.directory) {l : Listing}
    (hshows : o.Shows layout f.tree f.now l) {b : Announce} (hget : l.get? self.id = some b)
    (hcreates : (f.terms o name self layout).creates b.key) :
    (f.terms o name self layout).accepts b := by
  obtain ⟨hb, hid⟩ := Listing.mem_of_get? hget
  obtain ⟨hk, hle, _, hagrees⟩ := hshows.listed b hb
  obtain ⟨n, _, hn, hcreator⟩ := hcreates
  have hname : b.name = n := Announce.name_of_key hn
  refine ⟨hid, hdir ▸ hk, hle, ?_, hagrees, fun n hn hi => ?_⟩
  · rwa [hname]
  · rw [← hdir]
    exact hshows.oldest b hb n hn (hi.trans hid.symm)

/-- What the store answers to a member may be trusted. -/
theorem trusts_call {a : Attendance} (hc : o.Covers f.layout f.tree f.now)
    (h : Keeps (f.terms o name self layout) a) (hdir : layout.directory = f.layout.directory)
    {t : Task} {r : Request} (hr : a.request? t = some r) (hn : ∀ d, ¬creates a t d) :
    Attendance.Trusts (f.terms o name self layout) a t (f.tree.run f.now r).2 := by
  have hself : a.session.member.self = self := h.member.self
  have hl : a.session.member.layout = layout := h.member.layout
  have hc' := hc.of_directory hdir
  cases t with
  | farewell => trivial
  | part p =>
    cases p with
    | display => trivial
    | renewal => trivial
    | survey =>
      intro stage hs
      cases stage with
      | fetching remote ids => trivial
      | listing =>
        simp only [Attendance.request?, Session.request?, hs, Survey.request, hl] at hr
        cases hr
        intro nodes l hok hof b hb hne
        rw [hself] at hne
        rw [hl] at hok
        obtain ⟨hkey, hle, _, hagrees⟩ := (hc'.shows hok hof).1.listed b hb
        exact ⟨hne, hdir ▸ hkey, hle, hagrees⟩
    | runner g =>
      intro asked hact
      cases asked with
      | creating d => exact absurd ⟨g, rfl, hact⟩ (hn d)
      | confirming key =>
        simp only [Attendance.request?, Session.request?, hact, Step.request, hl] at hr
        cases hr
        intro l b hcreates hlisted hget hkey
        rw [hl] at hlisted
        rw [hself] at hget
        obtain ⟨nodes, hok, hof⟩ := Step.listed_eq_ok hlisted
        exact accepts_of_shows hdir (hc'.shows hok hof).1 hget (hkey ▸ hcreates)
      | _ => trivial

/-- An answer that did not get through says nothing. -/
theorem trusts_lost (T : Terms) (a : Attendance) (t : Task) (text : String) :
    Attendance.Trusts T a t (.error (.transport text)) := by
  cases t with
  | farewell => trivial
  | part p =>
    cases p with
    | display => trivial
    | renewal => trivial
    | survey =>
      intro stage _
      cases stage with
      | fetching remote ids => trivial
      | listing => exact fun hok => nomatch hok
    | runner g =>
      intro asked _
      cases asked with
      | creating d => exact fun hok => nomatch hok
      | confirming key => exact fun _ hok => nomatch hok
      | _ => trivial

/-- The key of the announce that the store created is the member's. -/
theorem trusts_create {a : Attendance} (hdir : layout.directory = f.layout.directory) {t : Task}
    {d : Payload} (hcreates : creates a t d) {tree : Tree} {now : Nat} {ttl : Nat}
    (hf : f.tree = (tree.run now (Registry.announce layout d ttl).request).1)
    (ho : (o (tree.index + 1)).creator = name) :
    Attendance.Trusts (f.terms o name self layout) a t
      (tree.run now (Registry.announce layout d ttl).request).2 := by
  obtain ⟨g, rfl, hact⟩ := hcreates
  intro asked hasked
  rw [hact] at hasked
  cases hasked
  intro b hb
  obtain ⟨hk, hi⟩ := Registry.key_of_announce hb
  refine ⟨tree.index + 1, ?_, hdir ▸ hk, ho⟩
  exact Nat.le_of_eq (by rw [hf, hi])

/-! ## Runs -/

/-- A member that is put in the place of another one, or in a new place. -/
theorem Consistent.insert (h : Consistent o f) {a : Attendance}
    (ha : ∃ self layout, layout.directory = f.layout.directory ∧
      Keeps (f.terms o name self layout) a) :
    Consistent o { f with members := f.members.insert name a } where
  covers := h.covers
  keeps := by
    intro name' a' hf
    rw [Dict.find?_insert] at hf
    split at hf
    · next he =>
      cases hf
      rw [he]
      exact ha
    · exact h.keeps hf

/-- A store that followed. -/
private theorem Consistent.follow (h : Consistent o f) (hf : Follows o f o' f')
    (hc : o'.Covers f'.layout f'.tree f'.now) (hm : f'.members = f.members) : Consistent o' f' where
  covers := hc
  keeps := by
    intro name a ha
    rw [hm] at ha
    obtain ⟨self, layout, hdir, hk⟩ := h.keeps ha
    exact ⟨self, layout, hdir.trans (by rw [hf.layout]), hk.mono (weaker_terms hf)⟩

/-- A member that gets an answer, or none, to the creation of an announce. The ledger has the new
announce already when the member gets to know its key. -/
private theorem Consistent.serve_creation (h : Consistent o f) {a : Attendance}
    (hdir : layout.directory = f.layout.directory) (hk : Keeps (f.terms o name self layout) a)
    {t : Task} {r : Request} (hr : a.request? t = some r) {d : Payload} (hd : creates a t d)
    {answer : Answer}
    (hrec : answer = (f.tree.run f.now r).2 ∨ ∃ text, answer = .error (.transport text)) :
    let f' : Fleet := { f with
      tree := (f.tree.run f.now r).1, members := f.members.insert name (a.receive t answer) }
    ∃ o', Follows o f o' f' ∧ Consistent o' f' := by
  have hl : a.session.member.layout = layout := hk.member.layout
  have hr : (Registry.announce layout d a.session.member.maxTtl).request = r :=
    Option.some.inj ((request?_of_creates hl hd).symm.trans hr)
  subst hr
  obtain ⟨hc, hages⟩ :=
    (h.covers.of_directory hdir).run_announce name d a.session.member.maxTtl
  have hages := hages.of_directory hdir.symm
  let o' := o.record f.tree.index ⟨name, d.instanceId, d.clusterId⟩
  let f' : Fleet := { f with
    tree := (f.tree.run f.now (Registry.announce layout d a.session.member.maxTtl).request).1 }
  have hf : Follows o f o' f' := ⟨rfl, fun n hn => o.record_of_le _ hn, hages⟩
  have htrust : Attendance.Trusts (f'.terms o' name self layout) a t answer := by
    rcases hrec with rfl | ⟨text, rfl⟩
    · refine trusts_create (f := f') hdir hd rfl ?_
      show (o.record _ _ _).creator = name
      rw [Ledger.record, if_pos rfl]
    · exact trusts_lost _ _ _ _
  have hrun := h.follow hf (hc.of_directory hdir.symm) rfl
  refine ⟨o', ⟨rfl, hf.ledger, hages⟩, hrun.insert ⟨self, layout, hdir, ?_⟩⟩
  exact (hk.mono (weaker_terms hf)).receive (sound_terms _ _ _ _ _) htrust

/-- A member that gets an answer, or none, to any other request. -/
private theorem Consistent.serve_other (h : Consistent o f) {a : Attendance}
    (hdir : layout.directory = f.layout.directory) (hk : Keeps (f.terms o name self layout) a)
    {t : Task} {r : Request} (hr : a.request? t = some r) (hn : ∀ d, ¬creates a t d)
    {answer : Answer}
    (hrec : answer = (f.tree.run f.now r).2 ∨ ∃ text, answer = .error (.transport text)) :
    let f' : Fleet := { f with
      tree := (f.tree.run f.now r).1, members := f.members.insert name (a.receive t answer) }
    ∃ o', Follows o f o' f' ∧ Consistent o' f' := by
  have hrespects : o.Respects f.layout r := by
    rcases respects_request hk hdir hr with hr | ⟨d, hd⟩
    · exact hr
    · exact absurd hd (hn d)
  obtain ⟨hc, hages⟩ := h.covers.run hrespects
  have hf : Follows o f o { f with tree := (f.tree.run f.now r).1 } := ⟨rfl, fun _ _ => rfl, hages⟩
  have htrust : Attendance.Trusts (f.terms o name self layout) a t answer := by
    rcases hrec with rfl | ⟨text, rfl⟩
    · exact trusts_call h.covers hk hdir hr hn
    · exact trusts_lost _ _ _ _
  have hrun := h.follow hf hc rfl
  refine ⟨o, ⟨rfl, fun _ _ => rfl, hages⟩, hrun.insert ⟨self, layout, hdir, ?_⟩⟩
  exact (hk.receive (sound_terms _ _ _ _ _) htrust).mono (weaker_terms hf)

/-- A fleet stays consistent when a request of a member is carried out, whether or not the answer
gets through. -/
theorem Consistent.serve (h : Consistent o f) (name : String) (t : Task)
    {received : Answer → Answer}
    (hrec : ∀ answer, received answer = answer ∨
      ∃ text, received answer = .error (.transport text)) :
    ∃ o', Follows o f o' (f.serve name t received) ∧ Consistent o' (f.serve name t received) := by
  unfold Fleet.serve
  split
  · exact ⟨o, .refl o f, h⟩
  next a ha =>
  split
  · exact ⟨o, .refl o f, h⟩
  next r hr =>
  obtain ⟨self, layout, hdir, hk⟩ := h.keeps ha
  by_cases hcreates : ∃ d, creates a t d
  · obtain ⟨d, hd⟩ := hcreates
    exact h.serve_creation hdir hk hr hd (hrec _)
  · exact h.serve_other hdir hk hr (fun d hd => hcreates ⟨d, hd⟩) (hrec _)

theorem live?_eq_of_announces_eq {tree : Tree}
    (h : f.announces tree = f.announces f.tree) {key : String}
    (hb : Store.Path.isBelow f.layout.directory key = true) :
    tree.live? f.now key = f.tree.live? f.now key := by
  have hf := congrArg (fun d => d.find? key) h
  simp only [announces, Dict.find?_filter, Tree.find?_purge, hb] at hf
  cases ht : tree.live? f.now key <;> cases hl : f.tree.live? f.now key <;>
    simp_all [Option.filter]

/-- A fleet stays consistent whatever happens. -/
theorem Consistent.step (h : Consistent o f) (x : Action) :
    ∃ o', Follows o f o' (f.step x) ∧ Consistent o' (f.step x) := by
  cases x with
  | enrol name c naming =>
    refine ⟨o, ?_⟩
    rw [Fleet.step]
    split
    · next hnew =>
      refine ⟨⟨rfl, fun _ _ => rfl, .refl _ _⟩, h.insert ⟨c.self, _, hnew.2, ?_⟩⟩
      exact Attendance.keeps_ofConfig c naming rfl rfl
    · exact ⟨.refl o f, h⟩
  | act name x =>
    refine ⟨o, ⟨rfl, fun _ _ => rfl, .refl _ _⟩, ?_⟩
    rw [Fleet.step, Dict.modify]
    split
    · next a ha =>
      obtain ⟨self, layout, hdir, hk⟩ := h.keeps ha
      exact h.insert ⟨self, layout, hdir, hk.act (sound_terms _ _ _ _ _) x⟩
    · exact h
  | call name t => exact h.serve name t fun _ => .inl rfl
  | lose name t text => exact h.serve name t fun _ => .inr ⟨text, rfl⟩
  | elapse d =>
    obtain ⟨hc, hages⟩ := h.covers.elapse (Nat.le_add_right f.now d)
    have hf : Follows o f o { f with now := f.now + d } := ⟨rfl, fun _ _ => rfl, hages⟩
    exact ⟨o, hf, h.follow hf hc rfl⟩
  | fail e =>
    have hf : Follows o f o { f with tree := f.tree.queueFailure e } :=
      ⟨rfl, fun _ _ => rfl, ⟨Nat.le_refl _, fun _ _ hd => hd⟩⟩
    exact ⟨o, hf, h.follow hf ⟨h.covers.entry, h.covers.leaf⟩ rfl⟩
  | other r =>
    refine ⟨o, ?_⟩
    rw [Fleet.step]
    split
    · next ha =>
      obtain ⟨hc, hages⟩ := h.covers.run_outside fun k hb => live?_eq_of_announces_eq ha hb
      have hf : Follows o f o { f with tree := (f.tree.run f.now r).1 } :=
        ⟨rfl, fun _ _ => rfl, hages⟩
      exact ⟨hf, h.follow hf hc rfl⟩
    · exact ⟨.refl o f, h⟩

/-- A fleet stays consistent in every run. -/
theorem Consistent.run (h : Consistent o f) (actions : List Action) :
    ∃ o', Follows o f o' (f.run actions) ∧ Consistent o' (f.run actions) := by
  induction actions generalizing o f with
  | nil => exact ⟨o, .refl o f, h⟩
  | cons x actions ih =>
    obtain ⟨o', hf, hc⟩ := h.step x
    obtain ⟨o'', hf', hc'⟩ := ih hc
    exact ⟨o'', hf.trans hf', hc'⟩

/-- A fleet without members, on an empty store. -/
theorem consistent_empty (o : Ledger) (layout : Layout) : Consistent o { layout } where
  covers := o.covers_empty layout 0
  keeps h := nomatch h

/-! ## One live announce for an instance -/

/-- Of the announces that members of one instance hold, the older one is dead. -/
private theorem Consistent.holder_unique (h : Consistent o f) {x y : String} {a b : Attendance}
    {d e : Announce} (hx : f.members.find? x = some a) (hy : f.members.find? y = some b)
    (hid : a.session.member.self.id = b.session.member.self.id)
    (hd : f.liveAccepted a = some d) (he : f.liveAccepted b = some e) : x = y := by
  obtain ⟨hd, hdl⟩ := Option.filter_eq_some_iff.mp hd
  obtain ⟨he, hel⟩ := Option.filter_eq_some_iff.mp he
  obtain ⟨sx, lx, _, hkx⟩ := h.keeps hx
  obtain ⟨sy, ly, _, hky⟩ := h.keeps hy
  obtain ⟨hdi, hdk, _, hdc, hda, hdf⟩ := hkx.member.accepted hd
  obtain ⟨hei, hek, _, hec, hea, hef⟩ := hky.member.accepted he
  have hsx : a.session.member.self = sx := hkx.member.self
  have hsy : b.session.member.self = sy := hky.member.self
  rw [hsx, hsy] at hid
  rcases Nat.lt_trichotomy d.name e.name with hlt | heq | hlt
  · have hdead := hef d.name hlt ((hda.1.symm.trans hdi).trans hid)
    rw [hdk, hdead] at hdl
    cases hdl
  · rw [← hdc, ← hec, heq]
  · have hdead := hdf e.name hlt ((hea.1.symm.trans hei).trans hid.symm)
    rw [hek, hdead] at hel
    cases hel

private theorem length_filterMap_le_one {α β : Type} {l : List α} {g : α → Option β}
    (h : l.Pairwise fun x y => g x = none ∨ g y = none) : (l.filterMap g).length ≤ 1 := by
  induction l with
  | nil => simp
  | cons x l ih =>
    rw [List.pairwise_cons] at h
    cases hx : g x with
    | none =>
      rw [List.filterMap_cons_none hx]
      exact ih h.2
    | some b =>
      have hl : l.filterMap g = [] := by
        rw [List.filterMap_eq_nil_iff]
        intro y hy
        rcases h.1 y hy with hn | hn
        · rw [hx] at hn
          cases hn
        · exact hn
      rw [List.filterMap_cons_some hx, hl]
      simp

/-- In every run of a fleet, however its members, their requests, the passing of time and failures
take turns: of all members of an instance at most one holds an announce as accepted that is live in
the store. -/
theorem run_holders_unique (layout : Layout) (actions : List Action) (instanceId : String) :
    ((Fleet.run { layout } actions).holders instanceId).length ≤ 1 := by
  obtain ⟨o, _, h⟩ := (consistent_empty (fun _ => ⟨"", "", ""⟩) layout).run actions
  generalize Fleet.run { layout } actions = f at h
  refine length_filterMap_le_one (f.members.sorted.imp_of_mem fun {x y} hx hy hlt => ?_)
  split
  · next hix =>
    split
    · next hiy =>
      cases hdx : f.liveAccepted x.2 with
      | none => exact .inl rfl
      | some d =>
        cases hdy : f.liveAccepted y.2 with
        | none => exact .inr rfl
        | some e =>
          have hxy := h.holder_unique ((Dict.mem_toList_iff _ _ _).mp hx)
            ((Dict.mem_toList_iff _ _ _).mp hy) (hix.trans hiy.symm) hdx hdy
          rw [hxy] at hlt
          simp at hlt
    · exact .inr rfl
  · exact .inl rfl

end Fleet

end Rollcall
