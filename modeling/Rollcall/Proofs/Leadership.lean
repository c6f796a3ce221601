import Rollcall.Proofs.Fleet
import Rollcall.Proofs.Survey

/-!
# Who shows itself as the leader

A member whose announce is confirmed behind an older one of its cluster has read of that one but
does not know of it yet: only a survey brings the others in. From the end of its next survey on it
never shows itself as the leader of the cluster while it runs and the older announce is live. Before
that it may.
-/

namespace Rollcall

open Store (Answer)
open Registry (Layout)
open Attendance (Keeps)

/-- An instance that knows of an older announce of its cluster does not see itself as the leader. -/
theorem Known.not_namesLeader {k : Known} (hc : Listing.Canonical k.remote.entries)
    {a b : Announce} (ha : k.accepted = some a) (hr : ∀ c ∈ k.remote.entries,
      c.instanceId ≠ a.instanceId) (hb : b ∈ k.remote.entries) (hlt : b.name < a.name)
    {current : Bool} {v : View} (hv : k.view current = .ok v) :
    v.namesLeader b.clusterId a.instanceId = false := by
  have hall : k.all = Listing.ofList (k.remote.entries ++ [a]) := by
    rw [Known.all, Listing.withAnnounce, ha]
    rfl
  have hfrom : ∀ c ∈ k.all.entries, c ∈ k.remote.entries ∨ c = a := by
    intro c hmem
    rw [hall] at hmem
    simpa using Listing.mem_of_mem_ofList hmem
  have hball : b ∈ k.all.entries := by
    obtain ⟨c, hmem, hi, _⟩ := Listing.exists_mem_ofList (l := k.remote.entries ++ [a])
      (List.mem_append_left _ hb)
    rw [← hall] at hmem
    rcases hfrom c hmem with hcr | rfl
    · rwa [← hc.eq_of_instanceId hcr hb hi]
    · exact absurd hi.symm (hr b hb)
  have hcall : Listing.Canonical k.all.entries := by
    rw [hall]
    exact Listing.canonical_ofList _
  apply View.not_namesLeader hcall hv hball
  intro c hmem hi
  rcases hfrom c hmem with hcr | rfl
  · exact absurd hi (hr c hcr)
  · exact hlt

namespace Fleet

/-! ## Members behind an older announce -/

/-- What the store would show now to a runner that waits to have an announce confirmed: the instance
that asks, the key of the announce, and the announces there are. -/
def confirmation? (f : Fleet) (x : String) (g : Nat) : Option (String × String × Listing) :=
  match f.members.find? x with
  | none => none
  | some m =>
    match (m.session.member.control.runner? g).map Runner.activity with
    | some (.within (.answer (.confirming key))) =>
      let op := Registry.announces m.session.member.layout
      match Step.listed (op.outcome (f.tree.run f.now op.request).2) with
      | .ok l => some (m.session.member.self.id, key, l)
      | .error _ => none
    | _ => none

/-- The announce `a` of a member is about to be confirmed by a listing that has an older announce
`b` of another instance in the same cluster. -/
def ConfirmsBehind (f : Fleet) (x : String) (g : Nat) (a b : Announce) : Prop :=
  ∃ l, f.confirmation? x g = some (a.instanceId, a.key, l) ∧ l.get? a.instanceId = some a ∧
    b ∈ l.entries ∧ b.expired = false ∧ b.instanceId ≠ a.instanceId ∧
    b.clusterId = a.clusterId ∧ b.name < a.name

/-- Whether a member runs while an announce is live and the store is not going to pretend that keys
are gone. -/
def runsBeside (f : Fleet) (x key : String) : Bool :=
  (f.members.find? x).any (fun m => m.session.member.isRunning) &&
    (f.tree.live? f.now key).isSome && f.tree.failures.all fun e => !e.isKeyNotFound

/-- Whether a member goes on running beside a live announce during actions. -/
def keepsRunningBeside (f : Fleet) (x key : String) : List Action → Bool
  | [] => f.runsBeside x key
  | y :: actions => f.runsBeside x key && (f.step y).keepsRunningBeside x key actions

/-- Where the survey of a member stands. -/
def survey? (f : Fleet) (x : String) : Option (Loop Survey.Stage) :=
  (f.members.find? x).map fun m => m.session.survey

/-- The view that a member shows after a round of display. -/
def shown? (f : Fleet) (x : String) : Option View :=
  (f.members.find? x).map fun m => (Display.round m.session.member).1.board.view

variable {o o' : Ledger} {f f' : Fleet} {x : String} {a b : Announce}

/-- An announce in the ledger, when no older one of its instance is alive. -/
structure Oldest (o : Ledger) (f : Fleet) (b : Announce) : Prop where
  key : b.key = Store.Path.allocated f.layout.directory b.name
  le : b.name ≤ f.tree.index
  agrees : (o b.name).Agrees b.data
  dead : ∀ n < b.name, (o n).instanceId = b.instanceId →
    f.tree.live? f.now (Store.Path.allocated f.layout.directory n) = none

theorem Oldest.follow (h : Oldest o f b) (hf : Follows o f o' f') : Oldest o' f' b where
  key := by rw [hf.layout]; exact h.key
  le := Nat.le_trans h.le hf.ages.index_le
  agrees := by rw [hf.ledger _ h.le]; exact h.agrees
  dead n hn hi := by
    have hle : n ≤ f.tree.index := Nat.le_trans (Nat.le_of_lt hn) h.le
    rw [hf.ledger n hle] at hi
    rw [hf.layout]
    exact hf.ages.dead n hle (h.dead n hn hi)

/-- A member with the announce `a` beside the announce `b` of another instance; its session is as
`K` says. -/
structure Trails (o : Ledger) (f : Fleet) (x : String) (a b : Announce) (K : Session → Prop) :
    Prop where
  consistent : Consistent o f
  oldest : Oldest o f b
  member : ∃ m, f.members.find? x = some m ∧ m.session.member.self.id = a.instanceId ∧
    (∀ {c : Announce}, m.session.member.known.accepted = some c → c.key = a.key) ∧ K m.session

theorem Trails.mono {K K' : Session → Prop} (h : Trails o f x a b K)
    (hK : ∀ {m : Attendance}, f.members.find? x = some m → K m.session → K' m.session) :
    Trails o f x a b K' where
  consistent := h.consistent
  oldest := h.oldest
  member := by
    obtain ⟨m, hm, hid, ha, hk⟩ := h.member
    exact ⟨m, hm, hid, ha, hK hm hk⟩

/-- Whoever looks at the announces sees the oldest one of an instance as long as it is live. -/
theorem Oldest.hasKey (h : Oldest o f b) (hc : o.Covers f.layout f.tree f.now)
    (hf : f.runsBeside x b.key = true) {layout : Layout}
    (hdir : layout.directory = f.layout.directory) {nodes : List Store.Node} {discard : Bool}
    {l : Listing}
    (hok : (Registry.announces layout).outcome
      (f.tree.run f.now (Registry.announces layout).request).2 = .ok nodes)
    (hof : Listing.ofNodes nodes discard = .ok l) {id : String} (hid : b.instanceId ≠ id) :
    (l.without id).HasKey b.key := by
  simp only [runsBeside, Bool.and_eq_true, List.all_eq_true, Bool.not_eq_true'] at hf
  obtain ⟨⟨_, hlive⟩, hfail⟩ := hf
  obtain ⟨e, he⟩ := Option.isSome_iff_exists.mp hlive
  obtain ⟨hshows, hall⟩ := (hc.of_directory hdir).shows hok hof
  rcases hall with ⟨r, hr, hk⟩ | hall
  · rw [hfail r (List.mem_of_head? hr)] at hk
    cases hk
  · obtain ⟨c, hcl, hci, hcn⟩ := hall b.name e (by rw [hdir, ← h.key]; exact he)
    obtain ⟨hck, _, ⟨e', he', -⟩, hagrees⟩ := hshows.listed c hcl
    have hcb : c.instanceId = b.instanceId := hci.trans h.agrees.1.symm
    -- An older one would be dead.
    have hname : c.name = b.name := by
      rcases Nat.lt_or_eq_of_le hcn with hlt | heq
      · have hdead := h.dead c.name hlt (hagrees.1.symm.trans hcb)
        rw [hck, hdir, hdead] at he'
        cases he'
      · exact heq
    refine ⟨c, Listing.mem_without.mpr ⟨hcl, fun he => hid (hcb ▸ he)⟩, ?_⟩
    rw [hck, h.key, hname, hdir]

/-! ## Runs -/

/-- What becomes of a member in an action: nothing, what it makes of an act, or what it makes of an
answer to its request, which may not get through. -/
inductive Becomes (f : Fleet) (m : Attendance) : Attendance → Prop
  | same : Becomes f m m
  | act (z : Attendance.Act) : Becomes f m (m.act z)
  | receive {t : Task} {r : Store.Request} {answer : Answer} (hr : m.request? t = some r)
      (ha : answer = (f.tree.run f.now r).2 ∨ ∃ text, answer = .error (.transport text)) :
      Becomes f m (m.receive t answer)

private theorem serve_member {m : Attendance} (hm : f.members.find? x = some m) (name : String)
    (t : Task) {received : Answer → Answer}
    (hrec : ∀ answer, received answer = answer ∨
      ∃ text, received answer = .error (.transport text)) :
    ∃ m', (f.serve name t received).members.find? x = some m' ∧ Becomes f m m' := by
  unfold Fleet.serve
  split
  · exact ⟨m, hm, .same⟩
  next m₁ hm₁ =>
  split
  · exact ⟨m, hm, .same⟩
  next r hr =>
  simp only [Dict.find?_insert]
  split
  · next hx =>
    rw [← hx, hm] at hm₁
    cases hm₁
    exact ⟨_, rfl, .receive hr (hrec _)⟩
  · exact ⟨m, hm, .same⟩

/-- A member is still there after an action, as one of the things that may become of it. -/
theorem step_member {m : Attendance} (hm : f.members.find? x = some m) (y : Action) :
    ∃ m', (f.step y).members.find? x = some m' ∧ Becomes f m m' := by
  cases y with
  | enrol name c naming =>
    rw [Fleet.step]
    split
    · next hnew =>
      have hne : x ≠ name := by
        rintro rfl
        rw [hm] at hnew
        cases hnew.1
      exact ⟨m, by simp only [Dict.find?_insert, if_neg hne, hm], .same⟩
    · exact ⟨m, hm, .same⟩
  | act name z =>
    simp only [Fleet.step, Dict.find?_modify]
    split
    · next hx =>
      rw [← hx, hm]
      exact ⟨_, rfl, .act z⟩
    · exact ⟨m, hm, .same⟩
  | call name t => exact serve_member hm name t fun _ => .inl rfl
  | lose name t text => exact serve_member hm name t fun _ => .inr ⟨text, rfl⟩
  | elapse d => exact ⟨m, hm, .same⟩
  | fail e => exact ⟨m, hm, .same⟩
  | other r =>
    simp only [Fleet.step]
    split
    · exact ⟨m, hm, .same⟩
    · exact ⟨m, hm, .same⟩

private theorem running_of_runsBeside {key : String} (hf : f.runsBeside x key = true)
    {m : Attendance} (hm : f.members.find? x = some m) :
    m.session.member.control.state = .running := by
  simp only [runsBeside, hm, Option.any_some, Bool.and_eq_true] at hf
  simpa [Member.isRunning] using hf.1.1

/-- What is preserved when a member goes on that sees the announce under a key at every look. -/
abbrev Persists (key : String) (K : Session → Prop) : Prop :=
  ∀ {L : Listing → Prop} {s s' : Session}, Session.GoesOn L s s' →
    (∀ l, L l → (l.without s.member.self.id).HasKey key) → K s → K s'

/-- A member that goes on running beside an older announce. -/
theorem Trails.step {K : Session → Prop} (h : Trails o f x a b K) (hK : Persists b.key K)
    (hne : b.instanceId ≠ a.instanceId) (hf : f.runsBeside x b.key = true) {y : Action}
    (hf' : (f.step y).runsBeside x b.key = true) : ∃ o', Trails o' (f.step y) x a b K := by
  obtain ⟨o', hfollows, hc⟩ := h.consistent.step y
  refine ⟨o', hc, h.oldest.follow hfollows, ?_⟩
  obtain ⟨m, hm, hid, ha, hk⟩ := h.member
  obtain ⟨self, layout, hdir, hkeeps⟩ := h.consistent.keeps hm
  obtain ⟨m', hm', hstep⟩ := step_member hm y
  have hr := running_of_runsBeside hf hm
  have hr' := running_of_runsBeside hf' hm'
  let L : Listing → Prop := fun l => (l.without m.session.member.self.id).HasKey b.key
  have hgo : Session.GoesOn L m.session m'.session := by
    cases hstep with
    | same => exact .same rfl rfl rfl rfl
    | act z => exact Attendance.goesOn_act hkeeps hr hr'
    | receive hreq hans =>
      apply Attendance.goesOn_receive hkeeps hr hr'
      intro ht hs nodes l hok hof
      rcases hans with rfl | ⟨text, rfl⟩
      · rw [ht] at hreq
        simp only [Attendance.request?, Session.request?, hs, Survey.request] at hreq
        cases hreq
        have hlayout : m.session.member.layout = layout := hkeeps.member.layout
        exact h.oldest.hasKey h.consistent.covers hf (by rw [hlayout, hdir]) hok hof (hid ▸ hne)
      · cases hok
  refine ⟨m', hm', by rw [hgo.self, hid], fun {c} hcacc => ?_, hK hgo (fun _ hl => hl) hk⟩
  obtain ⟨d, hd, hcd⟩ := hgo.accepted hcacc
  rw [hcd, ha hd]

/-- A member that runs beside an older announce during actions. -/
theorem Trails.run {K : Session → Prop} (h : Trails o f x a b K) (hK : Persists b.key K)
    (hne : b.instanceId ≠ a.instanceId) {actions : List Action}
    (hf : f.keepsRunningBeside x b.key actions = true) :
    ∃ o', Trails o' (f.run actions) x a b K := by
  induction actions generalizing o f with
  | nil => exact ⟨o, h⟩
  | cons y actions ih =>
    simp only [keepsRunningBeside, Bool.and_eq_true] at hf
    have hnext : (f.step y).runsBeside x b.key = true := by
      cases actions with
      | nil => exact hf.2
      | cons z actions => exact (Bool.and_eq_true _ _ ▸ hf.2 : _ ∧ _).1
    obtain ⟨o', h'⟩ := h.step hK hne hf.1 hnext
    exact ih h' hf.2

private theorem runsBeside_of_keeps {key : String} {actions : List Action}
    (h : f.keepsRunningBeside x key actions = true) : (f.run actions).runsBeside x key = true := by
  induction actions generalizing f with
  | nil => exact h
  | cons y actions ih =>
    simp only [keepsRunningBeside, Bool.and_eq_true] at h
    exact ih h.2

private theorem keepsRunningBeside_append {key : String} {l m : List Action}
    (h : f.keepsRunningBeside x key (l ++ m) = true) :
    f.keepsRunningBeside x key l = true ∧ (f.run l).keepsRunningBeside x key m = true := by
  induction l generalizing f with
  | nil =>
    refine ⟨?_, h⟩
    cases m with
    | nil => exact h
    | cons y m =>
      simp only [List.nil_append, keepsRunningBeside, Bool.and_eq_true] at h
      exact h.1
  | cons y l ih =>
    simp only [List.cons_append, keepsRunningBeside, Bool.and_eq_true] at h
    obtain ⟨hl, hm⟩ := ih h.2
    exact ⟨by simp only [keepsRunningBeside, h.1, hl, Bool.and_self], hm⟩

private theorem confirmation?_eq_some {g : Nat} {id key : String} {l : Listing}
    (h : f.confirmation? x g = some (id, key, l)) :
    ∃ m nodes, f.members.find? x = some m ∧ m.session.member.self.id = id ∧
      (m.session.member.control.runner? g).map Runner.activity =
        some (.within (.answer (.confirming key))) ∧
      (Registry.announces m.session.member.layout).outcome
        (f.tree.run f.now (Registry.announces m.session.member.layout).request).2 = .ok nodes ∧
      Listing.ofNodes nodes false = .ok l := by
  unfold confirmation? at h
  split at h
  · cases h
  next m hm =>
  split at h
  · next key' hact =>
    simp only at h
    split at h
    · next l' hl =>
      cases h
      obtain ⟨nodes, hok, hof⟩ := Step.listed_eq_ok hl
      exact ⟨m, nodes, hm, rfl, hact, hok, hof⟩
    · cases h
  · cases h

private theorem receive_confirmed {m : Attendance} {g : Nat} {l : Listing} {answer : Answer}
    (hact : (m.session.member.control.runner? g).map Runner.activity =
      some (.within (.answer (.confirming a.key))))
    (hl : Step.listed ((Registry.announces m.session.member.layout).outcome answer) = .ok l)
    (ha : l.get? m.session.member.self.id = some a) :
    (m.receive (.part (.runner g)) answer).session.member.self = m.session.member.self ∧
      (m.receive (.part (.runner g)) answer).session.member.known.accepted = some a := by
  simp only [Attendance.receive, Session.receive, hact, Step.answered, Terms.accept_eq, hl,
    Step.confirm, ha, if_pos]
  exact ⟨rfl, rfl⟩

/-- A member whose announce was confirmed behind an older one. -/
theorem ConfirmsBehind.trails {g : Nat} (h : f.ConfirmsBehind x g a b) (hc : Consistent o f) :
    ∃ o', Trails o' (f.step (.call x (.part (.runner g)))) x a b fun _ => True := by
  obtain ⟨l, hconf, ha, hb, _, _, _, _⟩ := h
  obtain ⟨m, nodes, hm, hid, hact, hok, hof⟩ := confirmation?_eq_some hconf
  obtain ⟨self, layout, hdir, hkeeps⟩ := hc.keeps hm
  have hdir : m.session.member.layout.directory = f.layout.directory := by
    rw [← hdir]
    exact congrArg Layout.directory hkeeps.member.layout
  have hshows := ((hc.covers.of_directory hdir).shows hok hof).1
  have hold : Oldest o f b := by
    obtain ⟨hk, hle, _, hagrees⟩ := hshows.listed b hb
    exact ⟨hdir ▸ hk, hle, hagrees, fun n hn hi => hdir ▸ hshows.oldest b hb n hn hi⟩
  have hlisted : Step.listed ((Registry.announces m.session.member.layout).outcome
      (f.tree.run f.now (Registry.announces m.session.member.layout).request).2) = .ok l := by
    rw [hok]
    show Registry.ofPayload (Listing.ofNodes nodes false) = .ok l
    rw [hof]
    rfl
  obtain ⟨hself, hacc⟩ := receive_confirmed hact hlisted (hid ▸ ha)
  obtain ⟨o', hfollows, hc'⟩ := hc.step (.call x (.part (.runner g)))
  refine ⟨o', hc', hold.follow hfollows, _, ?_, by rw [hself, hid], fun {c} hcacc => ?_, trivial⟩
  · simp only [Fleet.step, Fleet.serve, hm, Attendance.request?, Session.request?, hact,
      Step.request, Dict.find?_insert, if_pos, id]
  · rw [hacc] at hcacc
    cases hcacc
    rfl

/-- A member that knows of the older announce shows a current view, and not itself as the leader. -/
private theorem Trails.shown (h : Trails o f x a b (Session.Informed b.key))
    (hlt : b.name < a.name) (hf : f.runsBeside x b.key = true) :
    ∃ v, f.shown? x = some v ∧ v.current = true ∧
      v.namesLeader b.clusterId a.instanceId = false := by
  obtain ⟨m, hm, hid, ha, hk⟩ := h.member
  obtain ⟨self, layout, hdir, hkeeps⟩ := h.consistent.keeps hm
  have hmember := hkeeps.member
  have hr := running_of_runsBeside hf hm
  have hrun : m.session.member.isRunning = true := by simpa [Member.isRunning] using hr
  obtain ⟨c, hcacc⟩ := Option.isSome_iff_exists.mp (hmember.running hr)
  obtain ⟨hcid, hckey, _⟩ := hmember.accepted hcacc
  have hself : m.session.member.self = self := hmember.self
  have hca : c.instanceId = a.instanceId := by rw [hcid, ← hself, hid]
  have hcn : a.name = c.name := Announce.name_of_key ((ha hcacc).symm.trans hckey)
  obtain ⟨e, he, hek⟩ := hk.known
  obtain ⟨_, _, _, heagrees⟩ := hmember.remote e he
  have hen : e.name = b.name := Announce.name_of_key (hek.trans h.oldest.key)
  have hec : e.clusterId = b.clusterId := by
    refine heagrees.2.trans ?_
    rw [hen]
    exact h.oldest.agrees.2.symm
  obtain ⟨v, hv, hcur⟩ := Attendance.compute_eq_some (m := m.session.member) fun _ =>
    ⟨c, hcacc, hcid.trans hmember.localId.symm⟩
  obtain ⟨hshown, hmemberships⟩ := Attendance.shown_round hv
  refine ⟨_, by rw [shown?, hm]; rfl, by rw [hshown, hcur, hrun], ?_⟩
  have hview := Attendance.view_of_compute hrun hv
  rw [View.namesLeader, hmemberships, ← View.namesLeader, ← hec, ← hca]
  refine Known.not_namesLeader
    (k := { m.session.member.known with properties := m.session.member.contributors.collect })
    hmember.canonical hcacc (fun d hd => ?_) he ?_ hview
  · rw [hcid]
    exact (hmember.remote d hd).1
  · rw [hen, ← hcn]
    exact hlt

/-- A member that was accepted behind an older announce of its cluster does not show itself as the
leader any more once a survey that looked at the announces after that is over, as long as it runs,
the older announce is live, and the store does not pretend that keys are gone. This holds for every
run that led to the confirmation and every one that follows. -/
theorem run_leader_after_survey (layout : Layout)
    (before looking surveying after : List Action) (x : String) (g : Nat) (a b : Announce) :
    let f₀ := Fleet.run { layout } before
    let f₁ := f₀.step (.call x (.part (.runner g)))
    f₀.ConfirmsBehind x g a b →
    f₁.keepsRunningBeside x b.key (looking ++ (surveying ++ after)) = true →
    (f₁.run looking).survey? x = some (.asking .listing) →
    (f₁.run (looking ++ surveying)).survey? x = some .resting →
    ∃ v, (f₁.run (looking ++ (surveying ++ after))).shown? x = some v ∧ v.current = true ∧
      v.namesLeader a.clusterId a.instanceId = false := by
  intro f₀ f₁ hbehind hkeeps hlook hrest
  obtain ⟨l, _, _, _, _, hne, hcluster, hlt⟩ := id hbehind
  obtain ⟨o, _, hc⟩ := (consistent_empty (fun _ => ⟨"", "", ""⟩) layout).run before
  obtain ⟨o₁, h₁⟩ := hbehind.trails hc
  obtain ⟨hk₁, hk₂⟩ := keepsRunningBeside_append hkeeps
  obtain ⟨hk₂, hk₃⟩ := keepsRunningBeside_append hk₂
  have hrun : ∀ l m, f₁.run (l ++ m) = (f₁.run l).run m := fun l m => List.foldl_append
  -- Until the survey looks nothing has to be known.
  obtain ⟨o₂, h₂⟩ := h₁.run (fun _ _ _ => trivial) hne hk₁
  have h₂ : Trails o₂ (f₁.run looking) x a b (Session.Awaits b.key) := h₂.mono fun {m} hm _ => by
    rw [survey?, hm] at hlook
    exact .looking (Option.some.inj hlook)
  obtain ⟨o₃, h₃⟩ := h₂.run (fun hg hL h => h.goesOn hg hL) hne hk₂
  rw [← hrun] at h₃ hk₃
  have h₃ : Trails o₃ (f₁.run (looking ++ surveying)) x a b (Session.Informed b.key) :=
    h₃.mono fun {m} hm h => by
      rw [survey?, hm] at hrest
      exact h.informed_of_resting (Option.some.inj hrest)
  obtain ⟨o₄, h₄⟩ := h₃.run (fun hg hL h => h.goesOn hg hL) hne hk₃
  have hend := runsBeside_of_keeps hk₃
  rw [← hcluster]
  rw [← List.append_assoc, hrun]
  exact h₄.shown hlt hend

/-- A member of the cluster `c` joins in and goes as far as to wait for its announce to be
confirmed. -/
def joins (id : String) : List Action := [
  .enrol id { self := { id }, store := { root := "/d" }, cluster := { id := some "c" } } none,
  .act id .start,
  .act id (.proceed (.runner 1)),
  .act id (.proceed (.runner 1)),
  .call id (.part (.runner 1)),
  .call id (.part (.runner 1))]

/-- Two members announce themselves one after the other; the second one waits to be confirmed. -/
def twoMembers : List Action := joins "y" ++ [.call "y" (.part (.runner 1))] ++ joins "x"

/-- The announce of the first of the two members. -/
def firstAnnounce : Announce :=
  ⟨"/d/announces/00000000000000000001", ⟨"y", "", "c", 0⟩, some 13, by decide⟩

/-- The announce of the second of the two members. -/
def secondAnnounce : Announce :=
  ⟨"/d/announces/00000000000000000002", ⟨"x", "", "c", 0⟩, some 13, by decide⟩

/-- The two members when the announce of the second one was confirmed. -/
def secondConfirmed : Fleet :=
  (Fleet.run { layout := ⟨"/d"⟩ } twoMembers).step (.call "x" (.part (.runner 1)))

/-- The second member begins a survey. -/
def surveyBegins : List Action := [.act "x" (.proceed .survey)]

/-- The store answers what the survey of the second member asks. -/
def surveyEnds : List Action := [.call "x" (.part .survey), .call "x" (.part .survey)]

/-- The second member surveys once more, and the store answers as if there were no announces. -/
def surveyDenied : List Action :=
  [.fail (.refused { code := Store.Refusal.keyNotFoundCode }), .act "x" (.proceed .survey),
    .call "x" (.part .survey), .call "x" (.part .survey)]

-- The runs are evaluated once, for all that is said about them below.
private theorem evaluate_twoMembers :
    (Fleet.run { layout := ⟨"/d"⟩ } twoMembers).confirmation? "x" 1 =
        some ("x", secondAnnounce.key, ⟨[firstAnnounce, secondAnnounce]⟩) ∧
      secondConfirmed.keepsRunningBeside "x" firstAnnounce.key
        (surveyBegins ++ (surveyEnds ++ [])) = true ∧
      (secondConfirmed.run surveyBegins).survey? "x" = some (.asking .listing) ∧
      (secondConfirmed.run (surveyBegins ++ surveyEnds)).survey? "x" = some .resting ∧
      (secondConfirmed.shown? "x").any (fun v => v.current && v.namesLeader "c" "x") = true ∧
      (secondConfirmed.run (surveyBegins ++ (surveyEnds ++ surveyDenied))).runsBeside "x"
        firstAnnounce.key = true ∧
      ((secondConfirmed.run (surveyBegins ++ (surveyEnds ++ surveyDenied))).shown? "x").any
        (fun v => v.current && v.namesLeader "c" "x") = true := by
  decide +kernel

private theorem twoMembers_confirmsBehind :
    (Fleet.run { layout := ⟨"/d"⟩ } twoMembers).ConfirmsBehind "x" 1 secondAnnounce
      firstAnnounce :=
  ⟨_, evaluate_twoMembers.1, by decide⟩

/-- The second member looks at the announces, gets to know of the first one, and does not lead. -/
theorem second_of_two_after_survey :
    (Fleet.run { layout := ⟨"/d"⟩ } twoMembers).ConfirmsBehind "x" 1 secondAnnounce
        firstAnnounce ∧
      secondConfirmed.keepsRunningBeside "x" firstAnnounce.key
        (surveyBegins ++ (surveyEnds ++ [])) = true ∧
      (secondConfirmed.run surveyBegins).survey? "x" = some (.asking .listing) ∧
      (secondConfirmed.run (surveyBegins ++ surveyEnds)).survey? "x" = some .resting ∧
      ∃ v, (secondConfirmed.run (surveyBegins ++ (surveyEnds ++ []))).shown? "x" = some v ∧
        v.current = true ∧ v.namesLeader "c" "x" = false := by
  obtain ⟨_, hkeeps, hlook, hrest, _⟩ := evaluate_twoMembers
  exact ⟨twoMembers_confirmsBehind, hkeeps, hlook, hrest,
    run_leader_after_survey ⟨"/d"⟩ twoMembers surveyBegins surveyEnds [] "x" 1 secondAnnounce
      firstAnnounce twoMembers_confirmsBehind hkeeps hlook hrest⟩

/-- Before its first survey the second member shows a current view in which it leads, although its
announce was confirmed behind the other one, which is live. It does so again after a survey in which
the store answers as if there were no announces. -/
theorem second_of_two_may_lead :
    (Fleet.run { layout := ⟨"/d"⟩ } twoMembers).ConfirmsBehind "x" 1 secondAnnounce
        firstAnnounce ∧
      (secondConfirmed.keepsRunningBeside "x" firstAnnounce.key [] = true ∧
        ∃ v, secondConfirmed.shown? "x" = some v ∧ v.current = true ∧
          v.namesLeader "c" "x" = true) ∧
      (secondConfirmed.run (surveyBegins ++ (surveyEnds ++ surveyDenied))).runsBeside "x"
          firstAnnounce.key = true ∧
        ∃ v, (secondConfirmed.run (surveyBegins ++ (surveyEnds ++ surveyDenied))).shown? "x" =
            some v ∧ v.current = true ∧ v.namesLeader "c" "x" = true := by
  obtain ⟨_, hkeeps, _, _, hshown, hruns, hdenied⟩ := evaluate_twoMembers
  have hlead : ∀ {f : Fleet},
      (f.shown? "x").any (fun v => v.current && v.namesLeader "c" "x") = true →
      ∃ v, f.shown? "x" = some v ∧ v.current = true ∧ v.namesLeader "c" "x" = true := by
    intro f h
    obtain ⟨v, hv, hlead⟩ := (Option.any_eq_true _ _).mp h
    rw [Bool.and_eq_true] at hlead
    exact ⟨v, hv, hlead⟩
  have hbegin := (keepsRunningBeside_append (l := []) hkeeps).1
  exact ⟨twoMembers_confirmsBehind, ⟨hbegin, hlead hshown⟩, hruns, hlead hdenied⟩

end Fleet

end Rollcall
