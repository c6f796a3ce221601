import Rollcall.Proofs.Naming
import Rollcall.Proofs.Store.Tree

/-!
# How members agree on a cluster id

A council is a number of members that have their cluster id in one store. Each of them may look it
up and claim its candidate at any time, before the answer to an earlier request is there, and the
requests come to the store one by one, among failures and the requests of others. As long as no one
else writes the key of the cluster id or deletes it, the first claim that succeeds decides: every
lookup and every claim that finds an id finds this one.
-/

namespace Rollcall

open Store (Request Failure Tree)
open Registry (Layout)

/-- A member in a council and the configuration that it was made of. -/
structure Seat where
  config : Config
  member : Member

/-- Members that have their cluster id in one store. -/
structure Council where
  layout : Layout
  /-- Nanoseconds since the beginning. -/
  now : Nat := 0
  tree : Tree := {}
  /-- The members, each under a name of its own. -/
  seats : Dict String Seat := ∅
  /-- What the store was asked and has not answered, and by whom. -/
  pending : List (String × Asked) := []
  /-- The cluster ids that lookups and claims found, the latest first. -/
  found : List String := []

namespace Council

/-- What happens in a council. -/
inductive Action
  /-- A member joins in. -/
  | join (name : String) (c : Config)
  /-- A member begins to look up the cluster id. -/
  | lookUp (name : String)
  /-- A member begins to claim the cluster id. -/
  | claim (name : String)
  /-- The store carries out one of the pending requests and answers it. -/
  | answer (n : Nat)
  | elapse (d : Duration)
  /-- A request is going to fail. -/
  | fail (f : Failure)
  /-- A request of someone else. -/
  | other (r : Request)

/-- What is live under the key of the cluster id. -/
def stored? (k : Council) : Option Store.Entry :=
  k.tree.live? k.now (Store.Path.normalize k.layout.clusterId)

/-- What a step asks next. -/
def asks : Step.Progress → Option Asked
  | .wait (.answer asked) => some asked
  | _ => none

/-- A council after a part of a step of a member. -/
def afterStep (k : Council) (name : String) (seat : Seat) (r : Member × Step.Progress) : Council :=
  { k with
    seats := k.seats.insert name { seat with member := r.1 }
    pending := k.pending ++ ((asks r.2).map (Prod.mk name)).toList
    found := (Step.found? r).toList ++ k.found }

/-- A member begins a step. -/
def begin (k : Council) (name : String) (s : State) : Council :=
  match k.seats.find? name with
  | none => k
  | some seat => k.afterStep name seat (Step.begin seat.member s)

/-- The store answers a pending request, and the member goes on. -/
def answer (k : Council) (n : Nat) : Council :=
  match k.pending[n]? with
  | none => k
  | some (name, asked) =>
    match k.seats.find? name with
    | none => k
    | some seat =>
      let (tree, a) := k.tree.run k.now (Step.request seat.member asked)
      { k with tree, pending := k.pending.eraseIdx n }.afterStep name seat
        (Step.answered seat.member asked a)

/-- A council after an action; one that cannot happen changes nothing. Members join in under new
names, with the same root and with their cluster id in the store, and requests of others leave what
is under the key of the cluster id as it is. -/
def step (k : Council) : Action → Council
  | .join name c =>
    if (k.seats.find? name).isNone ∧ Layout.ofRoot c.store.root = k.layout ∧
        c.cluster.source = .store then
      { k with seats := k.seats.insert name { config := c, member := .ofConfig c none } }
    else k
  | .lookUp name => k.begin name .getCluster
  | .claim name => k.begin name .createCluster
  | .answer n => k.answer n
  | .elapse d => { k with now := k.now + d }
  | .fail f => { k with tree := k.tree.queueFailure f }
  | .other r =>
    let after := { k with tree := (k.tree.run k.now r).1 }
    if after.stored? = k.stored? then after else k

/-- A council after actions one after another. -/
def run (k : Council) (actions : List Action) : Council := actions.foldl step k

/-- Whether an id is what a member claims. -/
def IsCandidate (k : Council) (id : String) : Prop :=
  ∃ name seat, k.seats.find? name = some seat ∧
    Naming.ofConfig seat.config.cluster seat.config.self.id = .stored id

/-- What a member may have asked. -/
def MayAsk (m : Member) : Asked → Prop
  | .resolving | .rereading _ => True
  | .claiming candidate => m.naming = .stored candidate
  | _ => False

/-- A member in its seat: it has the root of all, and claims the candidate of its configuration. -/
structure Seated (layout : Layout) (seat : Seat) : Prop where
  layout : seat.member.layout = layout
  naming : seat.member.naming = Naming.ofConfig seat.config.cluster seat.config.self.id
  stored : ∃ candidate, seat.member.naming = .stored candidate

/-- What is under the key of the cluster id and what was found go together: either there is nothing,
and nothing was found, or there is the candidate of a member for good, and nothing else was found. -/
inductive Settled (k : Council) : Prop
  | vacant (hentry : k.stored? = none) (hfound : k.found = [])
  | decided {id : String} {e : Store.Entry} (hentry : k.stored? = some e) (hdir : e.dir = false)
      (hvalue : e.value = some id) (hlasting : e.expiresAt = none) (hid : k.IsCandidate id)
      (hfound : ∀ x ∈ k.found, x = id)

/-- What holds in a council at any time. -/
structure Concord (k : Council) : Prop where
  seated : ∀ {name seat}, k.seats.find? name = some seat → Seated k.layout seat
  pending : ∀ p ∈ k.pending, ∃ seat, k.seats.find? p.1 = some seat ∧ MayAsk seat.member p.2
  settled : k.Settled

variable {k k' : Council} {name : String} {seat : Seat}

/-! ## What is under the key -/

/-- What is settled hangs on the entry, on the members and on what was found. -/
theorem Settled.congr (h : k.Settled) (hentry : k'.stored? = k.stored?) (hfound : k'.found = k.found)
    (hseats : ∀ id, k.IsCandidate id → k'.IsCandidate id) : k'.Settled := by
  cases h with
  | vacant he hf => exact .vacant (hentry.trans he) (hfound.trans hf)
  | decided he hd hv hl hid hf =>
    exact .decided (hentry.trans he) hd hv hl (hseats _ hid) fun x hx => hf x (hfound ▸ hx)

private theorem Settled.elapse (h : k.Settled) (d : Duration) :
    Settled { k with now := k.now + d } := by
  cases h with
  | vacant he hf => exact .vacant (Tree.live?_later_eq_none (Nat.le_add_right _ _) he) hf
  | decided he hd hv hl hid hf => exact .decided (Tree.live?_lasting he hl _) hd hv hl hid hf

/-! ## The parts of a step -/

theorem MayAsk.congr {m m' : Member} {asked : Asked} (h : MayAsk m asked)
    (hnaming : m'.naming = m.naming) : MayAsk m' asked := by
  cases asked with
  | claiming candidate => exact hnaming.trans h
  | _ => exact h

theorem Seated.congr {layout : Layout} (h : Seated layout seat) {member : Member}
    (hlayout : member.layout = seat.member.layout) (hnaming : member.naming = seat.member.naming) :
    Seated layout { seat with member } where
  layout := hlayout.trans h.layout
  naming := hnaming.trans h.naming
  stored := h.stored.imp fun _ he => hnaming.trans he

private theorem isCandidate_afterStep (hseat : k.seats.find? name = some seat)
    (r : Member × Step.Progress) {id : String} (h : k.IsCandidate id) :
    (k.afterStep name seat r).IsCandidate id := by
  obtain ⟨name', seat', hf, hid⟩ := h
  by_cases hn : name' = name
  · rw [hn, hseat] at hf
    cases hf
    exact ⟨name, _, Dict.find?_insert_self _ _ _, hid⟩
  · exact ⟨name', seat', (Dict.find?_insert_of_ne _ hn _).trans hf, hid⟩

/-- All stays settled if what a part of a step finds is what is there. -/
private theorem Settled.afterStep (h : k.Settled) (hseat : k.seats.find? name = some seat)
    {r : Member × Step.Progress}
    (hfound : ∀ id, Step.found? r = some id → ∃ e, k.stored? = some e ∧ e.value = some id) :
    (k.afterStep name seat r).Settled := by
  cases hid : Step.found? r with
  | none =>
    exact h.congr rfl (by rw [Council.afterStep, hid]; rfl) fun _ => isCandidate_afterStep hseat r
  | some id =>
    obtain ⟨e, he, hv⟩ := hfound id hid
    cases h with
    | vacant hn _ => cases hn.symm.trans he
    | decided he' hd hv' hl hc hf =>
      cases he.symm.trans he'
      cases hv.symm.trans hv'
      refine .decided he hd hv hl (isCandidate_afterStep hseat r hc) fun x hx => ?_
      rw [Council.afterStep, hid] at hx
      rcases List.mem_cons.mp hx with rfl | hx
      · rfl
      · exact hf x hx

/-- A member stays in its seat, and what a part of its step finds is what is there. -/
private theorem Concord.afterStep (h : k.Concord) (hseat : k.seats.find? name = some seat)
    {r : Member × Step.Progress} (hlayout : r.1.layout = seat.member.layout)
    (hnaming : r.1.naming = seat.member.naming)
    (hasks : ∀ next, asks r.2 = some next → MayAsk seat.member next)
    (hfound : ∀ id, Step.found? r = some id → ∃ e, k.stored? = some e ∧ e.value = some id) :
    (k.afterStep name seat r).Concord where
  seated {name' seat'} hf := by
    rw [Council.afterStep, Dict.find?_insert] at hf
    split at hf
    · cases hf
      exact (h.seated hseat).congr hlayout hnaming
    · exact h.seated hf
  pending p hp := by
    rw [Council.afterStep, Dict.find?_insert]
    rcases List.mem_append.mp hp with hp | hp
    · obtain ⟨seat', hf, ha⟩ := h.pending p hp
      split
      · next hn =>
        rw [hn, hseat] at hf
        cases hf
        exact ⟨_, rfl, ha.congr hnaming⟩
      · exact ⟨seat', hf, ha⟩
    · obtain ⟨next, hnext, rfl⟩ := Option.map_eq_some_iff.mp (Option.mem_toList.mp hp)
      rw [if_pos rfl]
      exact ⟨_, rfl, (hasks next hnext).congr hnaming⟩
  settled := h.settled.afterStep hseat hfound

private theorem Concord.begin (h : k.Concord) (name : String) {s : State}
    (hs : s = .getCluster ∨ s = .createCluster) : (k.begin name s).Concord := by
  rw [Council.begin]
  cases hf : k.seats.find? name with
  | none => exact h
  | some seat =>
    obtain ⟨candidate, hc⟩ := (h.seated hf).stored
    rcases hs with rfl | rfl
    · have hb : Step.begin seat.member .getCluster = (seat.member, Step.ask .resolving) := by
        rw [Step.begin, hc]
        rfl
      simp only [hb]
      refine h.afterStep hf rfl rfl (fun next hn => ?_) fun id hid => by cases hid
      cases hn
      trivial
    · have hb : Step.begin seat.member .createCluster =
          (seat.member, Step.ask (.claiming candidate)) := by
        rw [Step.begin, hc]
        rfl
      simp only [hb]
      refine h.afterStep hf rfl rfl (fun next hn => ?_) fun id hid => by cases hid
      cases hn
      exact hc

/-- Concord hangs on the entry and on what is pending. -/
private theorem Concord.congr (h : k.Concord) {tree : Tree} {pending : List (String × Asked)}
    (hentry : { k with tree, pending }.stored? = k.stored?) (hp : pending.Sublist k.pending) :
    Concord { k with tree, pending } where
  seated := h.seated
  pending p hm := h.pending p (hp.subset hm)
  settled := h.settled.congr hentry rfl fun _ hid => hid

private theorem Concord.answered (h : k.Concord) (hseat : k.seats.find? name = some seat)
    (asked : Asked) (ha : MayAsk seat.member asked) (a : Store.Answer)
    (hfound : ∀ id, Step.found? (Step.answered seat.member asked a) = some id →
      ∃ e, k.stored? = some e ∧ e.value = some id) :
    (k.afterStep name seat (Step.answered seat.member asked a)).Concord := by
  obtain ⟨tally, control, accepted, blockingTtl, he⟩ := Step.answered_eq seat.member asked a
  refine h.afterStep hseat (by rw [he]) (by rw [he]) (fun next hnext => ?_) hfound
  have hask : (Step.answered seat.member asked a).2 = .wait (.answer next) := by
    unfold asks at hnext
    split at hnext
    · next hp => rw [hp, Option.some.inj hnext]
    · cases hnext
  cases Step.asksNext_answered hask with
  | rereading _ _ => trivial
  | creating _ => cases ha
  | confirming _ _ => cases ha

/-- The store answers a look at the key of the cluster id. -/
private theorem Concord.lookedUp (h : k.Concord) (hseat : k.seats.find? name = some seat)
    {asked : Asked} (ha : MayAsk seat.member asked) {pending : List (String × Asked)}
    (hp : pending.Sublist k.pending)
    (hvalue : ∀ {a id}, Step.found? (Step.answered seat.member asked a) = some id →
      Naming.valueIn a = some id) :
    let r := Request.get seat.member.layout.clusterId false false
    (Council.afterStep { k with tree := (k.tree.run k.now r).1, pending } name seat
      (Step.answered seat.member asked (k.tree.run k.now r).2)).Concord := by
  intro r
  have hentry : { k with tree := (k.tree.run k.now r).1, pending }.stored? = k.stored? :=
    Tree.live?_run_of_not_touches (fun ht => ht)
  refine (h.congr hentry hp).answered hseat _ ha _ fun id hid => ?_
  obtain ⟨response, hok, hv⟩ := Option.bind_eq_some_iff.mp (hvalue hid)
  have hget : (k.tree.run k.now r).2 = .ok response := by
    cases hrun : (k.tree.run k.now r).2 with
    | error f => rw [hrun] at hok; cases hok
    | ok response' => rw [hrun] at hok; cases hok; rfl
  obtain ⟨e, he, -, hev⟩ := Tree.live?_of_run_get hget hv
  rw [(h.seated hseat).layout] at he
  exact ⟨e, hentry.trans he, hev⟩

/-- The store answers a claim. -/
private theorem Concord.claimed (h : k.Concord) (hseat : k.seats.find? name = some seat)
    {candidate : String} (hc : seat.member.naming = .stored candidate)
    {pending : List (String × Asked)} (hp : pending.Sublist k.pending) :
    let r := Request.put seat.member.layout.clusterId (some candidate) { prevExist := some false }
    (Council.afterStep { k with tree := (k.tree.run k.now r).1, pending } name seat
      (Step.answered seat.member (.claiming candidate) (k.tree.run k.now r).2)).Concord := by
  intro r
  have hs := h.seated hseat
  cases hrun : (k.tree.run k.now r).2 with
  | error f =>
    have hentry : { k with tree := (k.tree.run k.now r).1, pending }.stored? = k.stored? :=
      Tree.live?_run_of_error hrun _
    refine (h.congr hentry hp).answered hseat (.claiming candidate) hc _ fun id hid => ?_
    rw [Step.found?_answered] at hid
    cases hid
  | ok response =>
    obtain ⟨hnone, e, he, hdir, hvalue, hlasting⟩ := Tree.live?_run_put_new hrun
    have hkey : Store.Path.normalize k.layout.clusterId =
        Store.Path.normalize seat.member.layout.clusterId := by rw [hs.layout]
    have hentry : { k with tree := (k.tree.run k.now r).1, pending }.stored? = some e :=
      (congrArg ((k.tree.run k.now r).1.live? k.now) hkey).trans he
    have hnone : k.stored? = none := (congrArg (k.tree.live? k.now) hkey).trans hnone
    have hfound : k.found = [] := by
      cases h.settled with
      | vacant _ hf => exact hf
      | decided he' => cases he'.symm.trans hnone
    have hid : k.IsCandidate candidate := ⟨name, seat, hseat, hs.naming ▸ hc⟩
    have hk : Concord { k with tree := (k.tree.run k.now r).1, pending } := {
      seated := h.seated
      pending := fun p hm => h.pending p (hp.subset hm)
      settled := .decided hentry hdir hvalue hlasting hid fun x hx =>
        nomatch hfound ▸ hx }
    refine hk.answered hseat (.claiming candidate) hc _ fun id hid => ?_
    rw [Step.found?_answered] at hid
    cases hid
    exact ⟨e, hentry, hvalue⟩

private theorem Concord.answer (h : k.Concord) (n : Nat) : (k.answer n).Concord := by
  rw [Council.answer]
  cases hn : k.pending[n]? with
  | none => exact h
  | some p =>
    obtain ⟨name, asked⟩ := p
    obtain ⟨seat, hf, hmay⟩ := h.pending _ (List.mem_of_getElem? hn)
    have hp : (k.pending.eraseIdx n).Sublist k.pending := List.eraseIdx_sublist _ _
    simp only [hf]
    cases asked with
    | resolving =>
      refine h.lookedUp hf hmay hp fun hid => ?_
      rw [Step.found?_answered] at hid
      exact (Option.filter_eq_some_iff.mp hid).1
    | rereading refusal =>
      refine h.lookedUp hf hmay hp fun hid => ?_
      rwa [Step.found?_answered] at hid
    | claiming candidate => exact h.claimed hf hmay hp
    | _ => cases hmay

private theorem seated_ofConfig {c : Config} (hc : c.cluster.source = .store) :
    Seated (Layout.ofRoot c.store.root) { config := c, member := .ofConfig c none } := by
  obtain ⟨contributors, he⟩ := Member.ofConfig_eq c none
  obtain ⟨candidate, hs⟩ := Naming.ofConfig_of_store hc c.self.id
  have hnaming : (Member.ofConfig c none).naming = Naming.ofConfig c.cluster c.self.id :=
    congrArg Member.naming he
  exact ⟨congrArg Member.layout he, hnaming, candidate, hnaming.trans hs⟩

/-- The entry of an instance that joins in stands beside the others. -/
private theorem find?_join {k : Council} {name name' : String} {seat : Seat}
    (hn : k.seats.find? name = none) (h : k.seats.find? name' = some seat) (new : Seat) :
    (k.seats.insert name new).find? name' = some seat := by
  have hne : name' ≠ name := fun he => by rw [he, hn] at h; cases h
  rw [Dict.find?_insert_of_ne _ hne, h]

private theorem Concord.join (h : k.Concord) (hn : k.seats.find? name = none) {c : Config}
    (hl : Layout.ofRoot c.store.root = k.layout) (hc : c.cluster.source = .store) :
    Concord { k with
      seats := k.seats.insert name { config := c, member := .ofConfig c none } } where
  seated {name' seat} hf := by
    rw [Dict.find?_insert] at hf
    split at hf
    · cases hf
      exact hl ▸ seated_ofConfig hc
    · exact h.seated hf
  pending p hp := by
    obtain ⟨seat, hf, ha⟩ := h.pending p hp
    exact ⟨seat, find?_join hn hf _, ha⟩
  settled := h.settled.congr rfl rfl fun id ⟨name', seat, hf, hid⟩ =>
    ⟨name', seat, find?_join hn hf _, hid⟩

/-- Concord holds after every action. -/
theorem Concord.step (h : k.Concord) (x : Action) : (k.step x).Concord := by
  cases x with
  | join name c =>
    rw [Council.step]
    split
    · next hj => exact h.join (Option.isNone_iff_eq_none.mp hj.1) hj.2.1 hj.2.2
    · exact h
  | lookUp name => exact h.begin name (.inl rfl)
  | claim name => exact h.begin name (.inr rfl)
  | answer n => exact h.answer n
  | elapse d => exact ⟨h.seated, h.pending, h.settled.elapse d⟩
  | fail f => exact ⟨h.seated, h.pending, h.settled.congr rfl rfl fun _ hid => hid⟩
  | other r =>
    simp only [Council.step]
    split
    · next he => exact h.congr he (.refl _)
    · exact h

/-- Concord holds in every run. -/
theorem Concord.run (h : k.Concord) (actions : List Action) : (k.run actions).Concord := by
  induction actions generalizing k with
  | nil => exact h
  | cons x actions ih => exact ih (h.step x)

theorem concord_empty (layout : Layout) : Concord { layout } where
  seated hf := nomatch hf
  pending _ hp := nomatch hp
  settled := .vacant rfl rfl

/-- However many members look up and claim a cluster id in one store, however their requests take
turns and whichever of them fail: if no one else writes the key of the cluster id or deletes it, all
the ids ever found are one and the same, the candidate of a member, and a valid cluster id. -/
theorem run_finds_one_id (layout : Layout) (actions : List Action) :
    let k := Council.run { layout } actions
    (∀ id ∈ k.found, k.IsCandidate id ∧ Naming.isValid id = true) ∧
      ∀ id ∈ k.found, ∀ id' ∈ k.found, id = id' := by
  intro k
  have h : k.Concord := (concord_empty layout).run actions
  cases h.settled with
  | vacant _ hf =>
    rw [hf]
    exact ⟨fun id hid => (nomatch hid), fun id hid => (nomatch hid)⟩
  | decided _ _ _ _ hc hf =>
    refine ⟨fun id hid => ?_, fun id hid id' hid' => (hf id hid).trans (hf id' hid').symm⟩
    obtain ⟨name, seat, hseat, hnaming⟩ := hf id hid ▸ hc
    exact ⟨⟨name, seat, hseat, hnaming⟩, Naming.isValid_of_ofConfig hnaming⟩

/-- An instance with its cluster id in the store, and a text configured that is none. -/
def claimant (id : String) : Config where
  self := { id }
  cluster := { source := .store, id := some "not valid!" }

/-- Two instances claim at once: one of the claims fails, the other one decides, and the instance
that failed looks up the cluster id and claims it again. -/
def rivalClaims : List Action := [
  .join "a" (claimant "node.a:1"), .join "b" (claimant "node.b:1"),
  .claim "a", .claim "b", .fail (.transport "timed out"), .answer 0, .lookUp "a", .answer 0,
  .claim "a", .answer 1, .answer 1, .answer 0]

/-- Both instances find what the second one claimed. -/
theorem found_of_rivalClaims :
    let k := Council.run { layout := .ofRoot "/discovery" } rivalClaims
    k.found = ["node-b-1", "node-b-1", "node-b-1"] ∧ k.IsCandidate "node-b-1" ∧
      Naming.isValid "node-b-1" = true := by
  intro k
  have hfound : k.found = ["node-b-1", "node-b-1", "node-b-1"] := by decide +kernel
  exact ⟨hfound, (run_finds_one_id (.ofRoot "/discovery") rivalClaims).1 _ (hfound ▸ .head _)⟩

end Council

end Rollcall
