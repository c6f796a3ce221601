import Rollcall.Proofs.Naming
import Rollcall.Proofs.Waits

/-!
# Which cluster ids a member uses

A member uses a cluster id that it looked up, claimed or was configured with. What it looks up in
the store and what it claims there is valid. A configured id that is not valid is replaced by the
default one, of which nothing is asked, and an id that another member claimed before is taken over
as it stands in the store.
-/

namespace Rollcall

open Store (Answer)

/-- An id that a configuration allows: a valid one, or the default one where no valid one is
configured. -/
def Config.ClusterSection.Allows (c : ClusterSection) (id : String) : Prop :=
  Naming.isValid id = true ∨
    c.source = .config ∧ id = c.defaultId ∧ c.id.any Naming.isValid = false

/-! ## The source -/

section

open Naming

variable {c : Config.ClusterSection} {instanceId id : String} {m : Member}

private theorem allows_configured (hc : c.source = .config)
    (h : (c.id.map fun id => if isValid id then id else c.defaultId) = some id) : c.Allows id := by
  obtain ⟨configured, hid, he⟩ := Option.map_eq_some_iff.mp h
  split at he
  · next hv => exact .inl (he ▸ hv)
  · next hv => exact .inr ⟨hc, he.symm, by simp [hid, hv]⟩

/-- What a source tells without the store is allowed. -/
theorem allows_of_begin (hm : m.naming = ofConfig c instanceId) {s : State}
    (h : Step.found? (Step.begin m s) = some id) : c.Allows id := by
  rw [Step.found?_begin, hm] at h
  cases hc : c.source with
  | store =>
    rw [ofConfig, hc] at h
    cases s <;> cases h
  | config =>
    rw [ofConfig, hc] at h
    cases s with
    | getCluster => exact allows_configured hc h
    | createCluster =>
      cases hid : c.id.map fun id => if isValid id then id else c.defaultId with
      | some other =>
        simp only [ofConfigured, define, hid] at h
        cases h
        exact allows_configured hc hid
      | none =>
        simp only [ofConfigured, define, hid] at h
        cases h
        exact .inr ⟨hc, rfl, by simp [Option.map_eq_none_iff.mp hid]⟩
    | _ => cases h

/-- A source of a configuration is not used up. -/
private theorem eq_of_get? {rest : Naming} {r : IdResult}
    (h : (ofConfig c instanceId).get? = some (r, rest)) : rest = ofConfig c instanceId := by
  rw [ofConfig] at h ⊢
  split at h
  · cases h
    rfl
  · cases h

private theorem eq_of_define {rest : Naming} {r : IdResult}
    (h : (ofConfig c instanceId).define = .settled r rest) : rest = ofConfig c instanceId := by
  rw [ofConfig] at h ⊢
  split at h
  · cases h
    rfl
  · cases h

private theorem naming_resolved (m : Member) (r : IdResult) :
    (Step.resolved m r).1.naming = m.naming := by
  unfold Step.resolved
  split <;> rfl

private theorem naming_defined (m : Member) (r : IdResult) :
    (Step.defined m r).1.naming = m.naming := by
  unfold Step.defined
  split <;> rfl

/-- A step that begins leaves a source of a configuration as it is. -/
theorem naming_begin (hm : m.naming = ofConfig c instanceId) (s : State) :
    (Step.begin m s).1.naming = ofConfig c instanceId := by
  cases s with
  | getCluster =>
    simp only [Step.begin]
    split
    · next r rest hget => exact (naming_resolved _ _).trans (eq_of_get? (hm ▸ hget))
    · exact hm
  | createCluster =>
    simp only [Step.begin]
    split
    · next r rest hdefine => exact (naming_defined _ _).trans (eq_of_define (hm ▸ hdefine))
    · exact hm
  | announce =>
    simp only [Step.begin]
    split <;> exact hm
  | _ => exact hm

/-- What is claimed is valid. -/
theorem isValid_of_define (hm : m.naming = ofConfig c instanceId) {candidate : String}
    (h : m.naming.define = .claim candidate) : isValid candidate = true := by
  cases hn : m.naming with
  | stored other =>
    rw [hn] at h
    cases h
    exact isValid_of_ofConfig (hm.symm.trans hn)
  | _ =>
    rw [hn] at h
    cases h

end

/-! ## The parts of a session -/

namespace Session

variable {c : Config.ClusterSection} {instanceId : String}
variable {s s' : Session} {p : Part} {input : Option Answer}

/-- The ways in which a part finds a cluster id. -/
inductive Finds (s : Session) : Part → Option Answer → String → Prop
  | begun {g : Nat} {state : State} {id : String}
      (h : Step.found? (Step.begin s.member state) = some id) : Finds s (.runner g) none id
  | answered {g : Nat} {asked : Asked} {answer : Answer} {id : String}
      (hact : s.activity? g = some (.within (.answer asked)))
      (h : Step.found? (Step.answered s.member asked answer) = some id) :
      Finds s (.runner g) (some answer) id

/-- No part uses up a source of a configuration. -/
theorem Goes.naming (h : s.Goes p input s')
    (hs : s.member.naming = Naming.ofConfig c instanceId) :
    s'.member.naming = Naming.ofConfig c instanceId := by
  cases h with
  | displays _ _ =>
    obtain ⟨_, _, _, hd⟩ := Terms.display_eq s.member
    rw [hd]
    exact hs
  | renews _ _ =>
    rw [member_afterRenewal]
    have hb := Renewal.begins_begin s.member
    generalize Renewal.begin s.member = x at hb
    cases hb with
    | _ => exact hs
  | renewed _ =>
    rw [member_afterRenewal]
    have ha := Renewal.answers_answered s.member ‹_› ‹_›
    generalize Renewal.answered s.member _ _ = x at ha
    cases ha with
    | _ => exact hs
  | surveys _ _ =>
    obtain ⟨_, hb⟩ := Survey.begin_eq s.member
    rw [member_afterSurvey, hb]
    exact hs
  | surveyed _ =>
    obtain ⟨_, _, _, _, _, he⟩ := Survey.roundAnswered_eq s.member ‹_› ‹_›
    rw [member_afterSurvey, he]
    exact hs
  | begins _ _ =>
    obtain ⟨_, hc⟩ := s.member_afterStep ‹_› (Step.begin s.member s.member.control.state)
    rw [hc]
    exact naming_begin hs _
  | answered _ =>
    obtain ⟨_, hc⟩ := s.member_afterStep ‹_› (Step.answered s.member ‹_› ‹_›)
    obtain ⟨_, _, _, _, he⟩ := Step.answered_eq s.member ‹_› ‹_›
    rw [hc, he]
    exact hs
  | _ => exact hs

/-- A part leaves the cluster id, or puts down one that it found. -/
theorem Goes.clusterId (h : s.Goes p input s') {id : String}
    (hid : s'.member.control.clusterId = some id) :
    s.member.control.clusterId = some id ∨ s.Finds p input id := by
  cases p with
  | runner g =>
    cases h with
    | still => exact .inl hid
    | runnerEnds _ => exact .inl hid
    | begins _ _ =>
      rw [clusterId_afterStep, Step.clusterId_begin, Option.or_eq_some_iff] at hid
      exact hid.symm.imp (·.2) .begun
    | rested _ =>
      exact .inl ((s.member.control.clusterId_leave g _).symm.trans hid)
    | answered hact =>
      rw [clusterId_afterStep, Step.clusterId_answered, Option.or_eq_some_iff] at hid
      exact hid.symm.imp (·.2) (.answered hact)
  | _ =>
    obtain ⟨e, he⟩ := h.control_loop (by simp [loops])
    rw [he, Control.clusterId_afterRound] at hid
    exact .inl hid

end Session

/-! ## In a run -/

/-- Every cluster id in what is asked has a property, and what is claimed is valid. -/
def Asked.Names (P : String → Prop) : Asked → Prop
  | .claiming candidate => Naming.isValid candidate = true
  | .listing id => P id
  | .creating d => P d.clusterId
  | _ => True

namespace Attendance

/-- The id that a member takes over by a move because its claim was refused. -/
def takesOver (a : Attendance) : Move → Option String
  | .receive (.part (.runner g)) answer =>
    match a.session.activity? g with
    | some (.within (.answer (.rereading _))) => Naming.valueIn answer
    | _ => none
  | _ => none

/-- The ids that a member takes over in a run. -/
def takenOver (a : Attendance) : List Move → List String
  | [] => []
  | x :: moves => (a.takesOver x).toList ++ (a.move x).takenOver moves

/-- A member with the source of its configuration, all of whose cluster ids have a property. -/
structure Attributes (c : Config) (P : String → Prop) (a : Attendance) : Prop where
  naming : a.session.member.naming = Naming.ofConfig c.cluster c.self.id
  clusterId : ∀ {id : String}, a.session.member.control.clusterId = some id → P id
  asked : ∀ {g : Nat} {asked : Asked},
    a.session.member.control.Waits g (.answer asked) → asked.Names P

variable {c : Config} {P : String → Prop} {a : Attendance}

theorem attributes_ofConfig (c : Config) (P : String → Prop) :
    Attributes c P (ofMember (Member.ofConfig c none)) := by
  obtain ⟨contributors, he⟩ := Member.ofConfig_eq c none
  refine ⟨congrArg Member.naming he, fun {id} hid => ?_, fun hw => absurd hw ?_⟩
  · rw [ofMember, Member.control_ofConfig] at hid
    cases hid
  · exact Member.not_waits_ofConfig

/-- What a part finds has the property if what the configuration allows has it, and what the member
takes over. -/
private theorem Attributes.of_finds (h : Attributes c P a)
    (hallows : ∀ id, c.cluster.Allows id → P id) {x : Move} {p : Part} {input : Option Answer}
    (hx : x.part? = some (p, input)) (htakes : ∀ id, a.takesOver x = some id → P id)
    {id : String} (hf : a.session.Finds p input id) : P id := by
  cases hf with
  | begun hfound => exact hallows id (allows_of_begin h.naming hfound)
  | @answered g asked answer _ hact hfound =>
    have hnames := h.asked (Control.waits_of_activity hact)
    rw [Step.found?_answered] at hfound
    cases asked with
    | resolving => exact hallows id (.inl (Option.filter_eq_some_iff.mp hfound).2)
    | claiming candidate =>
      obtain ⟨_, _, rfl⟩ := Option.map_eq_some_iff.mp hfound
      exact hallows _ (.inl hnames)
    | rereading refusal =>
      refine htakes id ?_
      rw [Move.eq_receive hx, takesOver, hact]
      exact hfound
    | _ => cases hfound

/-- What a member does besides its parts leaves the source and the cluster id alone. -/
private theorem beside_parts {x : Move} (hx : x.part? = none) :
    (a.move x).session.member.naming = a.session.member.naming ∧
      (a.move x).session.member.control.clusterId = a.session.member.control.clusterId := by
  have hpasses := a.passes_move x
  generalize a.move x = a' at hpasses ⊢
  cases hpasses with
  | starts _ _ => exact ⟨rfl, Control.clusterId_start _⟩
  | goes hpart _ _ => cases hx.symm.trans hpart
  | stops _ => exact ⟨rfl, Control.clusterId_handle _ _⟩
  | leaves _ _ _ =>
    obtain ⟨_, hw⟩ := a.session.withdraw_eq
    rw [hw]
    exact ⟨rfl, rfl⟩
  | removes tally _ =>
    obtain ⟨_, hw⟩ := Session.withdraw_eq
      { a.session with member := { a.session.member with tally } }
    rw [hw]
    exact ⟨rfl, rfl⟩
  | drops => exact ⟨rfl, Control.clusterId_handle _ _⟩
  | _ => exact ⟨rfl, rfl⟩

/-- What a runner begins to ask names ids that have the property. -/
private theorem Attributes.names_of_enters (h : Attributes c P a) {g : Nat} {asked : Asked}
    {x : Move} (he : a.Enters g (.answer asked) x) : asked.Names P := by
  cases he with
  | proceed he =>
    cases Step.asksFirst_begin he.2.1 with
    | resolving => trivial
    | claiming hd => exact isValid_of_define h.naming hd
    | listing hid => exact h.clusterId hid
  | receive hc =>
    obtain ⟨before, hw, hnext, -⟩ := hc
    have hnames := h.asked hw
    cases Step.asksNext_answered hnext with
    | rereading _ _ => trivial
    | creating _ => exact hnames
    | confirming _ _ => trivial

/-- All cluster ids of a member keep the property. -/
theorem Attributes.move {T : Terms} (h : Attributes c P a) (hk : Keeps T a)
    (hallows : ∀ id, c.cluster.Allows id → P id) {x : Move}
    (htakes : ∀ id, a.takesOver x = some id → P id) : Attributes c P (a.move x) where
  naming := by
    cases hx : x.part? with
    | none => exact (beside_parts hx).1.trans h.naming
    | some y => exact (goes_move hx).1.naming h.naming
  clusterId {id} hid := by
    cases hx : x.part? with
    | none => exact h.clusterId ((beside_parts hx).2.symm.trans hid)
    | some y =>
      rcases (goes_move hx).1.clusterId hid with hid | hf
      · exact h.clusterId hid
      · exact h.of_finds hallows hx htakes hf
  asked hw := ((moved_move hk x).waits hw).elim h.asked fun hnew => h.names_of_enters hnew.2

theorem Attributes.run {self : Profile} {layout : Registry.Layout} (h : Attributes c P a)
    (hk : Keeps (own self layout) a) (hallows : ∀ id, c.cluster.Allows id → P id)
    (moves : List Move) (htakes : ∀ id ∈ a.takenOver moves, P id) :
    Attributes c P (a.run moves) := by
  induction moves generalizing a with
  | nil => exact h
  | cons x moves ih =>
    refine ih (h.move hk hallows fun id hid => htakes id ?_) (hk.move_own x) fun id hid =>
      htakes id ?_
    · exact List.mem_append_left _ (Option.mem_toList.mpr hid)
    · exact List.mem_append_right _ hid

/-- In every run of a member that has its cluster id from its configuration, whatever the store
answers: what a step finds without the store is allowed by the configuration, what it finds by the
answer to its first question is valid, and the id that the member puts down, and every id under
which it asks for an announce to be created, is allowed by the configuration or was taken over from
another claim. -/
theorem run_ids_allowed (c : Config) (moves : List Move) :
    let a := ofMember (Member.ofConfig c none)
    let m := (a.run moves).session.member
    (∀ s id, Step.found? (Step.begin m s) = some id → c.cluster.Allows id) ∧
    (∀ s asked answer id, (Step.begin m s).2 = Step.ask asked →
      Step.found? (Step.answered m asked answer) = some id → Naming.isValid id = true) ∧
    (∀ id, m.control.clusterId = some id → c.cluster.Allows id ∨ id ∈ a.takenOver moves) ∧
    ∀ g d, m.control.Waits g (.answer (.creating d)) →
      c.cluster.Allows d.clusterId ∨ d.clusterId ∈ a.takenOver moves := by
  intro a m
  have h : Attributes c (fun id => c.cluster.Allows id ∨ id ∈ a.takenOver moves) (a.run moves) :=
    (attributes_ofConfig c _).run
      (keeps_ofConfig (T := own c.self (.ofRoot c.store.root)) c none rfl rfl)
      (fun _ => .inl) moves fun _ => .inr
  refine ⟨fun s id hf => allows_of_begin h.naming hf, fun s asked answer id hb hf => ?_,
    fun id => h.clusterId, fun g d => h.asked⟩
  rw [Step.found?_answered] at hf
  cases Step.asksFirst_begin hb with
  | resolving => exact (Option.filter_eq_some_iff.mp hf).2
  | claiming hd =>
    obtain ⟨_, _, rfl⟩ := Option.map_eq_some_iff.mp hf
    exact isValid_of_define h.naming hd
  | listing _ => cases hf

/-- A configuration with a default cluster id that is no valid one. -/
def carelessDefault : Config where
  self := { id := "x" }
  cluster := { defaultId := "not valid!" }

/-- A configuration with the cluster id in the store. -/
def trustingStore : Config where
  self := { id := "x" }
  cluster := { source := .store }

/-- The runner is answered. -/
def told (answer : Answer) : Move := .receive (.part (.runner 1)) answer

/-- A store in which there is no cluster id at first, and then one that is no valid one. -/
def storedMeanwhile : List Move := [
  .act .start, .act (.proceed (.runner 1)),
  told (.error (.refused { code := Store.Refusal.keyNotFoundCode })),
  .act (.proceed (.runner 1)), told (.error (.refused { code := Store.Refusal.existsCode })),
  told (.ok {
    action := "get", node := some { key := "/d/cluster-id", value := some "not valid!" } })]

/-- A member announces itself under a default cluster id that is not valid, and takes over an id
that is not valid from the store. -/
theorem ids_that_are_not_valid :
    let found := (ofMember (Member.ofConfig carelessDefault none)).run
      [.act .start, .act (.proceed (.runner 1)), .act (.proceed (.runner 1))]
    let announcing := found.run [.act (.proceed (.runner 1)), told (.ok { action := "get" })]
    let trusting := ofMember (Member.ofConfig trustingStore none)
    Naming.isValid "not valid!" = false ∧
      (carelessDefault.validate = .ok () ∧
        Step.found? (Step.begin (Member.ofConfig carelessDefault none) .createCluster) =
          some "not valid!" ∧
        found.session.member.control.clusterId = some "not valid!" ∧
        announcing.session.activity? 1 =
          some (.within (.answer (.creating ⟨"x", "", "not valid!", 0⟩)))) ∧
      trustingStore.validate = .ok () ∧
        (trusting.run storedMeanwhile).session.member.control.clusterId = some "not valid!" ∧
        trusting.takenOver storedMeanwhile = ["not valid!"] := by
  decide +kernel

end Attendance

end Rollcall
