import Rollcall.Proofs.Steps

/-!
# How a step comes by a cluster id

A step looks the cluster id up or defines it, and puts down what it finds. A source in the store
claims a valid id whatever is configured; what a step finds is told by its source, by the id that it
claimed, or by what the store says is there.
-/

namespace Rollcall

open Store (Answer Failure)

namespace Naming

/-- The id that an instance claims is valid, whatever the instance is called. -/
theorem isValid_candidateFor (instanceId : String) : isValid (candidateFor instanceId) = true := by
  have hchars : ∀ c ∈ instanceId.toList.map (fun c => if isIdChar c then c else '-'),
      isIdChar c = true := by
    intro c hc
    obtain ⟨d, -, rfl⟩ := List.mem_map.mp hc
    split
    · assumption
    · rfl
  rw [candidateFor]
  split
  · decide
  · next cs hne =>
    rw [isValid, String.toList_ofList, Bool.and_eq_true, Bool.not_eq_true',
      List.isEmpty_eq_false_iff, List.all_eq_true]
    exact ⟨hne, hchars⟩

/-- What is claimed in the store is valid, whatever is configured. -/
theorem isValid_of_ofConfig {c : Config.ClusterSection} {instanceId candidate : String}
    (h : ofConfig c instanceId = .stored candidate) : isValid candidate = true := by
  rw [ofConfig] at h
  split at h
  · cases h
  · cases h
    cases hid : c.id.filter isValid with
    | none => exact isValid_candidateFor instanceId
    | some id => exact (Option.filter_eq_some_iff.mp hid).2

/-- A configuration that names the store claims an id there. -/
theorem ofConfig_of_store {c : Config.ClusterSection} (h : c.source = .store)
    (instanceId : String) : ∃ candidate, ofConfig c instanceId = .stored candidate := by
  rw [ofConfig, h]
  exact ⟨_, rfl⟩

/-- The value that an answer shows, if there is one. -/
def valueIn (a : Answer) : Option String := a.toOption.bind fun r => r.node.bind Store.Node.value

/-- A lookup of the cluster id finds the value in the answer. -/
theorem outcome_clusterId (l : Registry.Layout) (a : Answer) :
    ((Registry.clusterId l).outcome a).toOption.join = valueIn a := by
  match a with
  | .ok response => rfl
  | .error (.refused r) =>
    simp only [Registry.Operation.outcome, Registry.Operation.accept]
    split <;> rfl
  | .error (.transport _) => rfl
  | .error (.payload _) => rfl

private theorem toOption_readStored (r : Except Failure (Option String)) :
    (readStored r).toOption.join = r.toOption.join.filter isValid := by
  match r with
  | .error f => rfl
  | .ok none => rfl
  | .ok (some id) =>
    rw [readStored]
    split
    · next h => exact (Option.filter_some_pos h).symm
    · next h => exact (Option.filter_some_neg (by simpa using h)).symm

private theorem toOption_readClaimed (refusal : Store.Refusal)
    (r : Except Failure (Option String)) :
    (readClaimed (Registry.resolveClaim refusal r)).toOption.join = r.toOption.join := by
  match r with
  | .error f => rfl
  | .ok none => rfl
  | .ok (some id) => rfl

end Naming

namespace Step

open Naming

/-- The cluster id with which a step is over, if it found or created one. -/
def found? (r : Member × Progress) : Option String :=
  match r.2 with
  | .over (some .clusterDefined) | .over (some .clusterCreated) => r.1.control.clusterId
  | _ => none

variable (m : Member)

private theorem found?_recover (n : Member) (e : MemberError) : found? (n, recover m e) = none := by
  unfold recover
  split <;> rfl

private theorem found?_resolved (r : IdResult) : found? (resolved m r) = r.toOption.join := by
  cases r with
  | error e => exact found?_recover m m e
  | ok id => cases id <;> rfl

private theorem found?_defined (r : IdResult) : found? (defined m r) = r.toOption.join := by
  cases r with
  | error e => rfl
  | ok id => cases id <;> rfl

/-- A step finds at once what its source tells without the store. -/
theorem found?_begin (s : State) : found? (begin m s) =
    match s with
    | .getCluster => m.naming.get?.bind fun r => r.1.toOption.join
    | .createCluster =>
      match m.naming.define with
      | .settled r _ => r.toOption.join
      | .claim _ => none
    | _ => none := by
  cases s with
  | getCluster =>
    simp only [begin]
    cases m.naming.get? with
    | none => rfl
    | some r => exact found?_resolved { m with naming := r.2 } r.1
  | createCluster =>
    simp only [begin]
    cases m.naming.define with
    | settled r naming => exact found?_defined { m with naming } r
    | claim candidate => rfl
  | announce =>
    simp only [begin]
    split
    · rfl
    · exact found?_recover _ _ _
  | clearAnnounce => rfl
  | running => rfl
  | stop => rfl

/-- A lookup finds a valid id that is there, a claim that was not refused the id that it claimed,
and a claim that was refused whatever is there. -/
theorem found?_answered (asked : Asked) (a : Answer) : found? (answered m asked a) =
    match asked with
    | .resolving => (valueIn a).filter isValid
    | .claiming candidate => a.toOption.map fun _ => candidate
    | .rereading _ => valueIn a
    | _ => none := by
  cases asked with
  | resolving =>
    simp only [answered, Terms.accept_eq, found?_resolved, toOption_readStored, outcome_clusterId]
  | claiming candidate =>
    simp only [answered, Terms.accept_eq]
    cases a with
    | ok response => rfl
    | error f =>
      cases f with
      | refused r =>
        rw [Registry.Operation.outcome, Registry.Operation.accept]
        by_cases h : (Registry.claim m.layout candidate).expects r = true
        · rw [if_pos h]
          rfl
        · rw [if_neg h]
          rfl
      | _ => rfl
  | rereading refusal =>
    simp only [answered, Terms.accept_eq, found?_defined, toOption_readClaimed, outcome_clusterId]
  | listing id =>
    simp only [answered, Terms.accept_eq]
    split
    · unfold announceIn
      split <;> rfl
    · exact found?_recover _ _ _
  | creating d =>
    simp only [answered, Terms.accept_eq]
    split
    · rfl
    · exact found?_recover _ _ _
  | confirming key =>
    simp only [answered, Terms.accept_eq]
    split
    · unfold confirm
      split
      · split <;> rfl
      · rfl
    · exact found?_recover _ _ _

private theorem asks_recover (n : Member) (e : MemberError) {next : Asked} :
    recover n e ≠ .wait (.answer next) := by
  unfold recover
  split <;> nofun

private theorem asks_resolved (r : IdResult) {next : Asked} :
    (resolved m r).2 ≠ .wait (.answer next) := by
  unfold resolved
  split
  · nofun
  · nofun
  · exact asks_recover m _

private theorem asks_defined (r : IdResult) {next : Asked} :
    (defined m r).2 ≠ .wait (.answer next) := by
  unfold defined
  split <;> nofun

/-- What a step may ask first. -/
inductive AsksFirst (m : Member) : Asked → Prop
  | resolving : AsksFirst m .resolving
  | claiming {candidate : String} (h : m.naming.define = .claim candidate) :
    AsksFirst m (.claiming candidate)
  | listing {id : String} (h : m.control.clusterId = some id) : AsksFirst m (.listing id)

/-- What a step may ask after an answer to something else: a claim that is refused looks up the id
that won, and an announce is created and then confirmed. -/
inductive AsksNext (m : Member) : Asked → Asked → Prop
  | rereading (candidate : String) (refusal : Store.Refusal) :
    AsksNext m (.claiming candidate) (.rereading refusal)
  | creating (id : String) : AsksNext m (.listing id) (.creating (m.payload id))
  | confirming (d : Payload) (key : String) : AsksNext m (.creating d) (.confirming key)

variable {m} {asked next : Asked}

theorem asksFirst_begin {s : State} (h : (begin m s).2 = .wait (.answer asked)) :
    AsksFirst m asked := by
  cases s with
  | getCluster =>
    simp only [begin] at h
    split at h
    · exact absurd h (asks_resolved _ _)
    · cases h
      exact .resolving
  | createCluster =>
    simp only [begin] at h
    split at h
    · exact absurd h (asks_defined _ _)
    · next hd =>
      cases h
      exact .claiming hd
  | announce =>
    simp only [begin] at h
    split at h
    · next hc =>
      cases h
      exact .listing hc
    · exact (asks_recover (m.setAccepted none) .clusterUndefined h).elim
  | clearAnnounce => cases h
  | running => cases h
  | stop => cases h

theorem asksNext_answered {a : Answer} (h : (answered m asked a).2 = .wait (.answer next)) :
    AsksNext m asked next := by
  cases asked with
  | resolving => exact absurd h (asks_resolved _ _)
  | claiming candidate =>
    simp only [answered, Terms.accept_eq] at h
    split at h
    · exact absurd h (asks_defined _ _)
    · cases h
      exact .rereading _ _
    · exact absurd h (asks_defined _ _)
  | rereading refusal => exact absurd h (asks_defined _ _)
  | listing id =>
    simp only [answered, Terms.accept_eq] at h
    split at h
    · unfold announceIn at h
      split at h
      · cases h
      · cases h
        exact .creating id
    · exact absurd h (asks_recover _ _)
  | creating d =>
    simp only [answered, Terms.accept_eq] at h
    split at h
    · cases h
      exact .confirming d _
    · exact absurd h (asks_recover _ _)
  | confirming key =>
    simp only [answered, Terms.accept_eq] at h
    split at h
    · unfold confirm at h
      split at h
      · split at h <;> cases h
      · cases h
    · exact absurd h (asks_recover _ _)

/-! ## The id that is put down -/

private theorem clusterId_resolved (m : Member) (r : IdResult) :
    (resolved m r).1.control.clusterId = (found? (resolved m r)).or m.control.clusterId := by
  rw [found?_resolved]
  cases r with
  | error e => rfl
  | ok id => cases id <;> rfl

private theorem clusterId_defined (m : Member) (r : IdResult) :
    (defined m r).1.control.clusterId = (found? (defined m r)).or m.control.clusterId := by
  rw [found?_defined]
  cases r with
  | error e => rfl
  | ok id => cases id <;> rfl

/-- A step that begins puts down what it finds, and otherwise leaves what was put down before. -/
theorem clusterId_begin (m : Member) (s : State) :
    (begin m s).1.control.clusterId = (found? (begin m s)).or m.control.clusterId := by
  cases s with
  | getCluster =>
    simp only [begin]
    split
    · exact clusterId_resolved { m with naming := _ } _
    · rfl
  | createCluster =>
    simp only [begin]
    split
    · exact clusterId_defined { m with naming := _ } _
    · rfl
  | announce =>
    rw [found?_begin]
    simp only [begin]
    split <;> rfl
  | clearAnnounce => rfl
  | running => rfl
  | stop => rfl

/-- A step that goes on puts down what it finds, and otherwise leaves what was put down before. -/
theorem clusterId_answered (m : Member) (asked : Asked) (a : Answer) :
    (answered m asked a).1.control.clusterId =
      (found? (answered m asked a)).or m.control.clusterId := by
  cases asked with
  | resolving =>
    simp only [answered, Terms.accept_eq]
    exact clusterId_resolved { m with tally := _ } _
  | claiming candidate =>
    simp only [answered, Terms.accept_eq]
    split
    · exact clusterId_defined { m with tally := _ } _
    · rfl
    · exact clusterId_defined { m with tally := _ } _
  | rereading refusal =>
    simp only [answered, Terms.accept_eq]
    exact clusterId_defined { m with tally := _ } _
  | listing id =>
    rw [found?_answered]
    simp only [answered, Terms.accept_eq]
    split
    · unfold announceIn
      split <;> rfl
    · rfl
  | creating d =>
    rw [found?_answered]
    simp only [answered, Terms.accept_eq]
    split <;> rfl
  | confirming key =>
    rw [found?_answered]
    simp only [answered, Terms.accept_eq]
    split
    · unfold confirm
      split
      · split <;> rfl
      · rfl
    · rfl

end Step

end Rollcall
