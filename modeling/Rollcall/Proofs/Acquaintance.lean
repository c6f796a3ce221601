import Rollcall.Proofs.Editions
import Rollcall.World

/-!
# What a member holds of the others

Surveys replace the others' announces and properties together. After any number of surveys,
whatever the store answered, a member holds properties of exactly the instances that it knows to be
listed, and it is not among them. A survey that fails or finds nothing new leaves all that as it was,
and one that finds a change leaves the properties of those whose index stayed the same.
-/

namespace Rollcall

open Store (Answer Request)

namespace Listing

/-! ## What changed between two listings -/

theorem perm_diff (previous current : Listing) :
    ((diff previous current).added ++ (diff previous current).modified ++
      (diff previous current).unchanged).Perm current.instanceIds := by
  have hsplit := List.filter_append_perm (fun a => indexKept previous a = none) current.entries
  have hrest := List.filter_append_perm (fun a => indexKept previous a = some false)
    (current.entries.filter fun a => !decide (indexKept previous a = none))
  have hmodified : (current.entries.filter fun a => !decide (indexKept previous a = none)).filter
      (fun a => indexKept previous a = some false) =
        current.entries.filter fun a => indexKept previous a = some false := by
    rw [List.filter_filter]
    refine List.filter_congr fun a _ => ?_
    rcases indexKept previous a with _ | _ | _ <;> rfl
  have hunchanged : (current.entries.filter fun a => !decide (indexKept previous a = none)).filter
      (fun a => !decide (indexKept previous a = some false)) =
        current.entries.filter fun a => indexKept previous a = some true := by
    rw [List.filter_filter]
    refine List.filter_congr fun a _ => ?_
    rcases indexKept previous a with _ | _ | _ <;> rfl
  rw [hmodified, hunchanged] at hrest
  simp only [diff, ← List.map_append, List.append_assoc]
  exact ((hrest.append_left _).trans hsplit).map Announce.instanceId

/-- What a diff tells of two listings: every instance of the current one once, by whether the
previous one lists it too and with which index of its properties. -/
structure Diff.Describes (d : Diff) (previous current : Listing) : Prop where
  all : (d.added ++ d.modified ++ d.unchanged).Perm current.instanceIds
  once : (d.added ++ d.modified ++ d.unchanged).Nodup
  added : ∀ id ∈ d.added, previous.get? id = none
  modified : ∀ id ∈ d.modified, ∃ b a, previous.get? id = some b ∧ current.get? id = some a ∧
    b.data.propertiesIndex ≠ a.data.propertiesIndex
  unchanged : ∀ id ∈ d.unchanged, ∃ b a, previous.get? id = some b ∧ current.get? id = some a ∧
    b.data.propertiesIndex = a.data.propertiesIndex

theorem describes_diff (previous : Listing) {current : Listing} (hc : Canonical current.entries) :
    (diff previous current).Describes previous current := by
  have hall := perm_diff previous current
  have hlisted : ∀ {change id}, id ∈ (current.entries.filter fun a =>
      indexKept previous a = change).map Announce.instanceId →
      ∃ a, current.get? id = some a ∧ (previous.get? id).map
        (fun b => b.data.propertiesIndex == a.data.propertiesIndex) = change := by
    intro change id hm
    obtain ⟨a, ha, rfl⟩ := List.mem_map.mp hm
    obtain ⟨ha, hk⟩ := List.mem_filter.mp ha
    exact ⟨a, get?_of_mem hc ha, of_decide_eq_true hk⟩
  refine ⟨hall, hall.nodup_iff.mpr hc.nodup_instanceIds, fun id hm => ?_, fun id hm => ?_,
    fun id hm => ?_⟩
  · obtain ⟨a, -, hk⟩ := hlisted hm
    exact Option.map_eq_none_iff.mp hk
  · obtain ⟨a, ha, hk⟩ := hlisted hm
    obtain ⟨b, hb, hne⟩ := Option.map_eq_some_iff.mp hk
    exact ⟨b, a, hb, ha, by simpa using hne⟩
  · obtain ⟨a, ha, hk⟩ := hlisted hm
    obtain ⟨b, hb, he⟩ := Option.map_eq_some_iff.mp hk
    exact ⟨b, a, hb, ha, by simpa using he⟩

/-- An instance listed with the index that it had before is not stale. -/
theorem not_mem_stale {previous current : Listing} {a b : Announce}
    (hc : Canonical current.entries) (hb : previous.get? a.instanceId = some b)
    (ha : current.get? a.instanceId = some a)
    (hi : b.data.propertiesIndex = a.data.propertiesIndex) :
    a.instanceId ∉ (diff previous current).stale := by
  have ht := describes_diff previous hc
  intro hm
  rcases List.mem_append.mp hm with hm | hm
  · exact nomatch hb.symm.trans (ht.added _ hm)
  · obtain ⟨b', a', hb', ha', hne⟩ := ht.modified _ hm
    cases hb.symm.trans hb'
    cases ha.symm.trans ha'
    exact hne hi

end Listing

/-- What is known of the others: they are listed in order, the member itself is not among them, and
properties are held of those listed and of nobody else. -/
structure Known.Matched (k : Known) (localId : String) : Prop where
  canonical : Listing.Canonical k.remote.entries
  others : localId ∉ k.remote.instanceIds
  keys : ∀ id, id ∈ k.remoteProperties.keys ↔ id ∈ k.remote.instanceIds

/-- How what is known of the others follows what was known before they changed: the diff tells the
change, and the properties of an instance that still has the same index stay as they were. -/
structure Known.Follows (k before : Known) : Prop where
  diff : (Listing.diff before.remote k.remote).Describes before.remote k.remote
  kept : ∀ {id : String} {b a : Announce}, before.remote.get? id = some b →
    k.remote.get? id = some a → b.data.propertiesIndex = a.data.propertiesIndex →
    k.remoteProperties.find? id = before.remoteProperties.find? id

namespace World

/-- A round that is over asks nothing. -/
theorem follow_over {κ α : Type} (request : Member → κ → Request)
    (answered : Member → κ → Answer → Member × Turn κ α) (limit : Nat) (w : World) (m : Member)
    (a : α) : follow request answered limit w (m, .over a) = (w, m, some a) := by
  cases limit <;> rfl

/-- A round that waits goes on from some answer. -/
theorem follow_wait {κ α : Type} (request : Member → κ → Request)
    (answered : Member → κ → Answer → Member × Turn κ α) (limit : Nat) (w : World) (m : Member)
    (stage : κ) : ∃ w' a, follow request answered (limit + 1) w (m, .wait stage) =
      follow request answered limit w' (answered m stage a) :=
  ⟨(w.call (request m stage)).1, (w.call (request m stage)).2, rfl⟩

end World

namespace Survey

open Listing

variable {m : Member}

/-! ## One survey -/

/-- A whole survey, by the answers to the look at the announces and to the fetch, if it comes to
one. -/
def conduct (m : Member) (look fetch : Answer) : Member × Except MemberError Bool :=
  match answered m .listing look with
  | (m, .over r) => (m, r)
  | (m, .wait stage) =>
    match answered m stage fetch with
    | (m, .over r) => (m, r)
    -- No third request follows.
    | (m, .wait _) => (m, .ok false)

/-- The ways in which a survey ends. -/
inductive Ends (m : Member) : Member × Except MemberError Bool → Prop
  | failed (tally : Registry.Tally) (e : MemberError) : Ends m ({ m with tally }, .error e)
  | agreed (tally : Registry.Tally) : Ends m ({ m with tally }, .ok false)
  | published (tally : Registry.Tally) {remote : Listing} (hc : Canonical remote.entries)
      (ho : m.self.id ∉ remote.instanceIds) (found : Dict String Properties) :
      Ends m (publish { m with tally } remote (diff m.known.remote remote).stale found, .ok true)

/-- The others are listed as listings are, without the member itself. -/
private theorem canonical_others {nodes : List Store.Node} {discard : Bool} {l : Listing}
    (h : ofNodes nodes discard = .ok l) (id : String) :
    Canonical (l.without id).entries ∧ id ∉ (l.without id).instanceIds := by
  refine ⟨canonical_without (canonical_ofNodes h) id, fun hm => ?_⟩
  obtain ⟨a, ha, hid⟩ := List.mem_map.mp hm
  exact (mem_without.mp ha).2 hid

theorem ends_conduct (m : Member) (look fetch : Answer) : Ends m (conduct m look fetch) := by
  unfold conduct
  have hlook := answers_answered m .listing look
  generalize answered m .listing look = x at hlook ⊢
  cases hlook with
  | failed tally f => exact .failed tally _
  | agreed tally _ _ _ => exact .agreed tally
  | published tally _ hof hs =>
    obtain ⟨hc, ho⟩ := canonical_others hof m.self.id
    rw [← hs]
    exact .published tally hc ho ∅
  | @found nodes l tally _ hof =>
    obtain ⟨hc, ho⟩ := canonical_others hof m.self.id
    have hfetch := answers_answered { m with tally } (.fetching (l.without m.self.id)
      (diff m.known.remote (l.without m.self.id)).stale) fetch
    simp only
    generalize answered { m with tally } _ fetch = y at hfetch ⊢
    cases hfetch with
    | failed tally f => exact .failed tally _
    | fetched tally _ => exact .published tally hc ho _

/-- A fetch ends a survey. -/
theorem answered_fetching (m : Member) (remote : Listing) (ids : List String) (fetch : Answer) :
    ∃ m' r, answered m (.fetching remote ids) fetch = (m', .over r) := by
  have h := answers_answered m (.fetching remote ids) fetch
  generalize answered m (.fetching remote ids) fetch = x at h
  cases h with
  | failed _ f => exact ⟨_, _, rfl⟩
  | fetched _ _ => exact ⟨_, _, rfl⟩

/-- A look at the announces ends a survey, or goes on with a fetch. -/
theorem answered_listing (m : Member) (look : Answer) :
    (∃ m' r, answered m .listing look = (m', .over r)) ∨
      ∃ m' remote ids, answered m .listing look = (m', .wait (.fetching remote ids)) := by
  have h := answers_answered m .listing look
  generalize answered m .listing look = x at h
  cases h with
  | failed _ f => exact .inl ⟨_, _, rfl⟩
  | agreed _ _ _ _ => exact .inl ⟨_, _, rfl⟩
  | published _ _ _ _ => exact .inl ⟨_, _, rfl⟩
  | found _ _ _ => exact .inr ⟨_, _, _, rfl⟩

/-- A look around that a member is made to do is such a survey, by what the store answers. -/
theorem lookAround_eq_conduct (w : World) (m : Member) :
    ∃ look fetch, (w.lookAround m).2 = conduct m look fetch := by
  obtain ⟨w₁, look, h₁⟩ := World.follow_wait request answered 3 w m .listing
  unfold World.lookAround conduct
  rw [World.requestLimit, h₁]
  rcases answered_listing m look with ⟨m₁, r, hr⟩ | ⟨m₁, remote, ids, hr⟩
  · refine ⟨look, look, ?_⟩
    rw [hr, World.follow_over]
    rfl
  · obtain ⟨w₂, fetch, h₂⟩ := World.follow_wait request answered 2 w₁ m₁ (.fetching remote ids)
    obtain ⟨m₂, r, hf⟩ := answered_fetching m₁ remote ids fetch
    refine ⟨look, fetch, ?_⟩
    simp only [hr, h₂, hf, World.follow_over]
    rfl

theorem matched_publish {remote : Listing} (h : m.known.Matched m.self.id)
    (hc : Canonical remote.entries) (ho : m.self.id ∉ remote.instanceIds)
    (found : Dict String Properties) :
    (publish m remote (diff m.known.remote remote).stale found).known.Matched m.self.id := by
  refine ⟨hc, ho, fun id => ?_⟩
  rw [Dict.mem_keys_iff, find?_publish_eq]
  show _ ↔ id ∈ remote.instanceIds
  by_cases hs : id ∈ (diff m.known.remote remote).stale
  · have hm : id ∈ remote.instanceIds :=
      (perm_diff m.known.remote remote).subset (List.mem_append_left _ hs)
    simp [hs, hm]
  · rw [if_neg hs]
    by_cases hr : id ∈ remote.instanceIds
    · rw [if_pos (contains_iff.mpr hr), ← Dict.mem_keys_iff, h.keys]
      obtain ⟨a, ha, rfl⟩ := List.mem_map.mp hr
      obtain ⟨b, hb, hid, -⟩ := kept_of_not_mem_stale ha hs
      exact iff_of_true (hid ▸ List.mem_map_of_mem hb) hr
    · rw [if_neg fun hcon => hr (contains_iff.mp hcon)]
      simp [hr]

theorem follows_publish {remote : Listing} (hc : Canonical remote.entries)
    (found : Dict String Properties) :
    (publish m remote (diff m.known.remote remote).stale found).known.Follows m.known := by
  refine ⟨describes_diff _ hc, fun {id b a} hb ha hi => ?_⟩
  have ha : remote.get? id = some a := ha
  obtain ⟨hm, rfl⟩ := mem_of_get? ha
  rw [find?_publish (contains_of_mem hm), if_neg (not_mem_stale hc hb ha hi)]

/-! ## Surveys one after another -/

/-- A survey keeps who the member is, and that it holds properties of exactly those listed. -/
theorem matched_conduct (h : m.known.Matched m.self.id) (look fetch : Answer) :
    (conduct m look fetch).1.self = m.self ∧ (conduct m look fetch).1.known.Matched m.self.id := by
  have he := ends_conduct m look fetch
  generalize conduct m look fetch = x at he ⊢
  cases he with
  | failed tally _ => exact ⟨rfl, h⟩
  | agreed tally => exact ⟨rfl, h⟩
  | published tally hc ho found => exact ⟨rfl, matched_publish h hc ho found⟩

/-- The member after surveys, by what was answered. -/
def conductAll (m : Member) (answers : List (Answer × Answer)) : Member :=
  answers.foldl (fun m a => (conduct m a.1 a.2).1) m

theorem matched_conductAll (h : m.known.Matched m.self.id) (answers : List (Answer × Answer)) :
    (conductAll m answers).self = m.self ∧ (conductAll m answers).known.Matched m.self.id := by
  induction answers generalizing m with
  | nil => exact ⟨rfl, h⟩
  | cons a answers ih =>
    obtain ⟨hself, hm⟩ := matched_conduct h a.1 a.2
    rw [← hself]
    exact ih (hself ▸ hm)

/-- A member that knew of nobody and has surveyed any number of times, whatever the store answered,
holds properties of exactly the others that it knows to be listed. So it does after one survey more;
that survey leaves what is known as it was unless it finds a change, and then tells the instances
listed by what changed, and leaves the properties of those whose index did not change. Whatever a
member is made to do by a look around is such a survey. -/
theorem conduct_matched (m : Member) (answers : List (Answer × Answer)) :
    let before := conductAll { m with known := m.known.publish {} ∅ } answers
    (∀ look fetch, let (after, result) := conduct before look fetch
      after.known.Matched m.self.id ∧
      (result ≠ .ok true → after.known = before.known) ∧
      (result = .ok true → after.known.Follows before.known)) ∧
    ∀ w : World, ∃ look fetch, (w.lookAround before).2 = conduct before look fetch := by
  have halone : ({ m with known := m.known.publish {} ∅ } : Member).known.Matched m.self.id :=
    ⟨⟨.nil, .nil⟩, List.not_mem_nil, fun _ => .rfl⟩
  intro before
  obtain ⟨hself, hbefore⟩ := matched_conductAll halone answers
  have hself : before.self = m.self := hself
  refine ⟨fun look fetch => ?_, fun w => lookAround_eq_conduct w before⟩
  have hafter := (matched_conduct (by rw [hself]; exact hbefore) look fetch).2
  rw [hself] at hafter
  have he := ends_conduct before look fetch
  generalize conduct before look fetch = x at he hafter
  refine ⟨hafter, ?_⟩
  cases he with
  | failed tally _ => exact ⟨fun _ => rfl, nofun⟩
  | agreed tally => exact ⟨fun _ => rfl, fun h => nomatch h⟩
  | published tally hc ho found => exact ⟨fun h => absurd rfl h, fun _ => follows_publish hc found⟩

end Survey

end Rollcall
