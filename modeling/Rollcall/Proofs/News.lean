import Mathlib.Data.List.Nodup
import Mathlib.Data.List.SplitBy
import Rollcall.Board
import Rollcall.Proofs.Dict
import Rollcall.Proofs.View

/-!
# What counts as news

A board compares two views by their members, by the properties of the instances and by the cluster
ids, not by the clusters themselves. For views made for one member nothing is lost by that: the
leaders tell where one cluster ends and the next one begins, so the clusters can be read back from
what is compared.
-/

namespace Rollcall

open Listing

/-- A cluster with other properties of its instances. -/
def Cluster.fill (c : Cluster) (properties : String → Properties) : Cluster :=
  { c with instances := c.instances.map fun i => { i with properties := properties i.id } }

/-- A cluster without the properties of its instances. -/
def Cluster.bare (c : Cluster) : Cluster := c.fill fun _ => ∅

/-- A cluster is told by what it is without the properties, and by these. -/
theorem Cluster.fill_bare {c : Cluster} {properties : String → Properties}
    (h : ∀ i ∈ c.instances, i.properties = properties i.id) : c.bare.fill properties = c := by
  simp only [bare, fill, List.map_map, Function.comp_def]
  congr 1
  conv_rhs => rw [← List.map_id c.instances]
  exact List.map_congr_left fun i hi => by simp [← h i hi]

namespace View

/-- A view as it is made for a member: of a listing, of the member alone, or before anything is
known; other views may have come since. -/
inductive MadeFor (localId : String) : View → Prop
  | built {l : Listing} (hc : Canonical l.entries) {properties : Dict String Properties}
    {current : Bool} {v : View} (h : build l properties localId current = .ok v) :
    MadeFor localId v
  | isolated {data : Payload} (h : data.instanceId = localId) (properties : Properties) :
    MadeFor localId (isolated data properties)
  | undefined : MadeFor localId (undefined localId)
  | old {v : View} (h : MadeFor localId v) : MadeFor localId v.old

/-- What holds of the clusters of every view made for a member. -/
structure Grouped (localId : String) (clusters : List Cluster) : Prop where
  /-- The first instance leads, and no other one. -/
  led : ∀ c ∈ clusters, ∃ i rest, c.instances = i :: rest ∧ i.leader = true ∧
    ∀ j ∈ rest, j.leader = false
  inside : ∀ c ∈ clusters, ∀ i ∈ c.instances, i.clusterId = c.id
  marked : ∀ c ∈ clusters, ∀ i ∈ c.instances, i.isLocal = decide (i.id = localId)
  /-- No instance is shown twice. -/
  distinct : ((clusters.flatMap Cluster.instances).map Instance.id).Nodup

theorem mem_distinct {l : List String} {s : String} (h : s ∈ View.distinct l) : s ∈ l := by
  induction l with
  | nil => exact h
  | cons a l ih =>
    rcases List.mem_cons.mp h with rfl | h
    · exact .head _
    · exact .tail _ (ih (List.mem_filter.mp h).1)

theorem nodup_distinct (l : List String) : (View.distinct l).Nodup := by
  induction l with
  | nil => exact .nil
  | cons a l ih =>
    refine List.nodup_cons.mpr ⟨fun h => ?_, ih.filter _⟩
    simpa using (List.mem_filter.mp h).2

theorem map_members {α : Type} {f : Instance → α} {g : Announce → α}
    {properties : Dict String Properties} {localId : String}
    (h : ∀ leader a, f (instanceOf properties localId leader a) = g a) (l : List Announce) :
    (members properties localId l).map f = l.map g := by
  cases l with
  | nil => rfl
  | cons a rest =>
    rw [members, List.map_cons, List.map_cons, List.map_map, h]
    exact congrArg _ (List.map_congr_left fun b _ => h false b)

private theorem led_members (properties : Dict String Properties) (localId : String)
    {l : List Announce} (h : l ≠ []) :
    ∃ i rest, members properties localId l = i :: rest ∧ i.leader = true ∧
      ∀ j ∈ rest, j.leader = false := by
  cases l with
  | nil => exact absurd rfl h
  | cons a rest =>
    refine ⟨_, _, rfl, rfl, fun j hj => ?_⟩
    obtain ⟨b, -, rfl⟩ := List.mem_map.mp hj
    rfl

/-- The announces of a canonical listing make well-formed clusters. -/
theorem grouped_group {l : List Announce} (hc : Canonical l) (properties : Dict String Properties)
    (localId : String) : Grouped localId (group properties localId l) where
  led c hm := by
    obtain ⟨id, hid, rfl⟩ := List.mem_map.mp hm
    obtain ⟨a, ha, rfl⟩ := List.mem_map.mp (mem_distinct hid)
    refine led_members properties localId (List.ne_nil_of_mem (a := a) ?_)
    exact List.mem_filter.mpr ⟨ha, by simp⟩
  inside c hm i hi := by
    obtain ⟨id, -, rfl⟩ := List.mem_map.mp hm
    have hi : i.clusterId ∈ (l.filter fun a => a.clusterId = id).map Announce.clusterId := by
      have hmap : (members properties localId (l.filter fun a => a.clusterId = id)).map
          Instance.clusterId = (l.filter fun a => a.clusterId = id).map Announce.clusterId :=
        map_members (fun _ _ => rfl) _
      exact hmap ▸ List.mem_map_of_mem hi
    obtain ⟨a, ha, hai⟩ := List.mem_map.mp hi
    rw [← hai]
    simpa using (List.mem_filter.mp ha).2
  marked c hm i hi := by
    obtain ⟨id, -, rfl⟩ := List.mem_map.mp hm
    exact (shown_members hi).1
  distinct := by
    have hids : ((group properties localId l).flatMap Cluster.instances).map Instance.id =
        (View.distinct (l.map Announce.clusterId)).flatMap fun c =>
          (l.filter fun a => a.clusterId = c).map Announce.instanceId := by
      rw [group, List.flatMap_map, List.map_flatMap]
      exact List.flatMap_congr fun c _ => map_members (fun _ _ => rfl) _
    rw [hids, List.nodup_flatMap]
    refine ⟨fun c _ => hc.nodup_instanceIds.sublist (List.filter_sublist.map _), ?_⟩
    -- An announce in two clusters would be two announces of one instance.
    refine (nodup_distinct _).imp fun {c d} hne => ?_
    refine List.disjoint_left.mpr fun id hcid hdid => ?_
    obtain ⟨a, ha, rfl⟩ := List.mem_map.mp hcid
    obtain ⟨b, hb, hba⟩ := List.mem_map.mp hdid
    obtain ⟨hal, hac⟩ := List.mem_filter.mp ha
    obtain ⟨hbl, hbd⟩ := List.mem_filter.mp hb
    rw [hc.eq_of_instanceId hbl hal hba] at hbd
    simp only [decide_eq_true_eq] at hac hbd
    exact hne (hac.symm.trans hbd)

/-- A member alone makes a well-formed cluster. -/
theorem grouped_isolated (data : Payload) (properties : Properties) :
    Grouped data.instanceId (isolated data properties).clusters where
  led := by simp [isolated]
  inside := by simp [isolated]
  marked := by simp [isolated]
  distinct := by simp [isolated]

/-- Every view made for a member has well-formed clusters. -/
theorem MadeFor.grouped {localId : String} {v : View} (h : MadeFor localId v) :
    Grouped localId v.clusters := by
  induction h with
  | built hc h => rw [clusters_of_build h]; exact grouped_group hc _ localId
  | isolated h properties => exact h ▸ grouped_isolated _ properties
  | undefined => exact grouped_isolated ⟨localId, "", undefinedCluster, 0⟩ ∅
  | old _ ih => exact ih

/-- The clusters that memberships tell, without properties: each begins with a leader. -/
def clustersOf (localId : String) (ms : List (String × String × String × Bool)) : List Cluster :=
  (ms.splitBy fun _ m => !m.2.2.2).map fun g => {
    id := (g.head?.map fun m => m.2.1).getD ""
    instances := g.map fun m => {
      id := m.1, clusterId := m.2.1, serverInfo := m.2.2.1, leader := m.2.2.2
      isLocal := m.1 = localId, properties := ∅ } }

section

variable {localId : String} {v w : View}

/-- The members of the clusters are the memberships, cut in front of the leaders. -/
theorem Grouped.splitBy_memberships (h : Grouped localId v.clusters) :
    v.memberships.splitBy (fun _ m => !m.2.2.2) = v.clusters.map fun c =>
      c.instances.map fun i => (i.id, i.clusterId, i.serverInfo, i.leader) := by
  have hflat : v.memberships = (v.clusters.map fun c =>
      c.instances.map fun i => (i.id, i.clusterId, i.serverInfo, i.leader)).flatten := by
    rw [memberships, instances, List.map_flatMap, List.flatMap_def]
  rw [hflat]
  refine List.splitBy_flatten ?_ ?_ ?_
  · intro hn
    obtain ⟨c, hc, hnil⟩ := List.mem_map.mp hn
    obtain ⟨i, rest, hi, -⟩ := h.led c hc
    simp [hi] at hnil
  · intro g hg
    obtain ⟨c, hc, rfl⟩ := List.mem_map.mp hg
    obtain ⟨i, rest, hi, -, hrest⟩ := h.led c hc
    rw [hi, List.map_cons]
    refine List.Pairwise.isChain (List.pairwise_cons.mpr ⟨?_, ?_⟩)
    · intro m hm
      obtain ⟨j, hj, rfl⟩ := List.mem_map.mp hm
      simp [hrest j hj]
    · refine List.pairwise_map.mpr (List.pairwise_of_forall_mem_list ?_)
      intro j _ k hk
      simp [hrest k hk]
  · refine List.Pairwise.isChain (List.pairwise_map.mpr (List.pairwise_of_forall_mem_list ?_))
    intro c hc d hd
    obtain ⟨i, rest, hi, -⟩ := h.led c hc
    obtain ⟨j, rest', hj, hlead, -⟩ := h.led d hd
    exact ⟨by simp [hi], by simp [hj], by simp [hj, hlead]⟩

/-- But for the properties, the clusters can be read back from the memberships. -/
theorem Grouped.clustersOf_memberships (h : Grouped localId v.clusters) :
    clustersOf localId v.memberships = v.clusters.map Cluster.bare := by
  rw [clustersOf, h.splitBy_memberships, List.map_map]
  refine List.map_congr_left fun c hc => ?_
  obtain ⟨i, rest, hi, -⟩ := h.led c hc
  have hid : i.clusterId = c.id := h.inside c hc i (hi ▸ .head _)
  simp only [Function.comp_apply, Cluster.bare, Cluster.fill, List.map_map]
  refine Cluster.mk.injEq .. ▸ ⟨by simp [hi, hid], List.map_congr_left fun j hj => ?_⟩
  simp [← h.marked c hc j hj]

/-- The properties of an instance are found under its id. -/
theorem Grouped.find?_propertiesById (h : Grouped localId v.clusters) {i : Instance}
    (hi : i ∈ v.instances) : v.propertiesById.find? i.id = some i.properties := by
  rw [propertiesById]
  refine Dict.find?_ofList_of_nodup ?_ (List.mem_map_of_mem hi)
  rw [List.map_map]
  exact h.distinct

/-- The clusters are told by the memberships and the properties. -/
theorem Grouped.clusters_eq (h : Grouped localId v.clusters) :
    v.clusters = (clustersOf localId v.memberships).map fun c =>
      c.fill fun id => (v.propertiesById.find? id).getD ∅ := by
  rw [h.clustersOf_memberships, List.map_map]
  conv_lhs => rw [← List.map_id v.clusters]
  refine List.map_congr_left fun c hc => ?_
  rw [id_eq, Function.comp_apply, Cluster.fill_bare fun i hi => ?_]
  rw [h.find?_propertiesById (List.mem_flatMap.mpr ⟨c, hc, hi⟩), Option.getD_some]

private theorem clusterIds_eq (h : v.clusters.map Cluster.bare = w.clusters.map Cluster.bare) :
    v.clusterIds = w.clusterIds := by
  have hids : ∀ u : View, (u.clusters.map fun c => (c.id, ())) =
      (u.clusters.map Cluster.bare).map fun c => (c.id, ()) := fun u => by
    rw [List.map_map]; rfl
  rw [clusterIds, clusterIds, hids, hids, h]

/-- Two views made for one member have the same members if and only if their clusters are the same
but for the properties. -/
theorem memberships_eq_iff (hv : Grouped localId v.clusters) (hw : Grouped localId w.clusters) :
    v.memberships = w.memberships ↔ v.clusters.map Cluster.bare = w.clusters.map Cluster.bare := by
  constructor
  · intro h
    rw [← hv.clustersOf_memberships, ← hw.clustersOf_memberships, h]
  · intro h
    have hm : ∀ u : View, u.memberships = (u.clusters.map Cluster.bare).flatMap fun c =>
        c.instances.map fun i => (i.id, i.clusterId, i.serverInfo, i.leader) := fun u => by
      simp [memberships, instances, List.map_flatMap, List.flatMap_map, Cluster.bare, Cluster.fill,
        Function.comp_def]
    rw [hm, hm, h]

/-- Two views made for one member have the same clusters if and only if they have the same members
with the same properties. -/
theorem clusters_eq_iff (hv : Grouped localId v.clusters) (hw : Grouped localId w.clusters) :
    v.clusters = w.clusters ↔
      v.memberships = w.memberships ∧ v.propertiesById = w.propertiesById := by
  constructor
  · intro h
    simp only [memberships, propertiesById, instances, h, and_self]
  · rintro ⟨hm, hp⟩
    rw [hv.clusters_eq, hw.clusters_eq, hm, hp]

/-- Views with different cluster ids have different members. -/
theorem membersDiffer_of_clusterIdsDiffer (hv : MadeFor localId v) (hw : MadeFor localId w)
    (h : v.clusterIdsDiffer w = true) : v.membersDiffer w = true := by
  simp only [clusterIdsDiffer, membersDiffer, ne_eq, decide_not, Bool.not_eq_true',
    decide_eq_false_iff_not] at h ⊢
  exact fun hm => h (clusterIds_eq ((memberships_eq_iff hv.grouped hw.grouped).mp hm))

end

end View

namespace Board

open View

variable {localId : String} {b : Board} {w : View}

/-- A view is no news if and only if it is the held one in every cluster and in being current. -/
theorem isNews_eq_false_iff (hv : MadeFor localId b.view) (hw : MadeFor localId w) :
    b.isNews w = false ↔ b.view.current = w.current ∧ b.view.clusters = w.clusters := by
  have hids : b.view.memberships = w.memberships → b.view.clusterIds = w.clusterIds := fun h =>
    clusterIds_eq ((memberships_eq_iff hv.grouped hw.grouped).mp h)
  rw [clusters_eq_iff hv.grouped hw.grouped]
  simp only [isNews, membersDiffer, propertiesDiffer, clusterIdsDiffer, Bool.or_eq_false_iff,
    decide_eq_false_iff_not, not_not]
  constructor
  · rintro ⟨⟨⟨hm, hp⟩, -⟩, hc⟩
    exact ⟨hc, hm, hp⟩
  · rintro ⟨hc, hm, hp⟩
    exact ⟨⟨⟨hm, hp⟩, hids hm⟩, hc⟩

private theorem held_of_propertiesChanged {held new : View} {c : Change} (hc : c ∈ changes held new)
    (hk : c.kind = .propertiesChanged) :
    held.current = true ∧ new.current = true ∧ held.membersDiffer new = false := by
  rcases List.mem_append.mp hc with hc | hc
  · split at hc
    · rw [List.mem_singleton.mp hc] at hk
      cases hk
    · cases hc
  · split at hc
    · next hnew =>
      rw [List.mem_singleton.mp hc] at hk
      dsimp only at hk
      split at hk
      · cases hk
      · next h =>
        simp only [Bool.or_eq_true, Bool.not_eq_true', not_or, Bool.not_eq_true,
          Bool.not_eq_false] at h
        exact ⟨h.2, hnew, h.1.1⟩
    · cases hc

/-- A listener that is told of changed properties hears of the held view and the new one. -/
theorem changes_of_propertiesChanged {b' : Board} {notices : List Notice}
    (h : b.post w = some (b', notices)) {n : Notice} (hn : n ∈ notices)
    (hk : n.change.kind = .propertiesChanged) :
    b.view.current = true ∧ w.current = true ∧ b.view.memberships = w.memberships := by
  rw [post] at h
  split at h
  · cases h
    rcases List.mem_append.mp hn with hn | hn
    · obtain ⟨x, -, hn⟩ := List.mem_flatMap.mp hn
      obtain ⟨c, hc, rfl⟩ := List.mem_map.mp hn
      obtain ⟨hheld, hnew, hm⟩ := held_of_propertiesChanged hc hk
      exact ⟨hheld, hnew, by simpa [membersDiffer] using hm⟩
    · split at hn
      · obtain ⟨x, -, rfl⟩ := List.mem_map.mp hn
        cases hk
      · cases hn
  · cases h

/-- A view posted for the member whose view is held is dropped if and only if it shows the same
clusters, with the same instances in the same order, and is as current as the held one; otherwise it
is held from then on. Listeners are told of changed properties only if both views are current and
show the same clusters but for the properties, and views with different cluster ids have different
members. -/
theorem post_drops_only_the_same (hv : MadeFor localId b.view) (hw : MadeFor localId w) :
    (b.post w = none ↔ b.view.current = w.current ∧ b.view.clusters = w.clusters) ∧
    (∀ b' notices, b.post w = some (b', notices) → b'.view = w ∧
      ∀ n ∈ notices, n.change.kind = .propertiesChanged →
        b.view.current = true ∧ w.current = true ∧
          b.view.clusters.map Cluster.bare = w.clusters.map Cluster.bare) ∧
    (b.view.clusterIdsDiffer w = true → b.view.membersDiffer w = true) := by
  refine ⟨?_, fun b' notices h => ⟨?_, fun n hn hk => ?_⟩, membersDiffer_of_clusterIdsDiffer hv hw⟩
  · rw [← isNews_eq_false_iff hv hw, post]
    split
    · next h => simp [h]
    · next h => simp [h]
  · rw [post] at h
    split at h
    · cases h; rfl
    · cases h
  · obtain ⟨hheld, hnew, hm⟩ := changes_of_propertiesChanged h hn hk
    exact ⟨hheld, hnew, (memberships_eq_iff hv.grouped hw.grouped).mp hm⟩

/-- A listing of two instances in one cluster and a third in another one. -/
def threeListed : Listing := ofList [
  ⟨"/b/3", ⟨"x", "", "c", 0⟩, some 4, by decide⟩,
  ⟨"/b/7", ⟨"y", "", "d", 0⟩, some 9, by decide⟩,
  ⟨"/b/9", ⟨"z", "", "c", 0⟩, some 9, by decide⟩]

/-- What one of the three shows. -/
def threeShown (properties : Dict String Properties) : View where
  announces := threeListed
  clusters := group properties "x" threeListed.entries
  localId := "x"
  current := true

/-- One of the three learns of a property of another one. -/
theorem post_of_new_property :
    let old := threeShown ∅
    let new := threeShown (Dict.ofList [("z", Dict.ofList [("role", "standby")])])
    MadeFor "x" old ∧ MadeFor "x" new ∧
      ∃ b' notices, Board.post { view := old, bindings := [⟨0, true⟩] } new = some (b', notices) ∧
        notices.map (fun n => n.change.kind) = [.changing, .propertiesChanged] ∧
        b'.view = new ∧ old.clusters.map Cluster.bare = new.clusters.map Cluster.bare := by
  intro old new
  have hc := canonical_ofList
  have hl : threeListed.contains "x" = true := by decide
  have hold : MadeFor "x" old := .built (hc _) (build_of_canonical (hc _) hl ∅ true)
  have hnew : MadeFor "x" new := .built (hc _) (build_of_canonical (hc _) hl _ true)
  refine ⟨hold, hnew, _, _, rfl, by decide, ?_⟩
  have hpost := post_drops_only_the_same (b := { view := old, bindings := [⟨0, true⟩] }) hold hnew
  obtain ⟨hview, htold⟩ := hpost.2.1 _ _ rfl
  exact ⟨hview, (htold ⟨0, _⟩ (.tail _ (.head _)) rfl).2.2⟩

end Board

end Rollcall
