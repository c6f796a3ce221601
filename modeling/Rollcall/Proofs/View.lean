import Rollcall.Proofs.Announce
import Rollcall.Proofs.Listing
import Rollcall.View

/-!
# What two members see of one listing

Members that found the same announces show the same clusters with the same instances in the same
order, led by the same ones. What a view owes to the member that shows it is the mark on that
member and the properties it knows.
-/

namespace Rollcall

namespace View

open Listing

/-- The clusters of a view by what does not hang on who shows it: of each instance its id, its
cluster, its endpoint and whether it leads. -/
def outline (v : View) : List (String × List (String × String × String × Bool)) :=
  v.clusters.map fun c =>
    (c.id, c.instances.map fun i => (i.id, i.clusterId, i.serverInfo, i.leader))

/-- The clusters of a view with the instances that lead them. -/
def leaders (v : View) : List (String × Option String) :=
  v.clusters.map fun c => (c.id, c.leader.map Instance.id)

/-- A view marks one member as the local one and shows every instance with the properties known. -/
def ShownBy (v : View) (localId : String) (properties : Dict String Properties) : Prop :=
  ∀ i ∈ v.instances, i.isLocal = decide (i.id = localId) ∧
    i.properties = (properties.find? i.id).getD ∅

/-- A canonical listing with the local instance has a view. -/
theorem build_of_canonical {l : Listing} (hc : Canonical l.entries) {localId : String}
    (h : l.contains localId = true) (properties : Dict String Properties) (current : Bool) :
    build l properties localId current = .ok {
      announces := l, localId, current, clusters := group properties localId l.entries } := by
  have hone := countP_instanceId hc h
  have hn : l.entries.isEmpty = false := by
    cases hl : l.entries with
    | nil => rw [hl] at hone; simp at hone
    | cons a l => rfl
  rw [build, hn, hone]
  rfl

/-- What an announce says of its instance, and whether the instance leads. -/
private def outlineOf (leader : Bool) (a : Announce) : String × String × String × Bool :=
  (a.instanceId, a.clusterId, a.data.serverInfo, leader)

private theorem outline_members (properties : Dict String Properties) (localId : String)
    (l : List Announce) :
    (members properties localId l).map (fun i => (i.id, i.clusterId, i.serverInfo, i.leader)) =
      match l with
      | [] => []
      | a :: rest => outlineOf true a :: rest.map (outlineOf false) := by
  cases l with
  | nil => rfl
  | cons a rest =>
    rw [members, List.map_cons, List.map_map]
    rfl

/-- The outline of a view hangs on the announces alone. -/
theorem outline_group (p q : Dict String Properties) (x y : String) (l : List Announce) :
    (group p x l).map (fun c =>
        (c.id, c.instances.map fun i => (i.id, i.clusterId, i.serverInfo, i.leader))) =
      (group q y l).map fun c =>
        (c.id, c.instances.map fun i => (i.id, i.clusterId, i.serverInfo, i.leader)) := by
  simp only [group, List.map_map]
  apply List.map_congr_left
  intro c _
  simp only [Function.comp_apply, outline_members]

private theorem leader_eq_outline (c : Cluster) :
    c.leader.map Instance.id =
      (c.instances.map fun i =>
        (i.id, i.clusterId, i.serverInfo, i.leader)).head?.map Prod.fst := by
  rw [Cluster.leader]
  cases c.instances <;> rfl

/-- Views of one outline have the same leaders. -/
theorem leaders_eq_of_outline {v w : View} (h : v.outline = w.outline) : v.leaders = w.leaders := by
  have hl : ∀ u : View, u.leaders = u.outline.map fun c => (c.1, c.2.head?.map Prod.fst) := by
    intro u
    rw [leaders, outline, List.map_map]
    exact List.map_congr_left fun c _ => by simp only [Function.comp_apply, leader_eq_outline]
  rw [hl v, hl w, h]

/-- Every member of a cluster is shown with the mark and the properties that are its own. -/
theorem shown_members {properties : Dict String Properties} {localId : String}
    {l : List Announce} {i : Instance} (h : i ∈ members properties localId l) :
    i.isLocal = decide (i.id = localId) ∧ i.properties = (properties.find? i.id).getD ∅ := by
  cases l with
  | nil => simp [members] at h
  | cons a rest =>
    rcases List.mem_cons.mp h with rfl | h
    · exact ⟨rfl, rfl⟩
    · obtain ⟨b, _, rfl⟩ := List.mem_map.mp h
      exact ⟨rfl, rfl⟩

/-- The clusters of a view that is built. -/
theorem clusters_of_build {l : Listing} {properties : Dict String Properties}
    {localId : String} {current : Bool} {v : View}
    (h : build l properties localId current = .ok v) :
    v.clusters = group properties localId l.entries := by
  unfold build at h
  split at h
  · cases h
  · split at h <;> cases h
    rfl

/-- A view that is built marks its own member and shows the properties it was given. -/
theorem shownBy_of_build {l : Listing} {properties : Dict String Properties} {localId : String}
    {current : Bool} {v : View} (h : build l properties localId current = .ok v) :
    v.ShownBy localId properties := by
  intro i hi
  rw [instances, clusters_of_build h] at hi
  obtain ⟨c, hc, hi⟩ := List.mem_flatMap.mp hi
  obtain ⟨id, _, rfl⟩ := List.mem_map.mp hc
  exact shown_members hi

/-- Members that see the same listing agree. Taking out the own announce and merging it back leaves
the listing as it was, both views are built from it, and they have the same clusters, the same
instances in the same order and the same leaders. They differ in the local mark and, where the
properties known differ, in the properties. -/
theorem views_of_one_listing {nodes : List Store.Node} {u : Listing}
    (h : Listing.ofNodes nodes true = .ok u) {x y : String} (hx : u.contains x = true)
    (hy : u.contains y = true) (p q : Dict String Properties) (cx cy : Bool) :
    (u.without x).withAnnounce (u.get? x) = u ∧ (u.without y).withAnnounce (u.get? y) = u ∧
      ∃ v w, build ((u.without x).withAnnounce (u.get? x)) p x cx = .ok v ∧
        build ((u.without y).withAnnounce (u.get? y)) q y cy = .ok w ∧
        v.outline = w.outline ∧ v.leaders = w.leaders ∧ v.ShownBy x p ∧ w.ShownBy y q := by
  have hc := canonical_ofNodes h
  have hux := without_withAnnounce hc hx
  have huy := without_withAnnounce hc hy
  have hv := build_of_canonical hc hx p cx
  have hw := build_of_canonical hc hy q cy
  refine ⟨hux, huy, _, _, by rw [hux]; exact hv, by rw [huy]; exact hw, ?_, ?_,
    shownBy_of_build hv, shownBy_of_build hw⟩
  · exact outline_group p q x y u.entries
  · exact leaders_eq_of_outline (outline_group p q x y u.entries)

/-- Four announces of two instances: one is overdue, and one stands behind another of its
instance. -/
def fourAnnounces : List Announce := [
  ⟨"/a/7", ⟨"y", "", "c", 0⟩, some 9, by decide⟩,
  ⟨"/a/3", ⟨"x", "", "c", 0⟩, some 4, by decide⟩,
  ⟨"/a/5", ⟨"y", "", "d", 0⟩, some 0, by decide⟩,
  ⟨"/a/9", ⟨"x", "", "d", 0⟩, none, by decide⟩]

/-- What both members see of the four announces. -/
theorem views_of_four_announces :
    ∃ u : Listing, Listing.ofNodes (fourAnnounces.map Announce.node) true = .ok u ∧
      u.entries.map Announce.key = ["/a/3", "/a/7"] ∧
      u.contains "x" = true ∧ u.contains "y" = true ∧
      (u.without "x").withAnnounce (u.get? "x") = u ∧
      (u.without "y").withAnnounce (u.get? "y") = u ∧
      ∃ v w, build ((u.without "x").withAnnounce (u.get? "x")) ∅ "x" true = .ok v ∧
        build ((u.without "y").withAnnounce (u.get? "y")) ∅ "y" false = .ok w ∧
        v.outline = w.outline ∧ v.leaders = w.leaders ∧ v.ShownBy "x" ∅ ∧ w.ShownBy "y" ∅ := by
  let u : Listing := ⟨[
    ⟨"/a/3", ⟨"x", "", "c", 0⟩, some 4, by decide⟩,
    ⟨"/a/7", ⟨"y", "", "c", 0⟩, some 9, by decide⟩]⟩
  have hu : Listing.ofNodes (fourAnnounces.map Announce.node) true = .ok u := by
    rw [ofNodes, readNodes_map_node (by decide)]
    refine congrArg Except.ok ?_
    decide
  refine ⟨u, hu, rfl, by decide, by decide, ?_⟩
  exact views_of_one_listing hu (by decide) (by decide) ∅ ∅ true false

/-! ## Who leads -/

/-- Whether a view shows an instance as the leader of a cluster. -/
def namesLeader (v : View) (clusterId instanceId : String) : Bool :=
  v.memberships.any fun x => x.1 = instanceId && x.2.1 = clusterId && x.2.2.2

private theorem head?_of_leader {properties : Dict String Properties} {localId : String}
    {l : List Announce} {i : Instance} (h : i ∈ members properties localId l)
    (hl : i.leader = true) :
    ∃ a, l.head? = some a ∧ i.id = a.instanceId ∧ i.clusterId = a.clusterId := by
  cases l with
  | nil => simp [members] at h
  | cons a rest =>
    rcases List.mem_cons.mp h with rfl | h
    · exact ⟨a, rfl, rfl, rfl⟩
    · obtain ⟨b, _, rfl⟩ := List.mem_map.mp h
      cases hl

/-- The leader of a cluster has the first announce in it. -/
theorem head?_of_namesLeader {l : Listing} {properties : Dict String Properties} {localId : String}
    {current : Bool} {v : View} (h : build l properties localId current = .ok v)
    {clusterId instanceId : String} (hn : v.namesLeader clusterId instanceId = true) :
    ∃ a, (l.entries.filter fun a => a.clusterId = clusterId).head? = some a ∧
      a.instanceId = instanceId := by
  obtain ⟨x, hx, hn⟩ := List.any_eq_true.mp hn
  obtain ⟨i, hi, rfl⟩ := List.mem_map.mp hx
  rw [instances, clusters_of_build h] at hi
  obtain ⟨c, hc, hi⟩ := List.mem_flatMap.mp hi
  obtain ⟨k, _, rfl⟩ := List.mem_map.mp hc
  simp only [Bool.and_eq_true, decide_eq_true_eq] at hn
  obtain ⟨⟨hid, hcluster⟩, hl⟩ := hn
  obtain ⟨a, ha, hai, hac⟩ := head?_of_leader hi hl
  have hk : a.clusterId = k := by simpa using (List.mem_filter.mp (List.mem_of_head? ha)).2
  rw [hcluster] at hac
  rw [← hk, ← hac] at ha
  exact ⟨a, ha, hai.symm.trans hid⟩

/-- An instance whose announces all stand behind another one of its cluster does not lead it. -/
theorem not_namesLeader {l : Listing} (hc : Canonical l.entries)
    {properties : Dict String Properties} {localId : String} {current : Bool} {v : View}
    (h : build l properties localId current = .ok v) {b : Announce} (hb : b ∈ l.entries)
    {instanceId : String} (hx : ∀ a ∈ l.entries, a.instanceId = instanceId → b.name < a.name) :
    v.namesLeader b.clusterId instanceId = false := by
  rw [Bool.eq_false_iff]
  intro hn
  obtain ⟨a, ha, hai⟩ := head?_of_namesLeader h hn
  have hlt := hx a (List.mem_filter.mp (List.mem_of_head? ha)).1 hai
  have hb : b ∈ l.entries.filter fun a => a.clusterId = b.clusterId :=
    List.mem_filter.mpr ⟨hb, by simp⟩
  have hs := hc.sorted.filter fun a => a.clusterId = b.clusterId
  obtain ⟨rest, hr⟩ := List.head?_eq_some_iff.mp ha
  rw [hr] at hb hs
  rcases List.mem_cons.mp hb with rfl | hb
  · omega
  · have hle := Announce.name_le_of_precedes ((List.pairwise_cons.mp hs).1 b hb)
    omega

end View

end Rollcall
