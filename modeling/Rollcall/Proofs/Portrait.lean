import Rollcall.Proofs.News

/-!
# What a view shows of a listing

A listing has a view for every instance that it lists, and for no other one. The view shows each
announce once, in the cluster that it names: clusters stand in the order in which they are first
named, and within a cluster the announces in the order of the listing, led by the first one. The
view of announces taken in one after another is the view of them all.
-/

namespace Rollcall

namespace Listing

/-- A listing as it comes about: of any announces, of the nodes of a store, or of what another one
lists without an instance. -/
inductive Made : Listing → Prop
  | ofList (l : List Announce) : Made (ofList l)
  | ofNodes {nodes : List Store.Node} {discardExpired : Bool} {l : Listing}
    (h : ofNodes nodes discardExpired = .ok l) : Made l
  | without {l : Listing} (h : Made l) (id : String) : Made (l.without id)

theorem Made.canonical {l : Listing} (h : Made l) : Canonical l.entries := by
  induction h with
  | ofList l => exact canonical_ofList l
  | ofNodes h => exact canonical_ofNodes h
  | without _ id ih => exact canonical_without ih id

end Listing

namespace View

open Listing

variable {properties : Dict String Properties} {localId : String} {l : List Announce}

/-! ## The order of the clusters -/

theorem mem_distinct_iff {l : List String} {s : String} : s ∈ distinct l ↔ s ∈ l := by
  refine ⟨mem_distinct, fun h => ?_⟩
  induction l with
  | nil => cases h
  | cons a l ih =>
    rw [distinct, List.mem_cons, List.mem_filter]
    by_cases hs : s = a
    · exact .inl hs
    · exact .inr ⟨ih ((List.mem_cons.mp h).resolve_left hs), by simpa using hs⟩

/-- Values stand in the order of their first occurrences. -/
theorem pairwise_idxOf_distinct (l : List String) :
    (distinct l).Pairwise fun s t => l.idxOf s < l.idxOf t := by
  induction l with
  | nil => exact .nil
  | cons a l ih =>
    have hne : ∀ s ∈ (distinct l).filter (· ≠ a), s ≠ a := fun s hs => by
      simpa using (List.mem_filter.mp hs).2
    refine List.pairwise_cons.mpr ⟨fun t ht => ?_, ?_⟩
    · rw [List.idxOf_cons_self, List.idxOf_cons_ne l (hne t ht).symm]
      exact Nat.succ_pos _
    · refine (ih.filter _).imp_of_mem fun {s t} hs ht hst => ?_
      rw [List.idxOf_cons_ne l (hne s hs).symm, List.idxOf_cons_ne l (hne t ht).symm]
      exact Nat.succ_lt_succ hst

theorem distinct_concat (l : List String) (s : String) :
    distinct (l ++ [s]) = if s ∈ l then distinct l else distinct l ++ [s] := by
  induction l with
  | nil => rfl
  | cons a l ih =>
    rw [List.cons_append, distinct, distinct, ih]
    by_cases ha : s = a
    · subst ha
      split <;> simp
    · by_cases hl : s ∈ l <;> simp [ha, hl]

/-! ## One announce after another -/

/-- The clusters with one announce more: it joins the cluster that it names, which it leads if
nobody is there, or founds it behind the others. -/
def join (properties : Dict String Properties) (localId : String) (clusters : List Cluster)
    (a : Announce) : List Cluster :=
  if clusters.any fun c => c.id = a.clusterId then
    clusters.map fun c =>
      if c.id = a.clusterId then
        { c with
          instances := c.instances ++ [instanceOf properties localId c.instances.isEmpty a] }
      else c
  else clusters ++ [{ id := a.clusterId, instances := [instanceOf properties localId true a] }]

theorem members_concat (l : List Announce) (a : Announce) :
    members properties localId (l ++ [a]) =
      members properties localId l ++
        [instanceOf properties localId (members properties localId l).isEmpty a] := by
  cases l with
  | nil => rfl
  | cons b rest => simp [members]

theorem group_concat (l : List Announce) (a : Announce) :
    group properties localId (l ++ [a]) =
      join properties localId (group properties localId l) a := by
  have hany : (group properties localId l).any (fun c => c.id = a.clusterId) = true ↔
      a.clusterId ∈ l.map Announce.clusterId := by
    simp only [group, List.any_map, List.any_eq_true, Function.comp_apply, decide_eq_true_eq,
      exists_eq_right, mem_distinct_iff]
  have hfilter : ∀ c, (l ++ [a]).filter (fun b => b.clusterId = c) =
      l.filter (fun b => b.clusterId = c) ++ if a.clusterId = c then [a] else [] := fun c => by
    rw [List.filter_append, List.filter_singleton]
    simp
  rw [join, group, List.map_append, List.map_singleton, distinct_concat]
  split
  · next hc =>
    rw [if_pos (hany.mpr hc), group, List.map_map]
    refine List.map_congr_left fun c _ => ?_
    rw [Function.comp_apply, hfilter]
    by_cases ha : a.clusterId = c
    · rw [if_pos ha, if_pos ha.symm, members_concat]
    · rw [if_neg ha, if_neg (Ne.symm ha), List.append_nil]
  · next hc =>
    rw [if_neg fun h => hc (hany.mp h), List.map_append, List.map_singleton, hfilter, if_pos rfl]
    have hnone : l.filter (fun b => b.clusterId = a.clusterId) = [] :=
      List.filter_eq_nil_iff.mpr fun b hb => by
        simpa using fun he : b.clusterId = a.clusterId => hc (he ▸ List.mem_map_of_mem hb)
    congr 1
    · refine List.map_congr_left fun c hm => ?_
      have hne : a.clusterId ≠ c := fun he => hc (mem_distinct (he ▸ hm))
      rw [hfilter, if_neg hne, List.append_nil]
    · rw [hnone]
      rfl

/-- The clusters of announces are those of taking in one announce after another. -/
theorem group_eq_foldl (properties : Dict String Properties) (localId : String)
    (l : List Announce) :
    group properties localId l = l.foldl (join properties localId) [] := by
  induction l using List.reverseRecOn with
  | nil => rfl
  | append_singleton l a ih => rw [group_concat, ih, List.foldl_concat]

/-! ## Announces and instances -/

/-- An instance as it shows an announce. -/
structure Depicts (properties : Dict String Properties) (a : Announce) (i : Instance) : Prop where
  id : i.id = a.instanceId
  clusterId : i.clusterId = a.clusterId
  serverInfo : i.serverInfo = a.data.serverInfo
  properties : i.properties = (properties.find? a.instanceId).getD ∅

theorem forall₂_members (l : List Announce) :
    List.Forall₂ (Depicts properties) l (members properties localId l) := by
  have hone : ∀ leader a, Depicts properties a (instanceOf properties localId leader a) :=
    fun _ _ => ⟨rfl, rfl, rfl, rfl⟩
  cases l with
  | nil => exact .nil
  | cons a rest =>
    refine .cons (hone true a) (List.forall₂_map_right_iff.mpr ?_)
    exact List.forall₂_same.mpr fun b _ => hone false b

/-- Who leads a cluster has the announce of the lowest name in it. -/
theorem exists_leader (hc : Canonical l) {c : Cluster} (h : c ∈ group properties localId l) :
    ∃ i rest, c.instances = i :: rest ∧ i.leader = true ∧ (∀ j ∈ rest, j.leader = false) ∧
      ∃ a ∈ l, a.clusterId = c.id ∧ Depicts properties a i ∧
        ∀ b ∈ l, b.clusterId = c.id → a.name ≤ b.name := by
  obtain ⟨i, rest, hi, hlead, hrest⟩ := (grouped_group hc properties localId).led c h
  refine ⟨i, rest, hi, hlead, hrest, ?_⟩
  obtain ⟨id, -, rfl⟩ := List.mem_map.mp h
  have hall : List.Forall₂ (Depicts properties) (l.filter fun a => a.clusterId = id)
      (members properties localId (l.filter fun a => a.clusterId = id)) := forall₂_members _
  rw [show members _ _ _ = _ from hi, List.forall₂_cons_right_iff] at hall
  obtain ⟨a, others, ha, -, hl⟩ := hall
  have hmem : ∀ {b}, b ∈ a :: others ↔ b ∈ l ∧ b.clusterId = id := fun {b} => by
    rw [← hl, List.mem_filter, decide_eq_true_eq]
  obtain ⟨hal, hac⟩ := hmem.mp (.head _)
  refine ⟨a, hal, hac, ha, fun b hb hbc => ?_⟩
  have hsorted := hc.sorted.filter fun a => a.clusterId = id
  rw [hl] at hsorted
  rcases List.mem_cons.mp (hmem.mpr ⟨hb, hbc⟩) with rfl | hb
  · exact Nat.le_refl _
  · exact Announce.name_le_of_precedes (List.rel_of_pairwise_cons hsorted hb)

/-! ## Views that are built -/

/-- A view that shows announces, with the properties known, for an instance. -/
structure Portrays (v : View) (l : List Announce) (properties : Dict String Properties)
    (localId : String) : Prop where
  /-- A cluster is shown for each cluster id. -/
  ids : ∀ id, id ∈ v.clusters.map Cluster.id ↔ id ∈ l.map Announce.clusterId
  /-- Clusters stand in the order in which they are first named. -/
  ordered : (v.clusters.map Cluster.id).Pairwise fun c d =>
    (l.map Announce.clusterId).idxOf c < (l.map Announce.clusterId).idxOf d
  /-- A cluster shows the announces that name it, in their order. -/
  shown : ∀ c ∈ v.clusters,
    List.Forall₂ (Depicts properties) (l.filter fun a => a.clusterId = c.id) c.instances
  /-- An announce is shown in one cluster, -/
  once : ∀ a ∈ l, ∃! c, c ∈ v.clusters ∧ ∃ i ∈ c.instances, i.id = a.instanceId
  /-- and no instance is shown twice. -/
  distinct : (v.instances.map Instance.id).Nodup
  /-- The first instance leads its cluster, and has the lowest name in it. -/
  led : ∀ c ∈ v.clusters, ∃ i rest, c.instances = i :: rest ∧ c.leader = some i ∧
    i.leader = true ∧ (∀ j ∈ rest, j.leader = false) ∧
    ∃ a ∈ l, a.clusterId = c.id ∧ Depicts properties a i ∧
      ∀ b ∈ l, b.clusterId = c.id → a.name ≤ b.name
  /-- One instance is marked as the local one. -/
  isLocal : ∃ i, v.instances.filter Instance.isLocal = [i] ∧ i.id = localId
  /-- The clusters are those of one announce taken in after another. -/
  gathered : v.clusters = l.foldl (join properties localId) []

/-- An announce is shown by an instance of the cluster that it names. -/
private theorem exists_shown {a : Announce} (ha : a ∈ l) {c : Cluster}
    (h : List.Forall₂ (Depicts properties) (l.filter fun a => a.clusterId = c.id) c.instances)
    (hc : a.clusterId = c.id) : ∃ i ∈ c.instances, i.id = a.instanceId := by
  have hm : a ∈ l.filter fun a => a.clusterId = c.id :=
    List.mem_filter.mpr ⟨ha, decide_eq_true hc⟩
  obtain ⟨n, hn, rfl⟩ := List.getElem_of_mem hm
  have hlt : n < c.instances.length := h.length_eq ▸ hn
  exact ⟨c.instances[n], List.getElem_mem hlt, (h.get hn hlt).id⟩

/-- Of values with different keys one is left that has a key. -/
private theorem filter_eq_singleton {α β : Type} [DecidableEq β] {f : α → β} {l : List α}
    (h : (l.map f).Nodup) {p : α → Bool} {x : α} (hx : x ∈ l)
    (hp : ∀ y ∈ l, p y = decide (f y = f x)) : l.filter p = [x] := by
  have hnodup : (l.filter p).Nodup := h.of_map.filter _
  have hone : [x].Nodup := List.nodup_singleton x
  refine List.perm_singleton.mp ((List.perm_ext_iff_of_nodup hnodup hone).mpr fun y => ?_)
  rw [List.mem_filter, List.mem_singleton]
  constructor
  · rintro ⟨hy, hpy⟩
    exact List.inj_on_of_nodup_map h hy hx (by simpa [hp y hy] using hpy)
  · rintro rfl
    exact ⟨hx, by simp [hp y hx]⟩

theorem portrays_group (hc : Canonical l) {a : Announce} (ha : a ∈ l) {v : View}
    (hv : v.clusters = group properties a.instanceId l) :
    v.Portrays l properties a.instanceId := by
  have hgrouped : Grouped a.instanceId v.clusters := hv ▸ grouped_group hc properties a.instanceId
  have hids : v.clusters.map Cluster.id = View.distinct (l.map Announce.clusterId) := by
    rw [hv, group, List.map_map]
    exact List.map_id _
  have hshown : ∀ c ∈ v.clusters,
      List.Forall₂ (Depicts properties) (l.filter fun a => a.clusterId = c.id) c.instances := by
    intro c hm
    rw [hv] at hm
    obtain ⟨id, -, rfl⟩ := List.mem_map.mp hm
    exact forall₂_members _
  have hfound : ∀ b ∈ l, ∃ c ∈ v.clusters, c.id = b.clusterId ∧
      ∃ i ∈ c.instances, i.id = b.instanceId := by
    intro b hb
    have hid : b.clusterId ∈ v.clusters.map Cluster.id := by
      rw [hids, mem_distinct_iff]
      exact List.mem_map_of_mem hb
    obtain ⟨c, hm, hcb⟩ := List.mem_map.mp hid
    exact ⟨c, hm, hcb, exists_shown hb (hshown c hm) hcb.symm⟩
  refine {
    ids := fun id => by rw [hids, mem_distinct_iff]
    ordered := hids ▸ pairwise_idxOf_distinct _
    shown := hshown
    once := fun b hb => ?_
    distinct := hgrouped.distinct
    led := fun c hm => ?_
    isLocal := ?_
    gathered := by rw [hv, group_eq_foldl] }
  · obtain ⟨c, hm, -, i, hi, hib⟩ := hfound b hb
    refine ⟨c, ⟨hm, i, hi, hib⟩, ?_⟩
    -- The instance would be shown twice.
    rintro d ⟨hd, j, hj, hjb⟩
    have hij : j = i := List.inj_on_of_nodup_map hgrouped.distinct
      (List.mem_flatMap.mpr ⟨d, hd, hj⟩) (List.mem_flatMap.mpr ⟨c, hm, hi⟩) (hjb.trans hib.symm)
    have hid : d.id = c.id := by
      rw [← hgrouped.inside d hd j hj, hij, hgrouped.inside c hm i hi]
    refine List.inj_on_of_nodup_map ?_ hd hm hid
    rw [hids]
    exact nodup_distinct _
  · obtain ⟨i, rest, hi, hl⟩ := exists_leader hc (hv ▸ hm)
    exact ⟨i, rest, hi, by rw [Cluster.leader, hi]; rfl, hl⟩
  · obtain ⟨c, hm, -, i, hi, hia⟩ := hfound a ha
    refine ⟨i, filter_eq_singleton hgrouped.distinct (List.mem_flatMap.mpr ⟨c, hm, hi⟩) ?_, hia⟩
    intro j hj
    obtain ⟨d, hd, hj⟩ := List.mem_flatMap.mp hj
    rw [hgrouped.marked d hd j hj, hia]

/-- A listing that came about in any way has a view for an instance if and only if it lists the
instance; without the instance, and without any, it is refused as such. The view shows the whole
listing: a cluster for each cluster id in the order of first appearance, in it every announce that
names it as one instance, in order and with what is known of it, led by the first one, whose name is
the lowest; and it marks the one instance for which it is built. -/
theorem build_portrays {l : Listing} (h : l.Made) (properties : Dict String Properties)
    (localId : String) (current : Bool) :
    (localId ∈ l.instanceIds → ∃ v, build l properties localId current = .ok v ∧
      v.announces = l ∧ v.localId = localId ∧ v.current = current ∧
      v.Portrays l.entries properties localId) ∧
    (localId ∉ l.instanceIds → build l properties localId current =
      .error (if l.entries = [] then .noAnnounces else .noLocalInstance localId)) := by
  constructor
  · intro hid
    obtain ⟨a, ha, rfl⟩ := List.mem_map.mp hid
    exact ⟨_, build_of_canonical h.canonical (contains_iff.mpr hid) properties current, rfl, rfl,
      rfl, portrays_group h.canonical ha rfl⟩
  · intro hid
    have hnone : l.entries.countP (fun a => a.instanceId = localId) = 0 :=
      List.countP_eq_zero.mpr fun a ha => by
        simpa using fun he : a.instanceId = localId => hid (he ▸ List.mem_map_of_mem ha)
    rw [build, hnone]
    simp only [List.isEmpty_iff]
    split <;> rfl

/-- Announces in three clusters, one of which is named again after the others; one instance
announced itself twice. -/
def scattered : List Announce := [
  ⟨"/f/9", ⟨"w", "http://w", "d", 0⟩, some 9, by decide⟩,
  ⟨"/f/4", ⟨"x", "http://x", "e", 0⟩, none, by decide⟩,
  ⟨"/f/6", ⟨"y", "http://y", "d", 0⟩, some 5, by decide⟩,
  ⟨"/f/8", ⟨"x", "http://x", "c", 0⟩, some 3, by decide⟩,
  ⟨"/f/7", ⟨"z", "http://z", "c", 0⟩, some 3, by decide⟩,
  ⟨"/f/5", ⟨"v", "http://v", "e", 0⟩, some 0, by decide⟩]

/-- The scattered announces as one of the instances shows them when another one is left out. -/
theorem portrays_scattered :
    let l := (ofList scattered).without "v"
    let known := Dict.ofList [("w", Dict.ofList [("role", "standby")])]
    l.Made ∧ "y" ∈ l.instanceIds ∧ ∃ v, build l known "y" true = .ok v ∧
      v.clusters.map (fun c => (c.id, c.instances.map Instance.id)) =
        [("e", ["x"]), ("d", ["y", "w"]), ("c", ["z"])] ∧
      v.Portrays l.entries known "y" := by
  intro l known
  have hmade : l.Made := .without (.ofList scattered) "v"
  have hy : "y" ∈ l.instanceIds := by decide
  obtain ⟨v, hv, -, -, -, hp⟩ := (build_portrays hmade known "y" true).1 hy
  refine ⟨hmade, hy, v, hv, ?_, hp⟩
  rw [clusters_of_build hv]
  decide

end View

end Rollcall
