import Mathlib.Data.List.Perm.Basic
import Rollcall.Proofs.Store.Tree

/-!
# What a look into a directory shows

The store lists its keys in one order, whole key by whole key, and a look into a directory makes a
tree of them: of every key below it a scan takes the key directly below the directory, and each of
these is looked into in turn, as deep as keys go. The keys below a directory stand together in the
order, so the scan finds them all. The leaves of the tree are the leaves of the store, each once,
but for those that lie below another one.
-/

namespace Rollcall.Store

/-! ## Keys in order -/

namespace Path

theorem length_lt_of_isBelow {dir key : String} (h : isBelow dir key = true) :
    dir.length < key.length := by
  obtain ⟨rest, hr⟩ := isBelow_iff.mp h
  rw [← String.length_toList, ← String.length_toList, hr, List.length_append, List.length_cons]
  omega

theorem isBelow_iff_begins {dir key : String} :
    isBelow dir key = true ↔ (dir ++ "/").toList <+: key.toList := by
  rw [isBelow_iff]
  simp only [String.toList_append, List.IsPrefix, List.append_assoc, eq_comm (b := key.toList)]
  rfl

/-- The path to a key leads through a key directly below a directory if it is that key or lies
below it. -/
theorem toward?_eq_some_iff {dir key k : String} :
    toward? dir key = some k ↔ ∃ name : String,
      '/' ∉ name.toList ∧ k = child dir name ∧ (key = k ∨ isBelow k key = true) := by
  constructor
  · intro h
    obtain ⟨name, hs, hk⟩ := exists_child_of_toward? h
    refine ⟨name, hs, hk, ?_⟩
    obtain ⟨rest, hr, rfl⟩ := Option.map_eq_some_iff.mp h
    obtain ⟨rest', hr'⟩ := isBelow_iff.mp (isBelow_of_toward? h)
    have hrest : rest = rest' := by
      rw [rest?, hr'] at hr
      simpa using hr.symm
    subst hrest
    have hsplit := List.takeWhile_append_dropWhile (p := (· ≠ '/')) (l := rest)
    -- Behind the name there is nothing or a slash.
    cases hd : rest.dropWhile (· ≠ '/') with
    | nil =>
      rw [hd, List.append_nil] at hsplit
      exact .inl (String.toList_inj.mp (by rw [hr', toList_child, String.toList_ofList, hsplit]))
    | cons c cs =>
      obtain rfl : c = '/' := by
        have hc := List.head?_dropWhile_not (· ≠ '/') rest
        rw [hd] at hc
        simpa using hc
      rw [hd] at hsplit
      exact .inr (isBelow_iff.mpr ⟨cs, by
        rw [hr', toList_child, String.toList_ofList, List.append_assoc, List.cons_append, hsplit]⟩)
  · rintro ⟨name, hs, rfl, rfl | hb⟩
    · exact toward?_child hs dir
    · obtain ⟨rest, hr⟩ := isBelow_iff.mp hb
      have hn : ∀ c ∈ name.toList, (decide (c ≠ '/')) = true := fun c hc =>
        decide_eq_true fun he => hs (he ▸ hc)
      have hl : key.toList = (dir.toList ++ ['/']) ++ (name.toList ++ '/' :: rest) := by
        simp [hr, toList_child]
      have hrest : rest? dir key = some (name.toList ++ '/' :: rest) := by
        rw [rest?, hl]
        simp
      rw [toward?, hrest, Option.map_some, List.takeWhile_append_of_pos hn]
      simp

/-- The path to a key below a directory leads through one directly below it. -/
theorem exists_toward? {dir key : String} (h : isBelow dir key = true) :
    ∃ k, toward? dir key = some k := by
  rw [isBelow, Option.isSome_iff_exists] at h
  obtain ⟨rest, hr⟩ := h
  exact ⟨_, by rw [toward?, hr, Option.map_some]⟩

/-- The paths to a key and to what lies below it lead the same way. -/
theorem toward?_eq_of_isBelow {dir key below k : String} (hb : isBelow key below = true)
    (h : toward? dir key = some k) : toward? dir below = some k := by
  obtain ⟨name, hs, hk, hkey⟩ := toward?_eq_some_iff.mp h
  refine toward?_eq_some_iff.mpr ⟨name, hs, hk, .inr ?_⟩
  rcases hkey with rfl | hkey
  · exact hb
  · exact isBelow_trans hkey hb

/-- Whether a key is another one or lies below it. -/
def isWithin (dir key : String) : Bool := key = dir || isBelow dir key

theorem isWithin_iff {dir key : String} :
    isWithin dir key = true ↔ key = dir ∨ isBelow dir key = true := by
  rw [isWithin, Bool.or_eq_true, decide_eq_true_eq]

/-- A key directly below a directory is the way to what is within it. -/
theorem isWithin_iff_toward? {dir key k : String} (h : toward? dir key = some k) {other : String} :
    isWithin k other = true ↔ toward? dir other = some k := by
  obtain ⟨name, hs, rfl, -⟩ := toward?_eq_some_iff.mp h
  rw [isWithin_iff, toward?_eq_some_iff]
  constructor
  · exact fun ho => ⟨name, hs, rfl, ho⟩
  · rintro ⟨_, -, -, ho⟩
    exact ho

private theorem not_lt_of_begins {p k : List Char} (h : p <+: k) : ¬k < p := h.le

/-- What stands in order between a text and one that begins with it begins with it too. -/
private theorem begins_of_between {p a b : List Char} (hb : p <+: b) (hpa : ¬a < p) (hab : a < b) :
    p <+: a := by
  induction p generalizing a b with
  | nil => exact List.nil_prefix
  | cons c p ih =>
    obtain ⟨rest, rfl⟩ := hb
    cases a with
    | nil => exact absurd (List.nil_lt_cons c p) hpa
    | cons d a =>
      rw [List.cons_lt_cons_iff, not_or, not_and] at hpa
      rw [List.cons_append, List.cons_lt_cons_iff] at hab
      have hdc : d = c := hab.elim (fun h => absurd h hpa.1) And.left
      subst hdc
      have hlt : a < p ++ rest := hab.elim (fun h => absurd h hpa.1) And.right
      exact List.cons_prefix_cons.mpr ⟨rfl, ih (List.prefix_append p rest) (hpa.2 rfl) hlt⟩

end Path

open Store.Path

private theorem takeWhile_eq_filter_of_pairwise {α : Type} {p : α → Bool} {l : List α}
    (h : l.Pairwise fun a b => p b = true → p a = true) : l.takeWhile p = l.filter p := by
  induction l with
  | nil => rfl
  | cons a l ih =>
    obtain ⟨ha, hl⟩ := List.pairwise_cons.mp h
    rw [List.takeWhile_cons, List.filter_cons, ih hl]
    split
    · rfl
    · next hp => exact (List.filter_eq_nil_iff.mpr fun b hb hpb => hp (ha b hb hpb)).symm

private theorem dropWhile_eq_filter_of_pairwise {α : Type} {p : α → Bool} {l : List α}
    (h : l.Pairwise fun a b => p b = true → p a = true) : l.dropWhile p = l.filter (!p ·) := by
  induction l with
  | nil => rfl
  | cons a l ih =>
    obtain ⟨ha, hl⟩ := List.pairwise_cons.mp h
    rw [List.dropWhile_cons, List.filter_cons, ih hl]
    cases hp : p a with
    | true => simp
    | false =>
      have hall : l.filter (!p ·) = l :=
        List.filter_eq_self.mpr fun b hb => by simpa [hp] using ha b hb
      simp [hall]

/-! ## Trees of nodes -/

namespace Node

mutual

/-- The leaves of a tree of nodes, in its order. -/
def leaves : Node → List Node
  | ⟨key, value, dir, ttl, expiration, modified, created, nodes⟩ =>
    if dir then leavesOfAll nodes
    else [⟨key, value, dir, ttl, expiration, modified, created, nodes⟩]

/-- The leaves of several trees. -/
def leavesOfAll : List Node → List Node
  | [] => []
  | n :: rest => leaves n ++ leavesOfAll rest

end

theorem leavesOfAll_eq_flatMap (nodes : List Node) : leavesOfAll nodes = nodes.flatMap leaves := by
  induction nodes with
  | nil => rfl
  | cons n nodes ih => rw [leavesOfAll, ih, List.flatMap_cons]

theorem leaves_eq (n : Node) : n.leaves = if n.dir then n.nodes.flatMap leaves else [n] := by
  cases n
  rw [leaves, leavesOfAll_eq_flatMap]

/-- Whether every node of a tree is as it should be. -/
inductive Everywhere (P : Node → Prop) : Node → Prop
  | mk {n : Node} (here : P n) (below : ∀ m ∈ n.nodes, Everywhere P m) : Everywhere P n

theorem Everywhere.here {P : Node → Prop} {n : Node} (h : n.Everywhere P) : P n := by
  cases h with
  | mk here => exact here

/-- A node without what is below it. -/
def bare (n : Node) : Node := { n with nodes := [] }

end Node

/-! ## A scan for the keys below a directory -/

namespace Tree

variable {t : Tree} {now : Nat} {key dir name : String}

theorem sorted_keys (t : Tree) : t.entries.keys.Pairwise fun a b => compare a b = .lt := by
  rw [Dict.keys, List.pairwise_map]
  exact t.entries.sorted

/-- The keys below a directory as a scan in key order finds them: from the first key that does not
come before the directory with a slash behind it, as long as keys begin with this. -/
def scan (t : Tree) (dir : String) : List String :=
  (t.entries.keys.dropWhile fun k => compare k (dir ++ "/") = .lt).takeWhile (isBelow dir)

/-- The keys below a directory stand together. -/
theorem scan_eq (t : Tree) (dir : String) : t.scan dir = t.entries.keys.filter (isBelow dir) := by
  have hlt : ∀ {a b : String}, compare a b = .lt ↔ a.toList < b.toList := fun {a b} =>
    compareOfLessAndEq_eq_lt.trans String.lt_iff
  have hdrop : (t.entries.keys.dropWhile fun k => compare k (dir ++ "/") = .lt) =
      t.entries.keys.filter fun k => !decide (compare k (dir ++ "/") = .lt) :=
    dropWhile_eq_filter_of_pairwise (t.sorted_keys.imp fun {a b} hab hb =>
      decide_eq_true (Std.TransCmp.lt_trans hab (of_decide_eq_true hb)))
  rw [scan, hdrop, takeWhile_eq_filter_of_pairwise, List.filter_filter]
  · refine List.filter_congr fun k _ => ?_
    cases hk : isBelow dir k with
    | false => rfl
    | true => simpa [hlt] using not_lt_of_begins (isBelow_iff_begins.mp hk)
  · refine (List.pairwise_filter.mpr ?_)
    refine t.sorted_keys.imp fun {a b} hab ha _ hb => ?_
    exact isBelow_iff_begins.mpr (begins_of_between (isBelow_iff_begins.mp hb)
      (by simpa [hlt] using ha) (hlt.mp hab))

/-- The keys directly below a directory by a scan, in key order. -/
def scanned (t : Tree) (dir : String) : List String :=
  (Dict.ofList (((t.scan dir).filterMap (toward? dir)).map fun k => (k, ()))).keys

theorem scanned_eq (t : Tree) (dir : String) : t.scanned dir = t.children dir := by
  have hm : (t.scan dir).filterMap (toward? dir) = t.entries.keys.filterMap (toward? dir) := by
    rw [scan_eq, List.filterMap_filter]
    refine List.filterMap_congr fun k _ => ?_
    split
    · rfl
    · next hk =>
      refine (Option.eq_none_iff_forall_ne_some.mpr fun c hc => hk ?_).symm
      exact isBelow_of_toward? hc
  rw [scanned, hm, children]

theorem sorted_children (t : Tree) (dir : String) :
    (t.children dir).Pairwise fun a b => compare a b = .lt := by
  rw [children, Dict.keys, List.pairwise_map]
  exact Dict.sorted _

/-! ## Looking into a directory -/

/-- The node of a directory with the nodes below it. -/
def directoryNode (t : Tree) (now : Nat) (key : String) (nodes : List Node) : Node where
  key
  dir := true
  ttl := (t.entries.find? key).bind (·.ttl now)
  modifiedIndex := ((t.entries.find? key).map Entry.modifiedIndex).getD 0
  createdIndex := ((t.entries.find? key).map Entry.createdIndex).getD 0
  nodes

/-- The tree of nodes that the store shows of a key when nothing bounds how deep it looks: of a leaf
the leaf, and of a directory what it shows of every key that a scan finds directly below it. -/
inductive Unfolds (t : Tree) (now : Nat) : String → Node → Prop
  | leaf {key : String} {e : Entry} (he : t.entries.find? key = some e) (hd : e.dir = false) :
    Unfolds t now key (leafNode now key e)
  | directory {key : String} {below : String → Node}
    (hd : ∀ e, t.entries.find? key = some e → e.dir = true)
    (hb : ∀ k ∈ t.scanned key, Unfolds t now k (below k)) :
    Unfolds t now key (t.directoryNode now key ((t.scanned key).map below))

theorem node_eq_directoryNode (hd : ∀ e, t.entries.find? key = some e → e.dir = true)
    (now levels : Nat) :
    t.node now levels key = t.directoryNode now key (t.node now levels key).nodes := by
  cases he : t.entries.find? key with
  | none =>
    rw [node_of_none t now levels he, directoryNode, he]
    rfl
  | some e =>
    rw [node_of_directory t now levels he (hd e he), directoryNode, he]
    rfl

theorem leaf_or_directory (t : Tree) (key : String) :
    (∃ e, t.entries.find? key = some e ∧ e.dir = false) ∨
      ∀ e, t.entries.find? key = some e → e.dir = true := by
  by_cases h : ∃ e, t.entries.find? key = some e ∧ e.dir = false
  · exact .inl h
  · refine .inr fun e he => Bool.not_eq_false _ ▸ fun hd => h ⟨e, he, hd⟩

theorem isBelow_of_mem_scanned {k : String} (h : k ∈ t.scanned dir) : isBelow dir k = true := by
  obtain ⟨_, _, -, ht⟩ := mem_children_iff.mp (t.scanned_eq dir ▸ h)
  exact isBelow_of_toward? (toward?_self ht)

/-- A look with levels enough for the keys below shows all that there is: it does not end because
the levels do. -/
theorem unfolds_node {levels : Nat} (h : ∀ k e, t.entries.find? k = some e →
    isBelow key k = true → k.length ≤ key.length + levels) :
    t.Unfolds now key (t.node now levels key) := by
  induction levels generalizing key with
  | zero =>
    rcases t.leaf_or_directory key with ⟨e, he, hd⟩ | hd
    · rw [node_of_leaf t now 0 he hd]
      exact .leaf he hd
    · have hnone : t.scanned key = [] := by
        rw [scanned_eq]
        refine List.eq_nil_iff_forall_not_mem.mpr fun c hc => ?_
        obtain ⟨k, e, he, ht⟩ := mem_children_iff.mp hc
        have hb := isBelow_of_toward? ht
        have := length_lt_of_isBelow hb
        have := h k e he hb
        omega
      have hnode : t.Unfolds now key
          (t.directoryNode now key ((t.scanned key).map (t.node now 0))) :=
        .directory hd (by simp [hnone])
      rw [node_eq_directoryNode hd, nodes_zero]
      rwa [hnone] at hnode
  | succ levels ih =>
    rcases t.leaf_or_directory key with ⟨e, he, hd⟩ | hd
    · rw [node_of_leaf t now _ he hd]
      exact .leaf he hd
    · rw [node_eq_directoryNode hd, nodes_of_dir t now levels hd, ← scanned_eq]
      refine .directory hd fun c hc => ih fun k e he hk => ?_
      have hb := isBelow_of_mem_scanned hc
      have := length_lt_of_isBelow hb
      have := h k e he (isBelow_trans hb hk)
      omega

private theorem le_foldl_max (l : List String) (h : Nat) :
    h ≤ l.foldl (fun h k => max h k.length) h ∧
      ∀ k ∈ l, k.length ≤ l.foldl (fun h k => max h k.length) h := by
  induction l generalizing h with
  | nil => exact ⟨Nat.le_refl h, nofun⟩
  | cons k l ih =>
    obtain ⟨hle, hl⟩ := ih (max h k.length)
    refine ⟨Nat.le_trans (Nat.le_max_left ..) hle, fun k' hk => ?_⟩
    rcases List.mem_cons.mp hk with rfl | hk
    · exact Nat.le_trans (Nat.le_max_right ..) hle
    · exact hl k' hk

theorem length_le_height {k : String} {e : Entry} (h : t.entries.find? k = some e) :
    k.length ≤ t.height :=
  Nat.le_succ_of_le ((le_foldl_max _ 0).2 k ((Dict.mem_keys_iff _ _).mpr ⟨e, h⟩))

/-- A look as deep as the longest key shows all that there is. -/
theorem unfolds_height (t : Tree) (now : Nat) (key : String) :
    t.Unfolds now key (t.node now t.height key) :=
  unfolds_node fun _ _ he _ => Nat.le_add_left_of_le (length_le_height he)

theorem Unfolds.key_eq {n : Node} (h : t.Unfolds now key n) : n.key = key := by
  cases h <;> rfl

/-- What holds of every tree that is shown holds everywhere in one. -/
theorem Unfolds.everywhere {P : Node → Prop} {n : Node} (h : t.Unfolds now key n)
    (hP : ∀ k m, t.Unfolds now k m → P m) : n.Everywhere P := by
  induction h with
  | @leaf key e he hd => exact .mk (hP key _ (.leaf he hd)) nofun
  | @directory key below hd hb ih =>
    refine .mk (hP key _ (.directory hd hb)) fun m hm => ?_
    obtain ⟨k, hk, rfl⟩ := List.mem_map.mp hm
    exact ih k hk

/-- The nodes below a node are those of keys directly below its own. -/
theorem Unfolds.direct {n : Node} (h : t.Unfolds now key n) :
    ∀ m ∈ n.nodes, toward? n.key m.key = some m.key := by
  cases h with
  | leaf => exact nofun
  | @directory _ below hd hb =>
    intro m hm
    obtain ⟨k, hk, rfl⟩ := List.mem_map.mp hm
    rw [(hb k hk).key_eq]
    obtain ⟨_, _, -, ht⟩ := mem_children_iff.mp (t.scanned_eq key ▸ hk)
    exact toward?_self ht

/-- The nodes below a node are in the order of their keys. -/
theorem Unfolds.sorted {n : Node} (h : t.Unfolds now key n) :
    n.nodes.Pairwise fun a b => compare a.key b.key = .lt := by
  cases h with
  | leaf => exact .nil
  | @directory _ below hd hb =>
    refine List.pairwise_map.mpr ?_
    have hs := t.sorted_children key
    rw [← scanned_eq] at hs
    refine hs.imp_of_mem fun {a b} ha hb' hab => ?_
    rwa [(hb a ha).key_eq, (hb b hb').key_eq]

/-! ## The leaves that are shown -/

/-- Whether a leaf of the store lies within a directory and above a key. -/
def hides (t : Tree) (dir key : String) : Bool :=
  t.entries.toList.any fun y => !y.2.dir && isWithin dir y.1 && isBelow y.1 key

/-- The leaves of the store within a directory that lie below no other one there. -/
def shown (t : Tree) (dir : String) : List (String × Entry) :=
  t.entries.toList.filter fun x => !x.2.dir && isWithin dir x.1 && !t.hides dir x.1

theorem hides_iff {k : String} :
    t.hides dir k = true ↔ ∃ y e, t.entries.find? y = some e ∧ e.dir = false ∧
      isWithin dir y = true ∧ isBelow y k = true := by
  simp only [hides, List.any_eq_true, Prod.exists, Dict.mem_toList_iff, Bool.and_eq_true,
    Bool.not_eq_true', and_assoc]

theorem mem_shown_iff {x : String × Entry} :
    x ∈ t.shown dir ↔ t.entries.find? x.1 = some x.2 ∧ x.2.dir = false ∧
      isWithin dir x.1 = true ∧ t.hides dir x.1 = false := by
  rw [shown, List.mem_filter, Dict.mem_toList_iff _ x.1 x.2, Bool.and_eq_true, Bool.and_eq_true,
    Bool.not_eq_true', Bool.not_eq_true', and_assoc]

theorem nodup_toList (t : Tree) : t.entries.toList.Nodup :=
  t.entries.sorted.imp fun {a b} hab he => by simp [he] at hab

/-- Of a leaf only the leaf is shown. -/
theorem shown_of_leaf {e : Entry} (he : t.entries.find? key = some e) (hd : e.dir = false) :
    t.shown key = [(key, e)] := by
  have hself : t.hides key key = false := by
    refine Bool.eq_false_iff.mpr fun hh => ?_
    obtain ⟨y, _, -, -, hw, hb⟩ := hides_iff.mp hh
    have hlt := length_lt_of_isBelow hb
    rcases isWithin_iff.mp hw with rfl | hw
    · omega
    · have := length_lt_of_isBelow hw
      omega
  refine List.perm_singleton.mp ((List.perm_ext_iff_of_nodup (t.nodup_toList.filter _)
    (List.nodup_singleton _)).mpr fun x => ?_)
  rw [← shown, mem_shown_iff, List.mem_singleton, isWithin_iff]
  constructor
  · rintro ⟨hx, -, rfl | hb, hh⟩
    · exact Prod.ext rfl (Option.some.inj (hx.symm.trans he))
    · -- What lies below the leaf is hidden by it.
      rw [hides_iff.mpr ⟨key, e, he, hd, isWithin_iff.mpr (.inl rfl), hb⟩] at hh
      cases hh
  · rintro rfl
    exact ⟨he, hd, .inl rfl, hself⟩

/-- The leaves above a key within a directory are within the same key directly below it. -/
theorem hides_of_toward? (hd : ∀ e, t.entries.find? key = some e → e.dir = true) {c k : String}
    (hk : toward? key k = some c) : t.hides c k = t.hides key k := by
  rw [Bool.eq_iff_iff, hides_iff, hides_iff]
  refine exists_congr fun y => exists_congr fun e => and_congr_right fun he =>
    and_congr_right fun hdir => and_congr_left fun hb => ?_
  rw [isWithin_iff_toward? hk, isWithin_iff]
  constructor
  · exact fun h => .inr (isBelow_of_toward? h)
  · rintro (rfl | h)
    · rw [hd e he] at hdir
      cases hdir
    · obtain ⟨d, hyd⟩ := exists_toward? h
      rw [hyd, ← hk, toward?_eq_of_isBelow hb hyd]

/-- A key directly below a directory shows what the directory shows of the entries within it. -/
theorem shown_of_child {c : String} (hd : ∀ e, t.entries.find? key = some e → e.dir = true)
    (hc : c ∈ t.scanned key) :
    t.shown c = (t.shown key).filter fun x => toward? key x.1 = some c := by
  obtain ⟨_, _, -, ht⟩ := mem_children_iff.mp (t.scanned_eq key ▸ hc)
  rw [shown, shown, List.filter_filter]
  refine List.filter_congr fun x _ => ?_
  by_cases hk : toward? key x.1 = some c
  · rw [(isWithin_iff_toward? ht).mpr hk, isWithin_iff.mpr (.inr (isBelow_of_toward? hk)),
      hides_of_toward? hd hk, decide_eq_true hk]
    simp
  · rw [Bool.eq_false_iff.mpr (mt (isWithin_iff_toward? ht).mp hk), decide_eq_false hk]
    simp

/-- What belongs to one thing after another is all, if each belongs to one of them. -/
private theorem flatMap_filter_perm {α β : Type} [DecidableEq β] {g : α → Option β} {cs : List β}
    (hcs : cs.Nodup) {l : List α} (h : ∀ x ∈ l, ∃ c ∈ cs, g x = some c) :
    (cs.flatMap fun c => l.filter fun x => g x = some c).Perm l := by
  induction cs generalizing l with
  | nil =>
    have hl : l = [] := List.eq_nil_iff_forall_not_mem.mpr fun x hx => by
      obtain ⟨c, hc, -⟩ := h x hx
      cases hc
    rw [hl]
    rfl
  | cons c cs ih =>
    obtain ⟨hc, hcs⟩ := List.nodup_cons.mp hcs
    have hrest : (cs.flatMap fun c' => l.filter fun x => g x = some c').Perm
        (l.filter fun x => !decide (g x = some c)) := by
      have heq : (cs.flatMap fun c' => l.filter fun x => g x = some c') =
          cs.flatMap fun c' => (l.filter fun x => !decide (g x = some c)).filter
            fun x => g x = some c' := by
        refine List.flatMap_congr fun c' hc' => ?_
        rw [List.filter_filter]
        refine List.filter_congr fun x _ => ?_
        by_cases hx : g x = some c'
        · have hne : c' ≠ c := fun he => hc (he ▸ hc')
          simp [hx, hne]
        · simp [hx]
      rw [heq]
      refine ih hcs fun x hx => ?_
      obtain ⟨hx, hne⟩ := List.mem_filter.mp hx
      obtain ⟨c', hc', he⟩ := h x hx
      rcases List.mem_cons.mp hc' with rfl | hc'
      · simp [he] at hne
      · exact ⟨c', hc', he⟩
    rw [List.flatMap_cons]
    exact (hrest.append_left _).trans (List.filter_append_perm ..)

/-- The leaves of the tree that is shown of a key are those of the store within it that lie below no
other one, each once. -/
theorem Unfolds.leaves_perm {n : Node} (h : t.Unfolds now key n) :
    n.leaves.Perm ((t.shown key).map fun x => leafNode now x.1 x.2) := by
  induction h with
  | leaf he hd => rw [shown_of_leaf he hd, Node.leaves_eq]; rfl
  | @directory key below hd hb ih =>
    have hleaves : (t.directoryNode now key ((t.scanned key).map below)).leaves =
        (t.scanned key).flatMap fun k => (below k).leaves := by
      rw [Node.leaves_eq, directoryNode, if_pos rfl, List.flatMap_map]
    have hcover : ∀ x ∈ t.shown key, ∃ c ∈ t.scanned key, toward? key x.1 = some c := by
      intro x hx
      obtain ⟨he, hleaf, hw, -⟩ := mem_shown_iff.mp hx
      rcases isWithin_iff.mp hw with hk | hb
      · rw [hd x.2 (hk ▸ he)] at hleaf
        cases hleaf
      · obtain ⟨c, hc⟩ := exists_toward? hb
        exact ⟨c, by rw [scanned_eq]; exact mem_children_iff.mpr ⟨x.1, x.2, he, hc⟩, hc⟩
    have hnodup : (t.scanned key).Nodup := by
      rw [scanned_eq]
      exact (t.sorted_children key).imp fun {a b} hab he => by simp [he] at hab
    calc (t.directoryNode now key ((t.scanned key).map below)).leaves
        = (t.scanned key).flatMap fun k => (below k).leaves := hleaves
      _ |>.Perm ((t.scanned key).flatMap fun k =>
            ((t.shown key).filter fun x => toward? key x.1 = some k).map
              fun x => leafNode now x.1 x.2) :=
          List.Perm.flatMap_left _ fun k hk => by
            rw [← shown_of_child hd hk]
            exact ih k hk
      _ |>.Perm ((t.shown key).map fun x => leafNode now x.1 x.2) := by
          rw [← List.map_flatMap]
          exact (flatMap_filter_perm hnodup hcover).map _

/-- A leaf of the store is among the leaves that the tree of a key has just if it is shown. -/
theorem Unfolds.mem_leaves_iff {n : Node} (h : t.Unfolds now key n) {k : String} {e : Entry}
    (he : t.entries.find? k = some e) : leafNode now k e ∈ n.leaves ↔ (k, e) ∈ t.shown key := by
  rw [h.leaves_perm.mem_iff, List.mem_map]
  constructor
  · rintro ⟨x, hx, hxe⟩
    have hk : x.1 = k := congrArg Node.key hxe
    have hx' := (mem_shown_iff.mp hx).1
    rw [hk, he, Option.some.injEq] at hx'
    rwa [hx', ← hk]
  · exact fun hx => ⟨_, hx, rfl⟩

/-! ## What a directory answers -/

/-- Whether no leaf of the store lies above another key. -/
def Hierarchical (t : Tree) : Prop :=
  ∀ x ∈ t.entries.toList, x.2.dir = false → t.hasChildren x.1 = false

/-- Whether a key is a directory of the store: it is the root or there, and no leaf. -/
def IsDirectory (t : Tree) (key : String) : Prop :=
  (key = "" ∨ t.present key = true) ∧ ∀ e ∈ t.entries.find? key, e.dir = true

instance (t : Tree) : Decidable t.Hierarchical :=
  inferInstanceAs (Decidable (∀ x ∈ t.entries.toList, x.2.dir = false → t.hasChildren x.1 = false))

instance (t : Tree) (key : String) : Decidable (t.IsDirectory key) :=
  inferInstanceAs (Decidable (_ ∧ _))

/-- The leaves of the store below a directory, in key order. -/
def leavesBelow (t : Tree) (dir : String) : List (String × Entry) :=
  t.entries.toList.filter fun x => !x.2.dir && isBelow dir x.1

/-- Whether a node outlines its key: the leaves of a directory are those of the store below it, each
once and as it is, and the nodes below it are those of keys directly below its own, in strictly
increasing order. -/
structure Outlines (t : Tree) (now : Nat) (n : Node) : Prop where
  leaves : n.dir = true →
    n.leaves.Perm ((t.leavesBelow n.key).map fun x => leafNode now x.1 x.2)
  direct : ∀ m ∈ n.nodes, toward? n.key m.key = some m.key
  sorted : n.nodes.Pairwise fun a b => compare a.key b.key = .lt

/-- The answer to a request that is carried out, unless a failure was queued. -/
def unlessQueued (t : Tree) (response : Response) : Answer :=
  match t.failures with
  | f :: _ => .error f
  | [] => .ok response

/-- In a hierarchy a directory shows every leaf below it. -/
theorem shown_of_hierarchical (h : t.Hierarchical)
    (hd : ∀ e, t.entries.find? dir = some e → e.dir = true) :
    t.shown dir = t.leavesBelow dir := by
  refine List.filter_congr fun x hx => ?_
  have he := (Dict.mem_toList_iff _ x.1 x.2).mp hx
  have hhides : t.hides dir x.1 = false := by
    refine Bool.eq_false_iff.mpr fun hh => ?_
    obtain ⟨y, e, hy, hleaf, -, hb⟩ := hides_iff.mp hh
    have hnone := h (y, e) ((Dict.mem_toList_iff ..).mpr hy) hleaf
    rw [hasChildren_iff.mpr ⟨x.1, x.2, he, hb⟩] at hnone
    cases hnone
  by_cases hk : x.1 = dir
  · rw [hd x.2 (hk ▸ he)]
    rfl
  · rw [hhides, isWithin, decide_eq_false hk]
    simp

theorem Unfolds.outlines {n : Node} (h : t.Hierarchical) (hn : t.Unfolds now key n) :
    t.Outlines now n where
  leaves hdir := by
    have hd : ∀ e, t.entries.find? key = some e → e.dir = true := by
      cases hn with
      | leaf => cases hdir
      | directory hd => exact hd
    rw [hn.key_eq, ← shown_of_hierarchical h hd]
    exact hn.leaves_perm
  direct := hn.direct
  sorted := hn.sorted

theorem Unfolds.dir_eq_true {n : Node} (h : t.Unfolds now key n)
    (hd : ∀ e, t.entries.find? key = some e → e.dir = true) : n.dir = true := by
  cases h with
  | leaf he hleaf =>
    rw [hd _ he] at hleaf
    cases hleaf
  | directory => rfl

theorem bare_node (t : Tree) (now levels : Nat) (key : String) :
    (t.node now levels key).bare = t.node now 0 key := by
  rcases t.leaf_or_directory key with ⟨e, he, hd⟩ | hd
  · rw [node_of_leaf t now _ he hd, node_of_leaf t now _ he hd]
    rfl
  · rw [node_eq_directoryNode hd, node_eq_directoryNode hd now 0, nodes_zero]
    rfl

/-- A look at one level shows of what is below no more than what it is. -/
theorem node_one (t : Tree) (now levels : Nat) (key : String) :
    t.node now 1 key = { t.node now (levels + 1) key with
      nodes := (t.node now (levels + 1) key).nodes.map Node.bare } := by
  rcases t.leaf_or_directory key with ⟨e, he, hd⟩ | hd
  · rw [node_of_leaf t now _ he hd, node_of_leaf t now _ he hd]
    rfl
  · rw [node_eq_directoryNode hd, node_eq_directoryNode hd now (levels + 1),
      nodes_of_dir t now 0 hd, nodes_of_dir t now levels hd]
    simp only [directoryNode, List.map_map]
    congr 1
    exact List.map_congr_left fun k _ => (t.bare_node now levels k).symm

theorem run_get_of_directory (hd : (t.purge now).IsDirectory (normalize name))
    (recursive sorted : Bool) :
    (t.run now (.get name recursive sorted)).2 = t.unlessQueued {
      action := "get"
      node := some ((t.purge now).node now (if recursive then (t.purge now).height else 1)
        (normalize name)) } := by
  cases hf : t.failures with
  | cons f rest => rw [run, unlessQueued, hf]
  | nil =>
    have hthere : ¬(normalize name ≠ "" ∧ !(t.purge now).present (normalize name)) := by
      rintro ⟨hne, hp⟩
      rcases hd.1 with h | h
      · exact hne h
      · rw [h] at hp
        cases hp
    rw [run_get hf, if_neg hthere, unlessQueued, hf]

/-- To read a directory of a hierarchy with all below it shows the tree that a look without a bound
makes of the keys, and in this tree every node outlines its key. To read the directory alone shows
the first level of the tree. -/
theorem run_get_unfolds {t : Tree} {now : Nat} {name : String} (hh : (t.purge now).Hierarchical)
    (hd : (t.purge now).IsDirectory (normalize name)) :
    ∃ n : Node, (t.purge now).Unfolds now (normalize name) n ∧
      n.key = normalize name ∧ n.dir = true ∧ n.Everywhere ((t.purge now).Outlines now) ∧
      ∀ sorted, (t.run now (.get name true sorted)).2 =
          t.unlessQueued { action := "get", node := some n } ∧
        (t.run now (.get name false sorted)).2 = t.unlessQueued {
          action := "get", node := some { n with nodes := n.nodes.map Node.bare } } := by
  have hn := (t.purge now).unfolds_height now (normalize name)
  refine ⟨_, hn, hn.key_eq, hn.dir_eq_true fun e he => hd.2 e he,
    hn.everywhere fun _ _ h => h.outlines hh, fun sorted => ⟨?_, ?_⟩⟩
  · exact run_get_of_directory hd true sorted
  · rw [run_get_of_directory hd false sorted]
    exact congrArg (fun n => t.unlessQueued { action := "get", node := some n })
      (node_one _ now _ _)

/-- A store with a sibling in order between a directory and what lies below it, empty segments, an
empty directory and a leaf above another key whose time is over. -/
def orchard : Tree where
  entries := .ofList [
    ("/a-", ⟨some "1", false, none, none, 1, 1⟩), ("/a//c", ⟨some "2", false, some 9, none, 2, 2⟩),
    ("/a/b", ⟨some "3", false, none, some 0, 3, 3⟩), ("/e", ⟨none, true, none, none, 4, 4⟩),
    ("/x", ⟨some "5", false, some 4, none, 5, 5⟩), ("/x/y", ⟨some "6", false, none, none, 6, 6⟩)]
  index := 6

theorem run_get_unfolds_of_orchard :
    ¬orchard.Hierarchical ∧ (orchard.purge 5).Hierarchical ∧
      (orchard.purge 5).IsDirectory (normalize "/") ∧
      ∃ n : Node, (orchard.purge 5).Unfolds 5 (normalize "/") n ∧
        (n.leaves.map fun m => (m.key, m.value, m.ttl)).Perm [("/a-", some "1", none),
          ("/a//c", some "2", some 1), ("/a/b", some "3", some 0), ("/x/y", some "6", none)] ∧
        n.Everywhere ((orchard.purge 5).Outlines 5) ∧
        (orchard.run 5 (.get "/" true true)).2 = .ok { action := "get", node := some n } ∧
        (orchard.run 5 (.get "/" false true)).2 = .ok {
          action := "get", node := some { n with nodes := n.nodes.map Node.bare } } := by
  have hh : (orchard.purge 5).Hierarchical := by decide +kernel
  have hd : (orchard.purge 5).IsDirectory (normalize "/") := by decide +kernel
  have hleaves : (((orchard.purge 5).leavesBelow (normalize "/")).map fun x =>
      leafNode 5 x.1 x.2).map (fun m => (m.key, m.value, m.ttl)) = [("/a-", some "1", none),
        ("/a//c", some "2", some 1), ("/a/b", some "3", some 0), ("/x/y", some "6", none)] := by
    decide +kernel
  obtain ⟨n, hn, hkey, hdir, ho, ha⟩ := run_get_unfolds hh hd
  have hl := ho.here.leaves hdir
  rw [hkey] at hl
  exact ⟨by decide +kernel, hh, hd, n, hn, hleaves ▸ hl.map _, ho, (ha true).1, (ha true).2⟩

-- Each level is in the order of its own keys: what lies below "/a" comes before "/a-".
example : ((orchard.purge 5).node 5 9 "").leaves.map Node.key =
    ["/a//c", "/a/b", "/a-", "/x/y"] := by
  decide +kernel

end Tree

end Rollcall.Store
