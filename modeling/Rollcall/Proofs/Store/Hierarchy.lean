import Rollcall.Proofs.Store.Outline
import Rollcall.Proofs.Store.Vault

/-!
# When the keys of a store are a hierarchy

The store does not look at the whole path of a key that it writes. It writes no leaf in place of a
directory, and it allocates no key directly in a leaf; but a key may be written below a leaf in other
ways, and allocated above other keys. The keys stay a hierarchy just as long as no write does either.
A leaf that is shown when its key is read is missing from a look into the root just if it lies below
another leaf.
-/

namespace Rollcall.Store

open Store.Path

namespace Tree

variable {t t' : Tree} {now : Nat} {key : String}

theorem hierarchical_iff :
    t.Hierarchical ↔ ∀ x e, t.entries.find? x = some e → e.dir = false →
      ∀ y e', t.entries.find? y = some e' → isBelow x y = false := by
  have hc : ∀ x, t.hasChildren x = false ↔
      ∀ y e', t.entries.find? y = some e' → isBelow x y = false := by
    intro x
    rw [← Bool.not_eq_true, hasChildren_iff]
    simp
  simp only [Hierarchical, Prod.forall, Dict.mem_toList_iff, hc]

/-- Fewer keys, with leaves for leaves and directories for directories, are a hierarchy too. -/
theorem Hierarchical.of_entries (h : t.Hierarchical)
    (hsub : ∀ k e, t'.entries.find? k = some e →
      ∃ e', t.entries.find? k = some e' ∧ e'.dir = e.dir) : t'.Hierarchical := by
  refine hierarchical_iff.mpr fun x e hx hd y e' hy => ?_
  obtain ⟨d, hx', hdir⟩ := hsub x e hx
  obtain ⟨_, hy', -⟩ := hsub y e' hy
  exact hierarchical_iff.mp h x d hx' (hdir.trans hd) y _ hy'

theorem Hierarchical.purge (h : t.Hierarchical) (now : Nat) : (t.purge now).Hierarchical :=
  h.of_entries fun k e he => ⟨e, (live?_eq_some.mp (find?_purge t now k ▸ he)).1, rfl⟩

/-- A write keeps a hierarchy just if no leaf lies above the key and, if it is to be a leaf itself,
nothing below. -/
theorem hierarchical_write_iff (h : t.Hierarchical) (value : Option String) (ttl : Option Nat)
    (dir : Bool) : (t.write now key value ttl dir).Hierarchical ↔
      (∀ y e, t.entries.find? y = some e → e.dir = false → isBelow y key = false) ∧
      (dir = false → ∀ y e, t.entries.find? y = some e → isBelow key y = false) := by
  have hne : ∀ {x y : String}, isBelow x y = true → x ≠ y := fun hb he =>
    absurd (length_lt_of_isBelow hb) (he ▸ Nat.lt_irrefl _)
  -- An entry above or below the key is none under the key, and stays.
  have hold : ∀ {y : String} {e : Entry}, y ≠ key → t.entries.find? y = some e →
      (t.write now key value ttl dir).entries.find? y = some e := fun hy he => by
    rw [find?_write, if_neg hy, he]
  have hnew := find?_write t now key key value ttl dir
  rw [if_pos rfl] at hnew
  constructor
  · intro hw
    rw [hierarchical_iff] at hw
    refine ⟨fun y e he hd => Bool.eq_false_iff.mpr fun hb => ?_,
      fun hd y e he => Bool.eq_false_iff.mpr fun hb => ?_⟩
    · rw [hw y e (hold (hne hb) he) hd key _ hnew] at hb
      cases hb
    · rw [hw key _ hnew hd y e (hold (hne hb).symm he)] at hb
      cases hb
  · rintro ⟨habove, hbelow⟩
    refine hierarchical_iff.mpr fun x e hx hd y e' hy => Bool.eq_false_iff.mpr fun hb => ?_
    rw [find?_write] at hx hy
    split at hx
    · next hxk =>
      subst hxk
      rw [if_neg (hne hb).symm] at hy
      rw [hbelow (by rw [← Option.some.inj hx] at hd; exact hd) y e' hy] at hb
      cases hb
    · split at hy
      · next hyk =>
        subst hyk
        rw [habove x e hx hd] at hb
        cases hb
      · rw [hierarchical_iff.mp h x e hx hd y e' hy] at hb
        cases hb

/-- What is no directory of a hierarchy has nothing below it. -/
theorem Hierarchical.not_isBelow (h : t.Hierarchical) (hd : t.isDir key = false) {y : String}
    {e : Entry} (hy : t.entries.find? y = some e) : isBelow key y = false := by
  rw [isDir, Bool.or_eq_false_iff] at hd
  cases hk : t.entries.find? key with
  | some d =>
    simp only [hk] at hd
    exact hierarchical_iff.mp h key d hk hd.2 y e hy
  | none =>
    simp only [hk] at hd
    refine Bool.eq_false_iff.mpr fun hb => ?_
    rw [hasChildren_iff.mpr ⟨y, e, hy, hb⟩] at hd
    cases hd.2

end Tree

namespace Vault

variable {v : Vault} {c : Call} {key : String}

/-- Whether a key is a live leaf. -/
def Leaf (v : Vault) (key : String) : Prop := ∃ e, v.live? key = some e ∧ e.dir = false

instance (v : Vault) (key : String) : Decidable (v.Leaf key) :=
  decidable_of_iff ((v.live? key).any (fun e => !e.dir) = true) (by
    simp only [Leaf, Option.any_eq_true, Bool.not_eq_true'])

/-- Whether a call is a request to allocate a key. -/
def Call.Allocates (c : Call) : Prop := ∃ dir value ttl, c = .ask (.post dir value ttl)

/-- Whether there is room for a key that a call writes: it lies below no live leaf and, if it is
allocated, above no live key. -/
structure Room (v : Vault) (c : Call) (key : String) : Prop where
  above : ∀ y, v.Leaf y → isBelow y key = false
  below : c.Allocates → ∀ y e, v.live? y = some e → isBelow key y = false

/-- A key that is written is put down among what is live, as a leaf if it is allocated; otherwise a
leaf is put down only where there is no directory. -/
theorem Writes.tree_call (hw : v.Writes c key) : ∃ value ttl dir,
    (v.call c).1.tree = (v.tree.purge v.now).write v.now key value ttl dir ∧
      (c.Allocates → dir = false) ∧
      (dir = false → c.Allocates ∨ (v.tree.purge v.now).isDir key = false) := by
  obtain ⟨r, response, rfl, hok, ht⟩ := hw
  obtain ⟨-, hp⟩ := Tree.perform_of_run hok
  rw [show (v.call (.ask r)).1.tree = (v.tree.run v.now r).1 from rfl]
  generalize (v.tree.run v.now r).1 = t' at hp ⊢
  cases r with
  | get => cases ht
  | delete => cases ht
  | put name value o =>
    obtain rfl := Option.some.inj ht
    obtain ⟨htree, -, hdir, -⟩ := Tree.put_eq_ok hp
    refine ⟨_, _, o.dir, htree, nofun, fun ho => .inr (Bool.eq_false_iff.mpr fun hd => ?_)⟩
    rw [hdir hd] at ho
    cases ho
  | post dir value ttl =>
    obtain rfl := Option.some.inj ht
    exact ⟨_, _, false, (Tree.post_eq_ok hp).1, fun _ => rfl,
      fun _ => .inl ⟨dir, value, ttl, rfl⟩⟩

/-- What stands after a call that writes nothing stood before, leaves as leaves. -/
theorem find?_call_of_not_writes (hw : ∀ k, ¬v.Writes c k) {k : String} {e : Entry}
    (h : (v.call c).1.tree.entries.find? k = some e) :
    ∃ e', v.tree.entries.find? k = some e' ∧ e'.dir = e.dir := by
  cases c with
  | ask r =>
    rcases Tree.find?_run h with he | hwrote
    · exact ⟨e, he, rfl⟩
    · obtain ⟨response, hok⟩ := hwrote.carried
      exact absurd ⟨r, response, rfl, hok, hwrote.target⟩ (hw k)
  | look name =>
    rw [call, Tree.value] at h
    exact ⟨e, (Tree.live?_eq_some.mp (Tree.find?_purge v.tree v.now k ▸ h)).1, rfl⟩
  | pin name ttl =>
    rw [call, Tree.pinTtl] at h
    simp only [Dict.find?_modify] at h
    split at h
    · next hk =>
      obtain ⟨e', he', rfl⟩ := Option.map_eq_some_iff.mp h
      exact ⟨e', hk ▸ he', rfl⟩
    · exact ⟨e, h, rfl⟩
  | fail f => exact ⟨e, h, rfl⟩
  | elapse d => exact ⟨e, h, rfl⟩

/-- A call keeps a hierarchy just if there is room for the key that it writes, if it writes one. -/
theorem hierarchical_call_iff (h : v.tree.Hierarchical) (c : Call) :
    (v.call c).1.tree.Hierarchical ↔ ∀ key, v.Writes c key → v.Room c key := by
  by_cases hw : ∃ key, v.Writes c key
  · obtain ⟨key, hw⟩ := hw
    obtain ⟨value, ttl, dir, htree, halloc, hleaf⟩ := hw.tree_call
    have hp := h.purge v.now
    have hone : ∀ k, v.Writes c k → k = key := by
      rintro k ⟨r, _, hc, -, ht⟩
      obtain ⟨r', _, hc', -, ht'⟩ := hw
      obtain rfl : r = r' := Call.ask.inj (hc.symm.trans hc')
      exact Option.some.inj (ht.symm.trans ht')
    rw [htree, Tree.hierarchical_write_iff hp]
    simp only [Tree.find?_purge]
    constructor
    · rintro ⟨habove, hbelow⟩ k hk
      rw [hone k hk]
      exact ⟨fun y ⟨e, he, hd⟩ => habove y e he hd, fun hc => hbelow (halloc hc)⟩
    · intro hroom
      obtain ⟨habove, hbelow⟩ := hroom key hw
      refine ⟨fun y e he hd => habove y ⟨e, he, hd⟩, fun hd => ?_⟩
      rcases hleaf hd with hc | hdir
      · exact hbelow hc
      · exact fun y e he => hp.not_isBelow hdir ((Tree.find?_purge ..).trans he)
  · have hw : ∀ key, ¬v.Writes c key := fun key hk => hw ⟨key, hk⟩
    exact ⟨fun _ key hk => absurd hk (hw key),
      fun _ => h.of_entries fun _ _ he => find?_call_of_not_writes hw he⟩

/-- A run keeps a hierarchy at every moment just if every write finds room. -/
theorem always_hierarchical_iff (h : v.tree.Hierarchical) (calls : List Call) :
    v.Always (fun w c => (w.call c).1.tree.Hierarchical) calls ↔
      v.Always (fun w c => ∀ key, w.Writes c key → w.Room c key) calls := by
  induction calls generalizing v with
  | nil => exact Iff.rfl
  | cons c calls ih =>
    constructor
    · rintro ⟨hc, hcalls⟩
      exact ⟨(hierarchical_call_iff h c).mp hc, (ih hc).mp hcalls⟩
    · rintro ⟨hroom, hcalls⟩
      have hc := (hierarchical_call_iff h c).mpr hroom
      exact ⟨hc, (ih hc).mpr hcalls⟩

theorem hierarchical_run (h : v.tree.Hierarchical) {calls : List Call}
    (hc : v.Always (fun w c => (w.call c).1.tree.Hierarchical) calls) :
    (v.run calls).tree.Hierarchical := by
  induction calls generalizing v with
  | nil => exact h
  | cons c calls ih => exact ih hc.1 hc.2

theorem hierarchical_opened (now : Nat) : (opened now).tree.Hierarchical := nofun

/-- In a hierarchy nothing live lies below a live leaf. -/
theorem not_isBelow_of_leaf (h : v.tree.Hierarchical) {x y : String} {e : Entry} (hx : v.Leaf x)
    (hy : v.live? y = some e) : isBelow x y = false := by
  obtain ⟨d, hx, hd⟩ := hx
  exact Tree.hierarchical_iff.mp h x d (Tree.live?_eq_some.mp hx).1 hd y e
    (Tree.live?_eq_some.mp hy).1

/-! ## Leaves that a look into the root does not show -/

private theorem isWithin_root_iff {k : String} :
    isWithin "" k = true ↔ k.toList = [] ∨ ∃ rest, k.toList = '/' :: rest := by
  rw [isWithin_iff, isBelow_iff, String.toList_eq_nil_iff]
  rfl

private theorem normalize_root : normalize "/" = "" := by decide +kernel

/-- The form in which the store knows a key is that of the root or begins with a slash. -/
private theorem isWithin_root_normalize (name : String) :
    isWithin "" (normalize name) = true := by
  rw [isWithin_root_iff, Path.normalize]
  split
  · exact .inl rfl
  · next rest _ => exact .inr ⟨rest, String.toList_ofList⟩
  · exact .inr ⟨_, String.toList_ofList⟩

private theorem isWithin_root_of_isBelow {x y : String} (hy : isWithin "" y = true)
    (hb : isBelow x y = true) : isWithin "" x = true := by
  obtain ⟨rest, hr⟩ := isBelow_iff.mp hb
  rw [isWithin_root_iff] at hy ⊢
  cases hx : x.toList with
  | nil => exact .inl rfl
  | cons c cs =>
    rw [hx, List.cons_append] at hr
    rcases hy with hy | ⟨rest', hy⟩
    · rw [hr] at hy
      cases hy
    · rw [hr] at hy
      exact .inr ⟨cs, by rw [(List.cons.inj hy).1]⟩

/-- A leaf that is read is a live one, shown as it is. -/
theorem leaf_of_get {name : String} {recursive sorted : Bool} {response : Response} {n : Node}
    (hok : v.answer (.get name recursive sorted) = .ok response) (hn : response.node = some n)
    (hd : n.dir = false) :
    ∃ e, v.live? (normalize name) = some e ∧ e.dir = false ∧
      n = Tree.leafNode v.now (normalize name) e := by
  obtain ⟨-, hp⟩ := Tree.perform_of_run hok
  rw [(Tree.get_eq_ok hp).2.2, Option.some.injEq] at hn
  rcases (v.tree.purge v.now).leaf_or_directory (normalize name) with ⟨e, he, hleaf⟩ | hdir
  · rw [Tree.node_of_leaf _ _ _ he hleaf] at hn
    exact ⟨e, (Tree.find?_purge ..).symm.trans he, hleaf, hn.symm⟩
  · rw [Tree.node_eq_directoryNode hdir] at hn
    rw [← hn] at hd
    cases hd

/-- A live leaf is shown when its key is read. -/
theorem answer_get_of_leaf (hf : v.tree.failures = []) {name : String} {e : Entry}
    (he : v.live? (normalize name) = some e) (hd : e.dir = false) (recursive sorted : Bool) :
    v.answer (.get name recursive sorted) = .ok {
      action := "get", node := some (Tree.leafNode v.now (normalize name) e) } := by
  have hfind : (v.tree.purge v.now).entries.find? (normalize name) = some e :=
    (Tree.find?_purge ..).trans he
  have hthere : ¬(normalize name ≠ "" ∧ !(v.tree.purge v.now).present (normalize name)) := by
    rw [Tree.present_iff.mpr (.inl ⟨e, hfind⟩)]
    simp
  rw [answer, Tree.run_get hf, if_neg hthere, Tree.node_of_leaf _ _ _ hfind hd]

/-- The root is shown when it is read. -/
theorem answer_get_root (hf : v.tree.failures = []) (recursive sorted : Bool) :
    v.answer (.get "/" recursive sorted) = .ok {
      action := "get"
      node := some ((v.tree.purge v.now).node v.now
        (if recursive then (v.tree.purge v.now).height else 1) "") } := by
  rw [answer, Tree.run_get hf, normalize_root, if_neg fun h => h.1 rfl]

/-- A leaf that is shown when its key is read stands among the leaves of the root just if it lies
below no live leaf. -/
theorem mem_leaves_root_iff {name : String} {sorted sorted' : Bool} {response response' : Response}
    {n root : Node} (hok : v.answer (.get name false sorted) = .ok response)
    (hn : response.node = some n) (hd : n.dir = false)
    (hok' : v.answer (.get "/" true sorted') = .ok response') (hroot : response'.node = some root) :
    n ∈ root.leaves ↔ ∀ y, v.Leaf y → isBelow y n.key = false := by
  obtain ⟨e, he, hleaf, rfl⟩ := leaf_of_get hok hn hd
  have hfind : (v.tree.purge v.now).entries.find? (normalize name) = some e :=
    (Tree.find?_purge ..).trans he
  have hwithin := isWithin_root_normalize name
  obtain ⟨-, hp⟩ := Tree.perform_of_run hok'
  rw [(Tree.get_eq_ok hp).2.2, Option.some.injEq, normalize_root] at hroot
  rw [← hroot, if_pos rfl, (Tree.unfolds_height _ v.now "").mem_leaves_iff hfind,
    Tree.mem_shown_iff, and_iff_right hfind, and_iff_right hleaf, and_iff_right hwithin,
    ← Bool.not_eq_true, Tree.hides_iff]
  simp only [Tree.find?_purge]
  constructor
  · rintro h y ⟨d, hy, hdir⟩
    exact Bool.eq_false_iff.mpr fun hb =>
      h ⟨y, d, hy, hdir, isWithin_root_of_isBelow hwithin hb, hb⟩
  · rintro h ⟨y, d, hy, hdir, -, hb⟩
    exact absurd hb (Bool.eq_false_iff.mp (h y ⟨d, hy, hdir⟩))

/-- No key is allocated directly in a live leaf. -/
theorem answer_post_of_leaf {dir : String} (h : v.Leaf (normalize dir)) (value : String)
    (ttl : Option Nat) : ∃ f, v.answer (.post dir value ttl) = .error f := by
  obtain ⟨e, he, hd⟩ := h
  cases ha : v.answer (.post dir value ttl) with
  | error f => exact ⟨f, rfl⟩
  | ok response =>
    obtain ⟨-, hp⟩ := Tree.perform_of_run ha
    obtain ⟨-, -, hdir⟩ := Tree.post_eq_ok hp
    rw [hdir e ((Tree.find?_purge ..).trans he)] at hd
    cases hd

/-- The keys of a store are a hierarchy at every moment of a run just if every key that is written
has room: it lies below no live leaf, and above no live key if it is allocated. Then no live leaf has
another live key below it. In any case a leaf that is shown when its key is read is missing from a
look into the root just if it lies below a live leaf. No key is allocated directly in a live leaf, and
a request that is not answered by a response leaves what is live, and the index. -/
theorem run_keeps_hierarchy_iff (now : Nat) (calls : List Call) :
    let v := (opened now).run calls
    ((opened now).Always (fun w c => (w.call c).1.tree.Hierarchical) calls ↔
        (opened now).Always (fun w c => ∀ key, w.Writes c key → w.Room c key) calls) ∧
      ((opened now).Always (fun w c => ∀ key, w.Writes c key → w.Room c key) calls →
        ∀ x y e, v.Leaf x → v.live? y = some e → isBelow x y = false) ∧
      (∀ name sorted sorted' response response' n root,
        v.answer (.get name false sorted) = .ok response → response.node = some n → n.dir = false →
        v.answer (.get "/" true sorted') = .ok response' → response'.node = some root →
        (n ∈ root.leaves ↔ ∀ y, v.Leaf y → isBelow y n.key = false)) ∧
      (∀ dir value ttl, v.Leaf (normalize dir) →
        ∃ f, v.answer (.post dir value ttl) = .error f) ∧
      ∀ r f, v.answer r = .error f → (v.call (.ask r)).1.tree.index = v.tree.index ∧
        ∀ key, (v.call (.ask r)).1.live? key = v.live? key := by
  intro v
  have hiff := always_hierarchical_iff (hierarchical_opened now) calls
  refine ⟨hiff, fun hroom x y e hx hy => ?_, fun name sorted sorted' response response' n root =>
    mem_leaves_root_iff, fun dir value ttl hl => answer_post_of_leaf hl value ttl,
    fun r f hf => ⟨(Tree.run_of_error hf).1, Tree.live?_run_of_error hf⟩⟩
  exact not_isBelow_of_leaf (hierarchical_run (hierarchical_opened now) (hiff.mpr hroom)) hx hy

/-- A leaf that runs out makes room for a directory, and keys are allocated beside and below. -/
def regrown : List Call :=
  [.ask (.put "/a" (some "1") { ttl := some 1 }), .elapse (Duration.ofSeconds 2),
    .ask (.put "/a/b" (some "2") {}), .ask (.post "/a" "3" none), .ask (.delete "/a/b" {}),
    .ask (.post "/a/b" "4" none)]

theorem room_of_regrown :
    let v := (opened 0).run regrown
    let key := "/a/00000000000000000003"
    (opened 0).Always (fun w c => ∀ key, w.Writes c key → w.Room c key) regrown ∧
      (∀ y e, v.live? y = some e → isBelow key y = false) ∧
      (∃ n root, v.answer (.get key false false) = .ok { action := "get", node := some n } ∧
        n.dir = false ∧ v.answer (.get "/" true true) = .ok { action := "get", node := some root } ∧
        n ∈ root.leaves) ∧
      ∃ f, v.answer (.post key "5" none) = .error f := by
  intro v key
  obtain ⟨hiff, hbelow, hroot, hpost, -⟩ := run_keeps_hierarchy_iff 0 regrown
  have hroom : (opened 0).Always (fun w c => ∀ key, w.Writes c key → w.Room c key) regrown :=
    hiff.mp ⟨by decide +kernel, by decide +kernel, by decide +kernel, by decide +kernel,
      by decide +kernel, by decide +kernel, trivial⟩
  have hkey : normalize key = key := by decide +kernel
  have he : v.live? (normalize key) = some ⟨some "3", false, none, none, 3, 3⟩ := by decide +kernel
  have hleaf : v.Leaf (normalize key) := ⟨_, he, rfl⟩
  have hget := answer_get_of_leaf rfl he rfl false false
  have hlook := answer_get_root (v := v) rfl true true
  refine ⟨hroom, fun y e hy => hbelow hroom key y e (hkey ▸ hleaf) hy,
    ⟨_, _, hget, rfl, hlook, ?_⟩, hpost key "5" none hleaf⟩
  refine (hroot key false true _ _ _ _ hget rfl rfl hlook rfl).mpr fun y hy => ?_
  exact hbelow hroom y _ _ hy he

/-- A leaf is written below a leaf, and a key is allocated below it and another above a key. -/
def grafted : List Call :=
  [.ask (.put "/a" (some "1") {}), .ask (.put "/a/b" (some "2") {}), .ask (.post "/a/c" "3" none),
    .ask (.put "/q/00000000000000000005/x" (some "4") {}), .ask (.post "/q" "5" none)]

/-- Keys are written below leaves, and above others, without a refusal; what lies below a leaf is
shown when its key is read, and is missing from a look into the root. -/
theorem leaf_below_leaf_of_grafted :
    let v := (opened 0).run grafted
    (∃ responses : List Response,
        (opened 0).replies grafted = responses.map fun response => .answer (.ok response)) ∧
      (∀ x ∈ [("/a", "/a/b"), ("/a", "/a/c/00000000000000000003"),
          ("/q/00000000000000000005", "/q/00000000000000000005/x")],
        v.Leaf x.1 ∧ v.Leaf x.2 ∧ isBelow x.1 x.2 = true) ∧
      ∃ n root, v.answer (.get "/a/b" false false) = .ok { action := "get", node := some n } ∧
        n.dir = false ∧ v.answer (.get "/" true true) = .ok { action := "get", node := some root } ∧
        root.leaves.map Node.key = ["/a", "/q/00000000000000000005"] ∧ n ∉ root.leaves := by
  intro v
  have he : v.live? (normalize "/a/b") = some ⟨some "2", false, none, none, 2, 2⟩ := by
    decide +kernel
  have hget := answer_get_of_leaf rfl he rfl false false
  have hlook := answer_get_root (v := v) rfl true true
  have hleaves : ((v.tree.purge v.now).node v.now (v.tree.purge v.now).height "").leaves.map
      Node.key = ["/a", "/q/00000000000000000005"] := by decide +kernel
  refine ⟨⟨[_, _, _, _, _], rfl⟩, by decide +kernel, _, _, hget, rfl, hlook, hleaves, fun hm => ?_⟩
  have hk := List.mem_map_of_mem (f := Node.key) hm
  rw [if_pos rfl, hleaves] at hk
  revert hk
  decide +kernel

end Vault

end Rollcall.Store
