import Rollcall.Proofs.Listing
import Rollcall.Proofs.Store.Tree
import Rollcall.Registry

/-!
# The ledger of the announces

Every announce stands under a key that the store allocated when a member created it. A ledger has
for the index of each such key who created it and in what name. As long as entries below the
directory are created, renewed and removed by the operations meant for that, what is live there says
what the ledger says, a key that is dead stays dead, and whoever lists the announces finds of every
instance the oldest live one.
-/

namespace Rollcall

open Store

/-- By whom and in what name an announce was created. -/
structure Origin where
  /-- The member that created it. -/
  creator : String
  instanceId : String
  clusterId : String

/-- Whether a payload speaks in the name in which an announce was created. -/
def Origin.Agrees (o : Origin) (d : Payload) : Prop :=
  d.instanceId = o.instanceId ∧ d.clusterId = o.clusterId

namespace Registry

/-- What an operation makes of an answer. -/
def Operation.outcome {α : Type} (op : Operation α) (a : Answer) : Except Failure α :=
  (op.accept {} a).2

/-- What an operation makes of an answer does not hang on the failures counted. -/
theorem Operation.accept_snd {α : Type} (op : Operation α) (t : Tally) (a : Answer) :
    (op.accept t a).2 = op.outcome a := by
  unfold Operation.outcome Operation.accept
  split
  · rfl
  · split <;> rfl
  · rfl

namespace Layout

/-- The directory of the announces in the form in which the store knows it. -/
def directory (l : Layout) : String := Path.normalize l.announces

private def anchored : List Char → List Char
  | [] => []
  | '/' :: rest => '/' :: rest
  | rest => '/' :: rest

private theorem exists_normalize_below {key : String} {root rest : List Char} {c : Char}
    (h : key.toList = root ++ '/' :: c :: rest) (hc : c ≠ '/') :
    ∃ rest', (Path.normalize key).toList = anchored root ++ '/' :: c :: rest' := by
  have hd : ∃ rest', Text.dropTrailing '/' key.toList = root ++ '/' :: c :: rest' := by
    refine ⟨(rest.reverse.dropWhile fun x => decide (x = '/')).reverse, ?_⟩
    have hr : (root ++ '/' :: c :: rest).reverse = rest.reverse ++ c :: '/' :: root.reverse := by
      simp
    rw [Text.dropTrailing, h, hr, List.dropWhile_append]
    split
    · next he => simp [List.isEmpty_iff.mp he, hc]
    · simp
  obtain ⟨rest', hd⟩ := hd
  refine ⟨rest', ?_⟩
  rw [Path.normalize, hd]
  cases root with
  | nil => simp [anchored]
  | cons d ds =>
    by_cases hs : d = '/'
    · subst hs
      simp [anchored]
    · simp [anchored, hs]

theorem toList_announces (l : Layout) :
    l.announces.toList = l.root.toList ++ '/' :: 'a' :: "nnounces".toList := by
  simp [announces]

/-- The directory of the announces begins with a slash. -/
theorem exists_toList_directory (l : Layout) : ∃ cs, l.directory.toList = '/' :: cs := by
  obtain ⟨rest, h⟩ := exists_normalize_below l.toList_announces (by decide)
  rw [directory, h]
  cases hr : l.root.toList with
  | nil => simp [anchored]
  | cons d ds => by_cases hs : d = '/' <;> simp [anchored, hs]

/-- A key allocated in the directory of the announces is known to the store as it is. -/
theorem normalize_allocated (l : Layout) (n : Nat) :
    Path.normalize (Path.allocated l.directory n) = Path.allocated l.directory n := by
  obtain ⟨cs, h⟩ := l.exists_toList_directory
  exact Path.normalize_allocated h n

/-- Two keys below the root with names that begin differently are apart, and so is what lies below
them. -/
theorem normalize_append_ne (l : Layout) {key key' : String} {c c' : Char} {rest rest' : List Char}
    (h : key.toList = l.root.toList ++ '/' :: c :: rest) (hc : c ≠ '/')
    (h' : key'.toList = l.root.toList ++ '/' :: c' :: rest') (hc' : c' ≠ '/') (hne : c ≠ c')
    (tail tail' : List Char) :
    (Path.normalize key).toList ++ tail ≠ (Path.normalize key').toList ++ tail' := by
  obtain ⟨r, hr⟩ := exists_normalize_below h hc
  obtain ⟨r', hr'⟩ := exists_normalize_below h' hc'
  intro he
  rw [hr, hr', List.append_assoc, List.append_assoc, List.append_cancel_left_eq, List.cons_append,
    List.cons_append, List.cons_append, List.cons_append, List.cons.injEq, List.cons.injEq] at he
  exact hne he.2.1

/-- A key of another name below the root is aside of the announces. -/
theorem normalize_aside (l : Layout) {key : String} {c : Char} {rest : List Char}
    (h : key.toList = l.root.toList ++ '/' :: c :: rest) (hc : c ≠ '/') (ha : c ≠ 'a') :
    Path.normalize key ≠ l.directory ∧ Path.isBelow l.directory (Path.normalize key) = false := by
  have hne := l.normalize_append_ne h hc l.toList_announces (by decide) ha
  constructor
  · intro he
    exact hne [] [] (by rw [he, directory])
  · rw [Bool.eq_false_iff, ne_eq, Path.isBelow_iff]
    rintro ⟨tail, he⟩
    exact hne [] _ (by rw [List.append_nil, he, directory])

theorem toList_clusterId (l : Layout) :
    l.clusterId.toList = l.root.toList ++ '/' :: 'c' :: "luster-id".toList := by
  simp [clusterId]

theorem toList_propertiesOf (l : Layout) (id : String) :
    (l.propertiesOf id).toList =
      l.root.toList ++ '/' :: 'p' :: ("roperties/".toList ++ id.toList) := by
  simp [propertiesOf, properties]

/-- The directory of the announces is no allocated key. -/
theorem directory_ne_allocated (l : Layout) (dir : String) (n : Nat) :
    l.directory ≠ Path.allocated dir n := by
  have ha : l.announces.toList = (l.root.toList ++ "/announce".toList) ++ ['s'] := by
    simp [announces]
  obtain ⟨ds, hd⟩ := Path.exists_normalize_eq ha (by decide)
  intro he
  have hp := (Text.Decimal.padded 20 n).dropLast_concat_getLast (Text.Decimal.padded_ne_nil 20 n)
  rw [← directory, he, Path.toList_allocated, ← hp, ← List.cons_append, ← List.append_assoc,
    ← List.cons_append] at hd
  have hs := List.append_inj_right' hd rfl
  have hm := List.getLast_mem (Text.Decimal.padded_ne_nil 20 n)
  rw [List.singleton_inj.mp hs] at hm
  exact absurd (Text.Decimal.isDigit_of_mem_padded hm) (by decide)

end Layout

/-- The nodes of the announces are those of the response; a directory that is not there has none. -/
theorem outcome_announces {l : Layout} {a : Answer} {nodes : List Node}
    (h : (announces l).outcome a = .ok nodes) :
    (∃ response, a = .ok response ∧ nodes = response.children) ∨
      ∃ f, a = .error f ∧ f.isKeyNotFound = true ∧ nodes = [] := by
  unfold Operation.outcome Operation.accept at h
  split at h
  · next response => exact .inl ⟨response, rfl, (Except.ok.inj h).symm⟩
  · next r =>
    split at h
    · next he => exact .inr ⟨_, rfl, he, (Except.ok.inj h).symm⟩
    · cases h
  · cases h

/-- The announce that was created has the key that the store allocated. -/
theorem key_of_announce {l l' : Layout} {d d' : Payload} {ttl ttl' : Nat} {t : Tree} {now : Nat}
    {a : Announce}
    (h : (announce l d ttl).outcome (t.run now (announce l' d' ttl').request).2 = .ok a) :
    a.key = Path.allocated l'.directory (t.index + 1) ∧
      (t.run now (announce l' d' ttl').request).1.index = t.index + 1 := by
  cases hr : (t.run now (announce l' d' ttl').request).2 with
  | error f =>
    rw [hr] at h
    cases f <;> cases h
  | ok response =>
    obtain ⟨hi, n, hn, hk⟩ := Tree.run_post_of_ok hr
    refine ⟨?_, hi⟩
    obtain ⟨action, node, prevNode⟩ := response
    cases hn
    rw [hr] at h
    have h : ofPayload (Announce.make n.key d (n.ttl <|> some (signed ttl))) = .ok a := h
    cases hm : Announce.make n.key d (n.ttl <|> some (signed ttl)) with
    | error e =>
      rw [hm] at h
      cases h
    | ok b =>
      rw [hm] at h
      cases h
      exact (Announce.make_eq_ok hm).1.trans hk

end Registry

/-- For the index of every key that was allocated, how the announce under it came to be. -/
abbrev Ledger := Nat → Origin

open Registry (Layout)

/-- What is live below the directory of the announces is in the ledger, and while something is live
there the directory is no leaf. -/
structure Ledger.Covers (o : Ledger) (l : Layout) (t : Tree) (now : Nat) : Prop where
  entry : ∀ {k : String} {e : Entry}, t.live? now k = some e →
    Path.isBelow l.directory k = true →
    ∃ n d, k = Path.allocated l.directory n ∧ n ≤ t.index ∧ e.dir = false ∧ e.pinnedTtl = none ∧
      e.value = some (Payload.encode d) ∧ (o n).Agrees d
  leaf : ∀ {e : Entry}, t.live? now l.directory = some e → e.dir = false →
    ∀ k, Path.isBelow l.directory k = true → t.live? now k = none

/-- From one moment of the store to a later one no announce comes back to life. -/
structure Ages (l : Layout) (t : Tree) (now : Nat) (t' : Tree) (now' : Nat) : Prop where
  index_le : t.index ≤ t'.index
  dead : ∀ n ≤ t.index, t.live? now (Path.allocated l.directory n) = none →
    t'.live? now' (Path.allocated l.directory n) = none

namespace Ages

variable {l : Layout}

theorem of_directory {l' : Layout} {t t' : Tree} {now now' : Nat} (h : Ages l t now t' now')
    (hd : l'.directory = l.directory) : Ages l' t now t' now' where
  index_le := h.index_le
  dead := by rw [hd]; exact h.dead

theorem refl (t : Tree) (now : Nat) : Ages l t now t now := ⟨Nat.le_refl _, fun _ _ h => h⟩

theorem trans {t₁ t₂ t₃ : Tree} {n₁ n₂ n₃ : Nat} (h : Ages l t₁ n₁ t₂ n₂)
    (h' : Ages l t₂ n₂ t₃ n₃) : Ages l t₁ n₁ t₃ n₃ where
  index_le := Nat.le_trans h.index_le h'.index_le
  dead n hn hd := h'.dead n (Nat.le_trans hn h.index_le) (h.dead n hn hd)

end Ages

namespace Ledger

variable {o : Ledger} {l : Layout} {t t' : Tree} {now now' : Nat}

/-- The ledger knows layouts by their directory of the announces. -/
theorem Covers.of_directory {l' : Layout} (h : o.Covers l t now)
    (hd : l'.directory = l.directory) : o.Covers l' t now where
  entry := by rw [hd]; exact h.entry
  leaf := by rw [hd]; exact h.leaf

/-- An empty store has no announces. -/
theorem covers_empty (o : Ledger) (l : Layout) (now : Nat) : o.Covers l {} now where
  entry h _ := by simp [Tree.live?, EmptyCollection.emptyCollection, Dict.empty, Dict.find?] at h
  leaf h := by simp [Tree.live?, EmptyCollection.emptyCollection, Dict.empty, Dict.find?] at h

/-- Nothing lies below an announce, so if its key is there the announce is live. -/
theorem Covers.live_of_present (h : o.Covers l t now) {n : Nat}
    (hp : (t.purge now).present (Path.allocated l.directory n) = true) :
    ∃ e, t.live? now (Path.allocated l.directory n) = some e := by
  rcases Tree.present_iff.mp hp with ⟨e, he⟩ | hc
  · rw [Tree.find?_purge] at he
    exact ⟨e, he⟩
  · obtain ⟨k, e, he, hk⟩ := Tree.hasChildren_iff.mp hc
    rw [Tree.find?_purge] at he
    have hb := Path.isBelow_trans (Path.isBelow_allocated l.directory n) hk
    obtain ⟨m, _, rfl, _⟩ := h.entry he hb
    rw [Path.not_isBelow_allocated] at hk
    cases hk

/-- Time alone makes announces die. -/
theorem Covers.elapse (h : o.Covers l t now) (hn : now ≤ now') :
    o.Covers l t now' ∧ Ages l t now t now' := by
  refine ⟨⟨fun he hb => h.entry (Tree.live?_of_later hn he) hb, fun he hf k hb => ?_⟩,
    ⟨Nat.le_refl _, fun n _ => Tree.live?_later_eq_none hn⟩⟩
  exact Tree.live?_later_eq_none hn (h.leaf (Tree.live?_of_later hn he) hf k hb)

/-- A request makes a leaf of the directory only when nothing is live below it. -/
theorem Covers.leaf_run (h : o.Covers l t now) {r : Request} {e : Entry}
    (he : (t.run now r).1.live? now l.directory = some e) (hf : e.dir = false) :
    ∀ k, Path.isBelow l.directory k = true → t.live? now k = none := by
  rcases Tree.live?_run he with hl | hw
  · exact h.leaf hl hf
  · cases hw with
    | put hk there leaf hv =>
      rename_i name value options
      have hd : (t.purge now).isDir l.directory ≠ true := by
        intro hd
        rw [hv.1, leaf hd] at hf
        cases hf
      rw [Tree.isDir] at hd
      intro k hb
      cases hx : t.live? now l.directory with
      | some x =>
        rw [Tree.find?_purge, hx] at hd
        have hxd : x.dir = false := by
          rw [Bool.eq_false_iff]
          intro hx
          exact hd (by simp [hx])
        exact h.leaf hx hxd k hb
      | none =>
        cases hk : t.live? now k with
        | none => rfl
        | some y =>
          rw [Tree.find?_purge, hx] at hd
          have hc : (t.purge now).hasChildren l.directory = true :=
            Tree.hasChildren_iff.mpr ⟨k, y, by rw [Tree.find?_purge, hk], hb⟩
          simp [hc] at hd
    | post hk leaf hv => exact absurd hk (l.directory_ne_allocated _ _)

/-- Requests that leave the announces alone, renew one, or take one away. -/
inductive Respects (o : Ledger) (l : Layout) : Request → Prop
  | get (key : String) (recursive sorted : Bool) : Respects o l (.get key recursive sorted)
  | aside {key : String} (value : Option String) (options : WriteOptions)
      (hd : Path.normalize key ≠ l.directory)
      (hb : Path.isBelow l.directory (Path.normalize key) = false) :
      Respects o l (.put key value options)
  | renew {n : Nat} {d : Payload} (ttl : Nat) (hd : (o n).Agrees d) :
      Respects o l (Registry.renew (Path.allocated l.directory n) d ttl).request
  | delete (key : String) (options : RemovalOptions) : Respects o l (.delete key options)

/-- An entry that was live before the request, or that the ledger has and that was live before
unless its key is new. -/
private def Accounted (o : Ledger) (l : Layout) (t : Tree) (now index : Nat) (k : String)
    (e : Entry) : Prop :=
  t.live? now k = some e ∨
    ∃ n d, k = Path.allocated l.directory n ∧ n ≤ index ∧
      (n ≤ t.index → ∃ e', t.live? now k = some e') ∧ e.dir = false ∧ e.pinnedTtl = none ∧
      e.value = some (Payload.encode d) ∧ (o n).Agrees d

private theorem Covers.step {o' : Ledger} (h : o.Covers l t now) (hi : t.index ≤ t'.index)
    (ho : ∀ n ≤ t.index, o' n = o n)
    (hentry : ∀ {k e}, t'.live? now k = some e → Path.isBelow l.directory k = true →
      o'.Accounted l t now t'.index k e)
    (hleaf : ∀ {e}, t'.live? now l.directory = some e → e.dir = false →
      ∀ k, Path.isBelow l.directory k = true → t'.live? now k = none) :
    o'.Covers l t' now ∧ Ages l t now t' now := by
  refine ⟨⟨?_, hleaf⟩, ⟨hi, ?_⟩⟩
  · intro k e he hb
    rcases hentry he hb with hl | ⟨n, d, hk, hn, _, hrest⟩
    · obtain ⟨n, d, hk, hn, hrest⟩ := h.entry hl hb
      exact ⟨n, d, hk, Nat.le_trans hn hi, by rwa [ho n hn]⟩
    · exact ⟨n, d, hk, hn, hrest⟩
  · intro n hn hd
    cases hk : t'.live? now (Path.allocated l.directory n) with
    | none => rfl
    | some e =>
      rcases hentry hk (Path.isBelow_allocated _ n) with hl | ⟨m, d, hm, _, hold, _⟩
      · rw [hd] at hl
        cases hl
      · obtain ⟨e', he'⟩ := hold (Path.allocated_injective hm ▸ hn)
        rw [hd] at he'
        cases he'

/-- The ledger covers the store after every request that respects it. -/
theorem Covers.run (h : o.Covers l t now) {r : Request} (hr : o.Respects l r) :
    o.Covers l (t.run now r).1 now ∧ Ages l t now (t.run now r).1 now := by
  have hlive : ∀ {k e}, (t.run now r).1.live? now k = some e →
      Path.isBelow l.directory k = true →
      (∃ e', t.live? now k = some e') ∧
        o.Accounted l t now (t.run now r).1.index k e := by
    intro k e he hb
    rcases Tree.live?_run he with hl | hw
    · exact ⟨⟨e, hl⟩, .inl hl⟩
    · cases hr with
      | get key recursive sorted => cases hw
      | delete key options => cases hw
      | aside value options hd hb' =>
        cases hw with
        | put hk there leaf hv =>
          rw [hk, hb'] at hb
          cases hb
      | renew ttl hd =>
        rename_i n d
        cases hw with
        | put hk there leaf hv =>
          rw [l.normalize_allocated] at hk
          subst hk
          obtain ⟨e', he'⟩ := h.live_of_present (there rfl)
          obtain ⟨m, _, hm, hmi, _⟩ := h.entry he' hb
          have hn : n ≤ t.index := Path.allocated_injective hm ▸ hmi
          exact ⟨⟨e', he'⟩, .inr ⟨n, d, rfl, Nat.le_trans hn (t.index_le_run now _),
            fun _ => ⟨e', he'⟩, hv.1, hv.2.2, hv.2.1, hd⟩⟩
  refine h.step (t.index_le_run now r) (fun _ _ => rfl) (fun he hb => (hlive he hb).2) ?_
  intro e he hf k hb
  cases hk : (t.run now r).1.live? now k with
  | none => rfl
  | some e' =>
    obtain ⟨⟨e'', hl⟩, _⟩ := hlive hk hb
    rw [h.leaf_run he hf k hb] at hl
    cases hl

/-- A request of anyone else that leaves the live announces as they are. -/
theorem Covers.run_outside (h : o.Covers l t now) {r : Request}
    (hr : ∀ k, Path.isBelow l.directory k = true →
      (t.run now r).1.live? now k = t.live? now k) :
    o.Covers l (t.run now r).1 now ∧ Ages l t now (t.run now r).1 now := by
  refine h.step (t.index_le_run now r) (fun _ _ => rfl) (fun {k _} he hb => .inl ?_) ?_
  · rw [← he, hr k hb]
  · intro e he hf k hb
    rw [hr k hb]
    exact h.leaf_run he hf k hb

/-- The ledger with an entry for the key that is allocated next. -/
def record (o : Ledger) (index : Nat) (x : Origin) : Ledger := fun n =>
  if n = index + 1 then x else o n

theorem record_of_le (o : Ledger) {index n : Nat} (x : Origin) (h : n ≤ index) :
    o.record index x n = o n := by
  rw [record, if_neg (by omega)]

/-- With an entry for the announce that a request creates, the ledger covers the store after it. -/
theorem Covers.run_announce (h : o.Covers l t now) (creator : String) (d : Payload) (ttl : Nat) :
    let r := (Registry.announce l d ttl).request
    (o.record t.index ⟨creator, d.instanceId, d.clusterId⟩).Covers l (t.run now r).1 now ∧
      Ages l t now (t.run now r).1 now := by
  intro r
  have hle := t.index_le_run now r
  have hnew : ∀ {k e}, (t.run now r).1.live? now k = some e → t.live? now k = some e ∨
      (∀ x, t.live? now l.directory = some x → x.dir = true) ∧
        (o.record t.index ⟨creator, d.instanceId, d.clusterId⟩).Accounted l t now
          (t.run now r).1.index k e := by
    intro k e he
    cases ha : (t.run now r).2 with
    | error f =>
      rw [Tree.live?_run_of_error ha] at he
      exact .inl he
    | ok response =>
      refine (Tree.live?_run he).imp_right fun hw => ?_
      rw [show r = .post l.announces d.encode (some ttl) from rfl] at hw
      cases hw with
      | post hk leaf hv =>
        refine ⟨leaf, .inr ⟨t.index + 1, d, hk, ?_, fun hn => ?_, hv.1, hv.2.2, hv.2.1, ?_⟩⟩
        · exact Nat.le_of_eq (Tree.run_post_of_ok ha).1.symm
        · omega
        · rw [record, if_pos rfl]
          exact ⟨rfl, rfl⟩
  refine h.step hle (fun n hn => o.record_of_le _ hn) (fun he _ => ?_) fun {e} he hf k hb => ?_
  · rcases hnew he with hl | ⟨_, ha⟩
    · exact .inl hl
    · exact ha
  · have hd : t.live? now l.directory = some e := by
      rcases hnew he with hl | ⟨_, hl | ⟨n, _, hk, _⟩⟩
      · exact hl
      · exact hl
      · exact absurd hk (l.directory_ne_allocated _ n)
    cases hk : (t.run now r).1.live? now k with
    | none => rfl
    | some e' =>
      rcases hnew hk with hl | ⟨hdir, _⟩
      · rw [h.leaf_run he hf k hb] at hl
        cases hl
      · rw [hdir e hd] at hf
        cases hf

private theorem Covers.mem_children (h : o.Covers l t now) {k : String} :
    k ∈ (t.purge now).children l.directory ↔
      ∃ i e, k = Path.allocated l.directory i ∧ t.live? now k = some e := by
  rw [Tree.mem_children_iff]
  constructor
  · rintro ⟨k', e, he, ht⟩
    rw [Tree.find?_purge] at he
    obtain ⟨i, _, rfl, _⟩ := h.entry he (Path.isBelow_of_toward? ht)
    rw [Path.toward?_allocated] at ht
    cases ht
    exact ⟨i, e, rfl, he⟩
  · rintro ⟨i, e, rfl, he⟩
    exact ⟨_, e, by rwa [Tree.find?_purge], Path.toward?_allocated _ i⟩

/-- The nodes below the directory are those of the live announces. -/
private theorem Covers.nodes_directory (h : o.Covers l t now) :
    (∀ n ∈ ((t.purge now).node now (t.purge now).height l.directory).nodes,
        ∃ i e, t.live? now (Path.allocated l.directory i) = some e ∧
          n = Tree.leafNode now (Path.allocated l.directory i) e) ∧
      ∀ i e, t.live? now (Path.allocated l.directory i) = some e →
        Tree.leafNode now (Path.allocated l.directory i) e ∈
          ((t.purge now).node now (t.purge now).height l.directory).nodes := by
  by_cases hd : ∀ e, t.live? now l.directory = some e → e.dir = true
  · obtain ⟨levels, hl⟩ : ∃ levels, (t.purge now).height = levels + 1 := ⟨_, rfl⟩
    rw [hl, Tree.nodes_of_dir _ _ _ fun e he => hd e (by rwa [← Tree.find?_purge])]
    have hleaf : ∀ i e, t.live? now (Path.allocated l.directory i) = some e →
        (t.purge now).node now levels (Path.allocated l.directory i) =
          Tree.leafNode now (Path.allocated l.directory i) e := by
      intro i e he
      obtain ⟨_, _, _, _, hed, _⟩ := h.entry he (Path.isBelow_allocated _ i)
      exact Tree.node_of_leaf _ _ _ (by rwa [Tree.find?_purge]) hed
    constructor
    · intro n hn
      obtain ⟨c, hc, rfl⟩ := List.mem_map.mp hn
      obtain ⟨i, e, rfl, he⟩ := h.mem_children.mp hc
      exact ⟨i, e, he, hleaf i e he⟩
    · intro i e he
      exact List.mem_map.mpr ⟨_, h.mem_children.mpr ⟨i, e, rfl, he⟩, hleaf i e he⟩
  · -- A leaf in the place of the directory has nothing live below it.
    have hex : ∃ e, t.live? now l.directory = some e ∧ e.dir = false := by simpa using hd
    obtain ⟨e, he, hf⟩ := hex
    rw [Tree.nodes_of_leaf _ _ _ (by rwa [Tree.find?_purge]) hf]
    constructor
    · intro n hn
      cases hn
    · intro i e' he'
      rw [h.leaf he hf _ (Path.isBelow_allocated _ i)] at he'
      cases he'

/-- The nodes that the store shows of the announces are those of the live ones. -/
theorem Covers.nodes (h : o.Covers l t now) {nodes : List Node}
    (hn : (Registry.announces l).outcome (t.run now (Registry.announces l).request).2 =
      .ok nodes) :
    (∀ n ∈ nodes, ∃ i e, t.live? now (Path.allocated l.directory i) = some e ∧
        n = Tree.leafNode now (Path.allocated l.directory i) e) ∧
      ((∃ f ∈ t.failures.head?, f.isKeyNotFound = true ∧ nodes = []) ∨
        ∀ i e, t.live? now (Path.allocated l.directory i) = some e →
          Tree.leafNode now (Path.allocated l.directory i) e ∈ nodes) := by
  obtain ⟨f, rest, hf, hr⟩ | ⟨refusal, _, hp, hr⟩ | ⟨t', response, _, hp, hr⟩ :=
    t.run_cases now (Registry.announces l).request
  · rw [hr] at hn
    rcases Registry.outcome_announces hn with ⟨_, h', _⟩ | ⟨g, h', hk, rfl⟩
    · cases h'
    · cases h'
      exact ⟨by simp, .inl ⟨f, by rw [hf]; rfl, hk, rfl⟩⟩
  · rw [hr] at hn
    rcases Registry.outcome_announces hn with ⟨_, h', _⟩ | ⟨g, h', hk, rfl⟩
    · cases h'
    · refine ⟨by simp, .inr fun i e he => ?_⟩
      have hc : (t.purge now).hasChildren l.directory = true :=
        Tree.hasChildren_iff.mpr ⟨_, e, by rw [Tree.find?_purge, he], Path.isBelow_allocated _ i⟩
      have hp := Tree.get_eq_error hp
      rw [Tree.present, ← Layout.directory, hc, Bool.or_true] at hp
      cases hp
  · rw [hr] at hn
    rcases Registry.outcome_announces hn with ⟨_, h', rfl⟩ | ⟨g, h', _⟩
    · cases h'
      obtain ⟨_, _, hnode⟩ := Tree.get_eq_ok hp
      have hchildren : response.children =
          ((t.purge now).node now (t.purge now).height l.directory).nodes := by
        rw [Response.children, hnode]
        rfl
      rw [hchildren]
      exact ⟨h.nodes_directory.1, .inr h.nodes_directory.2⟩
    · cases h'

/-- What a listing owes to the store it was read from: it lists live announces as the ledger has
them, and none of an instance that has an older one. -/
structure Shows (o : Ledger) (l : Layout) (t : Tree) (now : Nat) (found : Listing) : Prop where
  listed : ∀ a ∈ found.entries, a.key = Path.allocated l.directory a.name ∧ a.name ≤ t.index ∧
    (∃ e, t.live? now a.key = some e ∧ Announce.ofNode (Tree.leafNode now a.key e) = .ok a) ∧
    (o a.name).Agrees a.data
  oldest : ∀ a ∈ found.entries, ∀ n < a.name, (o n).instanceId = a.instanceId →
    t.live? now (Path.allocated l.directory n) = none

private theorem Covers.read (h : o.Covers l t now) {i : Nat} {e : Entry} {a : Announce}
    (he : t.live? now (Path.allocated l.directory i) = some e)
    (ha : Announce.ofNode (Tree.leafNode now (Path.allocated l.directory i) e) = .ok a) :
    a.key = Path.allocated l.directory i ∧ i ≤ t.index ∧ a.name = i ∧ (o i).Agrees a.data ∧
      a.expired = false := by
  obtain ⟨n, d, hk, hn, hd, hp, hv, hagrees⟩ := h.entry he (Path.isBelow_allocated _ i)
  cases Path.allocated_injective hk
  rw [Announce.ofNode_encode (d := d) hv] at ha
  split at ha
  · obtain ⟨hkey, hdata, httl⟩ := Announce.make_eq_ok ha
    refine ⟨hkey, hn, Announce.name_of_key hkey, hdata ▸ hagrees, ?_⟩
    rw [Announce.expired, httl]
    cases hs : e.ttl now with
    | none => simp [Tree.leafNode, hs]
    | some s =>
      have hpos := Tree.ttl_pos hp (Tree.live?_eq_some.mp he).2 hs
      simp only [Tree.leafNode, hs, Option.any_some, decide_eq_false_iff_not]
      omega
  · cases ha

/-- What is read from nodes of live announces is live and in the ledger. -/
private theorem Covers.mem_read (h : o.Covers l t now) {nodes : List Node}
    (hnodes : ∀ n ∈ nodes, ∃ i e, t.live? now (Path.allocated l.directory i) = some e ∧
      n = Tree.leafNode now (Path.allocated l.directory i) e)
    {read : List Announce} (hread : Listing.readNodes nodes = .ok read) {a : Announce}
    (ha : a ∈ read) :
    ∃ e, t.live? now a.key = some e ∧ Announce.ofNode (Tree.leafNode now a.key e) = .ok a ∧
      a.key = Path.allocated l.directory a.name ∧ a.name ≤ t.index ∧ (o a.name).Agrees a.data := by
  obtain ⟨n, hn, hna⟩ := (Listing.mem_readNodes hread).1 a ha
  obtain ⟨i, e, he, rfl⟩ := hnodes n hn
  obtain ⟨hk, hi, rfl, hagrees, _⟩ := h.read he hna
  rw [← hk] at he hna
  exact ⟨e, he, hna, hk, hi, hagrees⟩

/-- A live announce is read, and counts, when its node is there. -/
private theorem Covers.exists_read (h : o.Covers l t now) {nodes : List Node}
    {read : List Announce} (hread : Listing.readNodes nodes = .ok read) (discard : Bool) {n : Nat}
    {e : Entry} (he : t.live? now (Path.allocated l.directory n) = some e)
    (hn : Tree.leafNode now (Path.allocated l.directory n) e ∈ nodes) :
    ∃ a ∈ read.filter (fun a => !(discard && a.expired)),
      a.instanceId = (o n).instanceId ∧ a.name = n := by
  obtain ⟨_, _, _, _, _, _, hv, _⟩ := h.entry he (Path.isBelow_allocated _ n)
  have hvs : (Tree.leafNode now (Path.allocated l.directory n) e).value.isSome = true := by
    rw [Tree.leafNode, hv]
    rfl
  obtain ⟨a, ha, hna⟩ := (Listing.mem_readNodes hread).2 _ hn rfl hvs
  obtain ⟨_, _, hname, hagrees, hx⟩ := h.read he hna
  exact ⟨a, List.mem_filter.mpr ⟨ha, by rw [hx, Bool.and_false]; rfl⟩, hagrees.1, hname⟩

/-- Whoever lists the announces finds live ones, of every instance the oldest. Unless the store
pretends that the directory is gone, every instance with a live announce is listed. -/
theorem Covers.shows (h : o.Covers l t now) {nodes : List Node} {found : Listing} {discard : Bool}
    (hn : (Registry.announces l).outcome (t.run now (Registry.announces l).request).2 =
      .ok nodes)
    (hf : Listing.ofNodes nodes discard = .ok found) :
    o.Shows l t now found ∧
      ((∃ f ∈ t.failures.head?, f.isKeyNotFound = true) ∨
        ∀ n e, t.live? now (Path.allocated l.directory n) = some e →
          ∃ a ∈ found.entries, a.instanceId = (o n).instanceId ∧ a.name ≤ n) := by
  obtain ⟨hnodes, hall⟩ := h.nodes hn
  obtain ⟨read, hread, rfl⟩ := Listing.ofNodes_eq_ok hf
  refine ⟨⟨?_, ?_⟩, ?_⟩
  · intro a ha
    obtain ⟨e, he, hread, hk, hi, hagrees⟩ :=
      h.mem_read hnodes hread (List.mem_filter.mp (Listing.mem_of_mem_ofList ha)).1
    exact ⟨hk, hi, ⟨e, he, hread⟩, hagrees⟩
  · intro a ha n hlt hid
    cases hx : t.live? now (Path.allocated l.directory n) with
    | none => rfl
    | some e =>
      rcases hall with ⟨_, _, _, rfl⟩ | hall
      · have hmem := (List.mem_filter.mp (Listing.mem_of_mem_ofList ha)).1
        obtain ⟨x, hx, _⟩ := (Listing.mem_readNodes hread).1 a hmem
        cases hx
      · obtain ⟨b, hb, hbi, hbn⟩ := h.exists_read hread discard hx (hall n e hx)
        obtain ⟨c, hc, hci, hp⟩ := Listing.exists_mem_ofList hb
        have hca := (Listing.canonical_ofList _).eq_of_instanceId hc ha
          (hci.trans (hbi.trans hid))
        have hle := Announce.name_le_of_precedes (hca ▸ hp)
        omega
  · rcases hall with ⟨f, hf, hk, _⟩ | hall
    · exact .inl ⟨f, hf, hk⟩
    · right
      intro n e he
      obtain ⟨b, hb, hbi, hbn⟩ := h.exists_read hread discard he (hall n e he)
      obtain ⟨c, hc, hci, hp⟩ := Listing.exists_mem_ofList hb
      exact ⟨c, hc, hci.trans hbi, hbn ▸ Announce.name_le_of_precedes hp⟩

end Ledger

end Rollcall
