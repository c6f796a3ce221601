import Rollcall.Proofs.Store.Vault

/-!
# Entries that leave in time

The store drops what is overdue only when somebody asks it for something. A prompt store removes
every entry at the very instant at which its time is over. Nobody can tell one from the other as
long as no seconds are pinned for an entry that is overdue already: the store takes such an entry
back if it was not dropped yet, and the prompt one has none.
-/

namespace Rollcall.Store

/-- Whether an entry's time is over at just this instant. -/
def Entry.endsAt (e : Entry) (now : Nat) : Bool := e.pinnedTtl.isNone && e.expiresAt == some now

/-- The nodes that a node shows: itself, and what the nodes below it show. -/
inductive Node.Shows : Node → Node → Prop
  | self (n : Node) : Shows n n
  | within {n m k : Node} (hm : m ∈ n.nodes) (h : Shows m k) : Shows n k

/-- Whether a node is a directory that has no entry of its own. -/
def Node.IsBare (n : Node) : Prop := n = { key := n.key, dir := true, nodes := n.nodes }

/-- Whether a node is in a response. -/
def Response.Shows (r : Response) (n : Node) : Prop := ∃ m, r.node = some m ∧ m.Shows n

/-- A node that the store shows is that of an entry, with the seconds the entry has left, or a
directory without one. -/
theorem Tree.shows_node {t : Tree} {now levels : Nat} {key : String} {n : Node}
    (h : (t.node now levels key).Shows n) :
    (∃ e, t.entries.find? n.key = some e ∧ n.ttl = e.ttl now) ∨
      t.entries.find? n.key = none ∧ n.IsBare := by
  have hself : ∀ levels key,
      (∃ e, t.entries.find? (t.node now levels key).key = some e ∧
          (t.node now levels key).ttl = e.ttl now) ∨
        t.entries.find? (t.node now levels key).key = none ∧ (t.node now levels key).IsBare := by
    intro levels key
    cases he : t.entries.find? key with
    | none =>
      have hn := t.node_of_none now levels he
      exact .inr ⟨by rw [hn]; exact he, by rw [Node.IsBare, hn]⟩
    | some e =>
      cases hd : e.dir with
      | false => exact .inl ⟨e, by rw [t.node_of_leaf now levels he hd]; exact ⟨he, rfl⟩⟩
      | true => exact .inl ⟨e, by rw [t.node_of_directory now levels he hd]; exact ⟨he, rfl⟩⟩
  induction levels generalizing key with
  | zero =>
    cases h with
    | self => exact hself 0 key
    | within hm _ => rw [nodes_zero] at hm; cases hm
  | succ levels ih =>
    cases h with
    | self => exact hself (levels + 1) key
    | within hm h =>
      obtain ⟨k, rfl⟩ := exists_of_mem_nodes hm
      exact ih h

namespace Vault

/-! ## Prompt stores -/

/-- A vault without the entries whose time is over at just this instant. -/
def sweep (v : Vault) : Vault :=
  { v with tree := { v.tree with entries := v.tree.entries.filter fun _ e => !e.endsAt v.now } }

/-- A prompt store one instant later. -/
def tick (v : Vault) : Vault := sweep { v with now := v.now + 1 }

/-- A prompt store after so many instants. -/
def wait (v : Vault) : Nat → Vault
  | 0 => v
  | d + 1 => (v.wait d).tick

/-- A prompt store after a call, and the reply. -/
def promptCall (v : Vault) : Call → Vault × Reply
  | .ask r =>
    match v.tree.failures with
    | f :: rest => ({ v with tree := { v.tree with failures := rest } }, .answer (.error f))
    | [] =>
      match v.tree.perform v.now r with
      | .ok (tree, response) => (sweep { v with tree }, .answer (.ok response))
      | .error refusal => (v, .answer (.error (.refused refusal)))
  | .look key => (v, .value ((v.tree.entries.find? key).bind Entry.value))
  | .pin key ttl =>
    let (tree, there) := v.tree.pinTtl key ttl
    ({ v with tree }, .pinned there)
  | .fail f => ({ v with tree := v.tree.queueFailure f }, .nothing)
  | .elapse d => (v.wait d, .nothing)

/-- What comes back from a prompt store on calls one after another. -/
def promptReplies (v : Vault) : List Call → List Reply
  | [] => []
  | c :: calls => (v.promptCall c).2 :: (v.promptCall c).1.promptReplies calls

/-- Whether a call does not pin the seconds of an entry that is overdue. -/
def InTime (v : Vault) : Call → Prop
  | .pin key _ => ¬v.Overdue key
  | _ => True

/-- Whether readers find no entry under a key. -/
structure Conceals (v : Vault) (key : String) : Prop where
  look : (v.call (.look key)).2 = .value none
  get : ∀ name recursive sorted response n, v.answer (.get name recursive sorted) = .ok response →
    response.Shows n → n.key = key → n.IsBare

/-- What a prompt store holds in place of a vault. -/
def settled (v : Vault) : Vault := { v with tree := v.tree.purge v.now }

variable {v : Vault} {c : Call} {key : String}

private theorem expired_of_endsAt {e : Entry} {now : Nat} (h : e.endsAt now = true) :
    e.expired now = true := by
  rw [Entry.endsAt, Bool.and_eq_true, beq_iff_eq] at h
  rw [Entry.expired, h.1, h.2, Option.any_some, decide_eq_true (Nat.le_refl now)]
  rfl

private theorem expired_eq_endsAt_of_le {e : Entry} {now x : Nat} (hx : e.expiresAt = some x)
    (h : now ≤ x) : e.expired now = e.endsAt now := by
  have hd : decide (x ≤ now) = (some x == some now) := by
    rw [Bool.eq_iff_iff, decide_eq_true_iff, beq_iff_eq, Option.some.injEq]
    omega
  rw [Entry.expired, Entry.endsAt, hx, Option.any_some, hd]

private theorem expired_add_one (e : Entry) (now : Nat) :
    (!e.endsAt (now + 1) && !e.expired now) = !e.expired (now + 1) := by
  rw [Entry.endsAt, Entry.expired, Entry.expired]
  cases e.pinnedTtl with
  | some s => rfl
  | none =>
    cases e.expiresAt with
    | none => rfl
    | some x =>
      rw [Bool.eq_iff_iff]
      simp
      omega

private theorem tick_settled (v : Vault) :
    v.settled.tick = settled { v with now := v.now + 1 } := by
  simp only [tick, sweep, settled, Tree.purge, Dict.filter_filter, expired_add_one]

private theorem wait_settled (v : Vault) (d : Nat) :
    v.settled.wait d = settled { v with now := v.now + d } := by
  induction d with
  | zero => rfl
  | succ d ih => rw [wait, ih, tick_settled, Nat.add_assoc]

/-- After a request on a store without overdue entries only what was put down just now is over. -/
private theorem expired_eq_endsAt {t t' : Tree} {now : Nat} {r : Request} {response : Response}
    (h : (t.purge now).perform now r = .ok (t', response)) {k : String} {e : Entry}
    (he : t'.entries.find? k = some e) : e.expired now = e.endsAt now := by
  have hold : (t.purge now).entries.find? k = some e → e.expired now = e.endsAt now := by
    intro he
    rw [Tree.find?_purge] at he
    have hx := (Tree.live?_eq_some.mp he).2
    rw [hx, eq_comm, Bool.eq_false_iff]
    intro hends
    rw [expired_of_endsAt hends] at hx
    cases hx
  have hnew : ∀ {key value ttl dir},
      ((t.purge now).write now key value ttl dir).entries.find? k = some e →
      e.expired now = e.endsAt now := by
    intro key value ttl dir he
    rw [Tree.find?_write] at he
    split at he
    · obtain rfl := Option.some.inj he
      cases ttl with
      | none => rfl
      | some s => exact expired_eq_endsAt_of_le rfl (Nat.le_add_right now _)
    · exact hold he
  cases r with
  | get name recursive sorted =>
    rw [(Tree.get_eq_ok h).1] at he
    exact hold he
  | put name value o =>
    rw [(Tree.put_eq_ok h).1] at he
    exact hnew he
  | post dir value ttl =>
    rw [(Tree.post_eq_ok h).1] at he
    exact hnew he
  | delete name o =>
    rw [Tree.delete_eq_ok h, Dict.find?_filter, Option.filter_eq_some_iff] at he
    exact hold he.1

private theorem sweep_eq_settled {w : Vault}
    (h : ∀ k e, w.tree.entries.find? k = some e → e.expired w.now = e.endsAt w.now) :
    w.sweep = w.settled := by
  have hf := Dict.filter_congr (d := w.tree.entries) (p := fun _ e => !e.endsAt w.now)
    (q := fun _ e => !e.expired w.now) fun k e he => by rw [h k e he]
  rw [sweep, settled, Tree.purge, hf]

private theorem settled_settled (v : Vault) : v.settled.settled = v.settled := by
  simp only [settled, Tree.purge, Dict.filter_filter, Bool.and_self]

private theorem promptCall_ask (v : Vault) (r : Request) :
    v.settled.promptCall (.ask r) = ((v.call (.ask r)).1.settled, (v.call (.ask r)).2) := by
  obtain ⟨f, rest, hf, hr⟩ | ⟨refusal, hf, hp, hr⟩ | ⟨t', response, hf, hp, hr⟩ :=
    v.tree.run_cases v.now r
  · have hs : v.settled.tree.failures = f :: rest := hf
    rw [promptCall, hs, call, hr]
    rfl
  · have hs : v.settled.tree.failures = [] := hf
    have hp' : v.settled.tree.perform v.settled.now r = .error refusal := hp
    simp only [promptCall, hs, hp', call, hr]
    exact congrArg (Prod.mk · _) (settled_settled v).symm
  · have hs : v.settled.tree.failures = [] := hf
    have hp' : v.settled.tree.perform v.settled.now r = .ok (t', response) := hp
    simp only [promptCall, hs, hp', call, hr]
    exact congrArg (Prod.mk · _) (sweep_eq_settled fun k e he => expired_eq_endsAt hp he)

private theorem contains_purge (h : ¬v.Overdue key) :
    (v.tree.purge v.now).entries.contains key = v.tree.entries.contains key := by
  rw [Dict.contains, Dict.contains, Tree.find?_purge]
  exact congrArg Option.isSome (live?_of_not_overdue h)

private theorem modify_purge (h : ¬v.Overdue key) (ttl : Int) :
    (v.tree.purge v.now).entries.modify key (fun e => { e with pinnedTtl := some ttl }) =
      (v.tree.entries.modify key fun e => { e with pinnedTtl := some ttl }).filter
        fun _ e => !e.expired v.now := by
  refine Dict.ext_find? fun k => ?_
  rw [Dict.find?_modify, Dict.find?_filter, Dict.find?_modify, Tree.find?_purge,
    Tree.find?_purge]
  split
  · next hk =>
    rw [show v.tree.live? v.now key = v.tree.entries.find? key from live?_of_not_overdue h]
    -- An entry with pinned seconds is never overdue.
    cases v.tree.entries.find? key with
    | none => rfl
    | some e => rfl
  · rfl

/-- A prompt store in place of a vault replies to a call as the vault does, and is in its place
afterwards, unless the call pins the seconds of an entry that is overdue. -/
theorem promptCall_settled (h : v.InTime c) :
    v.settled.promptCall c = ((v.call c).1.settled, (v.call c).2) := by
  cases c with
  | ask r => exact promptCall_ask v r
  | look key => exact congrArg (Prod.mk · _) (settled_settled v).symm
  | pin key ttl =>
    have hc := contains_purge h
    have hm := modify_purge h ttl
    simp only [promptCall, call, Tree.pinTtl, settled, hc, hm]
    rfl
  | fail f => rfl
  | elapse d => exact congrArg (Prod.mk · _) (wait_settled v d)

/-- If the call pins the seconds of an entry that is overdue the replies differ. -/
theorem promptCall_of_not_inTime (h : ¬v.InTime c) :
    (v.settled.promptCall c).2 ≠ (v.call c).2 := by
  cases c with
  | pin key ttl =>
    have ho : v.Overdue key := Classical.not_not.mp h
    obtain ⟨e, he, -⟩ := overdue_iff.mp ho
    have hp : (v.tree.purge v.now).entries.contains key = false := by
      rw [Dict.contains, Tree.find?_purge]
      exact congrArg Option.isSome (live?_of_overdue ho)
    have hv : v.tree.entries.contains key = true := (Dict.contains_iff ..).mpr ⟨e, he⟩
    simp [promptCall, call, Tree.pinTtl, settled, hp, hv]
  | _ => exact absurd trivial h

/-- A prompt store in place of a vault replies as the vault does if and only if no call pins the
seconds of an entry that is overdue. -/
theorem promptReplies_settled (v : Vault) (calls : List Call) :
    v.settled.promptReplies calls = v.replies calls ↔ v.Always InTime calls := by
  induction calls generalizing v with
  | nil => exact ⟨fun _ => trivial, fun _ => rfl⟩
  | cons c calls ih =>
    rw [promptReplies, replies, Always, List.cons.injEq]
    constructor
    · rintro ⟨hc, hrest⟩
      have ht : v.InTime c := Classical.not_not.mp fun h => promptCall_of_not_inTime h hc
      rw [promptCall_settled ht] at hrest
      exact ⟨ht, (ih _).mp hrest⟩
    · rintro ⟨ht, hrest⟩
      rw [promptCall_settled ht]
      exact ⟨rfl, (ih _).mpr hrest⟩

/-! ## What is not seen again -/

private theorem live?_none_run (h : v.live? key = none) {calls : List Call}
    (ht : v.Always InTime calls) (hw : v.Always (fun w c => ¬w.Writes c key) calls) :
    (v.run calls).live? key = none := by
  induction calls generalizing v with
  | nil => exact h
  | cons c calls ih =>
    have hp : ∀ ttl, c = .pin key ttl → ¬v.Overdue key := by
      rintro ttl rfl
      exact ht.1
    exact ih (live?_call_eq_none h hp hw.1) ht.2 hw.2

private theorem conceals_of_live?_none (h : v.live? key = none) : v.Conceals key where
  look := by
    rw [call, Tree.value, Tree.find?_purge, show v.tree.live? v.now key = none from h]
    rfl
  get name recursive sorted response n hok hn hk := by
    obtain ⟨m, hm, hn⟩ := hn
    obtain ⟨-, hp⟩ := Tree.perform_of_run hok
    rw [(Tree.get_eq_ok hp).2.2, Option.some.injEq] at hm
    subst hm
    rcases Tree.shows_node hn with ⟨e, he, -⟩ | ⟨-, hb⟩
    · rw [hk, Tree.find?_purge, show v.tree.live? v.now key = none from h] at he
      cases he
    · exact hb

private theorem pinned_of_get {name : String} {recursive sorted : Bool} {response : Response}
    {n : Node} {s : Int} (hok : v.answer (.get name recursive sorted) = .ok response)
    (hn : response.Shows n) (ht : n.ttl = some s) (hs : s < 1) :
    ∃ e, v.live? n.key = some e ∧ e.pinnedTtl = some s := by
  obtain ⟨m, hm, hn⟩ := hn
  obtain ⟨-, hp⟩ := Tree.perform_of_run hok
  rw [(Tree.get_eq_ok hp).2.2, Option.some.injEq] at hm
  subst hm
  rcases Tree.shows_node hn with ⟨e, he, hte⟩ | ⟨-, hb⟩
  · rw [Tree.find?_purge] at he
    refine ⟨e, he, ?_⟩
    rw [hte] at ht
    cases hpin : e.pinnedTtl with
    | some p =>
      rw [Entry.ttl, hpin] at ht
      exact ht
    | none =>
      have := Tree.ttl_pos hpin (Tree.live?_eq_some.mp he).2 ht
      omega
  · rw [hb] at ht
    cases ht

/-- Callers find what they would find in a store that removes every entry at the very instant at
which its time is over, if and only if nobody pins the seconds of an entry that is overdue. Then
nobody who reads finds a key again whose time was over until it is written again. Less than one
second to live is shown of pinned seconds only. -/
theorem run_expires_promptly (now : Nat) (calls : List Call) :
    let v := (opened now).run calls
    ((opened now).promptReplies calls = (opened now).replies calls ↔
        (opened now).Always InTime calls) ∧
      (∀ before after key, calls = before ++ after → (opened now).Always InTime calls →
        ((opened now).run before).Overdue key →
        ((opened now).run before).Always (fun w c => ¬w.Writes c key) after → v.Conceals key) ∧
      ∀ name recursive sorted response n s,
        v.answer (.get name recursive sorted) = .ok response → response.Shows n →
        n.ttl = some s → s < 1 → ∃ e, v.live? n.key = some e ∧ e.pinnedTtl = some s := by
  refine ⟨promptReplies_settled (opened now) calls, ?_, ?_⟩
  · rintro before after key rfl ht ho hw
    rw [run_append]
    exact conceals_of_live?_none
      (live?_none_run (live?_of_overdue ho) (always_append.mp ht).2 hw)
  · intro name recursive sorted response n s hok hn ht hs
    exact pinned_of_get hok hn ht hs

/-- A leaf that runs out, and another one whose seconds are pinned before it would. -/
def oneOfTwoPinned : List Call :=
  [.ask (.put "/k" (some "v") { ttl := some 1 }), .ask (.put "/p" (some "w") { ttl := some 1 }),
    .pin "/p" (-5), .elapse (Duration.ofSeconds 2)]

theorem conceals_of_oneOfTwoPinned :
    let v := (opened 0).run oneOfTwoPinned
    (opened 0).promptReplies oneOfTwoPinned = (opened 0).replies oneOfTwoPinned ∧
      v.Conceals "/k" ∧ ∃ e, v.live? "/p" = some e ∧ e.pinnedTtl = some (-5) := by
  have ht : (opened 0).Always InTime oneOfTwoPinned :=
    ⟨trivial, trivial, (by decide : ¬_), trivial, trivial⟩
  have ho : ((opened 0).run oneOfTwoPinned).Overdue "/k" := by decide
  obtain ⟨hreplies, hconceals, hpinned⟩ := run_expires_promptly 0 oneOfTwoPinned
  refine ⟨hreplies.mpr ht, hconceals oneOfTwoPinned [] "/k" rfl ht ho trivial, ?_⟩
  exact hpinned "/p" false false { action := "get", node := some _ }
    { key := "/p", value := some "w", ttl := some (-5), modifiedIndex := 2, createdIndex := 2 }
    (-5) rfl ⟨_, rfl, .self _⟩ rfl (by decide)

/-- Pinning the seconds of an entry that is overdue brings it back: a prompt store replies that it
has no such entry, and the value is seen again. -/
theorem seen_again_of_late_pin :
    let calls : List Call := [.ask (.put "/k" (some "v") { ttl := some 1 }),
      .elapse (Duration.ofSeconds 2), .pin "/k" 5]
    (opened 0).promptReplies calls ≠ (opened 0).replies calls ∧
      ((opened 0).run (calls.take 2)).Overdue "/k" ∧
      (((opened 0).run calls).call (.look "/k")).2 = .value (some "v") := by
  refine ⟨fun h => ?_, by decide, rfl⟩
  obtain ⟨-, -, hpin, -⟩ := (promptReplies_settled (opened 0) _).mp h
  exact hpin (by decide)

end Vault

end Rollcall.Store
