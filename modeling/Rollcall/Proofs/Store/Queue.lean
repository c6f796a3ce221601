import Rollcall.Proofs.Store.Vault

/-!
# Directories as queues

Keys that are put below a directory only by posts get names that count up. A post is named by the
index that it uses up, and no key of the directory bears the name of an index to come: so a post
finds its name free, and a name that is free again stays free.
-/

namespace Rollcall.Store

open Store.Path

/-- Whether a request posts in a directory. -/
def Request.Posts (dir : String) : Request → Prop
  | .post d _ _ => normalize d = dir
  | _ => False

namespace Vault

/-- Whether a call leaves it to posts to create keys directly below a directory: what is put under
such a key is a leaf in place of what is there. No seconds are pinned. -/
def Call.Queues (dir : String) : Call → Prop
  | .ask (.put name _ o) =>
    ∀ n, IsName n → normalize name = child dir n → o.prevExist = some true ∧ o.dir = false
  | .pin .. => False
  | _ => True

variable {v : Vault} {c : Call} {dir : String} {i : Nat}

/-- What is written under an allocated key is live there, or the key is the next one. -/
theorem live?_or_next_of_writes (hq : c.Queues dir) (hw : v.Writes c (allocated dir i)) :
    (∃ e, v.live? (allocated dir i) = some e) ∨ i = v.tree.index + 1 := by
  obtain ⟨r, response, rfl, hok, ht⟩ := hw
  cases r with
  | put name value o =>
    have hk : some (normalize name) = some (allocated dir i) := ht
    rw [Option.some.injEq] at hk
    obtain ⟨hp, hd⟩ := hq _ (isName_padded i) hk
    obtain ⟨e, he, -⟩ := Tree.live?_of_rewrite hok hp hd
    exact .inl ⟨e, hk ▸ he⟩
  | post d value ttl =>
    have hk : some (allocated (normalize d) _) = some (allocated dir i) := ht
    exact .inr (allocated_injective (Option.some.inj hk)).symm
  | get name recursive sorted => cases ht
  | delete name o => cases ht

/-- A vault in which no key of a directory bears the name of an index to come. -/
def Counts (v : Vault) (dir : String) : Prop :=
  ∀ i e, v.tree.entries.find? (allocated dir i) = some e → i ≤ v.tree.index

theorem counts_opened (now : Nat) (dir : String) : (opened now).Counts dir := by
  intro i e h
  cases h

theorem Counts.call (h : v.Counts dir) (hq : c.Queues dir) : (v.call c).1.Counts dir := by
  intro i e he
  rcases find?_call he with ⟨e', he', -⟩ | ⟨r, rfl, hw⟩
  · exact Nat.le_trans (h i e' he') (v.index_le_call c)
  · -- A put found the key there before; only a post names a key by the index that it uses up.
    obtain ⟨response, hok⟩ := hw.carried
    rcases live?_or_next_of_writes hq ⟨r, response, rfl, hok, hw.target⟩ with ⟨e', hl⟩ | hnext
    · exact Nat.le_trans (h i e' (Tree.live?_eq_some.mp hl).1) (v.index_le_call (.ask r))
    · rw [hnext]
      exact Nat.le_of_eq hw.index_run.symm

theorem Counts.run {calls : List Call} (h : v.Counts dir) (hq : ∀ c ∈ calls, c.Queues dir) :
    (v.run calls).Counts dir :=
  run_induction (fun w c hc (hw : w.Counts dir) => hw.call (hq c hc)) h

/-- The key that a directory gets next is free. -/
theorem Counts.live?_next (h : v.Counts dir) : v.live? (allocated dir (v.tree.index + 1)) = none := by
  refine Option.eq_none_iff_forall_ne_some.mpr fun e he => ?_
  have := h _ e (Tree.live?_eq_some.mp he).1
  omega

/-- A vault in which a key was allocated below a directory and is free again. -/
structure Freed (v : Vault) (dir : String) (i : Nat) : Prop where
  le : i ≤ v.tree.index
  live : v.live? (allocated dir i) = none

theorem Freed.not_writes (h : v.Freed dir i) (hq : c.Queues dir) :
    ¬v.Writes c (allocated dir i) := by
  intro hw
  rcases live?_or_next_of_writes hq hw with ⟨e, he⟩ | hnext
  · rw [h.live] at he
    cases he
  · have := h.le
    omega

theorem Freed.call (h : v.Freed dir i) (hq : c.Queues dir) : (v.call c).1.Freed dir i where
  le := Nat.le_trans h.le (v.index_le_call c)
  live := by
    refine live?_call_eq_none h.live ?_ (h.not_writes hq)
    rintro ttl rfl
    exact hq.elim

theorem Freed.run {calls : List Call} (h : v.Freed dir i) (hq : ∀ c ∈ calls, c.Queues dir) :
    (v.run calls).Freed dir i :=
  run_induction (fun w c hc (hw : w.Freed dir i) => hw.call (hq c hc)) h

/-- A key that is free again is there again only as the directory of a key that is written below
it. -/
theorem Freed.writes_below (h : v.Freed dir i) (hq : c.Queues dir)
    (hn : ¬v.Has (allocated dir i)) (hh : (v.call c).1.Has (allocated dir i)) :
    ∃ k, v.Writes c k ∧ isBelow (allocated dir i) k = true := by
  rcases has_iff.mp hh with ⟨e, he⟩ | ⟨k, e, he, hk⟩
  · rw [(h.call hq).live] at he
    cases he
  · rcases live?_call he with hl | hw | ⟨ttl, rfl⟩
    · exact absurd (has_iff.mpr (.inr ⟨k, e, hl, hk⟩)) hn
    · exact ⟨k, hw, hk⟩
    · exact hq.elim

/-- A key that is gone stays gone if nothing is written below it. -/
theorem Freed.gone_run {calls : List Call} (h : v.Freed dir i) (hn : ¬v.Has (allocated dir i))
    (hq : ∀ c ∈ calls, c.Queues dir)
    (hb : v.Always (fun w c => ∀ k, w.Writes c k → isBelow (allocated dir i) k = false) calls) :
    ¬(v.run calls).Has (allocated dir i) := by
  induction calls generalizing v with
  | nil => exact hn
  | cons c calls ih =>
    have hc := hq c List.mem_cons_self
    refine ih (h.call hc) (fun hh => ?_) (fun c hm => hq c (List.mem_cons_of_mem _ hm)) hb.2
    obtain ⟨k, hw, hk⟩ := h.writes_below hc hn hh
    rw [hb.1 k hw] at hk
    cases hk

/-- A post that is answered by a response tells the key that was next in its directory. -/
theorem node_of_posts {r : Request} {response : Response} (h : v.answer r = .ok response)
    (hr : r.Posts dir) :
    r.isRead = false ∧ ∃ n, response.node = some n ∧ n.key = allocated dir (v.tree.index + 1) := by
  cases r with
  | post d value ttl =>
    obtain ⟨-, n, hn, hk⟩ := Tree.run_post_of_ok h
    exact ⟨rfl, n, hn, by rw [hk, show normalize d = dir from hr]⟩
  | _ => exact hr.elim

/-- The names of the keys posted in a directory count up, as numbers and as texts. No post finds a
live entry under its key, and a posted key without a live entry has none ever after. Once it is gone
it is not there again either as the directory of another key, unless one is written below it. -/
theorem run_allocates_upwards (now : Nat) (dir : String) (calls : List Call)
    (hq : ∀ c ∈ calls, c.Queues dir)
    (hi : ((opened now).run calls).tree.index + 1 < Text.Decimal.word64) :
    (∀ before r response mid r' response',
        (opened now).Succession calls before r response mid r' response' →
        r.Posts dir → r'.Posts dir →
        ∃ n n' i i', response.node = some n ∧ response'.node = some n' ∧
          keyName? n.key = some i ∧ keyName? n'.key = some i' ∧ i < i' ∧
          compare n.name n'.name = .lt) ∧
      ∀ before r response mid after, calls = before ++ .ask r :: (mid ++ after) →
        ((opened now).run before).answer r = .ok response → r.Posts dir →
        let v := (opened now).run (before ++ .ask r :: mid)
        ∃ n, response.node = some n ∧ ((opened now).run before).live? n.key = none ∧
          (v.live? n.key = none → (v.run after).live? n.key = none) ∧
          (¬v.Has n.key →
            v.Always (fun w c => ∀ k, w.Writes c k → isBelow n.key k = false) after →
            ¬(v.run after).Has n.key) := by
  constructor
  · intro before r response mid r' response' hs hr hr'
    obtain ⟨hread, n, hn, hk⟩ := node_of_posts hs.first hr
    obtain ⟨hread', n', hn', hk'⟩ := node_of_posts hs.second hr'
    have hlt := hs.index_lt hread
    have hlast := hs.index_lt_last hread'
    refine ⟨n, n', _, _, hn, hn', ?_, ?_, Nat.succ_lt_succ hlt, ?_⟩
    · rw [hk, keyName?_allocated, if_pos (by omega)]
    · rw [hk', keyName?_allocated, if_pos (by omega)]
    · rw [Node.name, Node.name, hk, hk', lastPart_allocated, lastPart_allocated]
      exact Text.Decimal.compare_padded (Nat.succ_lt_succ hlt) (by omega)
  · rintro before r response mid after rfl hok hr
    obtain ⟨hread, n, hn, hk⟩ := node_of_posts hok hr
    have hlt := index_lt_run hok hread mid
    rw [← run_append] at hlt
    have hafter : ∀ c ∈ after, c.Queues dir := fun c hc => hq c (by simp [hc])
    refine ⟨n, hn, ?_, fun hl => ?_, fun hgone hbelow => ?_⟩
    · rw [hk]
      exact ((counts_opened now dir).run fun c hc => hq c (List.mem_append_left _ hc)).live?_next
    · rw [hk] at hl ⊢
      exact ((Freed.mk hlt hl).run hafter).live
    · rw [hk] at hgone hbelow ⊢
      have hl : live? _ (allocated dir _) = none :=
        Option.eq_none_iff_forall_ne_some.mpr fun e he => hgone (has_iff.mpr (.inl ⟨e, he⟩))
      exact (Freed.mk hlt hl).gone_run hgone hafter hbelow

/-- Of two keys posted one after the other the first one is rewritten and runs out, and the second
one is deleted. -/
def postedTwice : List Call :=
  [.ask (.post "/q" "a" (some 5)),
    .ask (.put "/q/00000000000000000001" (some "b") { ttl := some 1, prevExist := some true }),
    .elapse (Duration.ofSeconds 2), .ask (.post "q/" "c" none),
    .ask (.delete "/q/00000000000000000003" {})]

theorem allocates_upwards_of_postedTwice :
    (∃ i i', keyName? "/q/00000000000000000001" = some i ∧
      keyName? "/q/00000000000000000003" = some i' ∧ i < i') ∧
      ((opened 0).run postedTwice).live? "/q/00000000000000000001" = none := by
  have hq : ∀ c ∈ postedTwice, c.Queues "/q" := by
    simp [postedTwice, Call.Queues]
  have hi : ((opened 0).run postedTwice).tree.index + 1 < Text.Decimal.word64 := by decide
  obtain ⟨hordered, hfree⟩ := run_allocates_upwards 0 "/q" postedTwice hq hi
  constructor
  · obtain ⟨n, n', i, i', hn, hn', hk, hk', hlt, -⟩ :=
      hordered [] (.post "/q" "a" (some 5)) _ (postedTwice.tail.take 2) (.post "q/" "c" none) _
        ⟨⟨postedTwice.drop 4, rfl⟩, rfl, rfl⟩ rfl rfl
    obtain rfl := Option.some.inj hn
    obtain rfl := Option.some.inj hn'
    exact ⟨i, i', hk, hk', hlt⟩
  · obtain ⟨n, hn, -, hnever, -⟩ := hfree [] (.post "/q" "a" (some 5)) _ (postedTwice.tail.take 2)
      (postedTwice.drop 3) rfl rfl rfl
    obtain rfl := Option.some.inj hn
    have hlast := hnever (live?_of_overdue (by decide))
    rw [← run_append] at hlast
    exact hlast

end Vault

end Rollcall.Store
