import Mathlib.Data.List.Nodup
import Rollcall.Board

/-!
# What listeners hear

A gallery is a board that remembers: every view that was held, marked as it is now, and what every
listener was told, with views given by number. Its board takes each act as any board does, and its
mentions are the notices of the board, but a number says which view is meant, not only what it looks
like. What a listener makes of a notice is nothing that a board is told, so it does not occur here.
In every run a listener hears `init` first and then `changing` and a change in turn, and of the
views that were held only the present one may be current.
-/

namespace Rollcall

/-- What is done to a board. -/
inductive Board.Act
  | bind
  | unbind (id : Nat)
  | post (v : View)

/-- A board after an act, and what its listeners are told. -/
def Board.step (b : Board) : Board.Act → Board × List Notice
  | .bind => b.bind
  | .unbind id => (b.unbind id, [])
  | .post v => (b.post v).getD (b, [])

/-- A change with the numbers of the views it is about. -/
structure Mention where
  kind : NoticeKind
  old : Option Nat := none
  new : Option Nat := none
  deriving DecidableEq, Repr

/-- A board, the views that it held, and what listeners were told. -/
structure Gallery where
  board : Board
  /-- The views held before the present one, the first one in front, each marked as it is now. -/
  past : List View := []
  /-- What was told to whom, the latest last. -/
  log : List (Nat × Mention) := []

namespace Gallery

/-- A gallery with its first view. -/
def ofView (v : View) : Gallery := { board := { view := v } }

/-- The number of the held view. -/
def held (g : Gallery) : Nat := g.past.length

/-- The view of a number, marked as it is now. -/
def view? (g : Gallery) (n : Nat) : Option View := (g.past ++ [g.board.view])[n]?

/-- What the listeners that have heard `init` are told when a view takes the next number. -/
def changes (g : Gallery) (new : View) : List Mention :=
  (if g.board.view.current then [{ kind := .changing, old := some g.held }] else []) ++
  (if new.current then
    let kind :=
      if g.board.view.membersDiffer new || g.board.view.clusterIdsDiffer new ||
        !g.board.view.current then NoticeKind.changed
      else .propertiesChanged
    [{ kind, old := some g.held, new := some (g.held + 1) }]
  else [])

/-- What listeners that have not heard `init` are told when a view takes the next number. -/
def welcome (g : Gallery) (new : View) : List Mention :=
  if new.current then [{ kind := .init, new := some (g.held + 1) }] else []

/-- What an act makes the board tell its listeners. -/
def tells (g : Gallery) : Board.Act → List (Nat × Mention)
  | .bind =>
    if g.board.view.current then [(g.board.nextId, { kind := .init, new := some g.held })] else []
  | .unbind _ => []
  | .post v =>
    if g.board.isNews v then
      ((g.board.bindings.filter Binding.initialized).flatMap fun x =>
        (g.changes v).map (Prod.mk x.id)) ++
      ((g.board.bindings.filter fun x => !x.initialized).flatMap fun x =>
        (g.welcome v).map (Prod.mk x.id))
    else []

/-- Whether an act replaces the held view. -/
def replaces (g : Gallery) : Board.Act → Bool
  | .post v => g.board.isNews v
  | _ => false

/-- A gallery after an act: a view that is replaced is not current any more. -/
def step (g : Gallery) (x : Board.Act) : Gallery where
  board := (g.board.step x).1
  past := if g.replaces x then g.past ++ [g.board.view.old] else g.past
  log := g.log ++ g.tells x

/-- A gallery after acts one after another. -/
def run (g : Gallery) (acts : List Board.Act) : Gallery := acts.foldl step g

/-- The notice of a mention. -/
def notice (g : Gallery) (t : Nat × Mention) : Notice where
  binding := t.1
  change := {
    kind := t.2.kind
    oldView := t.2.old.bind g.view?
    newView := t.2.new.bind g.view? }

/-- What one listener is told, out of what all are told. -/
def heardBy (log : List (Nat × Mention)) (id : Nat) : List Mention :=
  log.filterMap fun t => if t.1 = id then some t.2 else none

/-- What a listener has heard so far. -/
def heard (g : Gallery) (id : Nat) : List Mention := heardBy g.log id

/-! ## What a listener may hear -/

/-- Where a listener stands. -/
inductive Standing
  /-- It has heard nothing. -/
  | silent
  /-- The view of this number is the last one it was given. -/
  | shown (n : Nat)
  /-- It has heard that the view of this number is not current any more. -/
  | changing (n : Nat)

/-- What a listener may have heard: nothing at all, or `init` once and after that `changing` and a
change in turn, where `changing` is about the view that it was given last. -/
inductive Hears : List Mention → Standing → Prop
  | nothing : Hears [] .silent
  | init (n : Nat) : Hears [{ kind := .init, new := some n }] (.shown n)
  | changing {l : List Mention} {n : Nat} (h : Hears l (.shown n)) :
    Hears (l ++ [{ kind := .changing, old := some n }]) (.changing n)
  | changed {l : List Mention} {n : Nat} (h : Hears l (.changing n)) {kind : NoticeKind}
    (hk : kind = .changed ∨ kind = .propertiesChanged) (old new : Nat) :
    Hears (l ++ [{ kind, old := some old, new := some new }]) (.shown new)

/-- The last thing that a listener has heard is `changing` if it waits for a change. -/
theorem Hears.getLast?_eq_changing {l : List Mention} {s : Standing} (h : Hears l s) :
    l.getLast?.map Mention.kind = some .changing ↔ ∃ n, s = .changing n := by
  cases h with
  | nothing => simp
  | init n => simp
  | changing h => simp
  | changed h hk old new => rcases hk with rfl | rfl <;> simp

/-- A listener has heard nothing if and only if it stands where it began. -/
theorem Hears.eq_nil_iff {l : List Mention} {s : Standing} (h : Hears l s) :
    l = [] ↔ s = .silent := by
  cases h <;> simp

/-! ## The board in the gallery -/

variable {g : Gallery}

/-- After a replacement the old view and the new one have the last two numbers. -/
private theorem view?_post {v : View} (hn : g.board.isNews v = true) :
    (g.step (.post v)).view? g.held = some g.board.view.old ∧
      (g.step (.post v)).view? (g.held + 1) = some v := by
  simp [view?, held, step, replaces, Board.step, Board.post, hn]

private theorem notice_changes {v : View} (hn : g.board.isNews v = true) (id : Nat) :
    (g.changes v).map (fun m => (g.step (.post v)).notice (id, m)) =
      (Board.changes g.board.view v).map (Notice.mk id) := by
  obtain ⟨hold, hnew⟩ := view?_post hn
  cases hc : g.board.view.current <;> cases hv : v.current <;>
    simp [changes, Board.changes, notice, hc, hv, hold, hnew]

private theorem notice_welcome {v : View} (hn : g.board.isNews v = true) (id : Nat) :
    (g.welcome v).map (fun m => (g.step (.post v)).notice (id, m)) =
      if v.current then [⟨id, { kind := .init, newView := some v }⟩] else [] := by
  obtain ⟨_, hnew⟩ := view?_post hn
  cases hv : v.current <;> simp [welcome, notice, hv, hnew]

/-- The mentions of a gallery are the notices of its board. -/
theorem step_board (g : Gallery) (x : Board.Act) :
    g.board.step x = ((g.step x).board, (g.tells x).map (g.step x).notice) := by
  cases x with
  | bind =>
    cases hc : g.board.view.current <;>
      simp [Board.step, Board.bind, step, tells, replaces, notice, view?, held, hc]
  | unbind id => rfl
  | post v =>
    by_cases hn : g.board.isNews v = true
    · have hpost : g.board.step (.post v) = ((g.step (.post v)).board,
          (g.board.bindings.filter Binding.initialized).flatMap (fun x =>
            (Board.changes g.board.view v).map (Notice.mk x.id)) ++
          if v.current then
            (g.board.bindings.filter fun x => !x.initialized).map fun x =>
              ⟨x.id, { kind := .init, newView := some v }⟩
          else []) := by
        simp [step, Board.step, Board.post, hn]
      rw [hpost, tells, if_pos hn, List.map_append, List.map_flatMap, List.map_flatMap]
      simp only [List.map_map, Function.comp_def, notice_changes hn, notice_welcome hn]
      cases v.current <;> simp [List.map_eq_flatMap]
    · simp [Board.step, Board.post, step, tells, hn]

/-! ## What one listener is told -/

private theorem heardBy_append (l m : List (Nat × Mention)) (id : Nat) :
    heardBy (l ++ m) id = heardBy l id ++ heardBy m id := List.filterMap_append

private theorem heardBy_eq_nil {l : List (Nat × Mention)} {id : Nat} (h : ∀ t ∈ l, t.1 ≠ id) :
    heardBy l id = [] := by
  rw [heardBy, List.filterMap_eq_nil_iff]
  intro t ht
  rw [if_neg (h t ht)]

private theorem heardBy_map (m : List Mention) (n id : Nat) :
    heardBy (m.map (Prod.mk n)) id = if n = id then m else [] := by
  rw [heardBy, List.filterMap_map]
  split <;> simp_all

private theorem heardBy_flatMap (l : List Binding) (m : List Mention) {id : Nat}
    (h : l.Pairwise fun x y => x.id ≠ y.id) :
    heardBy (l.flatMap fun x => m.map (Prod.mk x.id)) id =
      if l.any (fun x => x.id = id) then m else [] := by
  induction l with
  | nil => rfl
  | cons x l ih =>
    rw [List.pairwise_cons] at h
    rw [List.flatMap_cons, heardBy_append, heardBy_map, ih h.2, List.any_cons]
    by_cases hx : x.id = id
    · have hn : l.any (fun y => y.id = id) = false := by
        rw [List.any_eq_false]
        intro y hy
        simpa [← hx] using Ne.symm (h.1 y hy)
      simp [hx, hn]
    · simp [hx]

/-- A listener hears what the listeners like it are told when a view is replaced. -/
private theorem heardBy_post {v : View} (hn : g.board.isNews v = true)
    (hd : (g.board.bindings.map Binding.id).Nodup) {x : Binding} (hx : x ∈ g.board.bindings) :
    heardBy (g.tells (.post v)) x.id = if x.initialized then g.changes v else g.welcome v := by
  have hany : ∀ p : Binding → Bool,
      (g.board.bindings.filter p).any (fun y => y.id = x.id) = p x := by
    intro p
    rw [Bool.eq_iff_iff, List.any_eq_true]
    constructor
    · rintro ⟨y, hy, he⟩
      obtain ⟨hy, hp⟩ := List.mem_filter.mp hy
      rwa [← List.inj_on_of_nodup_map hd hy hx (by simpa using he)]
    · exact fun hp => ⟨x, List.mem_filter.mpr ⟨hx, hp⟩, by simp⟩
  have hp := List.pairwise_map.mp hd
  rw [tells, if_pos hn, heardBy_append, heardBy_flatMap _ _ (hp.filter _),
    heardBy_flatMap _ _ (hp.filter _), hany, hany]
  cases x.initialized <;> simp

/-- Only the new listener is told anything when it is bound. -/
private theorem tells_bind {t : Nat × Mention} (ht : t ∈ g.tells .bind) :
    t = (g.board.nextId, { kind := .init, new := some g.held }) ∧
      g.board.view.current = true := by
  rw [tells] at ht
  split at ht
  · next hc => exact ⟨List.mem_singleton.mp ht, hc⟩
  · cases ht

private theorem new_of_changes {v : View} {m : Mention} (hm : m ∈ g.changes v) {n : Nat}
    (hn : m.new = some n) : n = g.held + 1 ∧ v.current = true := by
  rcases List.mem_append.mp hm with hm | hm
  · split at hm
    · rw [List.mem_singleton.mp hm] at hn
      cases hn
    · cases hm
  · split at hm
    · next hv =>
      rw [List.mem_singleton.mp hm] at hn
      exact ⟨(Option.some.inj hn).symm, hv⟩
    · cases hm

private theorem new_of_welcome {v : View} {m : Mention} (hm : m ∈ g.welcome v) {n : Nat}
    (hn : m.new = some n) : n = g.held + 1 ∧ v.current = true := by
  rw [welcome] at hm
  split at hm
  · next hv =>
    rw [List.mem_singleton.mp hm] at hn
    exact ⟨(Option.some.inj hn).symm, hv⟩
  · cases hm

/-- Only listeners that are bound are told of a replacement, and if they are given a view it is the
new one. -/
private theorem tells_post {v : View} {t : Nat × Mention} (ht : t ∈ g.tells (.post v)) :
    g.board.isNews v = true ∧ (∃ x ∈ g.board.bindings, x.id = t.1) ∧
      ∀ n, t.2.new = some n → n = g.held + 1 ∧ v.current = true := by
  rw [tells] at ht
  split at ht
  · next hn =>
    rcases List.mem_append.mp ht with ht | ht
    · obtain ⟨x, hx, ht⟩ := List.mem_flatMap.mp ht
      obtain ⟨m, hm, rfl⟩ := List.mem_map.mp ht
      exact ⟨hn, ⟨x, (List.mem_filter.mp hx).1, rfl⟩, fun n => new_of_changes hm⟩
    · obtain ⟨x, hx, ht⟩ := List.mem_flatMap.mp ht
      obtain ⟨m, hm, rfl⟩ := List.mem_map.mp ht
      exact ⟨hn, ⟨x, (List.mem_filter.mp hx).1, rfl⟩, fun n => new_of_welcome hm⟩
  · cases ht

/-! ## Acts -/

/-- A listener that has heard this knows of the held view if that is current, and otherwise that the
current one is gone. -/
def Follows (g : Gallery) (l : List Mention) : Prop :=
  if g.board.view.current then Hears l (.shown g.held) else ∃ n, Hears l (.changing n)

/-- A listener that has heard `init` follows the held view, and another one has heard nothing. -/
def Informed (g : Gallery) (x : Binding) : Prop :=
  if x.initialized then g.Follows (g.heard x.id) else g.heard x.id = []

/-- A gallery in which everybody knows what there is to know. -/
structure Kept (g : Gallery) : Prop where
  past : ∀ v ∈ g.past, v.current = false
  distinct : (g.board.bindings.map Binding.id).Nodup
  numbered : ∀ x ∈ g.board.bindings, x.id < g.board.nextId
  addressed : ∀ t ∈ g.log, t.1 < g.board.nextId
  initialized : g.board.view.current = true → ∀ x ∈ g.board.bindings, x.initialized = true
  informed : ∀ x ∈ g.board.bindings, g.Informed x
  hears : ∀ id, ∃ s, Hears (g.heard id) s

theorem Follows.hears {l : List Mention} (h : g.Follows l) : ∃ s, Hears l s := by
  unfold Follows at h
  split at h
  · exact ⟨_, h⟩
  · exact ⟨_, h.choose_spec⟩

private theorem heard_step (g : Gallery) (x : Board.Act) (id : Nat) :
    (g.step x).heard id = g.heard id ++ heardBy (g.tells x) id := heardBy_append _ _ _

private theorem view_post {v : View} (hn : g.board.isNews v = true) :
    (g.step (.post v)).board.view = v ∧ (g.step (.post v)).held = g.held + 1 := by
  simp [step, Board.step, Board.post, held, replaces, hn]

/-- Listeners that know of the held view are told of the next one. -/
theorem Follows.changes {l : List Mention} (h : g.Follows l) {v : View}
    (hn : g.board.isNews v = true) : (g.step (.post v)).Follows (l ++ g.changes v) := by
  obtain ⟨hview, hheld⟩ := view_post hn
  unfold Follows at h ⊢
  rw [hview, hheld]
  cases hc : g.board.view.current with
  | true =>
    rw [if_pos hc] at h
    cases hv : v.current with
    | true =>
      simp only [Gallery.changes, hc, hv, if_pos, ← List.append_assoc]
      refine h.changing.changed ?_ _ _
      split
      · exact .inl rfl
      · exact .inr rfl
    | false =>
      simp only [Gallery.changes, hc, hv, if_pos, Bool.false_eq_true, if_false, List.append_nil]
      exact ⟨_, h.changing⟩
  | false =>
    rw [hc, if_neg (by decide)] at h
    obtain ⟨n, h⟩ := h
    cases hv : v.current with
    | true =>
      simp only [Gallery.changes, hc, hv, if_pos, Bool.false_eq_true, if_false, List.nil_append]
      exact h.changed (.inl (by simp)) _ _
    | false =>
      simp only [Gallery.changes, hc, hv, Bool.false_eq_true, if_false, List.append_nil]
      exact ⟨n, h⟩

/-- Listeners that have heard nothing are welcomed with a current view. -/
theorem follows_welcome {v : View} (hn : g.board.isNews v = true) (hv : v.current = true) :
    (g.step (.post v)).Follows (g.welcome v) := by
  obtain ⟨hview, hheld⟩ := view_post hn
  rw [Follows, hview, hheld, if_pos hv, welcome, if_pos hv]
  exact .init _

/-- A listener stays informed when a view is replaced. -/
theorem Informed.post {x : Binding} (h : g.Informed x) {v : View} (hn : g.board.isNews v = true)
    (hd : (g.board.bindings.map Binding.id).Nodup) (hx : x ∈ g.board.bindings) :
    (g.step (.post v)).Informed { x with initialized := x.initialized || v.current } := by
  unfold Informed at h ⊢
  show if x.initialized || v.current then (g.step (.post v)).Follows ((g.step (.post v)).heard x.id)
    else (g.step (.post v)).heard x.id = []
  rw [heard_step, heardBy_post hn hd hx]
  cases hi : x.initialized with
  | true =>
    rw [if_pos hi] at h
    exact h.changes hn
  | false =>
    rw [hi, if_neg Bool.false_ne_true] at h
    rw [h, Bool.false_or, if_neg Bool.false_ne_true, List.nil_append]
    split
    · next hv => exact follows_welcome hn hv
    · next hv => rw [welcome, if_neg hv]

theorem Informed.hears {x : Binding} (h : g.Informed x) : ∃ s, Hears (g.heard x.id) s := by
  unfold Informed at h
  split at h
  · exact h.hears
  · rw [h]
    exact ⟨_, .nothing⟩

private theorem mem_bindings_bind {x : Binding} : x ∈ (g.step .bind).board.bindings ↔
    x ∈ g.board.bindings ∨
      x = { id := g.board.nextId, initialized := g.board.view.current } := by
  show x ∈ g.board.bindings ++ [_] ↔ _
  rw [List.mem_append, List.mem_singleton]

/-- A binding is nothing to those who were bound before. -/
private theorem heard_bind_of_ne {id : Nat} (hid : id ≠ g.board.nextId) :
    (g.step .bind).heard id = g.heard id := by
  rw [heard_step, heardBy_eq_nil, List.append_nil]
  intro t ht
  rw [(tells_bind ht).1]
  exact Ne.symm hid

/-- Who is bound is informed: of a current view at once. -/
private theorem informed_bind (h : ∀ t ∈ g.log, t.1 < g.board.nextId) :
    (g.step .bind).Informed { id := g.board.nextId, initialized := g.board.view.current } := by
  have hnew : (g.step .bind).heard g.board.nextId =
      if g.board.view.current then [{ kind := .init, new := some g.held }] else [] := by
    have hfresh : g.heard g.board.nextId = [] := heardBy_eq_nil fun t ht => Nat.ne_of_lt (h t ht)
    rw [heard_step, hfresh, List.nil_append, tells]
    split <;> simp [heardBy]
  rw [Informed, hnew]
  split
  · next hc =>
    show if g.board.view.current then Hears _ (.shown g.held) else _
    rw [if_pos hc]
    exact .init _
  · rfl

private theorem Kept.bind (h : g.Kept) : (g.step .bind).Kept where
  past := h.past
  distinct := by
    show ((g.board.bindings ++ [_]).map Binding.id).Nodup
    rw [List.map_append]
    refine List.nodup_append.mpr ⟨h.distinct, List.nodup_singleton _, ?_⟩
    intro n hn m hm
    obtain ⟨x, hx, rfl⟩ := List.mem_map.mp hn
    rw [List.mem_singleton.mp hm]
    exact Nat.ne_of_lt (h.numbered x hx)
  numbered := by
    intro x hx
    show x.id < g.board.nextId + 1
    rcases mem_bindings_bind.mp hx with hx | rfl
    · exact Nat.lt_succ_of_lt (h.numbered x hx)
    · exact Nat.lt_succ_self _
  addressed := by
    intro t ht
    show t.1 < g.board.nextId + 1
    rcases List.mem_append.mp ht with ht | ht
    · exact Nat.lt_succ_of_lt (h.addressed t ht)
    · rw [(tells_bind ht).1]
      exact Nat.lt_succ_self _
  initialized := by
    intro hc x hx
    rcases mem_bindings_bind.mp hx with hx | rfl
    · exact h.initialized hc x hx
    · exact hc
  informed := by
    intro x hx
    rcases mem_bindings_bind.mp hx with hx | rfl
    · rw [Informed, heard_bind_of_ne (Nat.ne_of_lt (h.numbered x hx))]
      exact h.informed x hx
    · exact informed_bind h.addressed
  hears := by
    intro id
    by_cases he : id = g.board.nextId
    · rw [he]
      exact (informed_bind h.addressed).hears
    · rw [heard_bind_of_ne he]
      exact h.hears id

private theorem Kept.unbind (h : g.Kept) (id : Nat) : (g.step (.unbind id)).Kept := by
  have hb : ∀ x ∈ (g.step (.unbind id)).board.bindings, x ∈ g.board.bindings := fun x hx =>
    (List.mem_filter.mp hx).1
  have hlog : (g.step (.unbind id)).log = g.log := List.append_nil _
  have hheard : ∀ n, (g.step (.unbind id)).heard n = g.heard n := by
    intro n
    rw [heard, hlog]
    rfl
  exact {
    past := h.past
    distinct := h.distinct.sublist (List.filter_sublist.map _)
    numbered := fun x hx => h.numbered x (hb x hx)
    addressed := by
      rw [hlog]
      exact h.addressed
    initialized := fun hc x hx => h.initialized hc x (hb x hx)
    informed := by
      intro x hx
      rw [Informed, hheard]
      exact h.informed x (hb x hx)
    hears := by
      intro n
      rw [hheard]
      exact h.hears n }

private theorem board_post {v : View} (hn : g.board.isNews v = true) :
    (g.step (.post v)).board = { g.board with
      view := v
      bindings := g.board.bindings.map fun x =>
        { x with initialized := x.initialized || v.current } } := by
  simp [step, Board.step, Board.post, hn]

private theorem exists_of_mem_bindings_post {v : View} (hn : g.board.isNews v = true) {x : Binding}
    (hx : x ∈ (g.step (.post v)).board.bindings) :
    ∃ y ∈ g.board.bindings, x = { y with initialized := y.initialized || v.current } := by
  rw [board_post hn] at hx
  obtain ⟨y, hy, rfl⟩ := List.mem_map.mp hx
  exact ⟨y, hy, rfl⟩

/-- A view that says something new is held, and the one before is past. -/
private theorem Kept.replace (h : g.Kept) {v : View} (hn : g.board.isNews v = true) :
    (g.step (.post v)).Kept where
  past := by
    intro w hw
    simp only [step, replaces, hn, if_true] at hw
    rcases List.mem_append.mp hw with hw | hw
    · exact h.past w hw
    · rw [List.mem_singleton.mp hw]
      rfl
  distinct := by
    rw [board_post hn, List.map_map]
    exact h.distinct
  numbered := by
    intro x hx
    obtain ⟨y, hy, rfl⟩ := exists_of_mem_bindings_post hn hx
    rw [board_post hn]
    exact h.numbered y hy
  addressed := by
    intro t ht
    rw [board_post hn]
    rcases List.mem_append.mp ht with ht | ht
    · exact h.addressed t ht
    · obtain ⟨x, hx, he⟩ := (tells_post ht).2.1
      rw [← he]
      exact h.numbered x hx
  initialized := by
    intro hc x hx
    obtain ⟨y, _, rfl⟩ := exists_of_mem_bindings_post hn hx
    rw [(view_post hn).1] at hc
    show (y.initialized || v.current) = true
    rw [hc, Bool.or_true]
  informed := by
    intro x hx
    obtain ⟨y, hy, rfl⟩ := exists_of_mem_bindings_post hn hx
    exact (h.informed y hy).post hn h.distinct hy
  hears := by
    intro id
    by_cases hx : ∃ x ∈ g.board.bindings, x.id = id
    · obtain ⟨x, hx, rfl⟩ := hx
      exact ((h.informed x hx).post hn h.distinct hx).hears
    · rw [heard_step, heardBy_eq_nil, List.append_nil]
      · exact h.hears id
      · rintro t ht rfl
        exact hx (tells_post ht).2.1

private theorem Kept.post (h : g.Kept) (v : View) : (g.step (.post v)).Kept := by
  by_cases hn : g.board.isNews v = true
  · exact h.replace hn
  · have hs : g.step (.post v) = g := by
      simp [step, Board.step, Board.post, tells, replaces, hn]
    rw [hs]
    exact h

theorem Kept.step (h : g.Kept) (x : Board.Act) : (g.step x).Kept := by
  cases x with
  | bind => exact h.bind
  | unbind id => exact h.unbind id
  | post v => exact h.post v

theorem kept_ofView (v : View) : (ofView v).Kept :=
  ⟨nofun, List.nodup_nil, nofun, nofun, fun _ => nofun, nofun, fun _ => ⟨_, .nothing⟩⟩

theorem Kept.run (h : g.Kept) (acts : List Board.Act) : (g.run acts).Kept := by
  induction acts generalizing g with
  | nil => exact h
  | cons x acts ih => exact ih (h.step x)

/-! ## Runs -/

/-- What an act gives to a listener is the view that is held after it, and that is current. -/
theorem new_of_tells {x : Board.Act} {t : Nat × Mention} (ht : t ∈ g.tells x) {n : Nat}
    (hn : t.2.new = some n) :
    n = (g.step x).held ∧ (g.step x).board.view.current = true := by
  cases x with
  | bind =>
    obtain ⟨rfl, hc⟩ := tells_bind ht
    exact ⟨(Option.some.inj hn).symm, hc⟩
  | unbind id => cases ht
  | post v =>
    obtain ⟨hnews, _, hnew⟩ := tells_post ht
    obtain ⟨hview, hheld⟩ := view_post hnews
    rw [hview, hheld]
    exact hnew n hn

/-- Listeners that have heard `init` are told the same. -/
theorem Kept.heardBy_tells (h : g.Kept) (act : Board.Act) {x y : Binding}
    (hx : x ∈ g.board.bindings) (hy : y ∈ g.board.bindings) (hxi : x.initialized = true)
    (hyi : y.initialized = true) :
    heardBy (g.tells act) x.id = heardBy (g.tells act) y.id := by
  cases act with
  | bind =>
    have hnil : ∀ z ∈ g.board.bindings, heardBy (g.tells .bind) z.id = [] := by
      intro z hz
      refine heardBy_eq_nil fun t ht => ?_
      rw [(tells_bind ht).1]
      exact Nat.ne_of_gt (h.numbered z hz)
    rw [hnil x hx, hnil y hy]
  | unbind id => rfl
  | post v =>
    by_cases hn : g.board.isNews v = true
    · rw [heardBy_post hn h.distinct hx, heardBy_post hn h.distinct hy, hxi, hyi]
    · rw [tells, if_neg hn]
      rfl

/-- A listener was told that the view is changing if it follows a view that is not current. -/
theorem Follows.getLast? {l : List Mention} (h : g.Follows l) :
    l.getLast?.map Mention.kind ≠ some .changing ↔ g.board.view.current = true := by
  unfold Follows at h
  split at h
  · next hc =>
    rw [Ne, h.getLast?_eq_changing]
    simp [hc]
  · next hc =>
    obtain ⟨n, h⟩ := h
    rw [Ne, h.getLast?_eq_changing]
    simp [hc]

theorem Follows.ne_nil {l : List Mention} (h : g.Follows l) : l ≠ [] := by
  intro hl
  unfold Follows at h
  split at h
  · cases h.eq_nil_iff.mp hl
  · obtain ⟨n, h⟩ := h
    cases h.eq_nil_iff.mp hl

/-- Whatever is done to a board, every listener hears nothing before `init`, hears that once, and
then hears `changing` and a change in turn, `changing` being about the view that it was given last.
The listeners that have heard `init` have heard `changing` last if and only if the held view is not
current, and everybody bound has heard `init` while it is. No earlier view is current. An act makes
the board say what the gallery mentions; the views it gives are the held one, which is then current;
and it tells all listeners that have heard `init` the same. -/
theorem run_tells_in_turn (v : View) (acts : List Board.Act) :
    let g := (ofView v).run acts
    (∀ id, ∃ s, Hears (g.heard id) s) ∧
    (∀ x ∈ g.board.bindings, (x.initialized = true ↔ g.heard x.id ≠ []) ∧
      (x.initialized = true →
        ((g.heard x.id).getLast?.map Mention.kind ≠ some .changing ↔
          g.board.view.current = true))) ∧
    (g.board.view.current = true → ∀ x ∈ g.board.bindings, x.initialized = true) ∧
    (∀ w ∈ g.past, w.current = false) ∧
    ∀ act,
      g.board.step act = ((g.step act).board, (g.tells act).map (g.step act).notice) ∧
      (∀ t ∈ g.tells act, ∀ n, t.2.new = some n →
        n = (g.step act).held ∧ (g.step act).board.view.current = true) ∧
      ∀ x ∈ g.board.bindings, ∀ y ∈ g.board.bindings, x.initialized = true →
        y.initialized = true → heardBy (g.tells act) x.id = heardBy (g.tells act) y.id := by
  intro g
  have h : g.Kept := (kept_ofView v).run acts
  refine ⟨h.hears, fun x hx => ?_, h.initialized, h.past, fun act => ⟨step_board g act,
    fun t ht n hn => new_of_tells ht hn, fun x hx y hy => h.heardBy_tells act hx hy⟩⟩
  have hi := h.informed x hx
  unfold Informed at hi
  split at hi
  · next hxi => exact ⟨⟨fun _ => hi.ne_nil, fun _ => hxi⟩, fun _ => hi.getLast?⟩
  · next hxi => exact ⟨⟨fun hc => absurd hc hxi, fun hne => absurd hi hne⟩, fun hc => absurd hc hxi⟩

/-- A listener bound while no view is current hears `init` where another one hears a change. -/
example :
    let away := View.undefined "a"
    let back := { away with current := true }
    let g := (ofView away).run [.bind, .post back, .post away, .bind, .post back]
    g.heard 0 = [{ kind := .init, new := some 1 }, { kind := .changing, old := some 1 },
      { kind := .changed, old := some 2, new := some 3 }] ∧
      g.heard 1 = [{ kind := .init, new := some 3 }] := by
  decide +kernel

end Gallery

end Rollcall
