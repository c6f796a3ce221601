import Rollcall.Proofs.BackOff
import Rollcall.Proofs.Turns
import Rollcall.Proofs.Vigil

/-!
# Announces that do not expire

A renewal puts an announce down for longer than the pause until the next renewal, and a new announce
is put down for longer than any pause. So an announce that is confirmed at some time in a pause
outlives that pause, whatever its length was chosen for, and no renewal comes too late. That holds
while requests take no time, none fails, and nobody else meddles with the announce.
-/

namespace Rollcall

open Store
open Registry (Layout)

/-! ## Announces in the store -/

/-- An allocated key whose entry is live until an instant. -/
structure Lasts (dir : String) (t : Tree) (now : Nat) (key : String) (x : Nat) : Prop where
  allocated : ∃ n ≤ t.index, key = Path.allocated dir n
  live : ∃ e, t.live? now key = some e ∧ e.dir = false ∧ e.pinnedTtl = none ∧ e.expiresAt = some x

namespace Lasts

variable {dir key : String} {t t' : Tree} {now x : Nat}

theorem later (h : Lasts dir t now key x) {now' : Nat} (hx : now' < x) :
    Lasts dir t now' key x := by
  obtain ⟨e, he, hd, hp, hexp⟩ := h.live
  refine ⟨h.allocated, e, Tree.live?_eq_some.mpr ⟨(Tree.live?_eq_some.mp he).1, ?_⟩, hd, hp, hexp⟩
  simpa [Entry.expired, hp, hexp] using hx

theorem of_live?_eq (h : Lasts dir t now key x) (hi : t.index ≤ t'.index)
    (hl : t'.live? now key = t.live? now key) : Lasts dir t' now key x := by
  obtain ⟨n, hn, hk⟩ := h.allocated
  refine ⟨⟨n, Nat.le_trans hn hi, hk⟩, ?_⟩
  rw [hl]
  exact h.live

theorem run (h : Lasts dir t now key x) {r : Request} (hr : ¬Tree.Touches t.index key r) :
    Lasts dir (t.run now r).1 now key x :=
  h.of_live?_eq (t.index_le_run now r) (Tree.live?_run_of_not_touches hr)

end Lasts

namespace Lasts

variable {l : Layout} {key : String} {t : Tree} {now x : Nat}

/-- What is put down aside of the announces does not touch one. -/
private theorem not_touches_aside (l : Layout) {name : String} {c : Char} {rest : List Char}
    (h : name.toList = l.root.toList ++ '/' :: c :: rest) (hc : c ≠ '/') (ha : c ≠ 'a')
    (value : Option String) (o : WriteOptions) (index n : Nat) :
    ¬Tree.Touches index (Path.allocated l.directory n) (.put name value o) := by
  intro ht
  have hb := (l.normalize_aside h hc ha).2
  rw [show Path.normalize name = _ from ht, Path.isBelow_allocated] at hb
  cases hb

theorem not_touches_publish (h : Lasts l.directory t now key x) (id : String) (p : Properties) :
    ¬Tree.Touches t.index key (Registry.publish l id p).request := by
  obtain ⟨n, -, rfl⟩ := h.allocated
  exact not_touches_aside l (l.toList_propertiesOf id) (by decide) (by decide) _ _ _ _

/-- A renewal touches no other announce. -/
theorem not_touches_renew (h : Lasts l.directory t now key x) {k : String} (hne : k ≠ key)
    (d : Payload) (ttl : Nat) (index : Nat) :
    ¬Tree.Touches index k (Registry.renew key d ttl).request := by
  obtain ⟨n, -, rfl⟩ := h.allocated
  exact fun ht => hne ((l.normalize_allocated n).symm.trans ht).symm

/-- Apart from renewals nothing that a member asks of the store touches an announce. -/
theorem not_touches_of_asks {s : Session} {p : Part} {r : Request} (hr : s.Asks p r)
    (hp : p ≠ .renewal) (h : Lasts s.member.layout.directory t now key x) :
    ¬Tree.Touches t.index key r := by
  obtain ⟨n, hn, rfl⟩ := h.allocated
  cases hr with
  | get _ _ _ _ => exact id
  | publish _ => exact absurd rfl hp
  | renew _ => exact absurd rfl hp
  | claim _ _ =>
    exact not_touches_aside _ (Layout.toList_clusterId _) (by decide) (by decide) _ _ _ _
  | announce _ =>
    intro hk
    have hindex := (Path.allocated_injective hk : t.index + 1 = n)
    omega

/-- A renewal is answered by a response, and the announce has a new time to live. -/
theorem renew (h : Lasts l.directory t now key x) (hf : t.failures = []) (d : Payload) {ttl : Nat}
    (httl : 0 < ttl) :
    (∃ response, (t.run now (Registry.renew key d ttl).request).2 = .ok response) ∧
      Lasts l.directory (t.run now (Registry.renew key d ttl).request).1 now key
        (now + Duration.ofSeconds ttl) := by
  obtain ⟨⟨n, hn, rfl⟩, e, he, hd, -, -⟩ := h
  have hne : Path.allocated l.directory n ≠ "" := fun hk => by
    have hl := congrArg String.toList hk
    rw [Path.toList_allocated] at hl
    simp at hl
  obtain ⟨hok, hlive⟩ := Tree.run_renew d.encode hf (l.normalize_allocated n) hne httl he hd
  exact ⟨hok, ⟨n, Nat.le_trans hn (t.index_le_run now _), rfl⟩, hlive⟩

/-- An announce that was created lives for its time. -/
theorem announce {d : Payload} {ttl : Nat} (httl : 0 < ttl) {b : Announce}
    (hb : (Registry.announce l d ttl).outcome
      (t.run now (Registry.announce l d ttl).request).2 = .ok b) :
    b.key = Path.allocated l.directory (t.index + 1) ∧
      Lasts l.directory (t.run now (Registry.announce l d ttl).request).1 now b.key
        (now + Duration.ofSeconds ttl) := by
  obtain ⟨hk, hi⟩ := Registry.key_of_announce hb
  refine ⟨hk, ⟨t.index + 1, Nat.le_of_eq hi.symm, hk⟩, ?_⟩
  cases hr : (t.run now (Registry.announce l d ttl).request).2 with
  | error f =>
    rw [hr] at hb
    cases f <;> cases hb
  | ok response =>
    rw [hk]
    exact Tree.live?_run_post httl hr

end Lasts

/-! ## Quiet -/

/-- How long a new announce of a member is put down for. -/
def Config.lifetime (c : Config) : Duration :=
  Duration.ofSeconds (Duration.timeToLive c.backOff.announcerBackOff.longest)

namespace Vigil

/-- The parts of the member that were or may be started. -/
def parts (v : Vigil) : List Part :=
  Session.loops ++ v.control.runners.map fun r => .runner r.generation

/-- Whether a part has nothing to do before an instant. -/
def isIdle (v : Vigil) (instant : Nat) (p : Part) : Bool :=
  !Attendance.hasBegun v.session p || v.session.hasEnded p ||
    v.isResting p && !v.session.isSignalled p && instant ≤ v.wakes p

/-- The key under which a runner waits for its announce to be confirmed. -/
def confirmed? (r : Runner Wait) : Option String :=
  match r.activity with
  | .within (.answer (.confirming key)) => some key
  | _ => none

/-- The key of an announce that the loop of renewal asks to renew. -/
def renewed? (v : Vigil) : Option String :=
  match v.session.renewal with
  | .asking (.renewing key _ _) => some key
  | _ => none

/-- The keys of the announces that the member put down and still counts on. -/
def keys (v : Vigil) : List String :=
  (v.member.known.accepted.map Announce.key).toList ++ v.renewed?.toList ++
    v.control.runners.filterMap confirmed?

/-- Whether an action may happen in quiet: time passes only while no part has anything to do, so
requests take no time and whoever rests goes on when the rest is over; no request fails; and nobody
else changes what stands under the keys of the member's announces. -/
def isQuiet (v : Vigil) : Action → Bool
  | .elapse d => v.parts.all (v.isIdle (v.now + d))
  | .fail _ => false
  | .pin key _ => !v.keys.contains key
  | .other r =>
    v.keys.all fun key => (v.tree.run v.now r).1.live? v.now key = v.tree.live? v.now key
  | _ => true

/-- A vigil after an action in quiet; one that may not happen changes nothing. -/
def quietStep (v : Vigil) (x : Action) : Vigil := if v.isQuiet x then v.step x else v

/-- A vigil after actions in quiet, one after another. -/
def quietRun (v : Vigil) (actions : List Action) : Vigil := actions.foldl quietStep v

/-- The announces that a member counts on. -/
structure Guards (c : Config) (v : Vigil) : Prop where
  /-- The one to be confirmed is new. -/
  confirming : ∀ {g : Nat} {key : String}, v.control.Waits g (.answer (.confirming key)) →
    Lasts (Layout.ofRoot c.store.root).directory v.tree v.now key (v.now + c.lifetime)
  renewing : ∀ {key : String} {d : Payload} {ttl : Nat},
    v.session.renewal = .asking (.renewing key d ttl) →
      ∃ x, Lasts (Layout.ofRoot c.store.root).directory v.tree v.now key x
  /-- What is renewed is not what is to be confirmed. -/
  apart : ∀ {g : Nat} {k key : String} {d : Payload} {ttl : Nat},
    v.control.Waits g (.answer (.confirming k)) →
    v.session.renewal = .asking (.renewing key d ttl) → k ≠ key
  /-- The accepted one outlives the pause until the next renewal. It is new if another one is being
  renewed. -/
  accepted : ∀ {a : Announce}, v.member.known.accepted = some a →
    v.control.state = .running ∨ (∃ stage, v.session.renewal = .asking stage) →
    ∃ x, Lasts (Layout.ofRoot c.store.root).directory v.tree v.now a.key x ∧
      (v.session.renewal = .resting → v.wakes .renewal < x) ∧
      ∀ {key : String} {d : Payload} {ttl : Nat},
        v.session.renewal = .asking (.renewing key d ttl) → key ≠ a.key → v.now + c.lifetime ≤ x

/-- A vigil in quiet. -/
structure Lasting (c : Config) (v : Vigil) : Prop where
  regular : v.Regular c
  failures : v.tree.failures = []
  maxTtl : v.member.maxTtl = Duration.timeToLive c.backOff.announcerBackOff.longest
  policy : v.member.renewal.policy = c.backOff.announcerBackOff.policy
  inTurn : v.attendance.InTurn
  single : v.attendance.Single
  resting : v.session.renewal = .resting → v.wakes .renewal < v.now + c.lifetime
  guards : ¬v.attendance.HasLeft → v.Guards c

variable {c : Config} {v : Vigil}

/-- The store after a move beside the loop of renewal: what lasted goes on to last, and an announce
that was created is new. -/
private structure Serves (c : Config) (v : Vigil) (x : Attendance.Move) (tree : Tree) : Prop where
  lasts : ∀ {key : String} {y : Nat},
    Lasts (Layout.ofRoot c.store.root).directory v.tree v.now key y →
      Lasts (Layout.ofRoot c.store.root).directory tree v.now key y
  created : ∀ {g : Nat} {d : Payload} {b : Announce} {answer : Answer},
    x = .receive (.part (.runner g)) answer → v.control.Waits g (.answer (.creating d)) →
    (Registry.announce v.member.layout d v.member.maxTtl).outcome answer = .ok b →
      b.key = Path.allocated (Layout.ofRoot c.store.root).directory (v.tree.index + 1) ∧
      Lasts (Layout.ofRoot c.store.root).directory tree v.now b.key (v.now + c.lifetime)

private theorem serves_act (c : Config) (v : Vigil) (x : Attendance.Act) :
    Serves c v (.act x) v.tree := ⟨id, nofun⟩

/-- A move beside the loop of renewal. -/
private theorem Guards.beside (hg : v.Guards c) (h : v.Lasting c) {x : Attendance.Move}
    {tree : Tree} (hserves : v.Serves c x tree) {wakes : Part → Nat}
    (hasking : ∀ {stage}, (v.attendance.move x).session.renewal = .asking stage →
      v.session.renewal = .asking stage)
    (hresting : (v.attendance.move x).session.renewal = .resting →
      v.session.renewal = .resting ∧ wakes .renewal = v.wakes .renewal) :
    Guards c { now := v.now, tree, attendance := v.attendance.move x, wakes } where
  confirming hw := by
    rcases Attendance.confirming_move h.regular.keeps x hw with hold | ⟨d, b, _, hx, hnew, hb, rfl⟩
    · exact hserves.lasts (hg.confirming hold)
    · exact (hserves.created hx hnew hb).2
  renewing hs := (hg.renewing (hasking hs)).imp fun _ => hserves.lasts
  apart hw hs := by
    rcases Attendance.confirming_move h.regular.keeps x hw with hold | ⟨d, b, _, hx, hnew, hb, rfl⟩
    · exact hg.apart hold (hasking hs)
    · obtain ⟨_, hl⟩ := hg.renewing (hasking hs)
      obtain ⟨n, hn, rfl⟩ := hl.allocated
      rw [(hserves.created hx hnew hb).1]
      intro hk
      have hindex : v.tree.index + 1 = n := Path.allocated_injective hk
      omega
  accepted := by
    intro a ha hor
    rcases Attendance.accepted_move x ha with ⟨b, hb, hk⟩ | ⟨g, answer, -, hw, -⟩
    · have hor : v.control.state = .running ∨ ∃ stage, v.session.renewal = .asking stage := by
        rcases hor with hr | ⟨stage, hs⟩
        · rcases Attendance.running_move h.regular.keeps x hr with hr | ⟨g, key, _, -, hw⟩
          · exact .inl hr
          · exact nomatch (h.single.announcing hw rfl).symm.trans hb
        · exact .inr ⟨stage, hasking hs⟩
      obtain ⟨y, hl, hrest, hnew⟩ := hg.accepted hb hor
      rw [hk] at hl hnew
      refine ⟨y, hserves.lasts hl, fun hs => ?_, fun hs => hnew (hasking hs)⟩
      obtain ⟨hs, hwakes⟩ := hresting hs
      exact Nat.lt_of_le_of_lt (Nat.le_of_eq hwakes) (hrest hs)
    · refine ⟨_, hserves.lasts (hg.confirming hw), fun hs => ?_, fun _ _ => Nat.le_refl _⟩
      obtain ⟨hs, hwakes⟩ := hresting hs
      exact Nat.lt_of_le_of_lt (Nat.le_of_eq hwakes) (h.resting hs)

/-- A rest is over before what was put down to outlive it. -/
private theorem wakeTime_lt_timeToLive (now : Nat) {d : Duration} (hd : d ≤ Policy.writable) :
    Agenda.wakeTime now d < now + Duration.ofSeconds d.timeToLive := by
  refine Nat.lt_of_lt_of_le (Agenda.wakeTime_lt now d) ?_
  rw [Nat.add_assoc]
  exact Nat.add_le_add_left (Duration.add_nanosPerMilli_le_timeToLive hd) now

/-- A rest for no longer than the longest pause is over before a new announce is. -/
private theorem wakeTime_lt_lifetime (c : Config) (now : Nat) {d : Duration}
    (hd : d ≤ c.backOff.announcerBackOff.longest) : Agenda.wakeTime now d < now + c.lifetime := by
  refine Nat.lt_of_lt_of_le (Agenda.wakeTime_lt now d) ?_
  rw [Nat.add_assoc]
  exact Nat.add_le_add_left (Nat.le_trans (Nat.add_le_add_right hd _)
    (Duration.add_nanosPerMilli_le_timeToLive (BackOff.longest_readOr _ _))) now

private theorem state_of_isRunning (h : v.member.isRunning = true) :
    v.control.state = .running := by
  have hs : v.member.control.state = .running := by simpa [Member.isRunning] using h
  exact hs

/-- The loop of renewal goes on with its round. -/
private theorem Guards.afterRenewal (hg : v.Guards c) (h : v.Lasting c)
    {move : Attendance.Move} {x : Member × Turn Renewal.Stage Duration}
    (hmove : (v.attendance.move move).session = (v.session.afterRenewal x).1)
    (hnot : ∀ {g answer}, move ≠ .receive (.part (.runner g)) answer)
    {tree : Tree} {wakes : Part → Nat}
    (hconfirming : ∀ {g key y}, v.control.Waits g (.answer (.confirming key)) →
      Lasts (Layout.ofRoot c.store.root).directory v.tree v.now key y →
      Lasts (Layout.ofRoot c.store.root).directory tree v.now key y)
    (hrenewing : ∀ {key d ttl}, x.2 = .wait (.renewing key d ttl) →
      v.member.known.accepted ≠ none ∧
      ∃ y, Lasts (Layout.ofRoot c.store.root).directory tree v.now key y)
    (haccepted : ∀ {a}, x.1.known.accepted = some a →
      x.1.control.state = .running ∨ (∃ stage, x.2 = .wait stage) →
      ∃ y, Lasts (Layout.ofRoot c.store.root).directory tree v.now a.key y ∧
        ((∃ d, x.2 = .over d) → wakes .renewal < y) ∧
        ∀ {key d ttl}, x.2 = .wait (.renewing key d ttl) → key = a.key) :
    Guards c { now := v.now, tree, attendance := v.attendance.move move, wakes } := by
  have hloop := v.session.renewal_afterRenewal x
  have hmember := v.session.member_afterRenewal x
  rw [← hmove] at hloop hmember
  have hold : ∀ {g key}, (v.attendance.move move).session.member.control.Waits g
      (.answer (.confirming key)) → v.control.Waits g (.answer (.confirming key)) := fun hw =>
    (Attendance.confirming_move h.regular.keeps move hw).resolve_right fun ⟨_, _, _, hm, _⟩ =>
      hnot hm
  have hasking : ∀ {stage}, (v.attendance.move move).session.renewal = .asking stage →
      x.2 = .wait stage := fun hs => Turn.loop_eq_asking (hloop ▸ hs)
  exact {
    confirming := fun hw => hconfirming (hold hw) (hg.confirming (hold hw))
    renewing := fun hs => (hrenewing (hasking hs)).2
    apart := fun hw hs => absurd (h.single.announcing (hold hw) rfl) (hrenewing (hasking hs)).1
    accepted := by
      intro a ha hor
      have hacc := congrArg (fun m => m.known.accepted) hmember
      obtain ⟨y, hl, hrest, hkey⟩ := haccepted (hacc.symm.trans ha) (hor.imp
        (fun hr => (congrArg (fun m => m.control.state) hmember).symm.trans hr)
        fun ⟨stage, hs⟩ => ⟨stage, hasking hs⟩)
      refine ⟨y, hl, fun hs => hrest ?_, fun hs hne => absurd (hkey (hasking hs)) hne⟩
      have hs : x.2.loop = .resting := hloop.symm.trans hs
      cases hx : x.2 with
      | «over» d => exact ⟨d, rfl⟩
      | wait stage =>
        rw [hx] at hs
        cases hs }

/-- The loop of renewal begins a round. -/
private theorem Guards.beginRenewal (hg : v.Guards c) (h : v.Lasting c)
    (hmove : (v.attendance.move (.act (.proceed .renewal))).session =
      (v.session.afterRenewal (Renewal.begin v.member)).1) {wakes : Part → Nat} :
    Guards c { now := v.now, tree := v.tree
               attendance := v.attendance.move (.act (.proceed .renewal)), wakes } := by
  have hb := Renewal.begins_begin v.member
  refine hg.afterRenewal h hmove (by simp) (fun _ hl => hl) ?_ ?_
  · generalize Renewal.begin v.member = x at hb ⊢
    intro key d ttl hx
    cases hb with
    | renewing hr hs ha =>
      cases hx
      obtain ⟨y, hl, -⟩ := hg.accepted ha (.inl (state_of_isRunning hr))
      exact ⟨by rw [ha]; simp, y, hl⟩
    | _ => cases hx
  · generalize Renewal.begin v.member = x at hb ⊢
    intro a ha hor
    cases hb with
    | idle hr =>
      rcases hor with hs | ⟨_, hw⟩
      · have hs : v.member.control.state = .running := hs
        simp [Member.isRunning, hs] at hr
      · cases hw
    | sending hr _ =>
      obtain ⟨y, hl, -⟩ := hg.accepted ha (.inl (state_of_isRunning hr))
      exact ⟨y, hl, by simp, by simp⟩
    | renewing hr _ ha' =>
      obtain ⟨y, hl, -⟩ := hg.accepted ha (.inl (state_of_isRunning hr))
      cases ha'.symm.trans ha
      refine ⟨y, hl, by simp, fun hx => ?_⟩
      cases hx
      rfl
    | missing _ hnone => cases hnone.symm.trans ha

/-- A round that fails leaves no member running. -/
private theorem not_running_fail (m : Member) (e : MemberError) :
    (Renewal.fail m e).1.control.state ≠ .running := by
  by_cases hs : m.control.state = .running
  · have hc : (Renewal.fail m e).1.control = m.control.handle (Renewal.failureEvent e) := if_pos hs
    rw [hc, Control.state_handle, hs]
    exact Renewal.next_failureEvent e
  · have hc : (Renewal.fail m e).1.control = m.control := if_neg hs
    rw [hc]
    exact hs

private theorem current_le_longest (b : BackOff)
    (h : b.policy = c.backOff.announcerBackOff.policy) :
    b.current ≤ c.backOff.announcerBackOff.longest := by
  rw [BackOff.longest, ← h]
  exact b.current_le_longest

private theorem layout_eq (h : v.Lasting c) : v.member.layout = .ofRoot c.store.root :=
  h.regular.keeps.member.layout

private theorem directory_eq (h : v.Lasting c) :
    (Layout.ofRoot c.store.root).directory = v.member.layout.directory := by
  rw [layout_eq h]

/-- Announces last while the document of the member is written. -/
private theorem lasts_sending (h : v.Lasting c) (p : Properties) {key : String} {y : Nat}
    (hl : Lasts (Layout.ofRoot c.store.root).directory v.tree v.now key y) :
    Lasts (Layout.ofRoot c.store.root).directory
      (v.tree.run v.now (Renewal.request v.member (.sending p))).1 v.now key y := by
  refine hl.run ?_
  rw [directory_eq h] at hl
  exact hl.not_touches_publish v.member.self.id p

/-- Announces last while another one is renewed. -/
private theorem Guards.lasts_renewing (hg : v.Guards c) {key k : String} {d : Payload} {ttl : Nat}
    (hs : v.session.renewal = .asking (.renewing key d ttl)) (hne : k ≠ key) {y : Nat}
    (hl : Lasts (Layout.ofRoot c.store.root).directory v.tree v.now k y) :
    Lasts (Layout.ofRoot c.store.root).directory
      (v.tree.run v.now (Renewal.request v.member (.renewing key d ttl))).1 v.now k y := by
  obtain ⟨_, hkey⟩ := hg.renewing hs
  exact hl.run (hkey.not_touches_renew hne d ttl v.tree.index)

/-- The announce that was renewed outlives the pause that follows, and so does one that was accepted
meanwhile, which is new. -/
private theorem Guards.lasts_renewed (hg : v.Guards c) (h : v.Lasting c) {key : String}
    {d : Payload} {ttl : Nat} (hs : v.session.renewal = .asking (.renewing key d ttl))
    {a b : Announce} (hb : v.member.known.accepted = some b) (hk : b.key = a.key) :
    ∃ y, Lasts (Layout.ofRoot c.store.root).directory
        (v.tree.run v.now (Renewal.request v.member (.renewing key d ttl))).1 v.now a.key y ∧
      Agenda.wakeTime v.now v.member.renewal.increment.current < y := by
  have hlong := current_le_longest v.member.renewal.increment h.policy
  by_cases he : key = a.key
  · subst he
    obtain ⟨_, hold⟩ := hg.renewing hs
    obtain rfl := h.inTurn.outliving hs
    exact ⟨_, (hold.renew h.failures d (Nat.le_max_left 1 _)).2,
      wakeTime_lt_timeToLive v.now (Nat.le_trans hlong (BackOff.longest_readOr _ _))⟩
  · obtain ⟨y, hl, -, hnew⟩ := hg.accepted hb (.inr ⟨_, hs⟩)
    rw [hk] at hl hnew
    exact ⟨y, hg.lasts_renewing hs (Ne.symm he) hl,
      Nat.lt_of_lt_of_le (wakeTime_lt_lifetime c v.now hlong) (hnew hs he)⟩

/-- What is accepted after an answer to the loop of renewal outlives the pause if one follows, and
is what is renewed if a renewal follows. -/
private theorem Guards.accepted_answered (hg : v.Guards c) (h : v.Lasting c)
    {stage : Renewal.Stage} (hs : v.session.renewal = .asking stage) (answer : Answer)
    {a : Announce} :
    let x := Renewal.answered v.member stage answer
    x.1.known.accepted = some a →
    x.1.control.state = .running ∨ (∃ stage, x.2 = .wait stage) →
    ∃ y, Lasts (Layout.ofRoot c.store.root).directory
        (v.tree.run v.now (Renewal.request v.member stage)).1 v.now a.key y ∧
      ((∃ d, x.2 = .over d) →
        v.wakesAfter .renewal (v.session.afterRenewal x).2 .renewal < y) ∧
      ∀ {key d ttl}, x.2 = .wait (.renewing key d ttl) → key = a.key := by
  intro x hacc hor
  have ha : Renewal.Answers v.member answer stage x := Renewal.answers_answered _ _ _
  obtain ⟨b, hb, hkey⟩ := (Renewal.retains_answered v.member stage answer).key hacc
  clear_value x
  have hfail : ∀ {e m}, x ≠ Renewal.fail m e := by
    rintro e m rfl
    rcases hor with hrun | ⟨_, hw⟩
    · exact not_running_fail _ _ hrun
    · cases hw
  cases ha with
  | sent _ _ hacc' =>
    cases hacc'.symm.trans hacc
    obtain ⟨y, hl, -⟩ := hg.accepted hb (.inr ⟨_, hs⟩)
    rw [hkey] at hl
    refine ⟨y, lasts_sending h _ hl, by simp, fun hx => ?_⟩
    cases hx
    rfl
  | missing _ _ _ => exact absurd rfl hfail
  | unsent _ _ => exact absurd rfl hfail
  | unrenewed _ _ => exact absurd rfl hfail
  | renewed _ _ =>
    obtain ⟨y, hl, hlt⟩ := hg.lasts_renewed h hs hb hkey
    have hwakes := v.wakesAfter_rest .renewal v.member.renewal.increment.current
    exact ⟨y, hl, fun _ => Nat.lt_of_le_of_lt (Nat.le_of_eq hwakes) hlt, by simp⟩

/-- The loop of renewal goes on from the answer of the store. -/
private theorem Guards.renewalAnswered (hg : v.Guards c) (h : v.Lasting c) {stage : Renewal.Stage}
    (hs : v.session.renewal = .asking stage) (answer : Answer) :
    Guards c { now := v.now, tree := (v.tree.run v.now (Renewal.request v.member stage)).1
               attendance := v.attendance.move (.receive (.part .renewal) answer)
               wakes := v.wakesAfter .renewal (v.session.receive .renewal answer).2 } := by
  have hreceive : v.session.receive .renewal answer =
      v.session.afterRenewal (Renewal.answered v.member stage answer) :=
    Session.receive_renewal hs answer
  have hmove : (v.attendance.move (.receive (.part .renewal) answer)).session =
      (v.session.afterRenewal (Renewal.answered v.member stage answer)).1 :=
    congrArg Prod.fst hreceive
  rw [hreceive]
  refine hg.afterRenewal h hmove (by simp) ?_ ?_ (hg.accepted_answered h hs answer)
  · intro g key y hw hl
    cases stage with
    | sending p => exact lasts_sending h p hl
    | renewing k d ttl => exact hg.lasts_renewing hs (hg.apart hw hs) hl
  · have ha := Renewal.answers_answered v.member stage answer
    generalize Renewal.answered v.member stage answer = x at ha
    intro key d ttl hx
    cases ha with
    | sent _ _ hacc =>
      cases hx
      obtain ⟨y, hl, -⟩ := hg.accepted hacc (.inr ⟨_, hs⟩)
      exact ⟨by rw [hacc]; simp, y, lasts_sending h _ hl⟩
    | _ => cases hx

/-! ## Runs in quiet -/

/-- The store changed under other keys than those of the member's announces. -/
private theorem Guards.of_keys (hg : v.Guards c) {tree : Tree}
    (ht : ∀ {key y}, key ∈ v.keys →
      Lasts (Layout.ofRoot c.store.root).directory v.tree v.now key y →
      Lasts (Layout.ofRoot c.store.root).directory tree v.now key y) :
    Guards c { v with tree } where
  confirming hw := by
    refine ht ?_ (hg.confirming hw)
    obtain ⟨r, hr, -, ha⟩ := hw
    refine List.mem_append_right _ (List.mem_filterMap.mpr ⟨r, hr, ?_⟩)
    rw [confirmed?, ha]
  renewing hs := by
    refine (hg.renewing hs).imp fun _ => ht ?_
    have hs : v.session.renewal = _ := hs
    refine List.mem_append_left _ (List.mem_append_right _ ?_)
    rw [renewed?, hs]
    exact List.mem_singleton_self _
  apart := hg.apart
  accepted := by
    intro a ha hor
    obtain ⟨y, hl, hrest⟩ := hg.accepted ha hor
    refine ⟨y, ht ?_ hl, hrest⟩
    have ha : v.member.known.accepted = some a := ha
    refine List.mem_append_left _ (List.mem_append_left _ ?_)
    rw [ha]
    exact List.mem_singleton_self _

/-- Who waits for an answer is not idle. -/
private theorem not_waits_of_idle {instant : Nat} (h : v.Lasting c)
    (hidle : v.parts.all (v.isIdle instant) = true) {g : Nat} {asked : Asked} :
    ¬v.control.Waits g (.answer asked) := by
  intro hw
  have hact := h.regular.orderly.activity_of_waits hw
  obtain ⟨r, hr, rfl, -⟩ := id hw
  have hg := List.all_eq_true.mp hidle (.runner r.generation)
    (List.mem_append_right _ (List.mem_map.mpr ⟨r, hr, rfl⟩))
  obtain ⟨r', hr', ha'⟩ := Option.map_eq_some_iff.mp hact
  have hended : v.session.hasEnded (.runner r.generation) = false := by
    show (v.control.runner? r.generation).all _ = false
    rw [hr', Option.all_some, ha']
    rfl
  have hresting : v.isResting (.runner r.generation) = false := by
    simp only [isResting, hact]
  simp [isIdle, Attendance.hasBegun, hended, hresting] at hg

private theorem renewal_of_idle {instant : Nat} (hidle : v.parts.all (v.isIdle instant) = true) :
    v.session.renewal = .unstarted ∨ v.session.renewal = .ended ∨
      v.session.renewal = .resting ∧ instant ≤ v.wakes .renewal := by
  have hr := List.all_eq_true.mp hidle .renewal (List.mem_append_left _ (by decide))
  cases hs : v.session.renewal with
  | unstarted => exact .inl rfl
  | ended => exact .inr (.inl rfl)
  | _ => simp_all [isIdle, Attendance.hasBegun, Session.hasEnded, isResting]

/-- Time passes for parts that are idle. -/
private theorem Guards.elapse (hg : v.Guards c) (h : v.Lasting c) {d : Duration}
    (hidle : v.parts.all (v.isIdle (v.now + d)) = true) : Guards c { v with now := v.now + d } := by
  have hasks : ∀ {stage}, v.session.renewal ≠ .asking stage := by
    intro stage hs
    rcases renewal_of_idle hidle with hr | hr | ⟨hr, -⟩ <;> cases hs.symm.trans hr
  exact {
    confirming := fun hw => absurd hw (not_waits_of_idle h hidle)
    renewing := fun hs => absurd hs hasks
    apart := fun hw => absurd hw (not_waits_of_idle h hidle)
    accepted := by
      intro a ha hor
      obtain ⟨y, hl, hrest, -⟩ := hg.accepted ha hor
      have hrun : v.control.state = .running := hor.resolve_right fun ⟨_, hs⟩ => hasks hs
      have hstarted := h.regular.orderly.begun hrun
      rcases renewal_of_idle hidle with hr | hr | ⟨hr, hwake⟩
      · exact nomatch (h.inTurn.unstarted.mp hr).symm.trans hstarted
      · exact nomatch (h.inTurn.stopping (h.inTurn.ended hr)).symm.trans hrun
      · have hlt := Nat.lt_of_le_of_lt hwake (hrest hr)
        exact ⟨y, hl.later hlt, hrest, fun hs => absurd hs hasks⟩ }

/-- An act lets the loop of renewal stand where it stood, or makes it ready. -/
private theorem renewal_act {x : Attendance.Act} (hx : ∀ p, x ≠ .proceed p) (a : Attendance) :
    (a.act x).session.renewal = a.session.renewal ∨ (a.act x).session.renewal = .poised := by
  have hpasses := a.passes_move (.act x)
  rw [Attendance.move] at hpasses
  generalize a.act x = a' at hpasses ⊢
  cases hpasses with
  | starts _ _ => exact .inr rfl
  | goes hp _ _ => exact absurd (Attendance.Move.part?_act.mp hp).1 (hx _)
  | leaves _ _ _ =>
    obtain ⟨_, hw⟩ := a.session.withdraw_eq
    rw [hw]
    exact .inl rfl
  | _ => exact .inl rfl

/-- What is said of the store and of the loop of renewal in quiet. -/
private structure Goes (c : Config) (v : Vigil) : Prop where
  failures : v.tree.failures = []
  resting : v.session.renewal = .resting → v.wakes .renewal < v.now + c.lifetime
  guards : ¬v.attendance.HasLeft → v.Guards c

private theorem Lasting.goes (h : v.Lasting c) : v.Goes c := ⟨h.failures, h.resting, h.guards⟩

/-- The loop of renewal stands where it stood. -/
private theorem Lasting.goes_beside (h : v.Lasting c) {x : Attendance.Move} {tree : Tree}
    (hserves : v.Serves c x tree) {wakes : Part → Nat}
    (hloop : (v.attendance.move x).session.renewal = v.session.renewal)
    (hwakes : wakes .renewal = v.wakes .renewal) (hf : tree.failures = []) :
    Goes c { now := v.now, tree, attendance := v.attendance.move x, wakes } where
  failures := hf
  resting hs := Nat.lt_of_le_of_lt (Nat.le_of_eq hwakes) (h.resting (hloop.symm.trans hs))
  guards hn := (h.guards fun hl => hn (hl.move h.inTurn x)).beside h hserves
    (fun hs => hloop.symm.trans hs) (fun hs => ⟨hloop.symm.trans hs, hwakes⟩)

/-- The loop of renewal neither asks nor rests. -/
private theorem Lasting.goes_off (h : v.Lasting c) {x : Attendance.Act} {wakes : Part → Nat}
    {loop : Loop Renewal.Stage} (hloop : (v.attendance.move (.act x)).session.renewal = loop)
    (hasks : ∀ {stage}, loop ≠ .asking stage) (hrests : loop ≠ .resting) :
    Goes c { v with attendance := v.attendance.move (.act x), wakes } where
  failures := h.failures
  resting hs := absurd (hloop.symm.trans hs) hrests
  guards hn := (h.guards fun hl => hn (hl.move h.inTurn _)).beside h (serves_act c v x)
    (fun hs => absurd (hloop.symm.trans hs) hasks) (fun hs => absurd (hloop.symm.trans hs) hrests)

private theorem Lasting.goes_act (h : v.Lasting c) {x : Attendance.Act} (hx : ∀ p, x ≠ .proceed p) :
    Goes c { v with attendance := v.attendance.move (.act x) } := by
  rcases renewal_act hx v.attendance with hloop | hloop
  · exact h.goes_beside (serves_act c v x) hloop rfl h.failures
  · exact h.goes_off hloop (by simp) (by simp)

/-- The loop of renewal rests for a pause of the member. -/
private theorem wakes_afterRenewal {x : Member × Turn Renewal.Stage Duration}
    (hx : Renewal.Outlives v.member x) (hp : x.1.renewal.policy = c.backOff.announcerBackOff.policy)
    (hs : (v.session.afterRenewal x).1.renewal = .resting) :
    v.wakesAfter .renewal (v.session.afterRenewal x).2 .renewal < v.now + c.lifetime := by
  obtain ⟨m, stage | d⟩ := x
  · cases hs
  · have hrest := v.wakesAfter_rest .renewal d
    refine Nat.lt_of_le_of_lt (Nat.le_of_eq hrest) (wakeTime_lt_lifetime c v.now ?_)
    rw [hx.pause rfl]
    exact current_le_longest m.renewal hp

private theorem Lasting.goes_proceed (h : v.Lasting c) (p : Part) :
    Goes c { v with
      attendance := v.attendance.move (.act (.proceed p))
      wakes := v.wakesAfter p (v.session.proceed p).2.1 } := by
  have hmove : (v.attendance.move (.act (.proceed p))).session =
      if Attendance.hasBegun v.session p then (v.session.proceed p).1 else v.session := by
    rw [Attendance.move, Attendance.act]
    exact apply_ite Attendance.session _ _ _
  by_cases hp : p = .renewal
  · subst hp
    by_cases hbegun : Attendance.hasBegun v.session .renewal = true
    · rw [if_pos hbegun] at hmove
      rcases v.session.proceed_renewal with ⟨-, he, ht⟩ | ⟨-, he, -⟩ | ⟨-, -, he, ht⟩
      · have hloop : (v.attendance.move (.act (.proceed .renewal))).session.renewal =
            v.session.renewal := by rw [hmove, he]
        refine h.goes_beside (serves_act c v _) hloop ?_ h.failures
        cases hturn : (v.session.proceed .renewal).2.1 with
        | rest d => exact absurd hturn (ht d)
        | _ => rfl
      · have hloop : (v.attendance.move (.act (.proceed .renewal))).session.renewal = .ended := by
          rw [hmove, he]
        exact h.goes_off hloop (by simp) (by simp)
      · rw [he] at hmove
        refine ⟨h.failures, fun hs => ?_, fun hn => ?_⟩
        · rw [ht]
          refine wakes_afterRenewal (Renewal.outlives_begin v.member) ?_
            ((congrArg Session.renewal hmove).symm.trans hs)
          exact (Renewal.alike_begin v.member).policy.trans h.policy
        · exact (h.guards fun hl => hn (hl.move h.inTurn _)).beginRenewal h hmove
    · rw [if_neg hbegun] at hmove
      have hloop : (v.attendance.move (.act (.proceed .renewal))).session.renewal = .unstarted := by
        rw [hmove]
        simpa [Attendance.hasBegun] using hbegun
      exact h.goes_off hloop (by simp) (by simp)
  · refine h.goes_beside (serves_act c v _) ?_ (v.wakesAfter_of_ne (Ne.symm hp) _) h.failures
    rw [hmove]
    split
    · exact ((v.session.goes_proceed p).besides hp).loop
    · rfl

private theorem Lasting.goes_call (h : v.Lasting c) {p : Part} {r : Request}
    (hr : v.attendance.request? (.part p) = some r) :
    Goes c { v with
      tree := (v.tree.run v.now r).1
      attendance := v.attendance.move (.receive (.part p) (v.tree.run v.now r).2)
      wakes := v.wakesAfter p (v.session.receive p (v.tree.run v.now r).2).2 } := by
  have hr : v.session.request? p = some r := hr
  have hf := Tree.failures_run h.failures v.now r
  have hlayout := layout_eq h
  by_cases hp : p = .renewal
  · subst hp
    obtain ⟨stage, hs, rfl⟩ : ∃ stage, v.session.renewal = .asking stage ∧
        Renewal.request v.member stage = r := by
      simp only [Session.request?] at hr
      split at hr
      · next stage hs => exact ⟨stage, hs, Option.some.inj hr⟩
      · cases hr
    refine ⟨hf, fun hrest => ?_, fun hn => ?_⟩
    · have hreceive := Session.receive_renewal hs
        (v.tree.run v.now (Renewal.request v.member stage)).2
      rw [hreceive]
      refine wakes_afterRenewal (Renewal.outlives_answered v.member stage _) ?_
        ((congrArg (fun x => x.1.renewal) hreceive).symm.trans hrest)
      exact (Renewal.alike_answered v.member stage _).policy.trans h.policy
    · exact (h.guards fun hl => hn (hl.move h.inTurn _)).renewalAnswered h hs _
  · have hasks := Session.asks_of_request? hr
    refine h.goes_beside ⟨fun hl => hl.run ?_, ?_⟩ ((v.session.goes_receive p _).besides hp).loop
      (v.wakesAfter_of_ne (Ne.symm hp) _) hf
    · rw [← hlayout] at hl
      exact Lasts.not_touches_of_asks hasks hp hl
    · intro g d b answer hx hw hb
      cases hx
      have hrequest : r = (Registry.announce v.member.layout d v.member.maxTtl).request :=
        Option.some.inj (hr.symm.trans (Session.request?_runner h.regular.orderly hw))
      rw [hrequest, hlayout, h.maxTtl] at hb ⊢
      exact Lasts.announce (Nat.le_max_left 1 _) hb

private theorem Lasting.goes_farewell (h : v.Lasting c) {r : Request}
    (hr : v.attendance.request? .farewell = some r) :
    Goes c { v with
      tree := (v.tree.run v.now r).1
      attendance := v.attendance.move (.receive .farewell (v.tree.run v.now r).2) } := by
  have hleft : v.attendance.HasLeft := by
    simp only [Attendance.request?] at hr
    split at hr
    · next key hf => exact .inr ⟨key, hf⟩
    · cases hr
  refine ⟨Tree.failures_run h.failures v.now r, fun hs => h.resting ?_,
    fun hn => absurd (hleft.move h.inTurn _) hn⟩
  rw [← hs, Attendance.move, Attendance.receive]
  split
  · obtain ⟨_, hw⟩ := Session.withdraw_eq { v.attendance.session with
      member := (v.attendance.session.member.accept (Registry.withdraw _)
        (v.tree.run v.now r).2).1 }
    simp only
    rw [hw]
    rfl
  · rfl

private theorem Lasting.goes_elapse (h : v.Lasting c) {d : Duration}
    (hq : v.isQuiet (.elapse d) = true) : Goes c { v with now := v.now + d } where
  failures := h.failures
  resting hs := by
    have hlt := h.resting hs
    show v.wakes .renewal < v.now + d + c.lifetime
    omega
  guards hn := (h.guards hn).elapse h hq

private theorem Lasting.goes_pin (h : v.Lasting c) {key : String} {ttl : Int}
    (hq : v.isQuiet (.pin key ttl) = true) :
    Goes c { v with tree := (v.tree.pinTtl key ttl).1 } where
  failures := h.failures
  resting := h.resting
  guards hn := by
    refine (h.guards hn).of_keys fun {k _} hk hl => hl.of_live?_eq (Nat.le_refl _) ?_
    have hne : k ≠ key := by
      rintro rfl
      simp [isQuiet, hk] at hq
    rw [Tree.live?, Tree.pinTtl, Dict.find?_modify, if_neg hne, ← Tree.live?]

private theorem Lasting.goes_other (h : v.Lasting c) {r : Request}
    (hq : v.isQuiet (.other r) = true) : Goes c { v with tree := (v.tree.run v.now r).1 } where
  failures := Tree.failures_run h.failures v.now r
  resting := h.resting
  guards hn := by
    refine (h.guards hn).of_keys fun {k _} hk hl => hl.of_live?_eq (v.tree.index_le_run v.now r) ?_
    simpa using List.all_eq_true.mp hq k hk

theorem lasting_ofConfig (c : Config) (naming : Option Naming) :
    (ofConfig c naming).Lasting c := by
  obtain ⟨contributors, he⟩ := Member.ofConfig_eq c naming
  have hnone : ∀ {g : Nat} {w : Wait}, ¬(ofConfig c naming).control.Waits g w :=
    Member.not_waits_ofConfig
  exact {
    regular := regular_ofConfig c naming
    failures := rfl
    maxTtl := congrArg Member.maxTtl he
    policy := congrArg (fun m : Member => m.renewal.policy) he
    inTurn := Attendance.inTurn_ofConfig c naming
    single := Attendance.single_ofConfig c naming
    resting := nofun
    guards := fun _ => {
      confirming := fun hw => absurd hw hnone
      renewing := nofun
      apart := fun hw => absurd hw hnone
      accepted := by
        rintro a - (hr | ⟨_, hs⟩)
        · have hr : (Member.ofConfig c naming).control.state = .running := hr
          rw [Member.control_ofConfig] at hr
          cases hr
        · cases hs } }

theorem Lasting.step (h : v.Lasting c) {x : Action} (hq : v.isQuiet x = true) :
    (v.step x).Lasting c := by
  obtain ⟨b, halike, -⟩ := v.alike_step x
  have hk := h.regular.keeps
  have hrest : (v.step x).Goes c ∧ (v.step x).attendance.InTurn ∧ (v.step x).attendance.Single := by
    have hs := v.steps_step x
    generalize v.step x = v' at hs ⊢
    cases hs with
    | idle => exact ⟨h.goes, h.inTurn, h.single⟩
    | @act y hx => exact ⟨h.goes_act hx, h.inTurn.move hk (.act y), h.single.move hk (.act y)⟩
    | @proceed p _ =>
      let y := Attendance.Move.act (.proceed p)
      exact ⟨h.goes_proceed p, h.inTurn.move hk y, h.single.move hk y⟩
    | @call p r hr =>
      let y := Attendance.Move.receive (.part p) (v.tree.run v.now r).2
      exact ⟨h.goes_call hr, h.inTurn.move hk y, h.single.move hk y⟩
    | @farewell r hr =>
      let y := Attendance.Move.receive .farewell (v.tree.run v.now r).2
      exact ⟨h.goes_farewell hr, h.inTurn.move hk y, h.single.move hk y⟩
    | elapse d => exact ⟨h.goes_elapse hq, h.inTurn, h.single⟩
    | fail f => cases hq
    | pin key ttl => exact ⟨h.goes_pin hq, h.inTurn, h.single⟩
    | other r => exact ⟨h.goes_other hq, h.inTurn, h.single⟩
  obtain ⟨hg, hturn, hsingle⟩ := hrest
  exact {
    regular := h.regular.step x
    failures := hg.failures
    maxTtl := halike.maxTtl.trans h.maxTtl
    policy := halike.policy.trans h.policy
    inTurn := hturn
    single := hsingle
    resting := hg.resting
    guards := hg.guards }

/-- In quiet every vigil guards its announces. -/
theorem Lasting.quietRun (h : v.Lasting c) (actions : List Action) :
    (v.quietRun actions).Lasting c := by
  induction actions generalizing v with
  | nil => exact h
  | cons x actions ih =>
    refine ih ?_
    rw [quietStep]
    split
    · next hq => exact h.step hq
    · exact h

/-- In every run in quiet, for every configuration: while a member runs, it holds an announce that
is live in the store, and the store answers every renewal that is asked for. -/
theorem quietRun_keeps_announce (c : Config) (naming : Option Naming) (actions : List Action) :
    let v := (ofConfig c naming).quietRun actions
    (v.control.state = .running →
      ∃ a e, v.member.known.accepted = some a ∧ v.tree.live? v.now a.key = some e) ∧
    ∀ key d ttl, v.session.renewal = .asking (.renewing key d ttl) →
      ∃ response, (v.tree.run v.now (Registry.renew key d ttl).request).2 = .ok response := by
  intro v
  have h : v.Lasting c := (lasting_ofConfig c naming).quietRun actions
  constructor
  · intro hr
    have hstaying : ¬v.attendance.HasLeft := fun hl => by
      cases (h.inTurn.stopping (h.inTurn.leaving hl.ne_staying)).symm.trans hr
    obtain ⟨a, ha⟩ := Option.isSome_iff_exists.mp (h.regular.keeps.member.running hr)
    obtain ⟨x, hl, -⟩ := (h.guards hstaying).accepted ha (.inl hr)
    obtain ⟨e, he, -⟩ := hl.live
    exact ⟨a, e, ha, he⟩
  · intro key d ttl hs
    have hstaying : ¬v.attendance.HasLeft := fun hl => by
      refine h.inTurn.left hl ?_
      have hs : v.attendance.session.renewal = _ := hs
      rw [Session.Renews, hs]
      exact ⟨by simp, by simp⟩
    obtain ⟨x, hl⟩ := (h.guards hstaying).renewing hs
    obtain rfl := h.inTurn.outliving hs
    exact (hl.renew h.failures d (Nat.le_max_left 1 _)).1

/-- A member that renews its announce every five seconds. -/
def punctual : Config :=
  { self := { id := "a" }, store := { root := "/d" }, cluster := { id := some "c" }
    backOff := { announcer := "5000", remoteUpdater := "60000", localUpdater := "60000" } }

/-- The member runs, and its loops are at rest. -/
def guarded : Vigil :=
  let runner := Part.runner 1
  (ofConfig punctual none).quietRun [.act .start, .act (.proceed .display),
    .act (.proceed .renewal), .act (.proceed .survey), .act (.proceed runner),
    .act (.proceed runner), .call (.part runner), .call (.part runner), .call (.part runner),
    .act (.proceed runner)]

/-- Someone else writes the announce once more and puts it down for a second. -/
def rewritten : Vigil :=
  let data : Payload :=
    { instanceId := "a", serverInfo := "", clusterId := "c", propertiesIndex := 0 }
  guarded.step (.other
    (.put "/d/announces/00000000000000000001" (some data.encode) { ttl := some 1 }))

/-- Whoever writes the announce once more can make it expire, although nobody deletes or pins it, no
request fails or takes time, and whoever rests goes on when the rest is over: the member goes on to
run without it, until the next renewal is refused because the key is not there. -/
theorem announce_of_rewritten :
    let key := "/d/announces/00000000000000000001"
    let gone := rewritten.quietStep (.elapse (Duration.ofSeconds 1))
    let late := gone.quietRun [.elapse (Duration.ofSeconds 4), .act (.proceed .renewal),
      .call (.part .renewal)]
    guarded.control.state = .running ∧
    guarded.member.known.accepted.map Announce.key = some key ∧
    (guarded.tree.live? guarded.now key).isSome = true ∧
    gone.now = rewritten.now + Duration.ofSeconds 1 ∧
    gone.control.state = .running ∧
    gone.member.known.accepted.map Announce.key = some key ∧
    gone.tree.live? gone.now key = none ∧
    late.renewed? = some key ∧
    (late.step (.call (.part .renewal))).control.state = .announce := by
  decide +kernel

end Vigil

end Rollcall
