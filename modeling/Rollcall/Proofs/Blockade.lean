import Mathlib.Data.List.TakeWhile
import Rollcall.Proofs.Vigil

/-!
# Announces that are in the way

A member that finds an older announce of its instance waits until that one has expired. How long it
waits it remembers from the last announce that was in the way, and a renewal that is refused makes
it wait without a look at the store. So the wait outlasts the oldest announce of its instance if it
was found on the way in, and otherwise if the announce found before lived as long.
-/

namespace Rollcall

open Store
open Registry (Layout)

/-! ## What stands in the store -/

/-- An announce of an instance that is live in the store, directly below the directory of the
announces, with its entry. -/
structure Stands (l : Layout) (t : Tree) (now : Nat) (id : String) (a : Announce) (e : Entry) :
    Prop where
  live : t.live? now a.key = some e
  direct : Path.toward? l.directory a.key = some a.key
  leaf : e.dir = false
  reads : Announce.ofNode (Tree.leafNode now a.key e) = .ok a
  instanceId : a.instanceId = id

/-- The announce of an instance that stands before all others of the instance. -/
structure Foremost (l : Layout) (t : Tree) (now : Nat) (id : String) (a : Announce) (e : Entry) :
    Prop extends Stands l t now id a e where
  first : ∀ b f, Stands l t now id b f → a.precedes b

variable {l : Layout} {t : Tree} {now : Nat} {id : String}

/-- Only a leaf has a node with a value. -/
private theorem leaf_of_value {levels : Nat} {key text : String}
    (h : (t.node now levels key).value = some text) :
    ∃ e, t.entries.find? key = some e ∧ e.dir = false ∧
      t.node now levels key = Tree.leafNode now key e := by
  cases hf : (t.entries.find? key).filter fun e => !e.dir with
  | some e =>
    obtain ⟨he, hd⟩ := Option.filter_eq_some_iff.mp hf
    have hd : e.dir = false := by simpa using hd
    exact ⟨e, he, hd, t.node_of_leaf now levels he hd⟩
  | none =>
    rw [Store.Tree.node.eq_def, hf] at h
    simp only at h
    split at h <;> cases h

/-- A store that shows announces shows the keys directly below their directory, and drops what is
overdue besides. -/
private theorem nodes_announces {nodes : List Store.Node}
    (h : (Registry.announces l).outcome (t.run now (Registry.announces l).request).2 = .ok nodes)
    (hne : nodes ≠ []) :
    (t.run now (Registry.announces l).request).1 = t.purge now ∧
      ∃ levels,
        nodes = ((t.purge now).children l.directory).map ((t.purge now).node now levels) := by
  obtain ⟨f, rest, _, hr⟩ | ⟨refusal, _, _, hr⟩ | ⟨t', response, _, hp, hr⟩ :=
    t.run_cases now (Registry.announces l).request
  · rw [hr] at h
    rcases Registry.outcome_announces h with ⟨_, h', _⟩ | ⟨_, _, _, rfl⟩
    · cases h'
    · exact absurd rfl hne
  · rw [hr] at h
    rcases Registry.outcome_announces h with ⟨_, h', _⟩ | ⟨_, _, _, rfl⟩
    · cases h'
    · exact absurd rfl hne
  · rw [hr] at h ⊢
    rcases Registry.outcome_announces h with ⟨_, h', rfl⟩ | ⟨_, h', _⟩
    · cases h'
      obtain ⟨rfl, _, hnode⟩ := Tree.get_eq_ok hp
      have hchildren : response.children =
          ((t.purge now).node now ((t.purge now).height) l.directory).nodes := by
        rw [Store.Response.children, hnode]
        rfl
      refine ⟨rfl, ?_⟩
      by_cases hd : ∀ e, (t.purge now).entries.find? l.directory = some e → e.dir = true
      · obtain ⟨levels, hl⟩ : ∃ levels, (t.purge now).height = levels + 1 := ⟨_, rfl⟩
        rw [hl, Tree.nodes_of_dir _ _ _ hd] at hchildren
        exact ⟨levels, hchildren⟩
      · have hex : ∃ e, (t.purge now).entries.find? l.directory = some e ∧ e.dir = false := by
          simpa using hd
        obtain ⟨e, he, hf⟩ := hex
        rw [Tree.nodes_of_leaf _ _ _ he hf] at hchildren
        exact absurd hchildren hne
    · cases h'

/-- What is read from the nodes below the directory stands there. -/
private theorem stands_of_read {levels : Nat} {n : Store.Node}
    (hn : n ∈ ((t.purge now).children l.directory).map ((t.purge now).node now levels))
    {b : Announce} (hb : Announce.ofNode n = .ok b) :
    ∃ f, Stands l (t.purge now) now b.instanceId b f := by
  obtain ⟨k, hk, rfl⟩ := List.mem_map.mp hn
  obtain ⟨text, hv, -, hkey, -⟩ := Announce.ofNode_eq_ok hb
  obtain ⟨f, hkf, hd, hleaf⟩ := leaf_of_value hv
  rw [hleaf] at hb hkey
  have hkey : b.key = k := hkey
  obtain ⟨_, _, _, htoward⟩ := Tree.mem_children_iff.mp hk
  refine ⟨f, ?_, ?_, hd, ?_, rfl⟩
  · rw [Tree.live?_purge, ← Tree.find?_purge, hkey, hkf]
  · rw [hkey]
    exact Path.toward?_self htoward
  · rw [hkey]
    exact hb

/-- What stands below the directory is in the nodes there. -/
private theorem Stands.mem_nodes {a : Announce} {e : Entry}
    (h : Stands l (t.purge now) now id a e) (levels : Nat) :
    Tree.leafNode now a.key e ∈
      ((t.purge now).children l.directory).map ((t.purge now).node now levels) := by
  have hlive : (t.purge now).entries.find? a.key = some e := by
    rw [Tree.find?_purge, ← Tree.live?_purge]
    exact h.live
  exact List.mem_map.mpr ⟨a.key, Tree.mem_children_iff.mpr ⟨a.key, e, hlive, h.direct⟩,
    Tree.node_of_leaf _ _ _ hlive h.leaf⟩

/-- Under one key stands one announce. -/
theorem Stands.eq_of_key {id' : String} {a b : Announce} {e f : Entry}
    (ha : Stands l t now id a e) (hb : Stands l t now id' b f) (hk : b.key = a.key) : b = a := by
  have hf := hb.live
  rw [hk, ha.live] at hf
  have hreads := hb.reads
  rw [hk, ← Option.some.inj hf, ha.reads] at hreads
  exact (Except.ok.inj hreads).symm

/-- Whoever lists the announces and finds one of an instance finds the foremost one. -/
theorem get?_of_foremost {found : Listing} {a b : Announce} {e : Entry}
    (hf : Step.listed ((Registry.announces l).outcome
      (t.run now (Registry.announces l).request).2) = .ok found)
    (hb : found.get? id = some b)
    (ha : Foremost l (t.run now (Registry.announces l).request).1 now id a e) : b = a := by
  obtain ⟨nodes, hok, hof⟩ := Step.listed_eq_ok hf
  obtain ⟨read, hread, rfl⟩ := Listing.ofNodes_eq_ok hof
  obtain ⟨hmem, hid⟩ := Listing.mem_of_get? hb
  obtain ⟨n, hn, hnb⟩ := (Listing.mem_readNodes hread).1 b
    (List.mem_filter.mp (Listing.mem_of_mem_ofList hmem)).1
  obtain ⟨ht, levels, rfl⟩ := nodes_announces hok (List.ne_nil_of_mem hn)
  rw [ht] at ha
  obtain ⟨f, hstands⟩ := stands_of_read hn hnb
  have hab : a.precedes b := ha.first b f (hid ▸ hstands)
  have hba : b.precedes a := by
    obtain ⟨text, hv, -⟩ := Announce.ofNode_eq_ok ha.reads
    obtain ⟨c, hc, hca⟩ :=
      (Listing.mem_readNodes hread).2 _ (ha.mem_nodes levels) rfl (by rw [hv]; rfl)
    rw [ha.reads] at hca
    cases hca
    exact Listing.precedes_of_get?_ofList hb (List.mem_filter.mpr ⟨hc, by simp⟩) ha.instanceId
  exact ha.toStands.eq_of_key hstands (Announce.eq_of_precedes hba hab).1

/-! ## The way in -/

theorem State.next_eq_clearAnnounce {s : State} {e : Event} (h : s.next e = .clearAnnounce) :
    s = .clearAnnounce ∨ s = .running ∨ s = .announce ∧ e = .announceDuplicated := by
  revert h
  cases s <;> cases e <;> decide

namespace Vigil

open Attendance (Keeps)

variable {c : Config} {v : Vigil} {x : Action}

/-- No runner hands in, without an answer, that an announce is in the way. -/
private theorem not_raises_act {T : Terms} {a : Attendance} (h : Keeps T a) (y : Attendance.Act) :
    ¬a.Raises (.act y) .announceDuplicated := by
  intro hr
  cases hr with
  | begun he => exact (Step.over_begin he).2 rfl
  | rested hw =>
    obtain ⟨r, hr, -, ha⟩ := hw
    have hb := h.member.waits r hr _ ha
    rcases hb with hb | hb | hb <;> cases hb

/-- A member comes to wait for an announce to go while it runs, or when it announces and is told by
an answer that one is in the way. -/
private theorem entered (h : v.Regular c) (hs : v.control.state ≠ .clearAnnounce)
    (he : (v.step x).control.state = .clearAnnounce) :
    v.control.state = .running ∨ v.control.state = .announce ∧ ∃ g asked,
      x = .call (.part (.runner g)) ∧ v.control.Waits g (.answer asked) ∧
      (Step.answered v.member asked
        (v.tree.run v.now (Step.request v.member asked)).2).2 =
          .over (some .announceDuplicated) := by
  have hmoved : ∀ y : Attendance.Move,
      (v.attendance.move y).session.member.control.state = .clearAnnounce →
      v.control.state = .running ∨
        v.control.state = .announce ∧ v.attendance.Raises y .announceDuplicated := by
    intro y hy
    rcases (Attendance.moved_move h.keeps y).state with heq | ⟨e, hr, hnext, -⟩
    · exact absurd (heq.symm.trans hy) hs
    · rcases State.next_eq_clearAnnounce (hnext.symm.trans hy) with hc | hrun | ⟨hann, rfl⟩
      · exact absurd hc hs
      · exact .inl hrun
      · exact .inr ⟨hann, hr⟩
  have hstep := v.steps_step x
  generalize v.step x = v' at hstep he
  cases hstep with
  | act _ => exact (hmoved _ he).imp_right fun hr => absurd hr.2 (not_raises_act h.keeps _)
  | proceed _ => exact (hmoved _ he).imp_right fun hr => absurd hr.2 (not_raises_act h.keeps _)
  | farewell _ =>
    refine (hmoved _ he).imp_right fun hr => ?_
    cases hr.2
  | call hreq =>
    refine (hmoved _ he).imp_right fun hr => ⟨hr.1, ?_⟩
    have hraised := hr.2
    cases hraised with
    | failed hrun _ => cases hr.1.symm.trans hrun
    | answered hw hover =>
      rename_i g asked
      refine ⟨g, asked, rfl, hw, ?_⟩
      have hrequest : v.attendance.request? (.part (.runner g)) =
          some (Step.request v.member asked) := Session.request?_runner h.orderly hw
      cases hrequest.symm.trans hreq
      exact hover
  | _ => exact absurd he hs

/-- The seconds that are shown for an entry, with a little more, outlast it. -/
private theorem le_wait_of_shown {x now b : Nat} (hx : x ≤ now + Duration.longestWait)
    (hb : (b : Int) = min 9223372036854775807 ((Duration.seconds (x - now)).ceil : Int)) :
    x ≤ now + Duration.capped (Duration.ofMillis (min (b * 1150) (Text.Decimal.word64 - 1))) := by
  have hceil := Duration.le_ofMillis_ceil_seconds (x - now)
  generalize (Duration.seconds (x - now)).ceil = n at hb hceil
  simp only [Duration.capped, Duration.longestWait, Duration.ofMillis, Duration.ofSeconds,
    Duration.nanosPerMilli, Duration.nanosPerSecond, Text.Decimal.word64] at *
  omega

/-- The wait for a whole time to live outlasts it. -/
private theorem le_wait_of_maxTtl {x now ttl : Nat}
    (hx : x ≤ now + min (Duration.ofSeconds ttl) Duration.longestWait) :
    x ≤ now + Duration.capped (Duration.ofMillis (min (ttl * 1150) (Text.Decimal.word64 - 1))) := by
  have hlong : Duration.longestWait ≤ Duration.ofMillis (Text.Decimal.word64 - 1) := by
    decide +kernel
  have hmore : (ttl * 1000000000 : Nat) ≤ ttl * 1150 * 1000000 := by omega
  refine le_trans hx (Nat.add_le_add_left (le_min ?_ (min_le_right _ _)) now)
  rw [Duration.ofMillis, ← Nat.mul_min_mul_right]
  exact le_min (le_trans (min_le_left _ _) hmore) (le_trans (min_le_right _ _) hlong)

/-- What an announce in the way makes the member remember, by the foremost announce. -/
private theorem le_wait_of_answered {m : Member} {asked : Asked} {t : Tree} {now : Nat}
    (hover : (Step.answered m asked (t.run now (Step.request m asked)).2).2 =
      .over (some .announceDuplicated)) {a : Announce} {e : Entry}
    (hf : Foremost m.layout (t.run now (Step.request m asked)).1 now m.self.id a e) {x : Nat}
    (hp : e.pinnedTtl = none) (hx : e.expiresAt = some x)
    (hmax : x ≤ now + min (Duration.ofSeconds m.maxTtl) Duration.longestWait) :
    x ≤ now + Duration.capped
      (Step.answered m asked (t.run now (Step.request m asked)).2).1.blockingWait := by
  have hanswers := Step.answers_answered m asked (t.run now (Step.request m asked)).2
  generalize Step.answered m asked (t.run now (Step.request m asked)).2 = z at hanswers hover ⊢
  cases hanswers with
  | aside tally id hplain =>
    cases hover
    cases hplain with
    | «over» _ hd => exact absurd rfl hd
  | older tally hl ha hk => exact le_wait_of_maxTtl hmax
  | inTheWay tally hl ha =>
    obtain rfl := get?_of_foremost hl ha hf
    have hread := (Announce.ofNode_eq_ok hf.reads).choose_spec.2.2.2
    have httl : e.ttl now =
        some (min 9223372036854775807 ((Duration.seconds (x - now)).ceil : Int)) := by
      rw [Entry.ttl, hp, hx]
      rfl
    have hpos := Tree.ttl_pos hp (Tree.live?_eq_some.mp hf.live).2 httl
    refine le_wait_of_shown (le_trans hmax (by omega)) ?_
    show ((Step.ttlInTheWay m _ : Nat) : Int) = _
    rw [Step.ttlInTheWay, hread, Tree.leafNode, httl]
    simp only
    rw [if_pos hpos]
    omega
  | free => cases hover
  | created => cases hover
  | accepted => cases hover

/-- The wait that begins with the way in outlasts the foremost announce. -/
private theorem le_wait_of_entered (h : v.Regular c) (hs : v.control.state ≠ .clearAnnounce)
    (he : (v.step x).control.state = .clearAnnounce) {a : Announce} {e : Entry}
    (hf : Foremost (.ofRoot c.store.root) (v.step x).tree (v.step x).now c.self.id a e) {at' : Nat}
    (hp : e.pinnedTtl = none) (hx : e.expiresAt = some at')
    (hmax : at' ≤ (v.step x).now +
      min (Duration.ofSeconds (v.step x).member.maxTtl) Duration.longestWait)
    (hrun : v.control.state = .running →
      at' ≤ (v.step x).now + (v.step x).member.blockingWait) :
    at' ≤ (v.step x).now + Duration.capped (v.step x).member.blockingWait := by
  rcases entered h hs he with hr | ⟨-, g, asked, rfl, hw, hover⟩
  · have hwait := hrun hr
    simp only [Duration.capped]
    omega
  · have hrequest : v.attendance.request? (.part (.runner g)) =
        some (Step.request v.member asked) := Session.request?_runner h.orderly hw
    obtain ⟨control, hmember⟩ : ∃ control, (v.step (.call (.part (.runner g)))).member =
        { (Step.answered v.member asked
          (v.tree.run v.now (Step.request v.member asked)).2).1 with control } := by
      obtain ⟨control, hc⟩ := v.session.member_afterStep g (Step.answered v.member asked
        (v.tree.run v.now (Step.request v.member asked)).2)
      refine ⟨control, ?_⟩
      rw [step, hrequest, ← hc]
      exact congrArg (fun x : Session × Then => x.1.member)
        (Session.receive_runner h.orderly hw _)
    have hstep : (v.step (.call (.part (.runner g)))).tree =
          (v.tree.run v.now (Step.request v.member asked)).1 ∧
        (v.step (.call (.part (.runner g)))).now = v.now := by
      rw [step, hrequest]
      exact ⟨rfl, rfl⟩
    have hmaxTtl : (v.step (.call (.part (.runner g)))).member.maxTtl = v.member.maxTtl := by
      obtain ⟨b, ha, -⟩ := Step.alike_answered v.member asked
        (v.tree.run v.now (Step.request v.member asked)).2
      rw [hmember]
      exact ha.maxTtl
    rw [hmaxTtl, hstep.2] at hmax
    rw [hstep.1, hstep.2] at hf
    have hlayout : v.member.layout = .ofRoot c.store.root := h.keeps.member.layout
    have hself : v.member.self = c.self := h.keeps.member.self
    rw [← hlayout, ← hself] at hf
    have hwait := le_wait_of_answered hover hf hp hx hmax
    rw [hstep.2, hmember]
    exact hwait

/-! ## The wait -/

/-- A member that waits since an instant for an announce to go, and does not come out of that before
a while is over. -/
structure Blocked (since : Nat) (wait : Duration) (v : Vigil) : Prop where
  state : v.control.state = .clearAnnounce
  begun : since ≤ v.now
  remembered : v.member.blockingWait = wait
  rests : ∀ {g : Nat} {d : Duration}, v.control.Waits g (.rest d (some .announceCleared)) →
    since + wait.capped ≤ v.wakes (.runner g)

/-- On the way in no runner is at rest. -/
private theorem blocked_of_entered (h : v.Regular c) (hs : v.control.state ≠ .clearAnnounce)
    (he : (v.step x).control.state = .clearAnnounce) :
    (v.step x).Blocked (v.step x).now (v.step x).member.blockingWait where
  state := he
  begun := Nat.le_refl _
  remembered := rfl
  rests hw := by
    have hquiet := h.quiet_step (x := x) (by rw [he]; exact hs.symm) (by rw [he]; decide)
    exact absurd hw hquiet.not_waits

variable {since : Nat} {wait : Duration}

/-- What is remembered stays while the member waits. -/
private theorem Blocked.blockingTtl_step (hb : v.Blocked since wait) (h : v.Regular c)
    (x : Action) :
    (v.step x).member.blockingTtl = v.member.blockingTtl := by
  obtain ⟨b, ha, rfl | ⟨g, asked, -, hstate, hw⟩⟩ := v.alike_step x
  · exact ha.blockingTtl
  · have hserves : asked.state = v.control.state :=
      h.serving (by rw [show v.session.member.control.state = _ from hb.state]; decide) hw
    rw [hb.state, hstate] at hserves
    cases hserves

/-- A runner that lies down while the member waits rests for the whole wait. -/
private theorem rest_of_enters (hs : v.control.state = .clearAnnounce) {g : Nat} {d : Duration}
    (he : v.session.Enters g (.rest d (some .announceCleared))) :
    d = v.member.blockingWait ∧ (v.session.proceed (.runner g)).2.1 = .rest d := by
  obtain ⟨-, hbegin, hturn, -⟩ := he
  rw [show v.session.member.control.state = _ from hs] at hbegin
  cases hbegin
  exact ⟨rfl, hturn⟩

private theorem Blocked.step (hb : v.Blocked since wait) (h : v.Regular c)
    (hs : (v.step x).control.state = .clearAnnounce) : (v.step x).Blocked since wait where
  state := hs
  begun := Nat.le_trans hb.begun (v.now_le_step x)
  remembered := by
    rw [← hb.remembered, Member.blockingWait, hb.blockingTtl_step h x, Member.blockingWait]
  rests := by
    intro g d hw
    have hsteps := v.steps_step x
    generalize v.step x = v' at hsteps hw ⊢
    have hold : ∀ {y : Attendance.Move},
        (v.attendance.move y).session.member.control.Waits g (.rest d (some .announceCleared)) →
        ¬v.attendance.Enters g (.rest d (some .announceCleared)) y →
        since + wait.capped ≤ v.wakes (.runner g) := fun hw hn =>
      hb.rests (((Attendance.moved_move h.keeps _).waits hw).resolve_right fun hnew =>
        hn hnew.2)
    cases hsteps with
    | act hx => exact hold hw fun hn => by cases hn with | proceed _ => exact hx _ rfl
    | farewell _ => exact hold hw nofun
    | proceed _ =>
      rename_i p _
      show since + wait.capped ≤ v.wakesAfter p (v.session.proceed p).2.1 (.runner g)
      by_cases hp : Part.runner g = p
      · subst hp
        obtain ⟨rfl, ht⟩ := rest_of_enters hb.state (Session.enters_of_rests h.orderly hw)
        have hwake := Agenda.le_wakeTime v.now v.member.blockingWait
        have hbegun := hb.begun
        rw [ht, wakesAfter_rest, ← hb.remembered]
        omega
      · rw [v.wakesAfter_of_ne hp]
        exact hold hw fun hn => by cases hn with | proceed _ => exact hp rfl
    | call hreq =>
      rename_i p r
      show since + wait.capped ≤
        v.wakesAfter p (v.session.receive p (v.tree.run v.now r).2).2 (.runner g)
      by_cases hp : Part.runner g = p
      · subst hp
        -- The runner waited for an answer, after which no such rest follows.
        rcases (Attendance.moved_move h.keeps _).waits hw with hbefore | ⟨-, hnew⟩
        · have hnone : v.session.request? (.runner g) = none := by
            have hact := h.orderly.activity_of_waits hbefore
            simp only [Session.request?]
            rw [show v.session.member.control = v.control from rfl, hact]
          cases hnone.symm.trans hreq
        · cases hnew with
          | receive hcontinues =>
            obtain ⟨asked, -, hanswered, -⟩ := hcontinues
            have hserves := Step.serves_answered hanswered rfl
            cases asked <;> cases hserves
      · rw [v.wakesAfter_of_ne hp]
        exact hold hw fun hn => by cases hn with | receive _ => exact hp rfl
    | elapse d => exact hb.rests hw
    | _ => exact hb.rests hw

private theorem Blocked.run (hb : v.Blocked since wait) (h : v.Regular c) {actions : List Action}
    (hs : ∀ first, first <+: actions → (v.run first).control.state = .clearAnnounce) :
    (v.run actions).Blocked since wait := by
  induction actions generalizing v with
  | nil => exact hb
  | cons x actions ih =>
    have hx : (v.step x).control.state = .clearAnnounce := hs [x] (by simp)
    exact ih (hb.step h hx) (h.step x) fun first hf => hs (x :: first) (by simpa using hf)

/-- In every run of a member with a store, whatever others ask of the store and whatever fails: when
the member comes to wait for an announce to go and a runner's rest in that wait is over, the
announce of its instance that stood before all others on the way in has expired, as far as it was
put down to live no longer than the member's own announces do, and no longer than anything waits. If
the member ran until then, that holds only of an announce that was to live no longer than what the
member remembered to wait for. -/
theorem run_outwaits_foremost (c : Config) (naming : Option Naming) (before after : List Action)
    (x : Action) :
    let v := (ofConfig c naming).run before
    let entered := v.step x
    v.control.state ≠ .clearAnnounce →
    (∀ first, first <+: after → (entered.run first).control.state = .clearAnnounce) →
    ∀ g d, (entered.run after).control.Waits g (.rest d (some .announceCleared)) →
      (entered.run after).wakes (.runner g) ≤ (entered.run after).now →
      ∀ a e ends, Foremost (.ofRoot c.store.root) entered.tree entered.now c.self.id a e →
        e.pinnedTtl = none → e.expiresAt = some ends →
        ends ≤ entered.now +
          min (Duration.ofSeconds entered.member.maxTtl) Duration.longestWait →
        (v.control.state = .running → ends ≤ entered.now + entered.member.blockingWait) →
        e.expired (entered.run after).now = true := by
  intro v entered hs hstays g d hw hwake a e ends hf hp hx hmax hrun
  have h : v.Regular c := (regular_ofConfig c naming).run before
  have he : entered.control.state = .clearAnnounce := hstays [] List.nil_prefix
  have hb := (blocked_of_entered h hs he).run (h.step x) hstays
  have hover := le_wait_of_entered h hs he hf hp hx hmax hrun
  have hrests := hb.rests hw
  have hle : ends ≤ (entered.run after).now :=
    Nat.le_trans hover (Nat.le_trans hrests hwake)
  simp [Entry.expired, hp, hx, hle]

/-- A member whose instance left an announce behind. -/
def returning : Config :=
  { self := { id := "a" }, store := { root := "/d" }, cluster := { id := some "c" } }

private theorem isSome_name_left :
    (keyName? "/d/announces/00000000000000000001").isSome = true := by decide

/-- The announce left behind, when it is found. -/
def left : Announce where
  key := "/d/announces/00000000000000000001"
  data := { instanceId := "a", serverInfo := "", clusterId := "c", propertiesIndex := 0 }
  ttl := some 1
  named := isSome_name_left

/-- The entry of the announce left behind: it has a second to live. -/
def leftEntry : Entry where
  value := some left.data.encode
  dir := false
  expiresAt := some (Duration.ofSeconds 1)
  pinnedTtl := none
  modifiedIndex := 1
  createdIndex := 1

/-- What happens until the member asks whether it is announced already. -/
def untilAsked : List Action :=
  [.other (.post "/d/announces" left.data.encode (some 1)), .act .start,
    .act (.proceed (.runner 1)), .act (.proceed (.runner 1))]

/-- The store answers the runner. -/
def answer : Action := .call (.part (.runner 1))

/-- A wait for an announce with a second to live. -/
def waitOf (g : Nat) : List Action :=
  [.act (.proceed (.runner g)), .elapse (Duration.ofMillis 1150)]

/-- The member that found the announce left behind. -/
def found : Vigil := ((ofConfig returning none).run untilAsked).step answer

private theorem found_left :
    ((ofConfig returning none).run untilAsked).control.state = .announce ∧
    found.tree.live? found.now left.key = some leftEntry ∧
    found.tree.entries.keys = [left.key] ∧
    found.control.state = .clearAnnounce ∧
    (found.run [.act (.proceed (.runner 1))]).control.state = .clearAnnounce ∧
    (found.run (waitOf 1)).control.state = .clearAnnounce ∧
    ((found.run (waitOf 1)).control.runner? 1).map Runner.activity =
      some (.within (.rest (Duration.ofMillis 1150) (some .announceCleared))) ∧
    (found.run (waitOf 1)).wakes (.runner 1) ≤ (found.run (waitOf 1)).now ∧
    Duration.ofSeconds 1 ≤ found.now +
      min (Duration.ofSeconds found.member.maxTtl) Duration.longestWait ∧
    Announce.ofNode (Tree.leafNode found.now left.key leftEntry) = .ok left := by
  decide +kernel

private theorem foremost_left :
    Foremost (.ofRoot returning.store.root) found.tree found.now returning.self.id left
      leftEntry := by
  obtain ⟨-, hlive, hkeys, -, -, -, -, -, -, hreads⟩ := found_left
  have hl : Stands (.ofRoot returning.store.root) found.tree found.now returning.self.id left
      leftEntry := ⟨hlive, by decide, rfl, hreads, rfl⟩
  refine ⟨hl, fun b f hb => ?_⟩
  have hk : b.key ∈ found.tree.entries.keys :=
    (Dict.mem_keys_iff _ _).mpr ⟨f, (Tree.live?_eq_some.mp hb.live).1⟩
  rw [hkeys] at hk
  rw [hl.eq_of_key hb (List.mem_singleton.mp hk)]
  decide

/-- The wait for the announce left behind outlasts it. -/
theorem wait_of_left : leftEntry.expired (found.run (waitOf 1)).now = true := by
  obtain ⟨hbefore, -, -, hentered, hresting, hrested, hact, hwake, hmax, -⟩ := found_left
  have houtwaits := run_outwaits_foremost returning none untilAsked (waitOf 1) answer
  simp only [← found.eq_def] at houtwaits
  refine houtwaits (by rw [hbefore]; decide) ?_ 1 (Duration.ofMillis 1150)
    (Control.waits_of_activity hact) hwake left leftEntry (Duration.ofSeconds 1) foremost_left rfl
    rfl hmax (fun hr => by rw [hbefore] at hr; cases hr)
  intro first hf
  rw [waitOf, List.prefix_cons_iff] at hf
  obtain rfl | ⟨rest, rfl, hrest⟩ := hf
  · exact hentered
  rw [List.prefix_cons_iff] at hrest
  obtain rfl | ⟨rest, rfl, hrest⟩ := hrest
  · exact hresting
  · rw [List.prefix_nil.mp hrest]
    exact hrested

/-- The member waited for the announce left behind. Now it runs with one of its own, and the store
is going to refuse a renewal. -/
def aboutToRefuse : Vigil :=
  (found.run (waitOf 1)).run [
    .act (.proceed (.runner 1)), .act (.proceed (.runner 1)), answer, answer, answer,
    .act (.proceed .renewal), .fail (.refused { code := 300 })]

/-- The member after its renewal was refused. -/
def refused : Vigil := aboutToRefuse.step (.call (.part .renewal))

/-- A wait after a refused renewal may be over long before the member's own announce, the only one
there is, has expired: the member waits for a second and a little more, as it did for the announce
left behind, and its own is put down for thirteen. -/
theorem wait_of_refused :
    let key := "/d/announces/00000000000000000002"
    let w := refused.run (waitOf 2)
    aboutToRefuse.control.state = .running ∧ refused.control.state = .clearAnnounce ∧
    refused.member.maxTtl = 13 ∧ refused.member.blockingTtl = 1 ∧
    refused.tree.entries.keys.filter (Store.Path.isBelow "/d/announces") = [key] ∧
    w.control.state = .clearAnnounce ∧
    (w.control.runner? 2).map Runner.activity =
      some (.within (.rest (Duration.ofMillis 1150) (some .announceCleared))) ∧
    w.wakes (.runner 2) ≤ w.now ∧
    (refused.tree.live? refused.now key).map Entry.expiresAt =
      some (some (refused.now + Duration.ofSeconds 13)) ∧
    (refused.tree.live? refused.now key).map (fun e => e.expired w.now) = some false := by
  decide +kernel

end Vigil

end Rollcall
