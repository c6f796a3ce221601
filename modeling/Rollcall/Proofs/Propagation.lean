import Rollcall.Proofs.Circle
import Rollcall.Proofs.Underway

/-!
# How properties reach the others

A member that wrote its properties renews its announce so that it names the write. A survey that
succeeds after that sees the name and has the properties, unless it had them before. So the
properties of one member are those that another one knows, as long as the first writes nothing else.
What a member knows of another is at any moment an edition no older than the announce that it knows.
-/

namespace Rollcall

open Store (Request Answer Failure Tree)
open Registry (Layout)

namespace Fleet

open Store.Path (allocated)

variable {o o' : Ledger} {f f' : Fleet} {name id key : String} {R : Archive} {p : Properties}

/-! ## What happens to one member -/

/-- What becomes of a member in a circle: nothing, a restart, what it makes of an act, or what it
makes of an answer to its request. -/
inductive Continues (f : Fleet) (name : String) (a : Attendance) (x : Action) : Attendance → Prop
  | same : Continues f name a x a
  | restart (c : Config) (naming : Option Naming) :
      Continues f name a x (.ofMember (.ofConfig c naming))
  | act (y : Attendance.Act) : Continues f name a x (a.act y)
  | receive {t : Task} {r : Request} (hx : x = .call name t) (hr : a.request? t = some r) :
      Continues f name a x (a.receive t (f.tree.run f.now r).2)

theorem Circle.continues (h : Circle R o f) {x : Action} (hx : f.IsFair x) {a : Attendance}
    (ha : f.members.find? name = some a) :
    ∃ a', (f.turn x).members.find? name = some a' ∧ Continues f name a x a' := by
  have ht := h.turned hx
  generalize f.turn x = f' at ht
  have hinsert : ∀ {name' : String} {b : Attendance}, (name = name' → Continues f name a x b) →
      ∃ a', (f.members.insert name' b).find? name = some a' ∧ Continues f name a x a' := by
    intro name' b hb
    rw [Dict.find?_insert]
    split
    · next he => exact ⟨b, rfl, hb he⟩
    · exact ⟨a, ha, .same⟩
  have hsame : ∀ {name' : String} {b : Attendance}, f.members.find? name' = some b →
      name = name' → b = a := by
    rintro name' b hb rfl
    exact Option.some.inj (hb.symm.trans ha)
  cases ht with
  | enrol naming _ _ => exact hinsert fun _ => .restart _ naming
  | act hb y =>
    refine hinsert fun he => ?_
    rw [hsame hb he]
    exact .act y
  | call hb hr _ _ =>
    refine hinsert fun he => ?_
    obtain rfl := hsame hb he
    subst he
    exact .receive rfl hr
  | publish hb hs =>
    refine hinsert fun he => ?_
    obtain rfl := hsame hb he
    subst he
    refine .receive rfl ?_
    simp only [Attendance.request?, Session.request?, hs, Renewal.request,
      (h.member ha).layout, (h.member ha).id]
  | _ => exact ⟨a, ha, .same⟩

theorem always_and {P Q : Fleet → Action → Prop} {actions : List Action}
    (hP : f.always P actions) (hQ : f.always Q actions) :
    f.always (fun f x => P f x ∧ Q f x) actions := by
  induction actions generalizing f with
  | nil => trivial
  | cons x actions ih => exact ⟨⟨hP.1, hQ.1⟩, ih hP.2 hQ.2⟩

/-- What a turn preserves between two moments at which something holds is preserved as long as that
holds, up to the last action. -/
theorem turns_of_always {P : Fleet → Action → Prop} {I : Fleet → Prop}
    (hstep : ∀ {f x y}, I f → P f x → P (f.turn x) y → I (f.turn x)) (h : I f)
    {actions : List Action} {y : Action} (hP : f.always P (actions ++ [y])) :
    I (f.turns actions) ∧ P (f.turns actions) y := by
  induction actions generalizing f with
  | nil => exact ⟨h, hP.1⟩
  | cons x actions ih =>
    refine ih (hstep h hP.1 ?_ (y := (actions ++ [y]).headD y)) hP.2
    have hnext := hP.2
    cases actions with
    | nil => exact hnext.1
    | cons z actions => exact hnext.1

/-- A round of renewal of a member, from its beginning to its last answer. -/
def tick (name : String) (during : List Action) : List Action :=
  .act name (.proceed .renewal) :: (during ++ [.call name (.part .renewal)])

/-- A survey of a member, from its beginning to its last answer. -/
def update (name : String) (meanwhile : List Action) : List Action :=
  .act name (.proceed .survey) :: (meanwhile ++ [.call name (.part .survey)])

/-- The key under which a round of renewal of a member is going to renew the announce, if it waits
for that and the store can do it. -/
def renewable? (f : Fleet) (name : String) : Option String :=
  match f.renewing name with
  | some (.renewing key d ttl) =>
    let op := Registry.renew key d ttl
    match op.outcome (f.tree.run f.now op.request).2 with
    | .ok _ => some key
    | .error _ => none
  | _ => none

/-- Whether a survey of a member is going to succeed by the store's next answer. -/
def isSucceeding (f : Fleet) (name : String) : Bool :=
  match f.members.find? name with
  | none => false
  | some a =>
    match a.session.surveying with
    | none => false
    | some stage =>
      match (Survey.answered a.session.member stage
        (f.tree.run f.now (Survey.request a.session.member stage)).2).2 with
      | .over (.ok _) => true
      | _ => false

/-- A round of renewal that reads the properties `p` and goes on until it renews the announce under
a key. -/
structure Ticks (f : Fleet) (name : String) (p : Properties) (key : String)
    (during : List Action) : Prop where
  idle : f.renewing name = none
  reads : (f.members.find? name).map (fun a => a.session.member.known.properties) = some p
  underWay : (f.turn (.act name (.proceed .renewal))).always
    (fun f _ => (f.renewing name).isSome = true) (during ++ [.call name (.part .renewal)])
  succeeds : ((f.turn (.act name (.proceed .renewal))).turns during).renewable? name = some key

instance (f : Fleet) (name : String) (p : Properties) (key : String) (during : List Action) :
    Decidable (f.Ticks name p key during) :=
  decidable_of_iff (_ ∧ _ ∧ _ ∧ _) ⟨fun h => ⟨h.1, h.2.1, h.2.2.1, h.2.2.2⟩,
    fun h => ⟨h.idle, h.reads, h.underWay, h.succeeds⟩⟩

/-- A survey that goes on until it succeeds. -/
structure Updates (f : Fleet) (name : String) (meanwhile : List Action) : Prop where
  idle : f.surveying name = none
  underWay : (f.turn (.act name (.proceed .survey))).always
    (fun f _ => (f.surveying name).isSome = true) (meanwhile ++ [.call name (.part .survey)])
  succeeds : ((f.turn (.act name (.proceed .survey))).turns meanwhile).isSucceeding name = true

instance (f : Fleet) (name : String) (meanwhile : List Action) :
    Decidable (f.Updates name meanwhile) :=
  decidable_of_iff (_ ∧ _ ∧ _) ⟨fun h => ⟨h.1, h.2.1, h.2.2⟩,
    fun h => ⟨h.idle, h.underWay, h.succeeds⟩⟩

/-- Whether a member writes its document by an action. -/
def writes (f : Fleet) (name : String) : Action → Bool
  | .call name' t =>
    name' = name && ((f.turn (.call name' t)).edition name).index ≠ (f.edition name).index
  | _ => false

/-- The announces of an instance that are live. -/
def standing (f : Fleet) (id : String) : List Announce :=
  (f.announces f.tree).toList.filterMap fun (key, e) =>
    (Announce.ofNode (Tree.leafNode f.now key e)).toOption.filter fun a => a.instanceId = id

/-- The announce under a key is live, and the lowest of its instance. -/
def IsLowest (f : Fleet) (id key : String) : Prop :=
  ∃ a ∈ f.standing id, a.key = key ∧ ∀ b ∈ f.standing id, a.name ≤ b.name

instance (f : Fleet) (id key : String) : Decidable (f.IsLowest id key) :=
  inferInstanceAs (Decidable (∃ a ∈ f.standing id, a.key = key ∧ ∀ b ∈ f.standing id, _))

/-- When a survey of a member looks at the announces, the one under a key is live, and the lowest of
its instance. -/
def Sees (f : Fleet) (name id key : String) : Action → Prop
  | .call name' (.part .survey) =>
    name' = name → f.surveying name = some .listing → f.IsLowest id key
  | _ => True

/-- A survey of a member is not told that a key is missing. -/
def IsTold (f : Fleet) (name : String) : Action → Prop
  | .call name' (.part .survey) => name' = name → f.tree.pretends = false
  | _ => True

instance (f : Fleet) (name id key : String) :
    (x : Action) → Decidable (f.Sees name id key x)
  | .call name' (.part .survey) => inferInstanceAs
      (Decidable (name' = name → f.surveying name = some .listing → f.IsLowest id key))
  | .call _ (.part .display) | .call _ (.part .renewal) | .call _ (.part (.runner _))
  | .call _ .farewell | .enrol _ _ _ | .act _ _ | .lose _ _ _ | .elapse _ | .fail _ | .other _ =>
    .isTrue trivial

instance (f : Fleet) (name : String) : (x : Action) → Decidable (f.IsTold name x)
  | .call name' (.part .survey) =>
    inferInstanceAs (Decidable (name' = name → f.tree.pretends = false))
  | .call _ (.part .display) | .call _ (.part .renewal) | .call _ (.part (.runner _))
  | .call _ .farewell | .enrol _ _ _ | .act _ _ | .lose _ _ _ | .elapse _ | .fail _ | .other _ =>
    .isTrue trivial

/-- A round of renewal of an instance, what happens after it, and a survey of another member. -/
def relay (id name : String) (during between meanwhile : List Action) : List Action :=
  tick id during ++ (between ++ update name meanwhile)

/-- The properties that a member holds for another instance. -/
def held (f : Fleet) (name id : String) : Option Properties :=
  (f.members.find? name).bind fun a => a.session.member.known.remoteProperties.find? id

/-- A round of renewal that read the properties `p` of an instance, and a survey of another member
after it. Both succeed. The instance does not write its document after the round, and the announce
that was renewed is live and the lowest of the instance when the survey looks. -/
structure Relays (f : Fleet) (id name key : String) (p : Properties)
    (during between meanwhile : List Action) : Prop where
  ne : id ≠ name
  ticks : f.Ticks id p key during
  silent : (f.turns (tick id during)).always (fun f x => f.writes id x = false)
    (between ++ update name meanwhile)
  updates : ((f.turns (tick id during)).turns between).Updates name meanwhile
  sees : ((f.turns (tick id during)).turns between).always (fun f x => f.Sees name id key x)
    (update name meanwhile)
  word : (f.turns (relay id name during between meanwhile)).tree.index < Text.Decimal.word64

instance (f : Fleet) (id name key : String) (p : Properties)
    (during between meanwhile : List Action) :
    Decidable (f.Relays id name key p during between meanwhile) :=
  decidable_of_iff (_ ∧ _ ∧ _ ∧ _ ∧ _ ∧ _)
    ⟨fun h => ⟨h.1, h.2.1, h.2.2.1, h.2.2.2.1, h.2.2.2.2.1, h.2.2.2.2.2⟩,
      fun h => ⟨h.ne, h.ticks, h.silent, h.updates, h.sees, h.word⟩⟩

/-! ## What the announce of a member says -/

/-- An announce that stands is live under its key, and read from there. -/
private theorem live_of_standing {a : Announce} (h : a ∈ f.standing id) :
    ∃ e, f.tree.live? f.now a.key = some e ∧
      Announce.ofNode (Tree.leafNode f.now a.key e) = .ok a := by
  obtain ⟨⟨key, e⟩, hmem, ha⟩ := List.mem_filterMap.mp h
  obtain ⟨ha, -⟩ := Option.filter_eq_some_iff.mp ha
  have hread : Announce.ofNode (Tree.leafNode f.now key e) = .ok a := by
    revert ha
    cases Announce.ofNode (Tree.leafNode f.now key e) with
    | error _ => exact nofun
    | ok b => exact fun hb => congrArg Except.ok (Option.some.inj hb)
  obtain ⟨_, -, -, hkey, -⟩ := Announce.ofNode_eq_ok hread
  have hkey : a.key = key := hkey
  have hfind := (Dict.mem_toList_iff _ _ _).mp hmem
  rw [announces, Dict.find?_filter, Option.filter_eq_some_iff, Tree.find?_purge] at hfind
  rw [hkey]
  exact ⟨e, hfind.1, hread⟩

/-- What is live below the directory of the announces and can be read there stands. -/
private theorem mem_standing {a : Announce} {e : Store.Entry}
    (he : f.tree.live? f.now a.key = some e)
    (hb : Store.Path.isBelow f.layout.directory a.key = true)
    (hread : Announce.ofNode (Tree.leafNode f.now a.key e) = .ok a) (hid : a.instanceId = id) :
    a ∈ f.standing id := by
  refine List.mem_filterMap.mpr ⟨(a.key, e), (Dict.mem_toList_iff _ _ _).mpr ?_, ?_⟩
  · rw [announces, Dict.find?_filter, Option.filter_eq_some_iff, Tree.find?_purge]
    exact ⟨he, hb⟩
  · simp [hread, Except.toOption, hid]

/-- When a member does not write its document, that stays as it is, and what is live under a key of
its announces was so before or names the last write. -/
theorem Circle.undisturbed (h : Circle R o f) {x : Action} (hx : f.IsFair x)
    (hw : f.writes name x = false) :
    (f.turn x).edition name = f.edition name ∧
      ∀ {n e}, n ≤ f.tree.index → (o n).instanceId = name →
        (f.turn x).tree.live? (f.turn x).now (allocated f.layout.directory n) = some e →
        f.tree.live? f.now (allocated f.layout.directory n) = some e ∨ ∃ d : Payload,
          e.value = some d.encode ∧ d.propertiesIndex = Store.signed (f.edition name).index := by
  have ht := h.turned hx
  have hindex : ∀ {t}, x = .call name t →
      ((f.turn x).edition name).index = (f.edition name).index := by
    rintro t rfl
    simpa [writes] using hw
  generalize f.turn x = f' at ht hindex
  cases ht with
  | same x => exact ⟨rfl, fun _ _ he => .inl he⟩
  | enrol naming hn hl => exact ⟨rfl, fun _ _ he => .inl he⟩
  | act ha y => exact ⟨rfl, fun _ _ he => .inl he⟩
  | @call name' a t r ha hr hreq hp =>
    refine ⟨Tree.edition_congr (hreq.live?_shelf (f.layout.isOnShelf_document name)),
      fun hn ho he => (Tree.live?_run he).imp_right fun hwritten => ?_⟩
    obtain ⟨hown, hcites⟩ := hreq.rewritten hn hwritten
    obtain rfl : name' = name := hown.symm.trans ho
    exact hcites
  | @publish name' a p ha hs =>
    have hname := (h.member ha).isName
    cases hok : (Registry.publish f.layout name' p).outcome
        (f.tree.run f.now (Registry.publish f.layout name' p).request).2 with
    | error failure =>
      obtain ⟨_, herror⟩ := Registry.error_of_publish hok
      have hlive := Tree.live?_run_of_error (t := f.tree) herror
      exact ⟨Tree.edition_congr (hlive _), fun _ _ he => .inl ((hlive _).symm.trans he)⟩
    | ok index =>
      obtain ⟨-, -, -, hnew, hold⟩ := h.toDocumented.written
        (f.answer name' a (.part .renewal) (Registry.publish f.layout name' p).request)
        hname hok rfl rfl rfl
      refine ⟨hold name ?_, fun {n _} _ _ he => .inl ?_⟩
      · rintro rfl
        have hsame := hindex rfl
        have hle := h.shelf.index_edition_le name
        rw [hnew] at hsame
        have hsame : f.tree.index + 1 = (f.edition name).index := hsame
        have hle : (f.edition name).index ≤ f.tree.index := hle
        omega
      · exact (Tree.live?_run_of_not_touches (f.layout.not_touches_publish hname
          (f.layout.allocated_ne_of_isOnShelf (f.layout.isOnShelf_document name') n) f.tree.index
            p)).symm.trans he
  | elapse d =>
    refine ⟨Tree.edition_congr (h.shelf.live?_later (Nat.le_add_right f.now d)
      (f.layout.isOnShelf_document name)), fun _ _ he => .inl ?_⟩
    exact Tree.live?_of_later (Nat.le_add_right f.now d) he
  | fail e => exact ⟨rfl, fun _ _ he => .inl he⟩
  | other ha hd =>
    exact ⟨Tree.edition_congr (live?_eq_of_documents_eq hd (f.layout.isOnShelf_document name)),
      fun _ _ he =>
        .inl ((live?_eq_of_announces_eq ha (Store.Path.isBelow_allocated _ _)).symm.trans he)⟩

/-- A circle in which the announce of an instance under a key, while it lives, names the last write
of the document, and that says the properties `p`. -/
structure Vouches (R : Archive) (o : Ledger) (f : Fleet) (id key : String) (p : Properties) :
    Prop where
  circle : Circle R o f
  created : ∃ n ≤ f.tree.index, key = allocated f.layout.directory n ∧ (o n).instanceId = id
  cites : ∀ {e : Store.Entry}, f.tree.live? f.now key = some e → ∃ d : Payload,
    e.value = some d.encode ∧ d.propertiesIndex = Store.signed (f.edition id).index
  properties : (f.edition id).properties = p

/-- The announce goes on naming the last write as long as its instance makes no other. -/
theorem Vouches.turn (h : Vouches R o f id key p) {x : Action} (hx : f.IsFair x)
    (hw : f.writes id x = false) : ∃ R' o', Vouches R' o' (f.turn x) id key p := by
  obtain ⟨o', hf, hc⟩ := h.circle.turn hx
  obtain ⟨hedition, hlive⟩ := h.circle.undisturbed hx hw
  obtain ⟨n, hn, hkey, hid⟩ := h.created
  refine ⟨_, o', hc, ⟨n, Nat.le_trans hn hf.ages.index_le, ?_, ?_⟩, fun he => ?_, ?_⟩
  · rw [hf.layout, hkey]
  · rw [hf.ledger n hn, hid]
  · rw [hedition]
    rw [hkey] at he
    rcases hlive hn hid he with hold | hnew
    · exact h.cites (by rw [hkey]; exact hold)
    · exact hnew
  · rw [hedition, h.properties]

theorem Vouches.turns (h : Vouches R o f id key p) {actions : List Action}
    (hx : f.always IsFair actions) (hw : f.always (fun f x => f.writes id x = false) actions) :
    ∃ R' o', Vouches R' o' (f.turns actions) id key p := by
  induction actions generalizing R o f with
  | nil => exact ⟨R, o, h⟩
  | cons x actions ih =>
    obtain ⟨_, _, h'⟩ := h.turn hx.1 hw.1
    exact ih h' hx.2 hw.2

/-! ## Rounds that succeed -/

theorem find?_turn_act (f : Fleet) (name : String) (x : Attendance.Act) :
    (f.turn (.act name x)).members.find? name = (f.members.find? name).map (·.act x) := by
  show (f.members.modify name fun a => a.act x).find? name = _
  rw [Dict.find?_modify, if_pos rfl]

theorem turn_call {a : Attendance} {t : Task} {r : Request}
    (hp : f.permits (.call name t) = true) (ha : f.members.find? name = some a)
    (hr : a.request? t = some r) : f.turn (.call name t) = f.answer name a t r := by
  unfold Fleet.turn
  rw [if_pos hp]
  show f.serve name t _ = _
  simp only [serve, ha, hr]
  rfl

private theorem holds_of_always {P : Fleet → Prop} {actions : List Action} {y : Action}
    (h : f.always (fun f _ => P f) (actions ++ [y])) : P f := by
  cases actions with
  | nil => exact h.1
  | cons x actions => exact h.1

private theorem ticking_turn {x : Action} (hx : f.IsFair x)
    (h : (∃ R o, Circle R o f) ∧ ∃ a, f.members.find? name = some a ∧ a.Ticking p)
    (hs : ((f.turn x).renewing name).isSome = true) :
    (∃ R o, Circle R o (f.turn x)) ∧
      ∃ a, (f.turn x).members.find? name = some a ∧ a.Ticking p := by
  obtain ⟨⟨R, o, hc⟩, a, ha, ht⟩ := h
  obtain ⟨o', -, hc'⟩ := hc.turn hx
  obtain ⟨a', ha', hgoes⟩ := hc.continues hx ha
  have hs : a'.session.renewing.isSome = true := by
    rwa [renewing, ha', Option.bind_some] at hs
  refine ⟨⟨_, o', hc'⟩, a', ha', ?_⟩
  cases hgoes with
  | same => exact ht
  | restart c naming => cases hs
  | act y => exact ht.act y hs
  | receive hx hr => exact ht.receive _ _ hs

/-- A member whose announce was renewed says in it what it wrote last. -/
private theorem Circle.renewed (h : Circle R o f) {a : Attendance}
    (ha : f.members.find? name = some a) {d : Payload} {ttl : Nat} {b : Announce}
    (hs : a.session.renewal = .asking (.renewing key d ttl)) (hp : a.session.member.sent = some p)
    (hok : (Registry.renew key d ttl).outcome
      (f.tree.run f.now (Registry.renew key d ttl).request).2 = .ok b) :
    ∃ R' o', Vouches R' o' (f.turn (.call name (.part .renewal))) name key p := by
  have hpartakes := h.member ha
  obtain ⟨self, layout, hdir, hk⟩ := h.consistent.keeps ha
  obtain ⟨n, hn, rfl, hagrees⟩ := hk.renewal _ hs
  obtain ⟨hid, hindex, -⟩ := hpartakes.publishes.renewing hs
  obtain ⟨hproperties, hedition⟩ := hpartakes.publishes.sent hp
  rw [hpartakes.id] at hid
  obtain ⟨o', hf, hc⟩ := h.turn (x := .call name (.part .renewal)) trivial
  rw [turn_call (r := (Registry.renew (allocated f.layout.directory n) d ttl).request) rfl ha
    (by simp only [Attendance.request?, Session.request?, hs, Renewal.request])] at hf hc ⊢
  have hsame : (f.answer name a (.part .renewal)
      (Registry.renew (allocated f.layout.directory n) d ttl).request).edition name =
        f.edition name :=
    Tree.edition_congr (Tree.live?_run_of_not_touches
      (f.layout.not_touches_renew (f.layout.isOnShelf_document name) f.tree.index n d ttl))
  refine ⟨_, o', hc, ⟨n, Nat.le_trans hn hf.ages.index_le, rfl, ?_⟩, fun {e} he => ?_, ?_⟩
  · rw [hf.ledger n hn]
    exact hagrees.1.symm.trans hid
  · obtain ⟨response, hresponse⟩ : ∃ response, (f.tree.run f.now
        (Registry.renew (allocated f.layout.directory n) d ttl).request).2 = .ok response := by
      generalize (f.tree.run f.now
        (Registry.renew (allocated f.layout.directory n) d ttl).request).2 = answer at hok
      cases answer with
      | ok response => exact ⟨response, rfl⟩
      | error g => cases g <;> cases hok
    have htree := (Tree.run_put_of_ok hresponse).1
    rw [f.layout.normalize_allocated] at htree
    have hfind := (Tree.live?_eq_some.mp he).1
    rw [show (f.answer name a (.part .renewal)
      (Registry.renew (allocated f.layout.directory n) d ttl).request).tree = _ from htree,
      Tree.find?_write, if_pos rfl] at hfind
    refine ⟨d, ?_, ?_⟩
    · rw [← Option.some.inj hfind]
      rfl
    · rw [hsame, hindex, hedition]
  · rw [hsame, hproperties]

private theorem exists_of_renewable? (h : f.renewable? name = some key) :
    ∃ d ttl renewed, f.renewing name = some (.renewing key d ttl) ∧
      (Registry.renew key d ttl).outcome
        (f.tree.run f.now (Registry.renew key d ttl).request).2 = .ok renewed := by
  unfold renewable? at h
  split at h
  · next key' d ttl hs =>
    simp only at h
    split at h
    · next renewed hok =>
      cases h
      exact ⟨d, ttl, renewed, hs, hok⟩
    · cases h
  · cases h

/-- After a round of renewal that succeeds the announce names what the round read. -/
theorem Circle.ticked (h : Circle R o f) {during : List Action} (ht : f.Ticks name p key during)
    (hx : f.always IsFair (tick name during)) :
    ∃ R' o', Vouches R' o' (f.turns (tick name during)) name key p := by
  obtain ⟨a, ha, hreads⟩ := Option.map_eq_some_iff.mp ht.reads
  obtain ⟨o₁, -, h₁⟩ := h.turn hx.1
  have hbegun := holds_of_always ht.underWay
  have ha₁ : (f.turn (.act name (.proceed .renewal))).members.find? name =
      some (a.act (.proceed .renewal)) := by rw [find?_turn_act, ha, Option.map_some]
  have hidle := ht.idle
  rw [renewing, ha, Option.bind_some] at hidle
  rw [renewing, ha₁, Option.bind_some] at hbegun
  have hticking := Attendance.ticking_begin hidle hbegun
  rw [hreads] at hticking
  obtain ⟨⟨⟨R₂, o₂, h₂⟩, b, hb, hticking⟩, -⟩ := turns_of_always
    (I := fun f => (∃ R o, Circle R o f) ∧
      ∃ a, f.members.find? name = some a ∧ a.Ticking p)
    (fun hI hP hnext => ticking_turn hP.2 hI hnext.1) ⟨⟨_, o₁, h₁⟩, _, ha₁, hticking⟩
    (always_and ht.underWay hx.2)
  have hend : ∃ R' o', Vouches R' o' (((f.turn (.act name (.proceed .renewal))).turns
      during).turn (.call name (.part .renewal))) name key p := by
    obtain ⟨d, ttl, renewed, hs, hok⟩ := exists_of_renewable? ht.succeeds
    rw [renewing, hb, Option.bind_some] at hs
    have hs := Attendance.renewal_of_renewing hs
    cases hticking with
    | sending hs' => cases hs.symm.trans hs'
    | renewing _ hp => exact h₂.renewed hb hs hp hok
  rwa [tick, Fleet.turns, List.foldl_cons, ← Fleet.turns, turns_append]

/-- Whoever looks at the announces when the one of an instance is the lowest learns from it which
write was the last. -/
theorem Vouches.learns (h : Vouches R o f id key p) (hlowest : f.IsLowest id key)
    (hp : f.tree.pretends = false) {m : Member} (hl : m.layout = f.layout) :
    Survey.Learns id (Store.signed (f.edition id).index) m
      (f.tree.run f.now (Survey.request m .listing)).2 .listing := by
  intro nodes l hok hof
  simp only [Survey.request, hl] at hok
  obtain ⟨a, ha, rfl, hfirst⟩ := hlowest
  obtain ⟨n, -, hkey, hid⟩ := h.created
  obtain ⟨e, hlive, hread⟩ := live_of_standing ha
  obtain ⟨hshows, hall⟩ := h.circle.consistent.covers.shows hok hof
  rcases hall with ⟨failure, hfailure, hk⟩ | hall
  · simp [Tree.pretends, Option.mem_def.mp hfailure, hk] at hp
  obtain ⟨c, hmem, hci, hcn⟩ := hall n e (hkey ▸ hlive)
  obtain ⟨hck, -, ⟨x, hx, hcread⟩, -⟩ := hshows.listed c hmem
  have hbelow : Store.Path.isBelow f.layout.directory c.key = true := by
    rw [hck]
    exact Store.Path.isBelow_allocated _ _
  -- None of the instance is lower, so what was found is the announce under the key.
  have hle := hfirst c (mem_standing hx hbelow hcread (hci.trans hid))
  rw [Announce.name_of_key hkey] at hle
  have hca : c.key = a.key := by rw [hck, Nat.le_antisymm hcn hle, hkey]
  rw [hca] at hx hcread
  obtain ⟨d, hv, hindex⟩ := h.cites hx
  obtain ⟨-, hd, -⟩ := Announce.of_ofNode_encode (d := d) hv hcread
  exact ⟨c, hmem, hci.trans hid, by rw [hd, hindex]⟩

private theorem surveying_eq {a : Attendance} (ha : f.members.find? name = some a)
    {stage : Survey.Stage} (hs : a.session.survey = .asking stage) :
    f.surveying name = some stage := by
  rw [surveying, ha, Option.bind_some, Session.surveying, hs]

private theorem request?_survey {a : Attendance} {stage : Survey.Stage}
    (hs : a.session.survey = .asking stage) :
    a.request? (.part .survey) = some (Survey.request a.session.member stage) := by
  simp only [Attendance.request?, Session.request?, hs]

/-- A survey under way that is to learn, or learned, which write of an instance was the last. -/
private def Follow (name id key : String) (p : Properties) (f : Fleet) : Prop :=
  ∃ R o a, Vouches R o f id key p ∧ f.members.find? name = some a ∧
    a.Learning id (Store.signed (f.edition id).index)

private theorem Follow.turn (hne : id ≠ name) {x : Action} (h : Follow name id key p f)
    (hx : f.IsFair x) (hw : f.writes id x = false) (hsees : f.Sees name id key x)
    (htold : f.IsTold name x) (hs : ((f.turn x).surveying name).isSome = true) :
    Follow name id key p (f.turn x) := by
  obtain ⟨R, o, a, hv, ha, hl⟩ := h
  obtain ⟨R', o', hv'⟩ := hv.turn hx hw
  obtain ⟨a', ha', hgoes⟩ := hv.circle.continues hx ha
  have hpartakes := hv.circle.member ha
  have hs : a'.session.surveying.isSome = true := by
    rwa [surveying, ha', Option.bind_some] at hs
  refine ⟨R', o', a', hv', ha', ?_⟩
  rw [(hv.circle.undisturbed hx hw).1]
  cases hgoes with
  | same => exact hl
  | restart c naming => cases hs
  | act y => exact hl.act y hs
  | receive hcall hr =>
    refine hl.receive (hpartakes.id ▸ hne) (fun ht hlook => ?_) hs
    subst ht hcall
    cases (request?_survey hlook).symm.trans hr
    exact hv.learns (hsees rfl (surveying_eq ha hlook)) (htold rfl) hpartakes.layout

/-- The last answer to a survey that succeeds tells which write was the last, or the survey knew it
before. -/
private theorem Follow.learned (h : Follow name id key p f) (hne : id ≠ name)
    (hx : f.IsFair (.call name (.part .survey)))
    (hw : f.writes id (.call name (.part .survey)) = false)
    (hsees : f.Sees name id key (.call name (.part .survey)))
    (htold : f.IsTold name (.call name (.part .survey))) (hover : f.isSucceeding name = true) :
    ∃ a, (f.turn (.call name (.part .survey))).members.find? name = some a ∧
      a.session.member.known.remote.Tells id
        (Store.signed ((f.turn (.call name (.part .survey))).edition id).index) := by
  obtain ⟨R, o, a, hv, ha, hl⟩ := h
  have hpartakes := hv.circle.member ha
  obtain ⟨stage, hs, hlearns⟩ : ∃ stage, a.session.survey = .asking stage ∧
      Survey.Learns id (Store.signed (f.edition id).index) a.session.member
        (f.tree.run f.now (Survey.request a.session.member stage)).2 stage := by
    cases hl with
    | looking hs =>
      exact ⟨_, hs, hv.learns (hsees rfl (surveying_eq ha hs)) (htold rfl) hpartakes.layout⟩
    | fetching hs ht => exact ⟨_, hs, ht⟩
  obtain ⟨changed, hover⟩ : ∃ changed, (Survey.answered a.session.member stage
      (f.tree.run f.now (Survey.request a.session.member stage)).2).2 = .over (.ok changed) := by
    simp only [isSucceeding, ha, Session.surveying, hs] at hover
    split at hover
    · next changed hr => exact ⟨changed, hr⟩
    · cases hover
  have htells := (Survey.tells_answered (hpartakes.id ▸ hne) hlearns).1 hover
  rw [(hv.circle.undisturbed hx hw).1, turn_call (t := .part .survey) rfl ha (request?_survey hs)]
  refine ⟨_, by rw [answer, Dict.find?_insert, if_pos rfl], ?_⟩
  rw [Attendance.receive, Session.receive_survey hs, Session.member_afterSurvey,
    (Survey.loop_roundAnswered _ _ _).1.remote]
  exact htells

/-- After a survey that succeeds it is known which write of an instance was the last. -/
theorem Vouches.updated (h : Vouches R o f id key p) (hne : id ≠ name) {meanwhile : List Action}
    (hu : f.Updates name meanwhile) (hx : f.always IsFair (update name meanwhile))
    (hw : f.always (fun f x => f.writes id x = false) (update name meanwhile))
    (hsees : f.always (fun f x => f.Sees name id key x) (update name meanwhile))
    (htold : f.always (fun f x => f.IsTold name x) (update name meanwhile)) :
    ∃ a, (f.turns (update name meanwhile)).members.find? name = some a ∧
      a.session.member.known.remote.Tells id
        (Store.signed ((f.turns (update name meanwhile)).edition id).index) := by
  -- The survey looks at the announces first.
  have hfollow : Follow name id key p (f.turn (.act name (.proceed .survey))) := by
    obtain ⟨R', o', hv⟩ := h.turn hx.1 hw.1
    have hbegun := holds_of_always hu.underWay
    have hidle := hu.idle
    have hfind := f.find?_turn_act name (.proceed .survey)
    cases hm : f.members.find? name with
    | none => simp [surveying, hfind, hm] at hbegun
    | some m =>
      rw [hm, Option.map_some] at hfind
      rw [surveying, hm, Option.bind_some] at hidle
      rw [surveying, hfind, Option.bind_some] at hbegun
      exact ⟨R', o', _, hv, hfind, Attendance.learning_begin hidle hbegun⟩
  obtain ⟨hfollow, -, hx', hw', hsees', htold'⟩ := turns_of_always
    (fun hI hP hnext => hI.turn hne hP.2.1 hP.2.2.1 hP.2.2.2.1 hP.2.2.2.2 hnext.1) hfollow
    (always_and hu.underWay (always_and hx.2 (always_and hw.2 (always_and hsees.2 htold.2))))
  rw [update, Fleet.turns, List.foldl_cons, ← Fleet.turns, turns_append]
  exact hfollow.learned hne hx' hw' hsees' htold' hu.succeeds

/-- What a member holds of the others in a circle. -/
theorem Circle.backed (h : Circle R o f) {a : Attendance} (ha : f.members.find? name = some a)
    {index : Int} (ht : a.session.member.known.remote.Tells id index) :
    ∃ e, R id e ∧ e.Backs index ∧
      a.session.member.known.remoteProperties.find? id = some e.properties := by
  obtain ⟨r, hr, rfl, rfl⟩ := ht
  exact (h.member ha).copies.held r hr

/-- How properties reach the others, in every run of a circle in which any number of members act,
call, fail, stop and restart in any order, as long as ids are names and no survey that fetches
documents is told that they are missing.

At every moment a member holds for each instance of which it knows an announce the properties of an
edition in which the document of the instance stood at some time, and that edition is no older than
the index in the announce.

When a round of renewal of an instance read the properties `p` and succeeded, and a survey of
another member that begins after that succeeds too, before the instance writes its document anew,
then the member holds `p` for the instance: provided that the announce that was renewed is live and
the lowest of its instance when the survey looks, and the survey is not told that a key is
missing. -/
theorem turns_propagate (layout : Layout) :
    (∀ (actions : List Action) (name : String) (a : Attendance),
      always IsFair { layout } actions →
      (turns { layout } actions).members.find? name = some a →
        ∀ r ∈ a.session.member.known.remote.entries, ∃ first, first <+: actions ∧
          ∃ k ≤ ((turns { layout } first).edition r.instanceId).index,
            r.data.propertiesIndex = Store.signed k ∧
            (turns { layout } actions).held name r.instanceId =
              some ((turns { layout } first).edition r.instanceId).properties) ∧
    ∀ (before during between meanwhile : List Action) (id name key : String) (p : Properties),
      let f := turns { layout } before
      always IsFair { layout } (before ++ relay id name during between meanwhile) →
      ((f.turns (tick id during)).turns between).always (fun f x => f.IsTold name x)
        (update name meanwhile) →
      f.Relays id name key p during between meanwhile →
        (f.turns (relay id name during between meanwhile)).held name id = some p := by
  constructor
  · intro actions name a hx ha r hr
    obtain ⟨o, h⟩ := circle_turns hx
    obtain ⟨e, ⟨first, hf, rfl⟩, ⟨k, hk, hi⟩, hp⟩ := h.backed ha ⟨r, hr, rfl, rfl⟩
    exact ⟨first, hf, k, hk, hi, by rw [held, ha, Option.bind_some, hp]⟩
  · intro before during between meanwhile id name key p f hx htold hr
    obtain ⟨hx₀, hx⟩ := always_append.mp hx
    obtain ⟨hx₁, hx⟩ := always_append.mp hx
    obtain ⟨hx₂, hx₃⟩ := always_append.mp hx
    obtain ⟨hw₂, hw₃⟩ := always_append.mp hr.silent
    have hword := hr.word
    rw [relay, turns_append, turns_append] at hword ⊢
    obtain ⟨o, h⟩ := circle_turns hx₀
    obtain ⟨R₁, o₁, h₁⟩ := h.ticked hr.ticks hx₁
    obtain ⟨R₂, o₂, h₂⟩ := h₁.turns hx₂ hw₂
    obtain ⟨R₃, o₃, h₃⟩ := h₂.turns hx₃ hw₃
    obtain ⟨a, ha, htells⟩ := h₂.updated hr.ne hr.updates hx₃ hw₃ hr.sees htold
    generalize ((f.turns (tick id during)).turns between).turns (update name meanwhile) = f₃
      at hword h₃ ha htells
    obtain ⟨e, he, ⟨k, hk, hi⟩, hp⟩ := h₃.circle.backed ha htells
    -- The edition that is held is no older than the last one, and there is none after that.
    obtain ⟨hle, heq⟩ := h₃.circle.past he
    have hlast := h₃.circle.shelf.index_edition_le id
    have hke : (f₃.edition id).index = k :=
      Store.signed_inj (Nat.lt_of_le_of_lt hlast hword)
        (Nat.lt_of_le_of_lt (Nat.le_trans hk (Nat.le_trans hle hlast)) hword) hi
    rw [held, ha, Option.bind_some, hp, heq (Nat.le_antisymm hle (hke ▸ hk))]
    exact congrArg some h₃.properties

/-! ## Runs that lose properties -/

/-- An instance of the cluster `c` joins in, gets its announce confirmed, and reads its
properties. -/
def enters (id : String) (properties : Properties) : List Action := [
  .enrol id
    { self := { id }, store := { root := "/d" }, cluster := { id := some "c" }, properties } none,
  .act id .start,
  .act id (.proceed (.runner 1)),
  .act id (.proceed (.runner 1)),
  .call id (.part (.runner 1)),
  .call id (.part (.runner 1)),
  .call id (.part (.runner 1)),
  .act id (.proceed .display)]

/-- The properties of the instances that have some. -/
def labelled : Properties := .ofList [("k", "v")]

/-- The store writes the document of an instance. -/
def sends (id : String) : List Action := [.call id (.part .renewal)]

/-- The store shows the announces to the instance `b`. -/
def looks : List Action := [.call "b" (.part .survey)]

/-- The store is going to say that a key is missing. -/
def denies : Action := .fail (.refused { code := Store.Refusal.keyNotFoundCode })

/-- The instance `a`, which has properties, and the instance `b`. -/
def pair : List Action := enters "a" labelled ++ enters "b" ∅

/-- An instance that has properties and an id with a slash, another one, and the instance `b`. -/
def slashed : List Action := enters "a/x" labelled ++ enters "e" ∅ ++ enters "b" ∅

/-- The first announce that is created below `/d`. -/
def firstKey : String := "/d/announces/00000000000000000001"

/-- The announces that a member knows, by their instances, with the indices in them. -/
def cited (f : Fleet) (name : String) : List (String × Int) :=
  match f.members.find? name with
  | none => []
  | some a => a.session.member.known.remote.entries.map fun r =>
      (r.instanceId, r.data.propertiesIndex)

private theorem evaluate_pair :
    let f := turns { layout := ⟨"/d"⟩ } pair
    let course := relay "a" "b" (sends "a") [] looks
    always IsFair { layout := ⟨"/d"⟩ } (pair ++ course) ∧
      ((f.turns (tick "a" (sends "a"))).turns []).always (fun f x => f.IsTold "b" x)
        (update "b" looks) ∧
      f.Relays "a" "b" firstKey labelled (sends "a") [] looks ∧
      ∃ a ∈ (turns { layout := ⟨"/d"⟩ } (pair ++ course)).members.find? "b",
        ∃ r ∈ a.session.member.known.remote.entries,
          (r.instanceId, r.data.propertiesIndex) = ("a", Store.signed 3) := by
  decide +kernel

/-- The properties of one instance reach another one. -/
theorem pair_propagates :
    let f := turns { layout := ⟨"/d"⟩ } pair
    let course := relay "a" "b" (sends "a") [] looks
    always IsFair { layout := ⟨"/d"⟩ } (pair ++ course) ∧
      f.Relays "a" "b" firstKey labelled (sends "a") [] looks ∧
      (f.turns course).held "b" "a" = some labelled ∧
      ∃ first, first <+: pair ++ course ∧
        ∃ k ≤ ((turns { layout := ⟨"/d"⟩ } first).edition "a").index,
          Store.signed 3 = Store.signed k ∧
          (turns { layout := ⟨"/d"⟩ } (pair ++ course)).held "b" "a" =
            some ((turns { layout := ⟨"/d"⟩ } first).edition "a").properties := by
  obtain ⟨hfair, htold, hrelays, a, ha, r, hr, hknown⟩ := evaluate_pair
  obtain ⟨hid, hindex⟩ := Prod.mk.inj hknown
  have hbacked := (turns_propagate ⟨"/d"⟩).1 _ "b" a hfair ha r hr
  rw [hid, hindex] at hbacked
  exact ⟨hfair, hrelays, (turns_propagate ⟨"/d"⟩).2 pair (sends "a") [] looks "a" "b" firstKey
    labelled hfair htold hrelays, hbacked⟩

/-- Properties are lost when a survey that fetches them is told that they are missing: none are held
although the announce known names a write of some, and no edition that is as new has none. They are
lost as well when a survey that looks at the announces is told so, and when the id of their instance
has a slash. -/
theorem properties_lost :
    let f := turns { layout := ⟨"/d"⟩ } pair
    let g := turns { layout := ⟨"/d"⟩ } slashed
    let missed := relay "a" "b" (sends "a") [] (looks ++ [denies])
    (f.Relays "a" "b" firstKey labelled (sends "a") [] (looks ++ [denies]) ∧
      (f.turns missed).held "b" "a" = some ∅ ∧
      (f.turns missed).cited "b" = [("a", Store.signed 3)] ∧
      ∀ first ∈ (pair ++ missed).inits,
        3 ≤ ((turns { layout := ⟨"/d"⟩ } first).edition "a").index →
        ((turns { layout := ⟨"/d"⟩ } first).edition "a").properties ≠ ∅) ∧
    (f.Relays "a" "b" firstKey labelled (sends "a") [denies] [] ∧
      (f.turns (relay "a" "b" (sends "a") [denies] [])).held "b" "a" = none) ∧
    (g.Relays "a/x" "b" firstKey labelled (sends "a/x") [] looks ∧
      (g.turns (relay "a/x" "b" (sends "a/x") [] looks)).held "b" "a/x" = some ∅) := by
  decide +kernel

end Fleet

end Rollcall
