import Mathlib.Data.List.Induction
import Rollcall.Proofs.Editions
import Rollcall.Proofs.Fleet

/-!
# Circles

A circle is a fleet of instances each of which goes by its own id, writes its own document and no
other, and may be restarted. A request that fails has no effect. As long as the ids are names and no
survey that fetches documents is told that they are missing, the announces that are live name no
write that the documents do not have, and what a member holds of the others are editions no older
than their announces name.
-/

namespace Rollcall

open Store (Request Answer Failure Tree)
open Store.Path (IsName)
open Registry (Layout)
open Attendance (Keeps own)

instance (name : String) : Decidable (IsName name) :=
  decidable_of_iff (name ≠ "" ∧ '/' ∉ name.toList) ⟨fun h => ⟨h.1, h.2⟩, fun h => ⟨h.1, h.2⟩⟩

namespace Fleet

/-- The edition in which the document of an instance stands. -/
def edition (f : Fleet) (id : String) : Edition := f.tree.edition f.now f.layout id

/-- The documents. -/
def documents (f : Fleet) (t : Tree) : Dict String Store.Entry :=
  (t.purge f.now).entries.filter fun key _ => f.layout.isOnShelf key

/-- What a round of renewal of a member has asked, if one is under way. -/
def renewing (f : Fleet) (name : String) : Option Renewal.Stage :=
  (f.members.find? name).bind fun a => a.session.renewing

/-- What a survey of a member has asked, if one is under way. -/
def surveying (f : Fleet) (name : String) : Option Survey.Stage :=
  (f.members.find? name).bind fun a => a.session.surveying

/-- Whether a survey of a member fetches documents. -/
def isFetching (f : Fleet) (name : String) : Bool :=
  (f.surveying name).any fun stage => stage ≠ .listing

/-- What may happen in a circle: a member goes by its id and has the layout of all, no answer is
lost to a request that was carried out, and others leave the documents alone. -/
def permits (f : Fleet) : Action → Bool
  | .enrol name c _ => c.self.id = name && decide (Layout.ofRoot c.store.root = f.layout)
  | .lose _ _ _ => false
  | .other r => f.documents (f.tree.run f.now r).1 = f.documents f.tree
  | _ => true

/-- A circle after an action; one that may not happen changes nothing. An instance that joins in
again was restarted. -/
def turn (f : Fleet) (x : Action) : Fleet :=
  if f.permits x then
    match x with
    | .enrol name c naming =>
      { f with members := f.members.insert name (.ofMember (.ofConfig c naming)) }
    | x => f.step x
  else f

/-- A circle after actions one after another. -/
def turns (f : Fleet) (actions : List Action) : Fleet := actions.foldl turn f

/-- What holds before every one of some actions. -/
def always (P : Fleet → Action → Prop) (f : Fleet) : List Action → Prop
  | [] => True
  | x :: actions => P f x ∧ (f.turn x).always P actions

instance decidableAlways {P : Fleet → Action → Prop} [∀ f x, Decidable (P f x)] :
    (f : Fleet) → (actions : List Action) → Decidable (f.always P actions)
  | _, [] => .isTrue trivial
  | f, x :: actions =>
    have := decidableAlways (P := P) (f.turn x) actions
    inferInstanceAs (Decidable (P f x ∧ (f.turn x).always P actions))

/-- Whether an action gives the documents their due: the id of a member that joins in is a name for
a key, and a survey that fetches documents is not told that they are missing. -/
def IsFair (f : Fleet) : Action → Prop
  | .enrol name _ _ => IsName name
  | .call name (.part .survey) => f.isFetching name = true → f.tree.pretends = false
  | _ => True

instance (f : Fleet) (x : Action) : Decidable (f.IsFair x) := by
  unfold IsFair
  split <;> infer_instance

variable {o o' : Ledger} {f f' : Fleet} {name : String} {R R' : Archive}

theorem turns_append (f : Fleet) (first rest : List Action) :
    f.turns (first ++ rest) = (f.turns first).turns rest := List.foldl_append

theorem always_append {P : Fleet → Action → Prop} {first rest : List Action} :
    f.always P (first ++ rest) ↔ f.always P first ∧ (f.turns first).always P rest := by
  induction first generalizing f with
  | nil => exact ⟨fun h => ⟨trivial, h⟩, fun h => h.2⟩
  | cons x first ih =>
    rw [List.cons_append, always, always, ih, and_assoc]
    rfl

/-- A circle is consistent as fleets are. -/
theorem Consistent.turn (h : Consistent o f) (x : Action) :
    ∃ o', Follows o f o' (f.turn x) ∧ Consistent o' (f.turn x) := by
  unfold Fleet.turn
  split
  · next hx =>
    split
    · next name c naming =>
      simp only [permits, Bool.and_eq_true, decide_eq_true_eq] at hx
      refine ⟨o, ⟨rfl, fun _ _ => rfl, .refl _ _⟩, h.insert ⟨c.self, f.layout, rfl, ?_⟩⟩
      exact Attendance.keeps_ofConfig c naming rfl hx.2.symm
    · exact h.step x
  · exact ⟨o, .refl o f, h⟩

/-! ## Members of a circle -/

/-- A member of a circle: it goes by its id, remembers its document, and holds of the others what is
in the archive. -/
structure Partakes (R : Archive) (E : Editions) (l : Layout) (name : String) (a : Attendance) :
    Prop where
  isName : IsName name
  keeps : ∃ self : Profile, self.id = name ∧ Keeps (own self l) a
  publishes : a.Publishes (E name)
  copies : Survey.Copies R E a.session.member a.session.survey
  leaving : ∀ {key : String}, a.farewell = .removing key →
    ∃ n, key = Store.Path.allocated l.directory n

variable {E E' : Editions} {l : Layout} {a : Attendance}

theorem Partakes.id (h : Partakes R E l name a) : a.session.member.self.id = name := by
  obtain ⟨self, hid, hk⟩ := h.keeps
  have hs : a.session.member.self = self := hk.member.self
  rw [hs, hid]

theorem Partakes.layout (h : Partakes R E l name a) : a.session.member.layout = l := by
  obtain ⟨_, _, hk⟩ := h.keeps
  exact hk.member.layout

/-- Others write their documents, and the archive grows. -/
theorem Partakes.mono (h : Partakes R E l name a) (hR : ∀ {id e}, R id e → R' id e)
    (hE : ∀ id, (E id).index ≤ (E' id).index) (hn : E' name = E name) :
    Partakes R' E' l name a :=
  { h with
    publishes := by rw [hn]; exact h.publishes
    copies := h.copies.mono hR hE }

theorem partakes_ofConfig (c : Config) (naming : Option Naming) (R : Archive) (E : Editions)
    (h : IsName c.self.id) : Partakes R E (.ofRoot c.store.root) c.self.id
      (.ofMember (.ofConfig c naming)) where
  isName := h
  keeps := ⟨c.self, rfl, Attendance.keeps_ofConfig c naming rfl rfl⟩
  publishes := Attendance.publishes_ofConfig c naming _
  copies := Attendance.copies_ofConfig c naming R E
  leaving := nofun

/-- The announce that is removed at the end is the accepted one. -/
private theorem leaving_move {P : String → Prop}
    (h : ∀ {key}, a.farewell = .removing key → P key)
    (ha : ∀ {b}, a.session.member.known.accepted = some b → P b.key) (x : Attendance.Move)
    {key : String} (hk : (a.move x).farewell = .removing key) : P key := by
  have hpasses := a.passes_move x
  generalize a.move x = a' at hpasses hk
  cases hpasses with
  | withdraws _ _ hb =>
    cases hk
    exact ha hb
  | stops _ => cases hk
  | leaves _ _ _ => cases hk
  | removes _ _ => cases hk
  | _ => exact h hk

/-- A member of a circle that does something without an answer. -/
theorem Partakes.act (h : Partakes R E l name a)
    (ha : ∀ {b : Announce}, a.session.member.known.accepted = some b →
      ∃ n, b.key = Store.Path.allocated l.directory n) (x : Attendance.Act) :
    Partakes R E l name (a.act x) := by
  obtain ⟨self, hid, hk⟩ := h.keeps
  exact {
    isName := h.isName
    keeps := ⟨self, hid, hk.move_own (.act x)⟩
    publishes := h.publishes.act hk x
    copies := Attendance.copies_act h.copies x
    leaving := leaving_move h.leaving ha (.act x) }

/-- A member of a circle that goes on from an answer that tells what stands in the store. -/
theorem Partakes.receive (h : Partakes R E l name a) (hR : ∀ {id e}, R id e → R' id e)
    (hE : ∀ id, (E id).index ≤ (E' id).index) (hR' : ∀ id, R' id (E' id)) {t : Task}
    {answer : Answer} (hp : (a.receive t answer).Publishes (E' name))
    (hf : ∀ {stage}, t = .part .survey → a.session.survey = .asking stage →
      Survey.Faithful E' a.session.member answer stage) :
    Partakes R' E' l name (a.receive t answer) := by
  obtain ⟨self, hid, hk⟩ := h.keeps
  refine {
    isName := h.isName
    keeps := ⟨self, hid, hk.move_own (.receive t answer)⟩
    publishes := hp
    copies := Attendance.copies_receive (h.copies.mono hR hE) hR' hf
    leaving := ?_ }
  cases t with
  | part p => exact h.leaving
  | farewell =>
    unfold Attendance.receive
    simp only
    split
    · exact nofun
    · exact h.leaving

/-! ## Requests of members -/

/-- What a member of a circle asks of the store, but for the writing of its document: to read, to
claim a cluster id, to create an announce that names a write which its document has, to renew one of
its own so that it names the last write, and to remove one. -/
inductive Requests (o : Ledger) (f : Fleet) (name : String) : Request → Prop
  | get (key : String) (recursive sorted : Bool) : Requests o f name (.get key recursive sorted)
  | claim (candidate : String) : Requests o f name (Registry.claim f.layout candidate).request
  | announce {d : Payload} (ttl : Nat) (hid : d.instanceId = name)
      (hb : (f.edition name).Backs d.propertiesIndex) :
      Requests o f name (Registry.announce f.layout d ttl).request
  | renew {n : Nat} {d : Payload} (ttl : Nat) (ho : (o n).instanceId = name)
      (hid : d.instanceId = name) (hi : d.propertiesIndex = Store.signed (f.edition name).index) :
      Requests o f name
        (Registry.renew (Store.Path.allocated f.layout.directory n) d ttl).request
  | withdraw (n : Nat) :
      Requests o f name (Registry.withdraw (Store.Path.allocated f.layout.directory n)).request

/-- What the store of a circle has: on the shelf what members wrote, and announces that name writes
which the documents have. -/
structure Documented (f : Fleet) : Prop where
  shelf : Shelf f.layout f.tree f.now
  cited : ∀ {k : String} {e : Store.Entry}, f.tree.live? f.now k = some e →
    Store.Path.isBelow f.layout.directory k = true →
    ∃ d : Payload, e.value = some d.encode ∧ IsName d.instanceId ∧
      (f.edition d.instanceId).Backs d.propertiesIndex

/-- A circle in good order, with a ledger of its announces and the archive of its documents, which
ends with the editions of the moment. All members hold what is in the archive. -/
structure Circle (R : Archive) (o : Ledger) (f : Fleet) : Prop extends Documented f where
  consistent : Consistent o f
  recorded : ∀ id, R id (f.edition id)
  past : ∀ {id : String} {e : Edition}, R id e → e.index ≤ (f.edition id).index ∧
    (e.index = (f.edition id).index → e = f.edition id)
  member : ∀ {name : String} {a : Attendance}, f.members.find? name = some a →
    Partakes R f.edition f.layout name a

/-- What a member asks of the store, it asks as members of a circle do. -/
theorem Circle.request (h : Circle R o f) (ha : f.members.find? name = some a) {t : Task}
    {r : Request} (hr : a.request? t = some r) :
    Requests o f name r ∨ ∃ p, t = .part .renewal ∧ a.session.renewal = .asking (.sending p) ∧
      r = (Registry.publish f.layout name p).request := by
  have hp := h.member ha
  obtain ⟨self, layout, hdir, hk⟩ := h.consistent.keeps ha
  cases t with
  | farewell =>
    unfold Attendance.request? at hr
    simp only at hr
    split at hr
    · next key hf =>
      obtain ⟨n, rfl⟩ := hp.leaving hf
      cases hr
      exact .inl (.withdraw n)
    · cases hr
  | part p =>
    have hasks := Session.asks_of_request? hr
    cases hasks with
    | get p key recursive sorted => exact .inl (.get key recursive sorted)
    | publish hs =>
      rw [hp.layout, hp.id]
      exact .inr ⟨_, rfl, hs, rfl⟩
    | renew hs =>
      obtain ⟨n, -, rfl, hagrees⟩ := hk.renewal _ hs
      obtain ⟨hid, hi, hsent⟩ := hp.publishes.renewing hs
      obtain ⟨p, hsent⟩ := Option.isSome_iff_exists.mp hsent
      rw [hp.id] at hid
      exact .inl (.renew _ (hagrees.1.symm.trans hid) hid (hi.trans (hp.publishes.sent hsent).2))
    | claim g candidate =>
      rw [hp.layout]
      exact .inl (.claim candidate)
    | announce hw =>
      obtain ⟨hid, hb⟩ := hp.publishes.creating hw
      rw [hp.id] at hid
      rw [hp.layout]
      exact .inl (.announce _ hid hb)

namespace Requests

variable {r : Request}

/-- The documents are left alone. -/
theorem live?_shelf (h : Requests o f name r) {k : String} (hk : f.layout.isOnShelf k = true) :
    (f.tree.run f.now r).1.live? f.now k = f.tree.live? f.now k := by
  refine Tree.live?_run_of_not_touches ?_
  cases h with
  | get _ _ _ => exact id
  | claim candidate => exact f.layout.not_touches_claim hk _ candidate
  | announce ttl _ _ => exact f.layout.not_touches_announce hk _ _ ttl
  | renew ttl _ _ _ => exact f.layout.not_touches_renew hk _ _ _ ttl
  | withdraw n => exact f.layout.not_touches_withdraw hk _ n

/-- An announce is written under a new key, or under one of the member's own to name its last
write. -/
private theorem written_cases (h : Requests o f name r) {k : String} {e : Store.Entry}
    (hw : Tree.Written f.tree f.now k e r)
    (hb : Store.Path.isBelow f.layout.directory k = true) :
    ∃ d : Payload, e.value = some d.encode ∧ d.instanceId = name ∧
      ((k = Store.Path.allocated f.layout.directory (f.tree.index + 1) ∧
          (f.edition name).Backs d.propertiesIndex) ∨
        ∃ n, k = Store.Path.allocated f.layout.directory n ∧ (o n).instanceId = name ∧
          d.propertiesIndex = Store.signed (f.edition name).index) := by
  cases h with
  | get _ _ _ => cases hw
  | withdraw _ => cases hw
  | claim candidate =>
    cases hw with
    | put hk there leaf he =>
      rw [hk, (f.layout.normalize_aside f.layout.toList_clusterId (by decide) (by decide)).2] at hb
      cases hb
  | announce ttl hid hbacks =>
    cases hw with
    | post hk leaf he => exact ⟨_, he.2.1, hid, .inl ⟨hk, hbacks⟩⟩
  | renew ttl ho hid hi =>
    cases hw with
    | put hk there leaf he =>
      rw [f.layout.normalize_allocated] at hk
      exact ⟨_, he.2.1, hid, .inr ⟨_, hk, ho, hi⟩⟩

/-- An announce that is written names a write that its document has. -/
theorem written (h : Requests o f name r) {k : String} {e : Store.Entry}
    (hw : Tree.Written f.tree f.now k e r)
    (hb : Store.Path.isBelow f.layout.directory k = true) :
    ∃ d : Payload, e.value = some d.encode ∧ d.instanceId = name ∧
      (f.edition name).Backs d.propertiesIndex := by
  obtain ⟨d, hv, hid, ⟨-, hbacks⟩ | ⟨_, -, -, hi⟩⟩ := h.written_cases hw hb
  · exact ⟨d, hv, hid, hbacks⟩
  · exact ⟨d, hv, hid, _, Nat.le_refl _, hi⟩

/-- An announce that is written under a key which is not new belongs to the member, and names its
last write. -/
theorem rewritten (h : Requests o f name r) {n : Nat} {e : Store.Entry} (hn : n ≤ f.tree.index)
    (hw : Tree.Written f.tree f.now (Store.Path.allocated f.layout.directory n) e r) :
    (o n).instanceId = name ∧ ∃ d : Payload, e.value = some d.encode ∧
      d.propertiesIndex = Store.signed (f.edition name).index := by
  obtain ⟨d, hv, -, ⟨hk, -⟩ | ⟨m, hk, ho, hi⟩⟩ :=
    h.written_cases hw (Store.Path.isBelow_allocated _ n)
  · have hnew := Store.Path.allocated_injective hk
    omega
  · obtain rfl := Store.Path.allocated_injective hk
    exact ⟨ho, d, hv, hi⟩

/-- No document is written by such a request. -/
theorem ne_publish (h : Requests o f name r) (p : Properties) :
    r ≠ (Registry.publish f.layout name p).request := by
  cases h with
  | get _ _ _ => exact nofun
  | withdraw _ => exact nofun
  | announce _ _ _ => exact nofun
  | claim _ => simp [Registry.claim, Registry.publish]
  | renew _ _ _ _ => simp [Registry.renew, Registry.publish]

end Requests

/-- A circle after the store carried out a request of a task and answered it. -/
def answer (f : Fleet) (name : String) (a : Attendance) (t : Task) (r : Request) : Fleet :=
  { f with
    tree := (f.tree.run f.now r).1
    members := f.members.insert name (a.receive t (f.tree.run f.now r).2) }

/-- What comes of an action in a circle. -/
inductive Turned (o : Ledger) (f : Fleet) : Action → Fleet → Prop
  | same (x : Action) : Turned o f x f
  | enrol {c : Config} (naming : Option Naming) (hn : IsName c.self.id)
      (hl : Layout.ofRoot c.store.root = f.layout) :
      Turned o f (.enrol c.self.id c naming)
        { f with members := f.members.insert c.self.id (.ofMember (.ofConfig c naming)) }
  | act {name : String} {a : Attendance} (ha : f.members.find? name = some a)
      (x : Attendance.Act) :
      Turned o f (.act name x) { f with members := f.members.insert name (a.act x) }
  | call {name : String} {a : Attendance} {t : Task} {r : Request}
      (ha : f.members.find? name = some a) (hr : a.request? t = some r)
      (hreq : Requests o f name r) (hx : f.IsFair (.call name t)) :
      Turned o f (.call name t) (f.answer name a t r)
  | publish {name : String} {a : Attendance} {p : Properties}
      (ha : f.members.find? name = some a) (hs : a.session.renewal = .asking (.sending p)) :
      Turned o f (.call name (.part .renewal))
        (f.answer name a (.part .renewal) (Registry.publish f.layout name p).request)
  | elapse (d : Duration) : Turned o f (.elapse d) { f with now := f.now + d }
  | fail (e : Failure) : Turned o f (.fail e) { f with tree := f.tree.queueFailure e }
  | other {r : Request} (ha : f.announces (f.tree.run f.now r).1 = f.announces f.tree)
      (hd : f.documents (f.tree.run f.now r).1 = f.documents f.tree) :
      Turned o f (.other r) { f with tree := (f.tree.run f.now r).1 }

theorem Circle.turned (h : Circle R o f) {x : Action} (hx : f.IsFair x) :
    Turned o f x (f.turn x) := by
  unfold Fleet.turn
  split
  · next hp =>
    cases x with
    | enrol name c naming =>
      simp only [permits, Bool.and_eq_true, decide_eq_true_eq] at hp
      obtain ⟨rfl, hl⟩ := hp
      exact .enrol naming hx hl
    | act name x =>
      simp only [step, Dict.modify]
      split
      · next a ha => exact .act ha x
      · exact .same _
    | call name t =>
      simp only [step, serve]
      split
      · exact .same _
      next a ha =>
      split
      · exact .same _
      next r hr =>
      rcases h.request ha hr with hreq | ⟨p, rfl, hs, rfl⟩
      · exact .call ha hr hreq hx
      · exact .publish ha hs
    | lose name t text => cases hp
    | elapse d => exact .elapse d
    | fail e => exact .fail e
    | other r =>
      simp only [step]
      split
      · next ha => exact .other ha (by simpa [permits] using hp)
      · exact .same _
  · exact .same x

/-! ## What becomes of the store -/

theorem live?_eq_of_documents_eq {tree : Tree} (h : f.documents tree = f.documents f.tree)
    {key : String} (hk : f.layout.isOnShelf key = true) :
    tree.live? f.now key = f.tree.live? f.now key := by
  have hf := congrArg (fun d => d.find? key) h
  simp only [documents, Dict.find?_filter, Tree.find?_purge, hk] at hf
  cases ht : tree.live? f.now key <;> cases hl : f.tree.live? f.now key <;>
    simp_all [Option.filter]

/-- A store in which the documents are as they were, and what is new below the directory of the
announces names writes that they have. -/
theorem Documented.keep (h : Documented f) (f' : Fleet) (hlayout : f'.layout = f.layout)
    (hi : f.tree.index ≤ f'.tree.index)
    (hl : ∀ {k}, f.layout.isOnShelf k = true →
      f'.tree.live? f'.now k = f.tree.live? f.now k)
    (hb : ∀ {k e}, f'.tree.live? f'.now k = some e →
      Store.Path.isBelow f.layout.directory k = true → f.tree.live? f.now k = some e ∨
        ∃ d : Payload, e.value = some d.encode ∧ IsName d.instanceId ∧
          (f.edition d.instanceId).Backs d.propertiesIndex) :
    Documented f' ∧ ∀ id, f'.edition id = f.edition id := by
  have hE : ∀ id, f'.edition id = f.edition id := by
    intro id
    rw [edition, hlayout]
    exact Tree.edition_congr (hl (f.layout.isOnShelf_document id))
  refine ⟨⟨?_, fun he hk => ?_⟩, hE⟩
  · rw [hlayout]
    exact h.shelf.of_live?_eq hi fun k hk => hl hk
  · rw [hlayout] at hk
    simp only [hE]
    rcases hb he hk with hold | hnew
    · exact h.cited hold hk
    · exact hnew

/-- A document that its instance wrote. -/
theorem Documented.written (h : Documented f) (f' : Fleet) (hname : IsName name) {p : Properties}
    {index : Int}
    (hok : (Registry.publish f.layout name p).outcome
      (f.tree.run f.now (Registry.publish f.layout name p).request).2 = .ok index)
    (hlayout : f'.layout = f.layout) (hnow : f'.now = f.now)
    (htree : f'.tree = (f.tree.run f.now (Registry.publish f.layout name p).request).1) :
    Documented f' ∧ index = Store.signed (f.tree.index + 1) ∧
      f'.tree.index = f.tree.index + 1 ∧ f'.edition name = ⟨f.tree.index + 1, p⟩ ∧
      ∀ id, id ≠ name → f'.edition id = f.edition id := by
  obtain ⟨hs, hi, hindex, hnew, hold⟩ := h.shelf.publish hname hok
  rw [← htree] at hs hindex hnew hold
  have hnew : f'.edition name = ⟨f.tree.index + 1, p⟩ := by rw [edition, hlayout, hnow, hnew]
  have hold : ∀ id, id ≠ name → f'.edition id = f.edition id := by
    intro id hne
    rw [edition, hlayout, hnow, hold id hne, edition]
  refine ⟨⟨by rw [hlayout, hnow]; exact hs, fun {k e} he hk => ?_⟩, hi, hindex, hnew, hold⟩
  rw [hlayout] at hk
  have hk' : k ≠ f.layout.document name := by
    rintro rfl
    rw [f.layout.not_isBelow_directory (f.layout.isOnShelf_document name)] at hk
    cases hk
  rw [hnow, htree, Tree.live?_run_of_not_touches
    (f.layout.not_touches_publish hname hk' f.tree.index p)] at he
  obtain ⟨d, hv, hid, hb⟩ := h.cited he hk
  refine ⟨d, hv, hid, ?_⟩
  by_cases hd : d.instanceId = name
  · rw [hd, hnew]
    rw [hd] at hb
    exact hb.mono (Nat.le_succ_of_le (h.shelf.index_edition_le name))
  · rw [hold _ hd]
    exact hb

/-! ## Runs -/

/-- A circle in which some documents were written anew, and some members went on. -/
private theorem Circle.next (h : Circle R o f) (hc : Consistent o' f') (hd : Documented f')
    (hlayout : f'.layout = f.layout)
    (hE : ∀ id, f'.edition id = f.edition id ∨ (f.edition id).index < (f'.edition id).index)
    (hm : ∀ {name a}, f'.members.find? name = some a →
      (f.members.find? name = some a ∧ f'.edition name = f.edition name) ∨
        Partakes (R.extend f'.edition) f'.edition f.layout name a) :
    Circle (R.extend f'.edition) o' f' where
  toDocumented := hd
  consistent := hc
  recorded _ := .inr rfl
  past := by
    rintro id e (he | rfl)
    · obtain ⟨hle, heq⟩ := h.past he
      rcases hE id with hsame | hlt
      · rw [hsame]
        exact ⟨hle, heq⟩
      · exact ⟨by omega, fun hi => by omega⟩
    · exact ⟨Nat.le_refl _, fun _ => rfl⟩
  member ha := by
    rw [hlayout]
    rcases hm ha with ⟨hold, hsame⟩ | hnew
    · refine (h.member hold).mono .inl (fun id => ?_) hsame
      rcases hE id with hid | hlt
      · exact Nat.le_of_eq (congrArg Edition.index hid.symm)
      · exact Nat.le_of_lt hlt
    · exact hnew

/-- One member goes on, and the documents are as they were. -/
private theorem Circle.goOn (h : Circle R o f) (hc : Consistent o' f') (hd : Documented f')
    (hlayout : f'.layout = f.layout) (hE : ∀ id, f'.edition id = f.edition id)
    (hmembers : f'.members = f.members.insert name a)
    (ha : Partakes (R.extend f'.edition) f'.edition f.layout name a) :
    Circle (R.extend f'.edition) o' f' := by
  refine h.next hc hd hlayout (fun id => .inl (hE id)) fun {name' a'} ha' => ?_
  rw [hmembers, Dict.find?_insert] at ha'
  split at ha'
  · next he =>
    cases ha'
    exact .inr (he ▸ ha)
  · exact .inl ⟨ha', hE name'⟩

/-- What a survey is told is what stands in the store: announces that the documents back, and the
documents themselves unless they are said to be missing. -/
private theorem Circle.faithful (h : Circle R o f) (ha : f.members.find? name = some a)
    {stage : Survey.Stage} (hs : a.session.survey = .asking stage)
    (hx : f.IsFair (.call name (.part .survey))) :
    Survey.Faithful f.edition a.session.member
      (f.tree.run f.now (Survey.request a.session.member stage)).2 stage := by
  have hl := (h.member ha).layout
  cases stage with
  | listing =>
    intro nodes found hok hof r hr
    simp only [Survey.request, hl] at hok
    obtain ⟨hkey, -, ⟨e, he, hread⟩, -⟩ := (h.consistent.covers.shows hok hof).1.listed r hr
    obtain ⟨d, hv, hid, hb⟩ := h.cited he (by rw [hkey]; exact Store.Path.isBelow_allocated _ _)
    obtain ⟨-, hd, -⟩ := Announce.of_ofNode_encode (d := d) hv hread
    rw [Announce.instanceId, hd]
    exact ⟨hid, hb⟩
  | fetching remote ids =>
    have hf : f.tree.pretends = false :=
      hx (by simp [isFetching, surveying, ha, Session.surveying, hs])
    intro found hok id hi hid
    unfold Survey.fetched at hok
    split at hok
    · next id' =>
      obtain rfl : id = id' := by simpa using hi
      simp only [Survey.request, Terms.accept_eq, hl] at hok
      obtain ⟨p, hr, rfl⟩ : ∃ p, (Registry.propertiesOf f.layout id).outcome
          (f.tree.run f.now (Registry.propertiesOf f.layout id).request).2 = .ok p ∧
          Dict.ofList [(id, p)] = found := by
        revert hok
        cases (Registry.propertiesOf f.layout id).outcome
          (f.tree.run f.now (Registry.propertiesOf f.layout id).request).2 with
        | error e => exact fun hi => by cases hi
        | ok p => exact fun hok => ⟨p, rfl, Except.ok.inj hok⟩
      rw [edition, ← h.shelf.properties_of_propertiesOf hid hf hr]
      show ((Dict.insert ∅ id p).find? id).getD ∅ = p
      rw [Dict.find?_insert_self, Option.getD_some]
    · next hmany =>
      have hrequest : Survey.request a.session.member (.fetching remote ids) =
          (Registry.allProperties f.layout).request := by
        rw [← hl]
        unfold Survey.request
        split
        · next he => cases he
        · next he =>
          cases he
          exact absurd rfl (hmany _)
        · rfl
      simp only [hrequest, Terms.accept_eq, hl] at hok
      exact h.shelf.properties_of_allProperties hid hf hok

/-- A member that asked something and goes on from the answer. -/
private theorem Circle.call (h : Circle R o f) {t : Task} {r : Request}
    (ha : f.members.find? name = some a) (hr : a.request? t = some r)
    (hx : f.IsFair (.call name t)) (hc : Consistent o' (f.answer name a t r))
    (hd : Documented (f.answer name a t r))
    (hE : ∀ id, (f.answer name a t r).edition id = f.edition id)
    (hno : ∀ {p index}, t = .part .renewal → a.session.renewal = .asking (.sending p) →
      (Registry.publish f.layout name p).outcome (f.tree.run f.now r).2 ≠ .ok index) :
    Circle (R.extend (f.answer name a t r).edition) o' (f.answer name a t r) := by
  have hpartakes := h.member ha
  obtain ⟨self, hid, hk⟩ := hpartakes.keeps
  refine h.goOn hc hd rfl hE rfl ?_
  have hedition : (f.answer name a t r).edition = f.edition := funext hE
  rw [hedition]
  refine hpartakes.receive .inl (fun _ => Nat.le_refl _) (fun _ => .inr rfl) ?_ ?_
  · refine hpartakes.publishes.receive hk fun ht hs => ?_
    rw [hpartakes.layout, hpartakes.id]
    exact hno ht hs
  · rintro stage rfl hs
    have hrequest : r = Survey.request a.session.member stage := by
      simp only [Attendance.request?, Session.request?, hs] at hr
      exact (Option.some.inj hr).symm
    rw [hrequest]
    exact h.faithful ha hs hx

/-- A member whose document was written. -/
private theorem Circle.publish (h : Circle R o f) {p : Properties} {index : Int}
    (ha : f.members.find? name = some a) (hs : a.session.renewal = .asking (.sending p))
    (hok : (Registry.publish f.layout name p).outcome
      (f.tree.run f.now (Registry.publish f.layout name p).request).2 = .ok index)
    {f' : Fleet}
    (hf : f' = f.answer name a (.part .renewal) (Registry.publish f.layout name p).request)
    (hc : Consistent o' f') : Circle (R.extend f'.edition) o' f' := by
  have hpartakes := h.member ha
  obtain ⟨self, hid, hk⟩ := hpartakes.keeps
  obtain ⟨hd, hi, -, hnew, hold⟩ := h.toDocumented.written f' hpartakes.isName hok
    (by rw [hf]; rfl) (by rw [hf]; rfl) (by rw [hf]; rfl)
  have hlt : (f.edition name).index < (f'.edition name).index := by
    rw [hnew]
    exact Nat.lt_succ_of_le (h.shelf.index_edition_le name)
  have hE : ∀ id, f'.edition id = f.edition id ∨ (f.edition id).index < (f'.edition id).index := by
    intro id
    by_cases he : id = name
    · exact .inr (he ▸ hlt)
    · exact .inl (hold id he)
  refine h.next hc hd (by rw [hf]; rfl) hE fun {name' a'} ha' => ?_
  rw [hf] at ha'
  simp only [answer, Dict.find?_insert] at ha'
  split at ha'
  · next he =>
    cases ha'
    subst he
    right
    refine hpartakes.receive .inl (fun id => ?_) (fun _ => .inr rfl) ?_ (by simp)
    · rcases hE id with he | he
      · exact Nat.le_of_eq (congrArg Edition.index he.symm)
      · exact Nat.le_of_lt he
    · refine hpartakes.publishes.written hk (Nat.le_of_lt hlt) ?_ ?_
      · rw [hnew]
        exact hs
      · rw [hpartakes.layout, hpartakes.id, hnew]
        exact hok.trans (congrArg Except.ok hi)
  · next hne => exact .inl ⟨ha', hold name' hne⟩

/-- A circle stays in good order by every action that gives the documents their due. -/
theorem Circle.turn (h : Circle R o f) {x : Action} (hx : f.IsFair x) :
    ∃ o', Follows o f o' (f.turn x) ∧ Circle (R.extend (f.turn x).edition) o' (f.turn x) := by
  obtain ⟨o', hf, hc⟩ := h.consistent.turn x
  refine ⟨o', hf, ?_⟩
  have ht := h.turned hx
  generalize f.turn x = f' at ht hf hc ⊢
  have hsame : ∀ {f' : Fleet}, f'.layout = f.layout → f'.members = f.members → Consistent o' f' →
      Documented f' ∧ (∀ id, f'.edition id = f.edition id) →
        Circle (R.extend f'.edition) o' f' := by
    intro f' hlayout hmembers hc hd
    exact h.next hc hd.1 hlayout (fun id => .inl (hd.2 id)) fun {name a} ha =>
      .inl ⟨hmembers ▸ ha, hd.2 name⟩
  cases ht with
  | same x => exact hsame rfl rfl hc ⟨h.toDocumented, fun _ => rfl⟩
  | enrol naming hn hl =>
    refine h.goOn hc ⟨h.shelf, h.cited⟩ rfl (fun _ => rfl) rfl ?_
    exact hl ▸ partakes_ofConfig _ naming _ _ hn
  | act ha x =>
    refine h.goOn hc ⟨h.shelf, h.cited⟩ rfl (fun _ => rfl) rfl ?_
    refine Partakes.act ((h.member ha).mono .inl (fun _ => Nat.le_refl _) rfl) (fun {b} hb => ?_) x
    obtain ⟨self, layout, hdir, hk⟩ := h.consistent.keeps ha
    exact ⟨b.name, (hk.member.accepted hb).2.1⟩
  | @call name a t r ha hr hreq hx =>
    obtain ⟨hd, hE⟩ := h.toDocumented.keep (f.answer name a t r) rfl
      (f.tree.index_le_run f.now r) (fun hk => hreq.live?_shelf hk) fun he hb => by
        refine (Tree.live?_run he).imp_right fun hw => ?_
        obtain ⟨d, hv, hid, hbacks⟩ := hreq.written hw hb
        exact ⟨d, hv, hid ▸ (h.member ha).isName, hid ▸ hbacks⟩
    refine h.call ha hr hx hc hd hE fun {p index} ht hs hok => ?_
    subst ht
    simp only [Attendance.request?, Session.request?, hs, Option.some.injEq] at hr
    subst hr
    rw [Renewal.request, (h.member ha).layout, (h.member ha).id] at hreq
    exact absurd rfl (hreq.ne_publish p)
  | @publish name a p ha hs =>
    cases hok : (Registry.publish f.layout name p).outcome
        (f.tree.run f.now (Registry.publish f.layout name p).request).2 with
    | ok index => exact h.publish ha hs hok rfl hc
    | error failure =>
      obtain ⟨_, herror⟩ := Registry.error_of_publish hok
      obtain ⟨hd, hE⟩ := h.toDocumented.keep
        (f.answer name a (.part .renewal) (Registry.publish f.layout name p).request) rfl
        (f.tree.index_le_run f.now _) (fun _ => Tree.live?_run_of_error herror _)
        fun he _ => .inl ((Tree.live?_run_of_error herror _).symm.trans he)
      refine h.call ha ?_ hx hc hd hE fun {p' index} _ hs' hok' => ?_
      · simp only [Attendance.request?, Session.request?, hs, Renewal.request,
          (h.member ha).layout, (h.member ha).id]
      · cases hs.symm.trans hs'
        cases hok.symm.trans hok'
  | elapse d =>
    refine hsame rfl rfl hc (h.toDocumented.keep _ rfl (Nat.le_refl _)
      (fun hk => h.shelf.live?_later (Nat.le_add_right f.now d) hk) fun he _ => .inl ?_)
    exact Tree.live?_of_later (Nat.le_add_right f.now d) he
  | fail e => exact hsame rfl rfl hc ⟨⟨⟨h.shelf.entry⟩, h.cited⟩, fun _ => rfl⟩
  | @other r ha hd =>
    exact hsame rfl rfl hc (h.toDocumented.keep _ rfl (f.tree.index_le_run f.now r)
      (fun hk => live?_eq_of_documents_eq hd hk)
      fun he hb => .inl ((live?_eq_of_announces_eq ha hb).symm.trans he))

/-- The editions of all moments of a run. -/
def archive (f : Fleet) (actions : List Action) : Archive :=
  fun id e => ∃ first, first <+: actions ∧ e = (f.turns first).edition id

private theorem archive_concat (f : Fleet) (actions : List Action) (x : Action) :
    f.archive (actions ++ [x]) =
      (f.archive actions).extend (f.turns (actions ++ [x])).edition := by
  funext id e
  refine propext ⟨?_, ?_⟩
  · rintro ⟨first, hf, rfl⟩
    rcases List.prefix_concat_iff.mp hf with rfl | hf
    · exact .inr rfl
    · exact .inl ⟨first, hf, rfl⟩
  · rintro (⟨first, hf, rfl⟩ | rfl)
    · exact ⟨first, hf.trans (List.prefix_append _ _), rfl⟩
    · exact ⟨_, List.prefix_rfl, rfl⟩

/-- In every run that gives the documents their due a circle is in good order, and its archive is
that of the run. -/
theorem circle_turns {layout : Layout} {actions : List Action}
    (hx : always IsFair { layout } actions) :
    ∃ o, Circle (archive { layout } actions) o (turns { layout } actions) := by
  induction actions using List.reverseRecOn with
  | nil =>
    refine ⟨fun _ => ⟨"", "", ""⟩, ?_⟩
    exact {
      shelf := .empty layout 0
      cited := fun h => nomatch h
      consistent := consistent_empty _ layout
      recorded := fun id => ⟨[], List.prefix_rfl, rfl⟩
      past := by
        rintro id e ⟨first, hf, rfl⟩
        rw [List.prefix_nil.mp hf]
        exact ⟨Nat.le_refl _, fun _ => rfl⟩
      member := fun h => nomatch h }
  | append_singleton actions x ih =>
    obtain ⟨hfirst, hlast, -⟩ := always_append.mp hx
    obtain ⟨o, h⟩ := ih hfirst
    obtain ⟨o', -, h'⟩ := h.turn hlast
    refine ⟨o', ?_⟩
    rw [archive_concat, turns_append]
    exact h'

end Fleet

end Rollcall
