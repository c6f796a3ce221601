import Rollcall.Proofs.Apart
import Rollcall.Proofs.Documents
import Rollcall.Proofs.Turns

/-!
# What members hold of the documents

A member remembers what it last wrote in its document, and its announce names the index of a write.
Of the others it holds properties, each from an edition of the document no older than the announce
it knows names. Rounds and steps keep both up as long as the answers tell what stands in the store.
-/

namespace Rollcall

open Store (Answer Failure)
open Registry (Layout)

/-- The edition in which the document of each instance stands. -/
abbrev Editions := String → Edition

/-- The editions that there were of each document. -/
abbrev Archive := String → Edition → Prop

/-- An archive with the editions of one more moment. -/
def Archive.extend (R : Archive) (E : Editions) : Archive := fun id e => R id e ∨ e = E id

/-- Whether an index is that of the edition or of an earlier write. -/
def Edition.Backs (e : Edition) (index : Int) : Prop := ∃ k ≤ e.index, index = Store.signed k

theorem Edition.Backs.mono {e e' : Edition} {index : Int} (h : e.Backs index)
    (hi : e.index ≤ e'.index) : e'.Backs index := by
  obtain ⟨k, hk, he⟩ := h
  exact ⟨k, Nat.le_trans hk hi, he⟩

/-! ## The own document -/

namespace Renewal

/-- What a member remembers of its document, which stands in the edition `e`, and what it says of it
when it renews its announce. -/
structure Remembers (e : Edition) (m : Member) (loop : Loop Stage) : Prop where
  index : e.Backs m.known.propertiesIndex
  sent : ∀ {p : Properties}, m.sent = some p →
    e.properties = p ∧ m.known.propertiesIndex = Store.signed e.index
  renewing : ∀ {key : String} {d : Payload} {ttl : Nat}, loop = .asking (.renewing key d ttl) →
    d.instanceId = m.self.id ∧ d.propertiesIndex = m.known.propertiesIndex ∧ m.sent.isSome = true

variable {e e' : Edition} {m : Member} {loop : Loop Stage}

/-- Remembering less. -/
private theorem Remembers.less (h : Remembers e m loop) {m' : Member} {loop' : Loop Stage}
    (hi : m'.known.propertiesIndex = m.known.propertiesIndex)
    (hs : m'.sent = m.sent ∨ m'.sent = none)
    (hl : ∀ {key d ttl}, loop' ≠ .asking (.renewing key d ttl)) : Remembers e m' loop' where
  index := by rw [hi]; exact h.index
  sent hp := by
    rw [hi]
    rcases hs with hs | hs
    · exact h.sent (hs ▸ hp)
    · cases hs.symm.trans hp
  renewing he := absurd he hl

theorem remembers_begin (h : Remembers e m loop) :
    Remembers e (begin m).1 (begin m).2.loop := by
  have hb := begins_begin m
  generalize begin m = x at hb ⊢
  cases hb with
  | idle _ => exact h.less rfl (.inr rfl) nofun
  | sending _ _ => exact h.less rfl (.inl rfl) nofun
  | missing _ _ => exact h.less rfl (.inl rfl) nofun
  | renewing _ hs _ =>
    refine ⟨h.index, h.sent, fun he => ?_⟩
    cases he
    exact ⟨rfl, rfl, by rw [hs]; rfl⟩

/-- An answer by which nothing was written. -/
theorem remembers_answered (h : Remembers e m loop) {stage : Stage} {answer : Answer}
    (hno : ∀ {p index}, stage = .sending p →
      (Registry.publish m.layout m.self.id p).outcome answer ≠ .ok index) :
    Remembers e (answered m stage answer).1 (answered m stage answer).2.loop := by
  have ha := answers_answered m stage answer
  generalize answered m stage answer = x at ha ⊢
  cases ha with
  | sent _ hok _ => exact absurd hok (hno rfl)
  | missing _ hok _ => exact absurd hok (hno rfl)
  | renewed tally hok =>
    refine h.less ?_ (.inl rfl) fun hs => by cases hs
    simp only [Known.replaceIfHeld]
    split <;> rfl
  | unsent _ _ => exact h.less rfl (.inl rfl) fun hs => by cases hs
  | unrenewed _ _ => exact h.less rfl (.inl rfl) fun hs => by cases hs

/-- A document was written, and stands in the edition that the answer tells. -/
theorem remembers_sent {p : Properties} {answer : Answer}
    (hok : (Registry.publish m.layout m.self.id p).outcome answer =
      .ok (Store.signed e.index)) (hp : e.properties = p) :
    Remembers e (answered m (.sending p) answer).1 (answered m (.sending p) answer).2.loop := by
  have hpublished : ∀ tally {index}, (Registry.publish m.layout m.self.id p).outcome answer =
      .ok index → Remembers e (published m tally p index) .resting := by
    intro tally index hok'
    have hi : Store.signed e.index = index := Except.ok.inj (hok.symm.trans hok')
    exact {
      index := ⟨e.index, Nat.le_refl _, hi.symm⟩
      sent := fun hs => ⟨hp.trans (Option.some.inj hs), hi.symm⟩
      renewing := nofun }
  have ha := answers_answered m (.sending p) answer
  generalize answered m (.sending p) answer = x at ha ⊢
  cases ha with
  | sent tally hok' _ =>
    refine ⟨(hpublished tally hok').index, (hpublished tally hok').sent, fun he => ?_⟩
    cases he
    exact ⟨rfl, rfl, rfl⟩
  | missing tally hok' _ => exact (hpublished tally hok').less rfl (.inl rfl) nofun
  | unsent _ hf => cases hok.symm.trans hf

end Renewal

namespace Attendance

/-- What a member remembers of its document and says of it when it announces itself. -/
structure Publishes (e : Edition) (a : Attendance) : Prop
    extends Renewal.Remembers e a.session.member a.session.renewal where
  creating : ∀ {g : Nat} {d : Payload}, a.session.member.control.Waits g (.answer (.creating d)) →
    d.instanceId = a.session.member.self.id ∧ e.Backs d.propertiesIndex

/-- What leaves alone what a member remembers of its document, and what its renewals ask. -/
structure Reticent (a a' : Attendance) : Prop where
  index : a'.session.member.known.propertiesIndex = a.session.member.known.propertiesIndex
  sent : a'.session.member.sent = a.session.member.sent
  renewal : ∀ {stage : Renewal.Stage}, a'.session.renewal = .asking stage →
    a.session.renewal = .asking stage

variable {a : Attendance}

theorem Reticent.refl (a : Attendance) : Reticent a a := ⟨rfl, rfl, id⟩

private theorem reticent_of_besides {s : Session} (h : a.session.Besides s) :
    Reticent a { a with session := s } := ⟨h.index, h.sent, fun hs => h.loop ▸ hs⟩

private theorem reticent_withdraw {s : Session} {f : Farewell}
    (hi : s.member.known.propertiesIndex = a.session.member.known.propertiesIndex)
    (hs : s.member.sent = a.session.member.sent) (hl : s.renewal = a.session.renewal) :
    Reticent a { session := s.withdraw.1, farewell := f } := by
  obtain ⟨_, hw⟩ := s.withdraw_eq
  rw [hw]
  exact ⟨hi, hs, fun hs => hl ▸ hs⟩

/-- Rounds of renewal apart, what happens to an attendance leaves its document alone. -/
theorem reticent_move {x : Move} (hx : ∀ input, x.part? ≠ some (.renewal, input)) :
    Reticent a (a.move x) := by
  have hpasses := a.passes_move x
  generalize a.move x = a' at hpasses
  cases hpasses with
  | idle => exact .refl a
  | starts _ _ => exact ⟨rfl, rfl, nofun⟩
  | goes hpart _ hgoes => exact reticent_of_besides (hgoes.besides fun hp => hx _ (hp ▸ hpart))
  | leaves _ _ _ => exact reticent_withdraw rfl rfl rfl
  | removes _ _ => exact reticent_withdraw rfl rfl rfl
  | _ => exact ⟨rfl, rfl, id⟩

theorem reticent_act {x : Act} (hx : x ≠ .proceed .renewal) : Reticent a (a.act x) :=
  reticent_move (x := .act x) (by simpa using hx)

theorem reticent_receive {t : Task} (ht : t ≠ .part .renewal) (answer : Answer) :
    Reticent a (a.receive t answer) :=
  reticent_move (x := .receive t answer) (by simpa using ht)

private theorem Reticent.remembers {a' : Attendance} {e : Edition} (h : Reticent a a')
    (hself : a'.session.member.self = a.session.member.self)
    (hr : Renewal.Remembers e a.session.member a.session.renewal) :
    Renewal.Remembers e a'.session.member a'.session.renewal where
  index := by rw [h.index]; exact hr.index
  sent hp := by
    rw [h.index]
    exact hr.sent (h.sent ▸ hp)
  renewing hs := by
    rw [h.index, h.sent, hself]
    exact hr.renewing (h.renewal hs)

variable {self : Profile} {layout : Layout} {e e' : Edition}

private theorem self_move (hk : Keeps (own self layout) a) (x : Move) :
    (a.move x).session.member.self = a.session.member.self :=
  (hk.move_own x).member.self.trans hk.member.self.symm

/-- A member announces itself by what it remembers of its document. -/
private theorem Publishes.of_remembers (h : Publishes e a) (hk : Keeps (own self layout) a)
    (hi : e.index ≤ e'.index) {x : Move}
    (hr : Renewal.Remembers e' (a.move x).session.member (a.move x).session.renewal) :
    Publishes e' (a.move x) where
  toRemembers := hr
  creating hw := by
    rw [self_move hk x]
    rcases creating_move hk x hw with hw | ⟨_, rfl⟩
    · exact ⟨(h.creating hw).1, (h.creating hw).2.mono hi⟩
    · exact ⟨rfl, h.index.mono hi⟩

theorem Publishes.act (h : Publishes e a) (hk : Keeps (own self layout) a) (x : Act) :
    Publishes e (a.act x) := by
  refine h.of_remembers hk (Nat.le_refl _) (x := .act x) ?_
  by_cases hx : x = .proceed .renewal
  · subst hx
    have hgoes := (goes_move (a := a) (x := .act (.proceed .renewal)) rfl).1
    generalize (a.move (.act (.proceed .renewal))).session = s at hgoes ⊢
    cases hgoes with
    | still => exact h.toRemembers
    | renewalEnds _ => exact ⟨h.index, h.sent, by simp⟩
    | renews _ _ =>
      rw [Session.member_afterRenewal, Session.renewal_afterRenewal]
      exact Renewal.remembers_begin h.toRemembers
  · exact (reticent_act hx).remembers (self_move hk (.act x)) h.toRemembers

/-- What a member holds of its document stays as it is when nothing was written. -/
theorem Publishes.receive (h : Publishes e a) (hk : Keeps (own self layout) a) {t : Task}
    {answer : Answer}
    (hno : ∀ {p index}, t = .part .renewal → a.session.renewal = .asking (.sending p) →
      (Registry.publish a.session.member.layout a.session.member.self.id p).outcome answer ≠
        .ok index) :
    Publishes e (a.receive t answer) := by
  refine h.of_remembers hk (Nat.le_refl _) (x := .receive t answer) ?_
  by_cases ht : t = .part .renewal
  · subst ht
    have hgoes := a.session.goes_receive .renewal answer
    rw [move, Attendance.receive]
    generalize (a.session.receive .renewal answer).1 = s at hgoes ⊢
    cases hgoes with
    | still => exact h.toRemembers
    | renewed hs =>
      rw [Session.member_afterRenewal, Session.renewal_afterRenewal]
      exact Renewal.remembers_answered h.toRemembers fun hp => hno rfl (hs.trans (by rw [hp]))
  · exact (reticent_receive ht answer).remembers (self_move hk (.receive t answer)) h.toRemembers

/-- A member whose document was written remembers its new edition. -/
theorem Publishes.written (h : Publishes e a) (hk : Keeps (own self layout) a)
    (hi : e.index ≤ e'.index) {answer : Answer}
    (hs : a.session.renewal = .asking (.sending e'.properties))
    (hok : (Registry.publish a.session.member.layout a.session.member.self.id
      e'.properties).outcome answer = .ok (Store.signed e'.index)) :
    Publishes e' (a.receive (.part .renewal) answer) := by
  refine h.of_remembers hk hi (x := .receive (.part .renewal) answer) ?_
  rw [move, Attendance.receive, Session.receive_renewal hs, Session.member_afterRenewal,
    Session.renewal_afterRenewal]
  exact Renewal.remembers_sent hok rfl

theorem publishes_ofConfig (c : Config) (naming : Option Naming) (e : Edition) :
    Publishes e (ofMember (Member.ofConfig c naming)) := by
  obtain ⟨contributors, he⟩ := Member.ofConfig_eq c naming
  exact {
    index := ⟨0, Nat.zero_le _, by rw [he]; rfl⟩
    sent := fun hp => by rw [he] at hp; cases hp
    renewing := nofun
    creating := fun hw => absurd hw Member.not_waits_ofConfig }

end Attendance

/-! ## The documents of the others -/

namespace Listing

/-- An instance that is not stale was listed before with the same index. -/
theorem kept_of_not_mem_stale {previous current : Listing} {r : Announce}
    (hr : r ∈ current.entries) (hs : r.instanceId ∉ (diff previous current).stale) :
    ∃ b ∈ previous.entries, b.instanceId = r.instanceId ∧
      b.data.propertiesIndex = r.data.propertiesIndex := by
  have hnot : ∀ {change}, indexKept previous r = change → change ≠ none ∧ change ≠ some false := by
    rintro change rfl
    constructor
    · exact fun hc => hs (List.mem_append_left _
        (List.mem_map.mpr ⟨r, List.mem_filter.mpr ⟨hr, decide_eq_true hc⟩, rfl⟩))
    · exact fun hc => hs (List.mem_append_right _
        (List.mem_map.mpr ⟨r, List.mem_filter.mpr ⟨hr, decide_eq_true hc⟩, rfl⟩))
  obtain ⟨hnone, hfalse⟩ := hnot rfl
  unfold indexKept at hnone hfalse
  cases hb : previous.get? r.instanceId with
  | none => simp [hb] at hnone
  | some b =>
    obtain ⟨hmem, hid⟩ := mem_of_get? hb
    refine ⟨b, hmem, hid, ?_⟩
    simpa [hb] using hfalse

theorem contains_of_mem {l : Listing} {r : Announce} (h : r ∈ l.entries) :
    l.contains r.instanceId = true := by
  rw [contains, get?, List.find?_isSome]
  exact ⟨r, h, by simp⟩

/-- Whether an instance is listed with an index of its properties. -/
def Tells (l : Listing) (id : String) (index : Int) : Prop :=
  ∃ r ∈ l.entries, r.instanceId = id ∧ r.data.propertiesIndex = index

/-- Listings that agree tell the same indices. -/
theorem Tells.of_agrees {l m : Listing} {id : String} {index : Int} (h : l.Tells id index)
    (hlm : l.agrees m = true) : m.Tells id index := by
  obtain ⟨r, hr, rfl, rfl⟩ := h
  have hc : l.content = m.content := by simpa [agrees] using hlm
  have hm : r.content ∈ m.content := hc ▸ List.mem_map_of_mem hr
  obtain ⟨b, hb, he⟩ := List.mem_map.mp hm
  have hd : b.data.content = r.data.content := congrArg Prod.snd he
  exact ⟨b, hb, congrArg Prod.fst hd, congrArg (fun x => x.2.2) hd⟩

theorem Tells.without {l : Listing} {id self : String} {index : Int} (h : l.Tells id index)
    (hne : id ≠ self) : (l.without self).Tells id index := by
  obtain ⟨r, hr, rfl, hi⟩ := h
  exact ⟨r, mem_without.mpr ⟨hr, hne⟩, rfl, hi⟩

end Listing

namespace Survey

variable {m : Member} {remote : Listing} {ids : List String} {found : Dict String Properties}

private theorem find?_foldl_fetched (ids : List String) (d : Dict String Properties)
    {id : String} :
    (ids.foldl (fun d id => d.insert id ((found.find? id).getD ∅)) d).find? id =
      if id ∈ ids then some ((found.find? id).getD ∅) else d.find? id := by
  induction ids generalizing d with
  | nil => simp
  | cons x ids ih =>
    rw [List.foldl_cons, ih, Dict.find?_insert]
    by_cases hx : id = x
    · simp [hx]
    · simp [hx]

/-- The properties published for an instance: those fetched, or those held before if it is listed. -/
theorem find?_publish_eq (id : String) :
    (publish m remote ids found).known.remoteProperties.find? id =
      if id ∈ ids then some ((found.find? id).getD ∅)
      else if remote.contains id then m.known.remoteProperties.find? id else none := by
  show (ids.foldl (fun d id => d.insert id ((found.find? id).getD ∅))
    (m.known.remoteProperties.filter fun id _ => remote.contains id)).find? id = _
  rw [find?_foldl_fetched, Dict.find?_filter]
  cases m.known.remoteProperties.find? id <;> simp [Option.filter]

/-- The properties published for an instance that is listed: those fetched, or those held before. -/
theorem find?_publish {id : String} (h : remote.contains id = true) :
    (publish m remote ids found).known.remoteProperties.find? id =
      if id ∈ ids then some ((found.find? id).getD ∅)
      else m.known.remoteProperties.find? id := by
  rw [find?_publish_eq, if_pos h]

/-- What a member holds of the others: the properties of each as in an edition of the archive that
backs the announce known. What is to be fetched is what the member has to ask for, and the documents
back the announces that it is going to know. -/
structure Copies (R : Archive) (E : Editions) (m : Member) (loop : Loop Stage) : Prop where
  held : ∀ r ∈ m.known.remote.entries, ∃ e, R r.instanceId e ∧ e.Backs r.data.propertiesIndex ∧
    m.known.remoteProperties.find? r.instanceId = some e.properties
  fetching : ∀ {remote : Listing} {ids : List String}, loop = .asking (.fetching remote ids) →
    ids = (Listing.diff m.known.remote remote).stale ∧
      ∀ r ∈ remote.entries, Store.Path.IsName r.instanceId ∧
        (E r.instanceId).Backs r.data.propertiesIndex

/-- An answer to a survey that tells what stands in the store: announces that the documents back,
and the documents themselves. -/
def Faithful (E : Editions) (m : Member) (answer : Answer) : Stage → Prop
  | .listing => ∀ nodes l, (Registry.announces m.layout).outcome answer = .ok nodes →
      Listing.ofNodes nodes (!m.keepExpired) = .ok l →
      ∀ r ∈ l.entries, Store.Path.IsName r.instanceId ∧
        (E r.instanceId).Backs r.data.propertiesIndex
  | .fetching _ ids => ∀ found, (fetched m ids answer).2 = .ok found →
      ∀ id ∈ ids, Store.Path.IsName id → (found.find? id).getD ∅ = (E id).properties

variable {R R' : Archive} {E E' : Editions} {loop : Loop Stage}

/-- Editions are followed by later ones, and the archive grows. -/
theorem Copies.mono (h : Copies R E m loop) (hR : ∀ {id e}, R id e → R' id e)
    (hE : ∀ id, (E id).index ≤ (E' id).index) : Copies R' E' m loop where
  held r hr := by
    obtain ⟨e, he, hb, hp⟩ := h.held r hr
    exact ⟨e, hR he, hb, hp⟩
  fetching hs := by
    obtain ⟨hids, hr⟩ := h.fetching hs
    exact ⟨hids, fun r hmem => ⟨(hr r hmem).1, (hr r hmem).2.mono (hE _)⟩⟩

/-- A member that does something else. -/
theorem Copies.aside (h : Copies R E m loop) {m' : Member} (hm : m.Aside m') :
    Copies R E m' loop where
  held := by
    rw [hm.remote, hm.properties]
    exact h.held
  fetching := by
    rw [hm.remote]
    exact h.fetching

/-- A loop that does not wait for properties. -/
theorem Copies.elsewhere (h : Copies R E m loop) {loop' : Loop Stage}
    (hl : ∀ {remote ids}, loop' ≠ .asking (.fetching remote ids)) : Copies R E m loop' :=
  ⟨h.held, fun hs => absurd hs hl⟩

/-- What is published is held: what was fetched is as the documents say, and the rest as before. -/
private theorem copies_publish (h : Copies R E m loop) (hE : ∀ id, R id (E id))
    (hids : ids = (Listing.diff m.known.remote remote).stale)
    (hr : ∀ r ∈ remote.entries, r.instanceId ∈ ids →
      (E r.instanceId).Backs r.data.propertiesIndex ∧
        (found.find? r.instanceId).getD ∅ = (E r.instanceId).properties) :
    Copies R E (publish m remote ids found) .resting where
  held r hmem := by
    have hmem : r ∈ remote.entries := hmem
    rw [find?_publish (Listing.contains_of_mem hmem)]
    split
    · next hi =>
      obtain ⟨hb, hp⟩ := hr r hmem hi
      exact ⟨E r.instanceId, hE _, hb, by rw [hp]⟩
    · next hi =>
      obtain ⟨b, hb, hbi, hbx⟩ := Listing.kept_of_not_mem_stale hmem (hids ▸ hi)
      obtain ⟨e, he, hbacks, hp⟩ := h.held b hb
      exact ⟨e, hbi ▸ he, hbx ▸ hbacks, hbi ▸ hp⟩
  fetching := nofun

private theorem copies_answered {stage : Stage} (h : Copies R E m (.asking stage))
    (hE : ∀ id, R id (E id)) {answer : Answer} (hf : Faithful E m answer stage) :
    Copies R E (answered m stage answer).1 (answered m stage answer).2.loop := by
  have ha := answers_answered m stage answer
  generalize answered m stage answer = x at ha ⊢
  have htally : ∀ tally, m.Aside { m with tally } := fun _ => ⟨rfl, rfl, rfl, rfl, rfl⟩
  cases ha with
  | failed tally _ => exact (h.aside (htally tally)).elsewhere nofun
  | agreed tally _ _ _ => exact (h.aside (htally tally)).elsewhere nofun
  | published tally hok hof hs =>
    exact copies_publish (h.aside (htally tally)) hE hs.symm fun _ _ hi =>
      absurd hi List.not_mem_nil
  | found tally hok hof =>
    refine ⟨(h.aside (htally tally)).held, fun hs => ?_⟩
    cases hs
    exact ⟨rfl, fun r hr => hf _ _ hok hof r (Listing.mem_without.mp hr).1⟩
  | fetched tally hok =>
    obtain ⟨hids, hr⟩ := h.fetching rfl
    exact copies_publish (h.aside (htally tally)) hE hids fun r hmem hi =>
      ⟨(hr r hmem).2, hf _ hok _ hi (hr r hmem).1⟩

/-- A round that goes on from an answer goes on as its survey does. -/
theorem loop_roundAnswered (m : Member) (stage : Stage) (answer : Answer) :
    (answered m stage answer).1.Aside (roundAnswered m stage answer).1 ∧
      (roundAnswered m stage answer).2.loop = (answered m stage answer).2.loop := by
  unfold roundAnswered
  split
  · next he =>
    rw [he]
    exact ⟨.refl _, rfl⟩
  · next he =>
    rw [he]
    exact ⟨.conclude _ _, rfl⟩

/-- What a member holds of the others it goes on holding after an answer to its survey. -/
theorem copies_roundAnswered {stage : Stage} (h : Copies R E m (.asking stage))
    (hE : ∀ id, R id (E id)) {answer : Answer} (hf : Faithful E m answer stage) :
    Copies R E (roundAnswered m stage answer).1 (roundAnswered m stage answer).2.loop := by
  obtain ⟨haside, hloop⟩ := loop_roundAnswered m stage answer
  rw [hloop]
  exact (copies_answered h hE hf).aside haside

end Survey

theorem Session.survey_afterSurvey (s : Session) (x : Member × Turn Survey.Stage Duration) :
    (s.afterSurvey x).1.survey = x.2.loop := by
  obtain ⟨m, stage | d⟩ := x
  · rfl
  · rfl

namespace Attendance

variable {a : Attendance} {R : Archive} {E : Editions}

/-- What a member holds of the others it goes on holding whatever is done with it. -/
theorem copies_act (h : Survey.Copies R E a.session.member a.session.survey) (x : Act) :
    Survey.Copies R E (a.act x).session.member (a.act x).session.survey := by
  by_cases hstart : x = .start
  · subst hstart
    show Survey.Copies R E a.session.start.member a.session.start.survey
    unfold Session.start
    split
    · exact h
    · have haside : a.session.member.Aside
          { a.session.member with control := a.session.member.control.start } :=
        ⟨rfl, rfl, rfl, rfl, rfl⟩
      exact (h.aside haside).elsewhere fun hs => by cases hs
  by_cases hsurvey : x = .proceed .survey
  · subst hsurvey
    have hgoes := (goes_move (a := a) (x := .act (.proceed .survey)) rfl).1
    rw [move] at hgoes
    generalize (a.act (.proceed .survey)).session = s at hgoes ⊢
    cases hgoes with
    | still => exact h
    | surveyEnds _ => exact h.elsewhere (by simp)
    | surveys _ _ =>
      rw [Session.member_afterSurvey, Session.survey_afterSurvey]
      refine (h.aside (.beginSurvey _)).elsewhere fun hs => ?_
      unfold Survey.begin at hs
      split at hs <;> cases hs
  · have hapart := a.apart_act hstart hsurvey
    rw [hapart.survey]
    exact h.aside hapart.member

/-- What a member holds of the others it goes on holding after an answer that tells what stands in
the store. -/
theorem copies_receive (h : Survey.Copies R E a.session.member a.session.survey)
    (hE : ∀ id, R id (E id)) {t : Task} {answer : Answer}
    (hf : ∀ {stage}, t = .part .survey → a.session.survey = .asking stage →
      Survey.Faithful E a.session.member answer stage) :
    Survey.Copies R E (a.receive t answer).session.member
      (a.receive t answer).session.survey := by
  by_cases ht : t = .part .survey
  · subst ht
    have hgoes := a.session.goes_receive .survey answer
    rw [receive]
    generalize (a.session.receive .survey answer).1 = s at hgoes ⊢
    cases hgoes with
    | still => exact h
    | surveyed hs =>
      rw [Session.member_afterSurvey, Session.survey_afterSurvey]
      rw [hs] at h
      exact Survey.copies_roundAnswered h hE (hf rfl hs)
  · have hapart := a.apart_receive ht answer
    rw [hapart.survey]
    exact h.aside hapart.member

theorem copies_ofConfig (c : Config) (naming : Option Naming) (R : Archive) (E : Editions) :
    Survey.Copies R E (ofMember (Member.ofConfig c naming)).session.member
      (ofMember (Member.ofConfig c naming)).session.survey := by
  obtain ⟨contributors, he⟩ := Member.ofConfig_eq c naming
  refine ⟨fun r hr => ?_, fun hs => nomatch hs⟩
  rw [ofMember, he] at hr
  cases hr

end Attendance

end Rollcall
