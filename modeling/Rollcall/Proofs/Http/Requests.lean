import Mathlib.Data.List.Forall2
import Mathlib.Data.List.SplitBy
import Rollcall.Http.Message
import Rollcall.Proofs.Http.Encoding

/-!
# Requests as they are received

A server reads the key of a request from the target, one slash in front of it, and from the query or
the body the settings of the request, in their order and with their texts. These tell the whole
request, so no two requests send the same message unless they differ only in the slashes with which
their keys begin. It does not matter how the bytes of a text are cut into pieces before they are
sent, as long as a space is a piece of its own.
-/

namespace Rollcall.Http

open Store (Request Method WriteOptions RemovalOptions)
open Text

/-! ## Pieces -/

/-- What may be handed over as one piece for a run of bytes: those that stand for themselves, or
what a form has for a single one. -/
inductive IsPiece : List UInt8 → List Char → Prop
  | plain {run : List UInt8} (h : ∀ b ∈ run, isPlain b = true) :
    IsPiece run (run.map fun b => Char.ofNat b.toNat)
  | single (b : UInt8) : IsPiece [b] (encodeByte ['+'] b)

/-- A way of handing over the bytes of a form piece by piece. -/
structure Serializer where
  pieces : List UInt8 → List (List Char)
  /-- The pieces stand for the bytes, one run after the other. -/
  exists_runs (bs : List UInt8) : ∃ runs : List (List UInt8),
    runs.flatten = bs ∧ List.Forall₂ IsPiece runs (pieces bs)

theorem encodeByte_of_isPlain {b : UInt8} (h : isPlain b = true) (space : List Char) :
    encodeByte space b = [Char.ofNat b.toNat] := by
  have hb : b ≠ 0x20 := by
    rintro rfl
    exact absurd h (by decide)
  rw [encodeByte, if_neg hb, if_pos h]

theorem flatMap_encodeByte_of_isPlain {run : List UInt8} (h : ∀ b ∈ run, isPlain b = true)
    (space : List Char) : run.flatMap (encodeByte space) = run.map fun b => Char.ofNat b.toNat := by
  rw [← List.flatMap_singleton' (run.map _), List.flatMap_map]
  exact List.flatMap_congr fun b hb => encodeByte_of_isPlain (h b hb) space

/-- A piece in a path, where a plus sign would be read as it is. -/
def patch (piece : List Char) : List Char := if piece = ['+'] then ['%', '2', '0'] else piece

theorem patch_eq_self {piece : List Char} (h : ∀ c ∈ piece, IsSent c) : patch piece = piece := by
  refine if_neg fun hplus => ?_
  rw [hplus] at h
  exact absurd (h '+' (.head _)) (by decide)

namespace IsPiece

variable {run : List UInt8} {piece : List Char}

theorem eq_flatMap (h : IsPiece run piece) : piece = run.flatMap (encodeByte ['+']) := by
  cases h with
  | plain h => exact (flatMap_encodeByte_of_isPlain h _).symm
  | single b => exact (List.flatMap_singleton _ b).symm

/-- A piece that is a plus sign stands for a space: a plus sign itself is escaped. -/
theorem patch_eq (h : IsPiece run piece) :
    patch piece = run.flatMap (encodeByte ['%', '2', '0']) := by
  cases h with
  | plain h =>
    rw [flatMap_encodeByte_of_isPlain h]
    refine patch_eq_self fun c hc => ?_
    obtain ⟨b, hb, rfl⟩ := List.mem_map.mp hc
    exact isSent_of_isPlain (h b hb)
  | single b =>
    rw [List.flatMap_singleton]
    by_cases hb : b = 0x20
    · rw [encodeByte, encodeByte, if_pos hb, if_pos hb]
      rfl
    · rw [encodeByte_of_ne hb ['+'], encodeByte_of_ne hb ['%', '2', '0']]
      exact patch_eq_self fun c hc => isSent_of_mem hc

end IsPiece

theorem flatMap_of_forall₂ {runs : List (List UInt8)} {pieces : List (List Char)}
    {f : List Char → List Char} {g : UInt8 → List Char} (hpieces : List.Forall₂ IsPiece runs pieces)
    (h : ∀ run piece, IsPiece run piece → f piece = run.flatMap g) :
    pieces.flatMap f = runs.flatten.flatMap g := by
  induction hpieces with
  | nil => rfl
  | cons hpiece _ ih =>
    rw [List.flatMap_cons, h _ _ hpiece, ih, List.flatten_cons, List.flatMap_append]

namespace Serializer

theorem flatMap_pieces (s : Serializer) (bs : List UInt8) {f : List Char → List Char}
    {g : UInt8 → List Char} (h : ∀ run piece, IsPiece run piece → f piece = run.flatMap g) :
    (s.pieces bs).flatMap f = bs.flatMap g := by
  obtain ⟨runs, hruns, hpieces⟩ := s.exists_runs bs
  rw [flatMap_of_forall₂ hpieces h, hruns]

/-- A text in a form, piece by piece. -/
def field (s : Serializer) (cs : List Char) : List Char := (s.pieces (bytes cs)).flatten

/-- A text in a path, piece by piece. -/
def segment (s : Serializer) (cs : List Char) : List Char := (s.pieces (bytes cs)).flatMap patch

theorem field_eq (s : Serializer) : s.field = encodeField := by
  funext cs
  rw [field, ← List.flatMap_id]
  exact s.flatMap_pieces (bytes cs) fun _ _ h => h.eq_flatMap

theorem segment_eq (s : Serializer) : s.segment = encodeSegment :=
  funext fun cs => s.flatMap_pieces (bytes cs) fun _ _ h => h.patch_eq

/-- A form, piece by piece. -/
def form (s : Serializer) (form : Form) : List Char :=
  join '&' (form.map fun f => s.field f.1.toList ++ '=' :: s.field f.2.toList)

theorem form_eq (s : Serializer) : s.form = encodeForm := by
  funext form
  rw [Serializer.form, field_eq]
  rfl

/-- The message of a request, its texts handed over piece by piece. -/
def message (s : Serializer) (r : Request) : Message where
  method := r.method
  target :=
    let path := keysPath.toList ++
      (split '/' (r.key.toList.dropWhile (· = '/'))).flatMap fun cs => '/' :: s.segment cs
    let fields := query r
    String.ofList (if fields.isEmpty then path else path ++ '?' :: s.form fields)
  body := (form? r).map fun f => String.ofList (s.form f)

/-- The pieces do not show in the message. -/
theorem message_eq (s : Serializer) (r : Request) : s.message r = Message.ofRequest r := by
  rw [message, form_eq, segment_eq]
  rfl

theorem isPlain_of_isChain {a b : UInt8} {run : List UInt8}
    (h : (a :: b :: run).IsChain fun a b => isPlain a && isPlain b) :
    ∀ c ∈ a :: b :: run, isPlain c = true := by
  induction run generalizing a b with
  | nil => simpa using h
  | cons d run ih =>
    obtain ⟨hab, hrest⟩ := List.isChain_cons_cons.mp h
    rw [Bool.and_eq_true] at hab
    exact List.forall_mem_cons.mpr ⟨hab.1, ih hrest⟩

/-- Bytes that stand for themselves in runs as long as they can be, and the others one by one. -/
def longestRuns : Serializer where
  pieces bs := (bs.splitBy fun a b => isPlain a && isPlain b).map fun run =>
    run.flatMap (encodeByte ['+'])
  exists_runs bs := by
    refine ⟨_, List.flatten_splitBy (fun a b => isPlain a && isPlain b) bs, ?_⟩
    rw [List.forall₂_map_right_iff, List.forall₂_same]
    intro run hrun
    match run, List.ne_nil_of_mem_splitBy hrun, List.isChain_of_mem_splitBy hrun with
    | [b], _, _ =>
      rw [List.flatMap_singleton]
      exact .single b
    | a :: b :: run, _, hchain =>
      have hplain := isPlain_of_isChain hchain
      rw [flatMap_encodeByte_of_isPlain hplain]
      exact .plain hplain

instance : Inhabited Serializer := ⟨longestRuns⟩

end Serializer

/-! ## Settings -/

/-- The text of a flag, which is sent only if it holds. -/
def flagText? (b : Bool) : Option String := if b then some "true" else none

/-- The text of a truth value. -/
def truthText (b : Bool) : String := if b then "true" else "false"

/-- What can be set in a request, in the order in which it is sent, with its text if it is set. -/
def settings : Request → List (String × Option String)
  | .get _ recursive sorted => [("recursive", flagText? recursive), ("sorted", flagText? sorted)]
  | .put _ value o => [
      ("value", value), ("ttl", o.ttl.map ofNat), ("dir", flagText? o.dir),
      ("prevExist", o.prevExist.map truthText), ("prevValue", o.prevValue),
      ("prevIndex", o.prevIndex.map ofNat)]
  | .post _ value ttl => [("value", some value), ("ttl", ttl.map ofNat)]
  | .delete _ o => [
      ("recursive", flagText? o.recursive), ("dir", flagText? o.dir),
      ("prevValue", o.prevValue), ("prevIndex", o.prevIndex.map ofNat)]

/-- The fields of the settings that are set. -/
def setFields (settings : List (String × Option String)) : Form :=
  settings.filterMap fun s => s.2.map fun text => (s.1, text)

theorem setFields_nil : setFields [] = [] := rfl

theorem setFields_cons (s : String × Option String) (settings : List (String × Option String)) :
    setFields (s :: settings) = field s.1 id s.2 ++ setFields settings := by
  obtain ⟨name, _ | text⟩ := s <;> rfl

theorem flagField_eq (name : String) (b : Bool) :
    flagField name b = field name id (flagText? b) := by
  cases b <;> rfl

theorem field_eq {α : Type} (name : String) (text : α → String) (a : Option α) :
    field name text a = field name id (a.map text) := by
  cases a <;> rfl

/-- Whether requests of a method have their settings in the body. -/
def inBody : Method → Bool
  | .put | .post => true
  | .get | .delete => false

/-- The query has the settings that are set, unless the body has them. -/
theorem query_eq (r : Request) :
    query r = if inBody r.method then [] else setFields (settings r) := by
  cases r with
  | put | post => rfl
  | get =>
    rw [query, flagField_eq, flagField_eq]
    simp [Request.method, inBody, settings, setFields_cons, setFields_nil]
  | delete =>
    rw [query, deleteForm, flagField_eq, flagField_eq, field_eq "prevIndex"]
    simp [Request.method, inBody, settings, setFields_cons, setFields_nil]

/-- The body has the settings that are set, if there is a body. -/
theorem form?_eq (r : Request) :
    form? r = if inBody r.method then some (setFields (settings r)) else none := by
  cases r with
  | get | delete => rfl
  | put =>
    rw [form?, putForm, field_eq "ttl", flagField_eq, field_eq "prevExist", field_eq "prevIndex"]
    simp only [Request.method, inBody, settings, setFields_cons, setFields_nil, if_true,
      List.append_nil, List.append_assoc]
    rfl
  | post =>
    rw [form?, field_eq "ttl"]
    simp only [Request.method, inBody, settings, setFields_cons, setFields_nil, if_true,
      List.append_nil]
    rfl

theorem lookup_setFields_cons (s : String × Option String)
    (settings : List (String × Option String)) (name : String) :
    (setFields (s :: settings)).lookup name =
      if name = s.1 then s.2.or ((setFields settings).lookup name)
      else (setFields settings).lookup name := by
  obtain ⟨own, text⟩ := s
  rw [setFields_cons, List.lookup_append]
  by_cases h : name = own
  · cases text <;> simp [field, h]
  · cases text <;> simp [field, List.lookup_cons, h, beq_false_of_ne h]

theorem lookup_setFields_eq_none {settings : List (String × Option String)} {name : String}
    (h : name ∉ settings.map Prod.fst) : (setFields settings).lookup name = none := by
  induction settings with
  | nil => rfl
  | cons s settings ih =>
    rw [List.map_cons, List.mem_cons, not_or] at h
    rw [lookup_setFields_cons, if_neg h.1, ih h.2]

/-- A setting is found under its name. -/
theorem lookup_setFields {settings : List (String × Option String)}
    (hnodup : (settings.map Prod.fst).Nodup) {name : String} {text : Option String}
    (h : (name, text) ∈ settings) : (setFields settings).lookup name = text := by
  induction settings with
  | nil => exact absurd h List.not_mem_nil
  | cons s settings ih =>
    obtain ⟨hs, hnodup⟩ := List.nodup_cons.mp hnodup
    rw [lookup_setFields_cons]
    rcases List.mem_cons.mp h with rfl | h
    · rw [if_pos rfl, lookup_setFields_eq_none hs, Option.or_none]
    · have hne : name ≠ s.1 := by
        intro hname
        exact hs (List.mem_map.mpr ⟨_, h, hname⟩)
      rw [if_neg hne, ih hnodup h]

/-- No request has two settings of one name. -/
theorem nodup_settings (r : Request) : ((settings r).map Prod.fst).Nodup := by
  cases r <;> simp [settings]

/-! ## What a server reads -/

/-- What a server takes from a message. -/
structure Reading where
  method : Method
  key : String
  query : Form
  /-- The fields of the body, if there is a body. -/
  body : Option Form
  deriving DecidableEq, Repr

/-- The key and the query of a target that is below the keys of the store. -/
def readTarget (target : List Char) : Option (String × Form) := do
  let path ← (target.takeWhile (· ≠ '?')).dropPrefix? keysPath.toList
  let key ← readPath path
  let query ← readForm ((target.dropWhile (· ≠ '?')).drop 1)
  return (key, query)

/-- A message as a server reads it, if it can be read. -/
def Message.read? (m : Message) : Option Reading := do
  let (key, query) ← readTarget m.target.toList
  let body ← m.body.mapM fun body => readForm body.toList
  return { method := m.method, key := key, query := query, body := body }

/-- What a server is to read from the message of a request. -/
def reading (r : Request) : Reading where
  method := r.method
  key := rooted r.key
  query := if inBody r.method then [] else setFields (settings r)
  body := if inBody r.method then some (setFields (settings r)) else none

/-- A path has no question mark, so it ends where the query begins. -/
theorem forall_mem_path (key : String) :
    ∀ c ∈ keysPath.toList ++ encodePath key, (decide (c ≠ '?')) = true := by
  intro c hc
  refine decide_eq_true ?_
  rintro rfl
  rcases List.mem_append.mp hc with hc | hc
  · exact absurd hc (by decide)
  · exact (isSent_of_mem_encodePath hc).elim (by decide) (by decide)

theorem readTarget_path (key : String) :
    readTarget (keysPath.toList ++ encodePath key) = some (rooted key, []) := by
  have hpath := forall_mem_path key
  have hquery : readForm (List.drop 1 []) = some [] := rfl
  rw [readTarget, List.takeWhile_eq_self_iff.mpr hpath, List.dropWhile_eq_nil_iff.mpr hpath,
    List.dropPrefix?_append_of_beq _ (beq_self_eq_true _), hquery]
  simp [readPath_encodePath]

theorem readTarget_query (key : String) (form : Form) :
    readTarget (keysPath.toList ++ encodePath key ++ '?' :: encodeForm form) =
      some (rooted key, form) := by
  have hpath := forall_mem_path key
  rw [readTarget, List.takeWhile_append_of_pos hpath, List.dropWhile_append_of_pos hpath,
    List.takeWhile_cons_of_neg (by decide), List.dropWhile_cons_of_neg (by decide),
    List.append_nil, List.dropPrefix?_append_of_beq _ (beq_self_eq_true _)]
  simp [readPath_encodePath, readForm_encodeForm]

/-- A server reads the key of a request, and the settings that are set. -/
theorem read?_ofRequest (r : Request) : (Message.ofRequest r).read? = some (reading r) := by
  have htarget : readTarget (Message.ofRequest r).target.toList = some (rooted r.key, query r) := by
    rw [Message.ofRequest, String.toList_ofList]
    split
    · next h => rw [readTarget_path, List.isEmpty_iff.mp h]
    · exact readTarget_query _ _
  have hbody : ((Message.ofRequest r).body.mapM fun body => readForm body.toList) =
      some (form? r) := by
    rw [Message.ofRequest]
    cases form? r with
    | none => rfl
    | some form => simp [readForm_encodeForm]
  rw [Message.read?, htarget, hbody, query_eq, form?_eq]
  rfl

-- An empty value is sent, and only one slash stands in front of the key.
example : (Message.ofRequest (.put "//d/a b+c" (some "") { ttl := some 5 })).read? = some
    { method := .put, key := "/d/a b+c", query := []
      body := some [("value", ""), ("ttl", "5")] } := by
  cbv

/-! ## What a server does -/

/-- A setting of a form, as `read` takes its text; nothing at all if it cannot take it. -/
def setting {α : Type} (form : Form) (name : String) (read : String → Option α) :
    Option (Option α) :=
  (form.lookup name).mapM read

/-- The truth value of a text. -/
def readTruth (text : String) : Option Bool :=
  if text = "true" then some true else if text = "false" then some false else none

/-- The number of a text. -/
def readNumber (text : String) : Option Nat := Decimal.readDigits text.toList

/-- A flag of a form, which is off if it is not there. -/
def flag (form : Form) (name : String) : Option Bool :=
  (setting form name readTruth).map fun b => b.getD false

/-- The reading of a key that a form asks for. -/
def getRequest? (key : String) (form : Form) : Option Request := do
  let recursive ← flag form "recursive"
  let sorted ← flag form "sorted"
  return .get key recursive sorted

/-- The write to a key that a form asks for. -/
def putRequest? (key : String) (form : Form) : Option Request := do
  let ttl ← setting form "ttl" readNumber
  let dir ← flag form "dir"
  let prevExist ← setting form "prevExist" readTruth
  let prevIndex ← setting form "prevIndex" readNumber
  return .put key (form.lookup "value")
    { ttl, dir, prevExist, prevValue := form.lookup "prevValue", prevIndex }

/-- The creation below a directory that a form asks for. -/
def postRequest? (dir : String) (form : Form) : Option Request := do
  let value ← form.lookup "value"
  let ttl ← setting form "ttl" readNumber
  return .post dir value ttl

/-- The deletion of a key that a form asks for. -/
def deleteRequest? (key : String) (form : Form) : Option Request := do
  let recursive ← flag form "recursive"
  let dir ← flag form "dir"
  let prevIndex ← setting form "prevIndex" readNumber
  return .delete key { recursive, dir, prevValue := form.lookup "prevValue", prevIndex }

/-- The request that a server takes from what it reads. -/
def Reading.request? (m : Reading) : Option Request :=
  match m.method, m.body with
  | .get, none => getRequest? m.key m.query
  | .put, some form => putRequest? m.key form
  | .post, some form => postRequest? m.key form
  | .delete, none => deleteRequest? m.key m.query
  | _, _ => none

/-- A request for the same key with one slash in front. -/
def rootedRequest : Request → Request
  | .get key recursive sorted => .get (rooted key) recursive sorted
  | .put key value options => .put (rooted key) value options
  | .post dir value ttl => .post (rooted dir) value ttl
  | .delete key options => .delete (rooted key) options

theorem readTruth_truthText (b : Bool) : readTruth (truthText b) = some b := by
  cases b <;> rfl

theorem readNumber_ofNat (n : Nat) : readNumber (ofNat n) = some n := by
  rw [readNumber, ofNat, String.toList_ofList, Decimal.readDigits_digits]

section

variable {r : Request} {name : String}

theorem lookup_settings {text : Option String} (h : (name, text) ∈ settings r) :
    (setFields (settings r)).lookup name = text :=
  lookup_setFields (nodup_settings r) h

theorem setting_settings {α : Type} {text : α → String} {read : String → Option α} {a : Option α}
    (hread : ∀ a, read (text a) = some a) (h : (name, a.map text) ∈ settings r) :
    setting (setFields (settings r)) name read = some a := by
  rw [setting, lookup_settings h]
  cases a with
  | none => rfl
  | some a => simp [hread]

theorem flag_settings {b : Bool} (h : (name, flagText? b) ∈ settings r) :
    flag (setFields (settings r)) name = some b := by
  rw [flag, setting, lookup_settings h]
  cases b <;> rfl

end

theorem getRequest?_settings (key dir : String) (recursive sorted : Bool) :
    getRequest? dir (setFields (settings (.get key recursive sorted))) =
      some (.get dir recursive sorted) := by
  rw [getRequest?, flag_settings (.head _), flag_settings (.tail _ (.head _))]
  rfl

theorem putRequest?_settings (key dir : String) (value : Option String) (o : WriteOptions) :
    putRequest? dir (setFields (settings (.put key value o))) = some (.put dir value o) := by
  set form := setFields (settings (.put key value o))
  have hvalue : form.lookup "value" = value := lookup_settings (by simp [settings])
  have httl : setting form "ttl" readNumber = some o.ttl :=
    setting_settings readNumber_ofNat (by simp [settings])
  have hdir : flag form "dir" = some o.dir := flag_settings (by simp [settings])
  have hprevExist : setting form "prevExist" readTruth = some o.prevExist :=
    setting_settings readTruth_truthText (by simp [settings])
  have hprevValue : form.lookup "prevValue" = o.prevValue := lookup_settings (by simp [settings])
  have hprevIndex : setting form "prevIndex" readNumber = some o.prevIndex :=
    setting_settings readNumber_ofNat (by simp [settings])
  rw [putRequest?, httl, hdir, hprevExist, hprevIndex, hvalue, hprevValue]
  rfl

theorem postRequest?_settings (key dir value : String) (ttl : Option Nat) :
    postRequest? dir (setFields (settings (.post key value ttl))) = some (.post dir value ttl) := by
  have hvalue : (setFields (settings (.post key value ttl))).lookup "value" = some value :=
    lookup_settings (.head _)
  have httl : setting (setFields (settings (.post key value ttl))) "ttl" readNumber = some ttl :=
    setting_settings readNumber_ofNat (.tail _ (.head _))
  rw [postRequest?, hvalue, httl]
  rfl

theorem deleteRequest?_settings (key dir : String) (o : RemovalOptions) :
    deleteRequest? dir (setFields (settings (.delete key o))) = some (.delete dir o) := by
  set form := setFields (settings (.delete key o))
  have hrecursive : flag form "recursive" = some o.recursive := flag_settings (by simp [settings])
  have hdir : flag form "dir" = some o.dir := flag_settings (by simp [settings])
  have hprevValue : form.lookup "prevValue" = o.prevValue := lookup_settings (by simp [settings])
  have hprevIndex : setting form "prevIndex" readNumber = some o.prevIndex :=
    setting_settings readNumber_ofNat (by simp [settings])
  rw [deleteRequest?, hrecursive, hdir, hprevIndex, hprevValue]
  rfl

/-- What a server reads from the message of a request tells the request. -/
theorem request?_reading (r : Request) : (reading r).request? = some (rootedRequest r) := by
  cases r with
  | get key recursive sorted => exact getRequest?_settings key (rooted key) recursive sorted
  | put key value o => exact putRequest?_settings key (rooted key) value o
  | post dir value ttl => exact postRequest?_settings dir (rooted dir) value ttl
  | delete key o => exact deleteRequest?_settings key (rooted key) o

/-! ## Nothing is lost -/

theorem ofRequest_rootedRequest (r : Request) :
    Message.ofRequest (rootedRequest r) = Message.ofRequest r := by
  cases r <;> simp only [Message.ofRequest, rootedRequest, Request.key, encodePath_rooted] <;> rfl

/-- A message is made without loss, however the bytes of its texts are handed over: a server reads
from it the key, with one slash in front, and just the settings that are set, in their order and
with their texts; these tell the request; and requests for which the same message is sent differ
only in the slashes with which their keys begin. -/
theorem request_read_back (r : Request) :
    (∀ s : Serializer, s.message r = Message.ofRequest r) ∧
      (Message.ofRequest r).read? = some (reading r) ∧
      (reading r).request? = some (rootedRequest r) ∧
      ∀ r', Message.ofRequest r = Message.ofRequest r' ↔ rootedRequest r = rootedRequest r' := by
  refine ⟨fun s => s.message_eq r, read?_ofRequest r, request?_reading r, fun r' => ⟨fun h => ?_,
    fun h => ?_⟩⟩
  · have hread : reading r = reading r' := by
      rw [← Option.some_inj, ← read?_ofRequest, ← read?_ofRequest, h]
    rw [← Option.some_inj, ← request?_reading, ← request?_reading, hread]
  · rw [← ofRequest_rootedRequest r, ← ofRequest_rootedRequest r', h]

end Rollcall.Http
