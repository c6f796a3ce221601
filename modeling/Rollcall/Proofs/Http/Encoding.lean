import Mathlib.Data.List.DropRight
import Rollcall.Http.Encoding

/-!
# Reading targets and forms

A server takes a path apart at its slashes and a form at its ampersands and equals signs, and then
replaces every percent sign and the two digits behind it by the byte that they stand for. What is
sent has separators only where they separate, so every text is read as it was written, whatever
characters it has.
-/

namespace Rollcall.Http

open Text

/-! ## Bytes -/

/-- The number of a hexadecimal digit, in either case. -/
def hexValue? (c : Char) : Option Nat :=
  if c.isDigit then some (c.toNat - '0'.toNat)
  else if 'a' ≤ c ∧ c ≤ 'f' then some (c.toNat - 'a'.toNat + 10)
  else if 'A' ≤ c ∧ c ≤ 'F' then some (c.toNat - 'A'.toNat + 10)
  else none

/-- The bytes for which a text stands: a percent sign needs two hexadecimal digits behind it, and any
other ASCII character stands for its code. -/
def unescape : List Char → Option (List UInt8)
  | [] => some []
  | '%' :: high :: low :: cs => do
    let high ← hexValue? high
    let low ← hexValue? low
    let rest ← unescape cs
    return UInt8.ofNat (16 * high + low) :: rest
  | c :: cs => if c ≠ '%' ∧ c.toNat < 128 then (unescape cs).map (UInt8.ofNat c.toNat :: ·) else none

/-- The text with given bytes, if they are UTF-8. -/
def textOf? (bs : List UInt8) : Option (List Char) :=
  (String.fromUTF8? ⟨bs.toArray⟩).map String.toList

private theorem toList_loop (b : ByteArray) (i : Nat) (r : List UInt8) :
    ByteArray.toList.loop b i r = r.reverse ++ b.data.toList.drop i := by
  fun_induction ByteArray.toList.loop b i r with
  | case1 i r h ih =>
    have hi : i < b.data.toList.length := by simpa using h
    have hget : b.get! i = b.data.toList[i] := getElem!_pos b.data i h
    rw [ih, List.drop_eq_getElem_cons hi, List.reverse_cons, hget, List.append_assoc,
      List.singleton_append]
  | case2 i r h => rw [List.drop_of_length_le (by simpa using h), List.append_nil]

theorem toArray_bytes (cs : List Char) : (⟨(bytes cs).toArray⟩ : ByteArray) = cs.utf8Encode := by
  rw [bytes, ByteArray.toList, toList_loop]
  simp

theorem bytes_nil : bytes [] = [] := by simp [bytes]

/-- Text is read back from its bytes. -/
theorem textOf?_bytes (cs : List Char) : textOf? (bytes cs) = some cs := by
  have htext : String.fromUTF8 cs.utf8Encode ByteArray.isValidUTF8_utf8Encode = String.ofList cs :=
    String.toByteArray_inj.mp String.toByteArray_ofList.symm
  rw [textOf?, toArray_bytes, String.fromUTF8?, dif_pos ByteArray.isValidUTF8_utf8Encode, htext,
    Option.map_some, String.toList_ofList]

theorem hexValue?_hexDigit : ∀ n < 16, hexValue? (hexDigit n) = some n := by decide

theorem isAlphanum_hexDigit : ∀ n < 16, (hexDigit n).isAlphanum = true := by decide

theorem unescape_escaped (b : UInt8) (cs : List Char) :
    unescape ('%' :: hexDigit (b.toNat / 16) :: hexDigit (b.toNat % 16) :: cs) =
      (unescape cs).map (b :: ·) := by
  have hb : b.toNat < 256 := b.toNat_lt
  rw [unescape, hexValue?_hexDigit _ (by omega), hexValue?_hexDigit _ (by omega)]
  simp only [Option.bind_eq_bind, Option.bind_some, Nat.div_add_mod, UInt8.ofNat_toNat]
  cases unescape cs <;> rfl

theorem unescape_cons_of_ne {c : Char} (hne : c ≠ '%') (hlt : c.toNat < 128) (cs : List Char) :
    unescape (c :: cs) = (unescape cs).map (UInt8.ofNat c.toNat :: ·) := by
  rw [unescape, if_pos ⟨hne, hlt⟩]
  exact fun _ _ _ h _ => hne h

/-- The characters that are sent for bytes other than a space. -/
def IsSent (c : Char) : Prop := c.isAlphanum = true ∨ c ∈ marks ∨ c = '%'

instance : DecidablePred IsSent := fun c =>
  inferInstanceAs (Decidable (c.isAlphanum = true ∨ c ∈ marks ∨ c = '%'))

theorem isSent_of_isPlain {b : UInt8} (h : isPlain b = true) : IsSent (Char.ofNat b.toNat) := by
  simp only [isPlain, Bool.and_eq_true, Bool.or_eq_true, List.contains_iff_mem] at h
  exact h.2.imp_right .inl

theorem toNat_ofNat_of_isPlain {b : UInt8} (h : isPlain b = true) :
    (Char.ofNat b.toNat).toNat = b.toNat ∧ b.toNat < 128 := by
  simp only [isPlain, Bool.and_eq_true, decide_eq_true_eq] at h
  have hvalid : b.toNat.isValidChar := .inl (by omega)
  refine ⟨?_, h.1⟩
  rw [Char.ofNat, dif_pos hvalid]
  rfl

theorem ne_percent_of_isPlain {b : UInt8} (h : isPlain b = true) : Char.ofNat b.toNat ≠ '%' := by
  intro hc
  simp only [isPlain, hc, Bool.and_eq_true] at h
  exact absurd h.2 (by decide)

/-- A byte is read back from what is sent for it, if a space is. -/
theorem unescape_encodeByte {space : List Char}
    (hspace : ∀ cs, unescape (space ++ cs) = (unescape cs).map (0x20 :: ·)) (b : UInt8)
    (cs : List Char) : unescape (encodeByte space b ++ cs) = (unescape cs).map (b :: ·) := by
  unfold encodeByte
  split
  · next h => rw [hspace, h]
  · split
    · next h =>
      obtain ⟨hcode, hlt⟩ := toNat_ofNat_of_isPlain h
      rw [List.singleton_append, unescape_cons_of_ne (ne_percent_of_isPlain h) (by rwa [hcode]),
        hcode, UInt8.ofNat_toNat]
    · exact unescape_escaped b cs

theorem unescape_flatMap {space : List Char}
    (hspace : ∀ cs, unescape (space ++ cs) = (unescape cs).map (0x20 :: ·)) (bs : List UInt8) :
    unescape (bs.flatMap (encodeByte space)) = some bs := by
  induction bs with
  | nil => rfl
  | cons b bs ih => rw [List.flatMap_cons, unescape_encodeByte hspace, ih, Option.map_some]

theorem isSent_of_mem_encodeByte {space : List Char} {b : UInt8} {c : Char}
    (h : c ∈ encodeByte space b) : c ∈ space ∨ IsSent c := by
  unfold encodeByte at h
  split at h
  · exact .inl h
  · refine .inr ?_
    split at h
    · next hplain =>
      rw [List.mem_singleton.mp h]
      exact isSent_of_isPlain hplain
    · have hb : b.toNat < 256 := b.toNat_lt
      simp only [List.mem_cons, List.not_mem_nil, or_false] at h
      rcases h with rfl | rfl | rfl
      · exact .inr (.inr rfl)
      · exact .inl (isAlphanum_hexDigit _ (by omega))
      · exact .inl (isAlphanum_hexDigit _ (by omega))

theorem encodeByte_of_ne {b : UInt8} (h : b ≠ 0x20) (space : List Char) :
    encodeByte space b = encodeByte [] b := by
  rw [encodeByte, encodeByte, if_neg h, if_neg h]

theorem isSent_of_mem {b : UInt8} {c : Char} (h : c ∈ encodeByte [] b) : IsSent c :=
  (isSent_of_mem_encodeByte h).resolve_left List.not_mem_nil

/-! ## Paths -/

theorem mapM_map {α β : Type} {f : β → Option α} {g : α → β} (h : ∀ a, f (g a) = some a)
    (as : List α) : (as.map g).mapM f = some as := by
  induction as with
  | nil => rfl
  | cons a as ih => simp [h, ih]

/-- A part of a path as it was written. -/
def readSegment (cs : List Char) : Option (List Char) := (unescape cs).bind textOf?

/-- A part of a path is read as it was written. -/
theorem readSegment_encodeSegment (cs : List Char) : readSegment (encodeSegment cs) = some cs := by
  rw [readSegment, encodeSegment, unescape_flatMap fun cs => ?_, Option.bind_some, textOf?_bytes]
  exact unescape_escaped 0x20 cs

theorem isSent_of_mem_encodeSegment {cs : List Char} {c : Char} (h : c ∈ encodeSegment cs) :
    IsSent c := by
  obtain ⟨b, -, hc⟩ := List.mem_flatMap.mp h
  rcases isSent_of_mem_encodeByte hc with hc | hc
  · simp only [List.mem_cons, List.not_mem_nil, or_false] at hc
    rcases hc with rfl | rfl | rfl
    · exact .inr (.inr rfl)
    · exact .inl (by decide)
    · exact .inl (by decide)
  · exact hc

/-- The key of a path. -/
def readPath (path : List Char) : Option String :=
  ((split '/' path).mapM readSegment).map fun segments => String.ofList (join '/' segments)

/-- A key with one slash in front, whatever slashes it begins with. -/
def rooted (key : String) : String := String.ofList ('/' :: key.toList.dropWhile (· = '/'))

theorem encodePath_eq (key : String) : encodePath key =
    join '/' (([] :: split '/' (key.toList.dropWhile (· = '/'))).map encodeSegment) := by
  rw [List.map_cons, join_cons, List.flatMap_map, encodeSegment, bytes_nil]
  rfl

/-- The key of a path is read as it was written, with one slash in front. -/
theorem readPath_encodePath (key : String) : readPath (encodePath key) = some (rooted key) := by
  have hslash : ∀ part ∈ ([] :: split '/' (key.toList.dropWhile (· = '/'))).map encodeSegment,
      '/' ∉ part := by
    intro part hpart hc
    obtain ⟨segment, -, rfl⟩ := List.mem_map.mp hpart
    exact absurd (isSent_of_mem_encodeSegment hc) (by decide)
  rw [readPath, encodePath_eq, split_join hslash (by simp), mapM_map readSegment_encodeSegment,
    Option.map_some, join_nil_cons (split_ne_nil _ _), join_split, rooted]

theorem isSent_of_mem_encodePath {key : String} {c : Char} (h : c ∈ encodePath key) :
    c = '/' ∨ IsSent c := by
  obtain ⟨segment, -, hc⟩ := List.mem_flatMap.mp h
  exact (List.mem_cons.mp hc).imp_right isSent_of_mem_encodeSegment

/-- The slashes that a key begins with are not sent, save one. -/
theorem encodePath_rooted (key : String) : encodePath (rooted key) = encodePath key := by
  have hdrop : (rooted key).toList.dropWhile (· = '/') = key.toList.dropWhile (· = '/') := by
    rw [rooted, String.toList_ofList, List.dropWhile_cons_of_pos (by decide)]
    exact List.dropWhile_idempotent _ _
  rw [encodePath, encodePath, hdrop]

/-! ## Fields -/

/-- The text of a form with spaces for its plus signs. -/
def withSpaces (cs : List Char) : List Char := cs.map fun c => if c = '+' then ' ' else c

/-- A name or a value in a form as it was written. -/
def readField (cs : List Char) : Option (List Char) := (unescape (withSpaces cs)).bind textOf?

theorem withSpaces_eq_self {cs : List Char} (h : ∀ c ∈ cs, IsSent c) : withSpaces cs = cs := by
  have hc : ∀ c ∈ cs, (if c = '+' then ' ' else c) = c := by
    intro c hc
    refine if_neg fun hplus => ?_
    rw [hplus] at hc
    exact absurd (h '+' hc) (by decide)
  rw [withSpaces, List.map_congr_left hc, List.map_id']

theorem withSpaces_encodeByte (b : UInt8) :
    withSpaces (encodeByte ['+'] b) = encodeByte [' '] b := by
  by_cases hb : b = 0x20
  · rw [encodeByte, encodeByte, if_pos hb, if_pos hb]
    rfl
  · rw [encodeByte_of_ne hb ['+'], encodeByte_of_ne hb [' ']]
    exact withSpaces_eq_self fun c hc => isSent_of_mem hc

theorem withSpaces_flatMap (bs : List UInt8) :
    withSpaces (bs.flatMap (encodeByte ['+'])) = bs.flatMap (encodeByte [' ']) := by
  rw [withSpaces, List.map_flatMap]
  exact congrArg (bs.flatMap ·) (funext withSpaces_encodeByte)

/-- A name or a value in a form is read as it was written. -/
theorem readField_encodeField (cs : List Char) : readField (encodeField cs) = some cs := by
  rw [readField, encodeField, withSpaces_flatMap, unescape_flatMap fun cs => ?_, Option.bind_some,
    textOf?_bytes]
  exact unescape_cons_of_ne (by decide) (by decide) cs

theorem isSent_of_mem_encodeField {cs : List Char} {c : Char} (h : c ∈ encodeField cs) :
    c = '+' ∨ IsSent c := by
  obtain ⟨b, -, hc⟩ := List.mem_flatMap.mp h
  exact (isSent_of_mem_encodeByte hc).imp_left List.mem_singleton.mp

/-! ## Forms -/

/-- One field of a form: a name, and a value behind the first equals sign. -/
def readPair (cs : List Char) : Option (String × String) := do
  let name ← readField (cs.takeWhile (· ≠ '='))
  let value ← readField ((cs.dropWhile (· ≠ '=')).drop 1)
  return (String.ofList name, String.ofList value)

/-- The fields of a form, in order. -/
def readForm (cs : List Char) : Option Form :=
  ((split '&' cs).filter (· ≠ [])).mapM readPair

/-- A field as it is sent. -/
def encodePair (f : String × String) : List Char :=
  encodeField f.1.toList ++ '=' :: encodeField f.2.toList

theorem encodeForm_eq (form : Form) : encodeForm form = join '&' (form.map encodePair) := rfl

theorem ne_of_mem_encodeField {cs : List Char} {c sep : Char} (hplus : sep ≠ '+')
    (hsent : ¬IsSent sep) (h : c ∈ encodeField cs) : c ≠ sep := by
  rintro rfl
  exact (isSent_of_mem_encodeField h).elim hplus hsent

theorem readPair_encodePair (f : String × String) : readPair (encodePair f) = some f := by
  have hname : ∀ c ∈ encodeField f.1.toList, (decide (c ≠ '=')) = true := fun c hc =>
    decide_eq_true (ne_of_mem_encodeField (by decide) (by decide) hc)
  rw [readPair, encodePair, List.takeWhile_append_of_pos hname, List.dropWhile_append_of_pos hname]
  simp [readField_encodeField]

theorem not_mem_encodePair (f : String × String) : '&' ∉ encodePair f := by
  intro h
  rcases List.mem_append.mp h with h | h
  · exact ne_of_mem_encodeField (by decide) (by decide) h rfl
  · rcases List.mem_cons.mp h with h | h
    · exact absurd h (by decide)
    · exact ne_of_mem_encodeField (by decide) (by decide) h rfl

/-- The fields of a form are read as they were written, in their order. -/
theorem readForm_encodeForm (form : Form) : readForm (encodeForm form) = some form := by
  cases form with
  | nil => rfl
  | cons f form =>
    have hsplit : split '&' (encodeForm (f :: form)) = (f :: form).map encodePair := by
      rw [encodeForm_eq]
      refine split_join (fun part hpart => ?_) (List.cons_ne_nil _ _)
      obtain ⟨g, -, rfl⟩ := List.mem_map.mp hpart
      exact not_mem_encodePair g
    have hfilter : ((f :: form).map encodePair).filter (· ≠ []) = (f :: form).map encodePair := by
      refine List.filter_eq_self.mpr fun part hpart => ?_
      obtain ⟨g, -, rfl⟩ := List.mem_map.mp hpart
      exact decide_eq_true (List.append_ne_nil_of_right_ne_nil _ (List.cons_ne_nil _ _))
    rw [readForm, hsplit, hfilter, mapM_map readPair_encodePair]

end Rollcall.Http
