import Rollcall.Proofs.Announce
import Rollcall.Proofs.Json.Records
import Rollcall.Proofs.Properties
import Rollcall.Store.Node

/-!
# What a node's document says

A node is read back from its document with the nodes below it, as far as the reader follows
brackets in brackets. What is not there is left out and restored.
-/

namespace Rollcall

namespace Store.Node

open Json

/-- A node whose numbers are of the types of their fields, and all below it likewise. -/
inductive Fits : Node → Prop
  | mk {n : Node} (ttl : ∀ s, n.ttl = some s → Text.Decimal.isSigned64 s = true)
    (modified : n.modifiedIndex < Text.Decimal.word64)
    (created : n.createdIndex < Text.Decimal.word64) (nodes : ∀ m ∈ n.nodes, Fits m) : Fits n

/-- The fields of a node's document, each missing or there. -/
def fields (n : Node) : List (String × Option Value) :=
  [("key", some (.string n.key)), ("value", n.value.map .string),
    ("dir", if n.dir then some (.bool true) else none), ("ttl", n.ttl.map .int),
    ("expiration", n.expiration.map .string), ("modifiedIndex", some (.int n.modifiedIndex)),
    ("createdIndex", some (.int n.createdIndex)),
    ("nodes", if n.nodes.isEmpty then none else some (.array (n.nodes.map toJson)))]

theorem listToJson_eq_map (nodes : List Node) : listToJson nodes = nodes.map toJson := by
  induction nodes with
  | nil => rfl
  | cons n nodes ih => rw [listToJson, ih, List.map_cons]

theorem toJson_eq (n : Node) : n.toJson = object (given n.fields) := by
  obtain ⟨key, value, dir, ttl, expiration, modified, created, nodes⟩ := n
  rw [toJson, listToJson_eq_map]
  simp only [fields, given_cons]
  congr 1
  cases value <;> cases dir <;> cases ttl <;> cases expiration <;> cases nodes <;> rfl

private theorem plain_fields {n : Node} (h : ∀ m ∈ n.nodes, Plain m.toJson) :
    ∀ f ∈ n.fields, ∀ v, f.2 = some v → Plain v := by
  intro f hf v hv
  simp only [fields, List.mem_cons, List.not_mem_nil, or_false] at hf
  rcases hf with rfl | rfl | rfl | rfl | rfl | rfl | rfl | rfl
  · cases hv
    exact .string _
  · obtain ⟨s, -, rfl⟩ := Option.map_eq_some_iff.mp hv
    exact .string s
  · dsimp only at hv
    split at hv <;> cases hv
    exact .bool true
  · obtain ⟨s, -, rfl⟩ := Option.map_eq_some_iff.mp hv
    exact .int s
  · obtain ⟨s, -, rfl⟩ := Option.map_eq_some_iff.mp hv
    exact .string s
  · cases hv
    exact .int _
  · cases hv
    exact .int _
  · dsimp only at hv
    split at hv <;> cases hv
    refine .array _ fun v hv => ?_
    obtain ⟨m, hm, rfl⟩ := List.mem_map.mp hv
    exact h m hm

/-- The document of a node is written in full. -/
theorem Fits.plain_toJson {n : Node} (h : n.Fits) : Plain n.toJson := by
  induction h with
  | mk _ _ _ _ ih =>
    rw [toJson_eq]
    exact plain_object (plain_fields ih)

/-- The brackets of a node are its own and those around and in the nodes below it. -/
theorem brackets_toJson (n : Node) :
    n.toJson.brackets =
      if n.nodes.isEmpty then 1 else bracketsOfItems (n.nodes.map toJson) + 2 := by
  have hs : ∀ x : Option String, ((x.map Value.string).map Value.brackets).getD 0 = 0 := by
    rintro (_ | _) <;> rfl
  have hi : ∀ x : Option Int, ((x.map Value.int).map Value.brackets).getD 0 = 0 := by
    rintro (_ | _) <;> rfl
  have hdir : ((if n.dir then some (Value.bool true) else none).map Value.brackets).getD 0 = 0 := by
    cases n.dir <;> rfl
  rw [toJson_eq, brackets_object]
  simp only [fields, List.map_cons, List.map_nil, List.foldr_cons, List.foldr_nil, hs,
    hi, hdir]
  split <;> simp [Value.brackets]

private theorem mapM_ofJson {nodes : List Node} {depth : Nat}
    (h : ∀ n ∈ nodes, ofJson depth n.toJson = if n.toJson.brackets ≤ depth then some n else none) :
    (nodes.map toJson).mapM (ofJson depth) =
      if bracketsOfItems (nodes.map toJson) ≤ depth then some nodes else none := by
  induction nodes with
  | nil => rfl
  | cons n nodes ih =>
    rw [List.map_cons, List.mapM_cons, h n List.mem_cons_self,
      ih fun m hm => h m (List.mem_cons_of_mem _ hm), bracketsOfItems]
    by_cases hn : n.toJson.brackets ≤ depth
    · by_cases hm : bracketsOfItems (nodes.map toJson) ≤ depth
      · rw [if_pos hn, if_pos hm, if_pos (Nat.max_le.mpr ⟨hn, hm⟩)]
        rfl
      · rw [if_pos hn, if_neg hm, if_neg fun h => hm (Nat.max_le.mp h).2]
        rfl
    · rw [if_neg hn, if_neg fun h => hn (Nat.max_le.mp h).1]
      rfl

private theorem eta (n : Node) :
    (⟨n.key, n.value, n.dir, n.ttl, n.expiration, n.modifiedIndex, n.createdIndex, n.nodes⟩ :
      Node) = n := by
  cases n
  rfl

/-- The fields of a node are read back whatever the depth, and what is below it as far as the depth
goes. -/
private theorem ofJson_succ {n : Node}
    (ttl : ∀ s, n.ttl = some s → Text.Decimal.isSigned64 s = true)
    (modified : n.modifiedIndex < Text.Decimal.word64)
    (created : n.createdIndex < Text.Decimal.word64) (depth : Nat) :
    ofJson (depth + 1) n.toJson =
      (if n.nodes.isEmpty then some []
        else match depth with
          | 0 => none
          | depth + 1 => (n.nodes.map toJson).mapM (ofJson depth)).map
        fun nodes => { n with nodes } := by
  have hnames : n.fields.map Prod.fst = fieldNames := rfl
  have hdistinct : (n.fields.map Prod.fst).Nodup := hnames ▸ by decide
  have hrecord := recordFields_object hdistinct
  rw [hnames, ← toJson_eq] at hrecord
  have hkey : required Value.asString (some (.string n.key)) = some n.key := rfl
  have hstring : ∀ x : Option String, optional Value.asString (x.map .string) = some x :=
    fun _ => optional_map (fun _ => nofun) fun _ _ => rfl
  have hdir : defaulted false Value.asBool (if n.dir then some (.bool true) else none) =
      some n.dir := by
    cases n.dir <;> rfl
  have httl : optional Value.asInt64 (n.ttl.map .int) = some n.ttl :=
    optional_map (fun _ => nofun) fun s hs => if_pos (ttl s hs)
  have hword : ∀ i : Nat, i < Text.Decimal.word64 →
      defaulted 0 (Value.asNat Text.Decimal.word64) (some (.int i)) = some i := fun _ h => if_pos h
  rw [ofJson, hrecord]
  simp only [fields, List.map_cons, List.map_nil, Option.bind_eq_bind, Option.bind_some,
    Option.bind_none, hkey, hstring, hdir, httl, hword _ modified, hword _ created]
  cases n.nodes.isEmpty with
  | true => rfl
  | false =>
    cases depth with
    | zero => rfl
    | succ depth => exact (Option.map_eq_bind ..).symm

/-- A node is read back from its document if there are not too many brackets in brackets. -/
theorem Fits.ofJson_toJson {n : Node} (h : n.Fits) (depth : Nat) :
    ofJson depth n.toJson = if n.toJson.brackets ≤ depth then some n else none := by
  induction h generalizing depth with
  | @mk n ttl modified created nodes ih =>
    rw [brackets_toJson]
    cases depth with
    | zero =>
      rw [if_neg (by split <;> omega)]
      rfl
    | succ depth =>
      rw [ofJson_succ ttl modified created]
      have heta := eta n
      cases hn : n.nodes with
      | nil =>
        rw [hn] at heta
        exact congrArg some heta
      | cons m rest =>
        cases depth with
        | zero => rfl
        | succ depth =>
          have hread := mapM_ofJson fun m hm => ih m hm depth
          have hle : bracketsOfItems ((m :: rest).map toJson) + 2 ≤ depth + 1 + 1 ↔
              bracketsOfItems ((m :: rest).map toJson) ≤ depth := by omega
          rw [hn] at hread heta
          simp only [List.isEmpty_cons, Bool.false_eq_true, if_false, hread, hle]
          split
          · exact congrArg some heta
          · rfl

/-- The text of a node nests as deeply as its document. -/
theorem Fits.nesting_encode {n : Node} (h : n.Fits) :
    nesting n.encode.toList = n.toJson.brackets := by
  rw [encode, Value.render, String.toList_ofList, nesting_print h.plain_toJson]

/-- A node is read back from its text if there are not too many brackets in brackets. -/
theorem Fits.decode_encode {n : Node} (h : n.Fits) :
    decode n.encode = if nesting n.encode.toList ≤ maxDepth then some n else none := by
  rw [h.nesting_encode, decode, encode, parse_render h.plain_toJson, Option.bind_some,
    h.ofJson_toJson]

end Store.Node

open Store

/-- What is written is read back: a node with the nodes below it, unless more than 127 brackets are
open at once in its text, the payload of an announce, and the properties of an instance. -/
theorem documents_read_back :
    (∀ n : Node, n.Fits →
        (Node.decode n.encode = some n ↔ Json.nesting n.encode.toList ≤ 127)) ∧
      (∀ d : Payload, Text.Decimal.isSigned64 d.propertiesIndex = true →
        Payload.decode d.encode = .ok d) ∧
      ∀ p : Properties, Properties.decode p.encode = some p := by
  refine ⟨fun n h => ?_, fun d h => ?_, Properties.decode_encode⟩
  · rw [h.decode_encode, Json.maxDepth]
    split
    · next hle => simp [hle]
    · next hgt => simp [hgt]
  · rw [Payload.decode_encode, if_pos h]

/-- A directory with a leaf and a directory that hold what is special. -/
def sundry : Node :=
  { key := "/q", dir := true, modifiedIndex := 1, createdIndex := 1, nodes := [
      { key := "/q/\"1\"", value := some "", ttl := some (-5), expiration := some "\\\n[\x7b" },
      { key := "/q/2", dir := true }] }

theorem sundry_reads_back :
    Node.decode sundry.encode = some sundry ∧
      ∀ c : String, Payload.decode (Payload.encode ⟨"a", "\x00é\"", c, -1⟩) =
        .ok ⟨"a", "\x00é\"", c, -1⟩ := by
  have hfits : sundry.Fits := by
    refine .mk nofun (by decide) (by decide) fun m hm => ?_
    simp only [sundry, List.mem_cons, List.not_mem_nil, or_false] at hm
    rcases hm with rfl | rfl
    · exact .mk (fun s hs => Option.some.inj hs ▸ rfl) (by decide) (by decide) nofun
    · exact .mk nofun (by decide) (by decide) nofun
  obtain ⟨hnode, hpayload, -⟩ := documents_read_back
  refine ⟨(hnode sundry hfits).mpr ?_, fun c => hpayload _ rfl⟩
  rw [hfits.nesting_encode]
  decide

end Rollcall
