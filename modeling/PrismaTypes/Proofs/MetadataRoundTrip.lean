import Mathlib.Data.List.Basic
import PrismaTypes.Proofs.AcceptedTexts
import PrismaTypes.Proofs.AttributeMeaning
import PrismaTypes.Proofs.MetadataReading

/-!
# Metadata of parsed schemas

The metadata of a schema reads back as the schema, up to default values that look like calls. The
numbers in the metadata are those of default values, and the whole ones of a parsed schema fit a
word. So for parsed schemas only two things stand in the way of a round trip: a double that does not
read back from its text, and a list of a text and a list inside a default value.
-/

namespace PrismaTypes

open Json (Value Number)
open Metadata

/-! ## Numbers in metadata -/

namespace Metadata

/-- The numbers of a member that may be left out. -/
def numbersIn : Option Value → List Number
  | none => []
  | some v => v.numbers

theorem numbers_list_map {α : Type} (write : α → Value) (items : List α) :
    (Value.list (items.map write)).numbers = items.flatMap fun a => (write a).numbers := by
  rw [Value.numbers_list, List.flatMap_map]

theorem numbers_present (slots : List (String × Option Value)) :
    (Value.object (present slots)).numbers = slots.flatMap fun slot => numbersIn slot.2 := by
  rw [Value.numbers_object, present, List.flatMap_assoc]
  refine List.flatMap_congr fun slot _ => ?_
  obtain ⟨key, v | v⟩ := slot
  · rfl
  · simp [memberIf, numbersIn]

theorem numbersIn_map {α : Type} {write : α → Value} (h : ∀ a, (write a).numbers = [])
    (o : Option α) : numbersIn (o.map write) = [] := by
  cases o with
  | none =>
      rfl
  | some a =>
      exact h a

theorem numbersIn_listIf {α : Type} {write : α → Value} (h : ∀ a, (write a).numbers = [])
    (items : List α) : numbersIn (listIf write items) = [] := by
  cases items with
  | nil =>
      rfl
  | cons a items =>
      rw [listIf, if_neg (by simp), numbersIn, numbers_list_map]
      simp [h]

@[simp] theorem numbersIn_some (v : Value) : numbersIn (some v) = v.numbers := rfl

@[simp] theorem numbers_text (s : String) : (Value.text s).numbers = [] := rfl

@[simp] theorem numbers_bool (b : Bool) : (Value.bool b).numbers = [] := rfl

@[simp] theorem numbers_textList (items : List String) : (textList items).numbers = [] := by
  simp [textList, numbers_list_map]

theorem numbers_nativeType (t : NativeType) : t.toJson.numbers = [] := by
  rw [NativeType.toJson, Value.numbers]
  simp [Value.numbersOfItems]

@[simp] theorem numbers_optionalText (s : Option String) : (optionalText s).numbers = [] := by
  cases s <;> rfl

theorem numbers_primaryKey (k : PrimaryKey) : k.toJson.numbers = [] := by
  simp [PrimaryKey.toJson_eq, numbers_present, PrimaryKey.slots]

end Metadata

theorem Field.numbers_toJson (f : Field) :
    f.toJson.numbers = numbersIn (f.default.map Default.toJson) := by
  simp [toJson_eq, numbers_present, slots, numbersIn_map numbers_text,
    numbersIn_map numbers_nativeType, numbersIn_listIf numbers_text]

theorem Model.numbers_toJson (m : Model) :
    m.toJson.numbers = m.fields.flatMap fun f => f.toJson.numbers := by
  simp [toJson_eq, numbers_present, slots, numbers_list_map, numbersIn_map numbers_text,
    numbersIn_map numbers_primaryKey, numbersIn_listIf numbers_textList]

theorem EnumMember.numbers_toJson (m : EnumMember) : m.toJson.numbers = [] := by
  simp [toJson_eq, numbers_present, slots, numbersIn_map numbers_text]

theorem EnumType.numbers_toJson (e : EnumType) : e.toJson.numbers = [] := by
  simp [toJson_eq, numbers_present, slots, numbers_list_map, EnumMember.numbers_toJson,
    numbersIn_map numbers_text]

/-- The numbers in the metadata of a schema are those of its default values. -/
theorem Schema.exists_default_of_mem_numbers {s : Schema} {n : Number}
    (h : n ∈ s.toJson.numbers) :
    ∃ m ∈ s.models, ∃ f ∈ m.fields, ∃ d, f.default = some d ∧ n ∈ d.toJson.numbers := by
  simp only [toJson_eq, numbers_present, slots, List.flatMap_cons, List.flatMap_nil,
    numbersIn_some, numbers_list_map, EnumType.numbers_toJson, Model.numbers_toJson,
    List.mem_append, List.mem_flatMap, List.not_mem_nil, and_false, exists_false, or_false] at h
  obtain ⟨m, hm, f, hf, hn⟩ := h
  refine ⟨m, hm, f, hf, ?_⟩
  rw [Field.numbers_toJson] at hn
  cases hdefault : f.default with
  | none =>
      rw [hdefault] at hn
      cases hn
  | some d =>
      rw [hdefault] at hn
      exact ⟨d, rfl, hn⟩

/-! ## Numbers of parsed schemas -/

namespace Default

theorem fitsWord_ofNumberLiteral {literal : String} {k : Int}
    (h : Number.whole k ∈ (ofNumberLiteral literal).toJson.numbers) : Json.fitsWord k = true := by
  unfold ofNumberLiteral at h
  split at h
  · rename_i n hn
    obtain ⟨numeral, -, hnumber⟩ := Option.bind_eq_some_iff.1 hn
    have hk : Number.whole k = n := by simpa [toJson, Value.numbers] using h
    subst hk
    unfold Number.ofNumeral? at hnumber
    split at hnumber
    · -- A literal that does not fit becomes a double.
      rename_i hfits
      cases hnumber
      exact (Bool.and_eq_true_iff.1 hfits).2
    · simp at hnumber
  · simp [toJson] at h

mutual

/-- Whole numbers of a written default value fit a word. -/
theorem fitsWord_ofValue : ∀ (v : Outline.Value) {k : Int},
    Number.whole k ∈ (ofValue v).toJson.numbers → Json.fitsWord k = true
  | .text _, _, h => by simp [ofValue, toJson] at h
  | .boolean _, _, h => by simp [ofValue, toJson] at h
  | .path _, _, h => by simp [ofValue, toJson] at h
  | .number _, _, h => by
      rw [ofValue] at h
      exact fitsWord_ofNumberLiteral h
  | .list items, _, h => by
      rw [ofValue, toJson, Value.numbers] at h
      exact fitsWord_ofValues items h
  | .call name args, _, h => by
      refine fitsWord_ofArgs args ?_
      simpa [ofValue, toJson, Value.numbers, Value.numbersOfMembers] using h

theorem fitsWord_ofValues : ∀ (items : List Outline.Value) {k : Int},
    Number.whole k ∈ Value.numbersOfItems (toJsonList (ofValues items)) → Json.fitsWord k = true
  | [], _, h => by simp [ofValues, toJsonList, Value.numbersOfItems] at h
  | v :: items, _, h => by
      rw [ofValues, toJsonList, Value.numbersOfItems] at h
      rcases List.mem_append.1 h with h | h
      · exact fitsWord_ofValue v h
      · exact fitsWord_ofValues items h

theorem fitsWord_ofArgs : ∀ (args : List (Option String × Outline.Value)) {k : Int},
    Number.whole k ∈ Value.numbersOfItems (toJsonList (ofArgs args)) → Json.fitsWord k = true
  | [], _, h => by simp [ofArgs, toJsonList, Value.numbersOfItems] at h
  | (_, v) :: args, _, h => by
      rw [ofArgs, toJsonList, Value.numbersOfItems] at h
      rcases List.mem_append.1 h with h | h
      · exact fitsWord_ofValue v h
      · exact fitsWord_ofArgs args h

end

end Default

/-- A default value of a parsed schema is that of an attribute. -/
theorem exists_value_of_parse {text : String} {s : Schema} {m : Model} {f : Field} {d : Default}
    (h : (Schema.parse text).result = .ok s) (hm : m ∈ s.models) (hf : f ∈ m.fields)
    (hd : f.default = some d) : ∃ v, d = Default.ofValue v := by
  obtain ⟨blocks, hdeclared⟩ := declaredIn_of_parse h
  obtain ⟨b, -, decl, -, hcore⟩ := hdeclared m hm f hf
  have hdefault : f.core.default = (Field.ofDecl decl).core.default := by rw [hcore]
  have hlast : (Field.ofDecl decl).default = some d := hdefault.symm.trans hd
  -- The last attribute that sets a default decides, and its first argument is the value.
  rw [Field.ofDecl_eq] at hlast
  obtain ⟨a, -, ha⟩ := Option.bind_eq_some_iff.1 hlast
  obtain ⟨v, -, hv⟩ := Option.map_eq_some_iff.1 ha
  exact ⟨v, hv.symm⟩

/-! ## Round trips -/

/-- The metadata of a schema reads back, up to default values that look like calls. -/
theorem Schema.ofMetadata?_metadata {s : Schema} (hnumbers : ∀ n ∈ s.toJson.numbers, n.ReadsBack)
    (hdepth : s.toJson.depth ≤ Json.maxDepth) : ofMetadata? s.metadata = some s.reread := by
  have htree : Json.readTree s.metadata.toList = .ok s.toJson.toTree := by
    rw [metadata, Value.pretty, String.toList_ofList]
    exact Json.readTree_render hnumbers
  rw [ofMetadata?, htree]
  exact Schema.decodes s Json.maxDepth hdepth

theorem Field.reread_eq_self_iff {f : Field} :
    f.reread = f ↔ ∀ d ∈ f.default, d.ambiguous = false := by
  have hdefault : f.reread = f ↔ f.default.map Default.reread = f.default := by
    refine ⟨fun h => congrArg Field.default h, fun h => ?_⟩
    rw [reread, h]
  rw [hdefault]
  cases f.default with
  | none =>
      simp
  | some d =>
      simp [Default.reread_eq_self_iff]

theorem Model.reread_eq_self_iff {m : Model} :
    m.reread = m ↔ ∀ f ∈ m.fields, ∀ d ∈ f.default, d.ambiguous = false := by
  have hfields : m.reread = m ↔ m.fields.map Field.reread = m.fields := by
    refine ⟨fun h => congrArg Model.fields h, fun h => ?_⟩
    rw [reread, h]
  rw [hfields, map_eq_self_iff]
  exact forall₂_congr fun _ _ => Field.reread_eq_self_iff

/-- A schema reads back unchanged exactly when no default value looks like a call anywhere. -/
theorem Schema.reread_eq_self_iff {s : Schema} :
    s.reread = s ↔
      ∀ m ∈ s.models, ∀ f ∈ m.fields, ∀ d ∈ f.default, d.ambiguous = false := by
  have hmodels : s.reread = s ↔ s.models.map Model.reread = s.models := by
    refine ⟨fun h => congrArg Schema.models h, fun h => ?_⟩
    rw [reread, h]
  rw [hmodels, map_eq_self_iff]
  exact forall₂_congr fun _ _ => Model.reread_eq_self_iff

/-- A parsed schema whose metadata nests at most as deep as a reader allows, and whose doubles read
back from their texts, can be read back from its metadata. What is read is the schema exactly when
no default value has a list of a text and a list inside it. -/
theorem metadata_round_trip_iff (text : String) (s : Schema)
    (h : (Schema.parse text).result = .ok s) (hdepth : s.toJson.depth ≤ Json.maxDepth)
    (hdoubles : ∀ x, Number.double x ∈ s.toJson.numbers → (Number.double x).ReadsBack) :
    (∃ s', Schema.ofMetadata? s.metadata = some s') ∧
    (Schema.ofMetadata? s.metadata = some s ↔
      ∀ m ∈ s.models, ∀ f ∈ m.fields, ∀ d ∈ f.default, d.ambiguous = false) := by
  -- The reader of schema texts makes whole numbers only of literals that fit a word.
  have hnumbers : ∀ n ∈ s.toJson.numbers, n.ReadsBack := by
    intro n hn
    cases n with
    | double x =>
        exact hdoubles x hn
    | whole k =>
        obtain ⟨m, hm, f, hf, d, hd, hk⟩ := Schema.exists_default_of_mem_numbers hn
        obtain ⟨v, rfl⟩ := exists_value_of_parse h hm hf hd
        exact Number.readsBack_whole (Default.fitsWord_ofValue v hk)
  have hread := Schema.ofMetadata?_metadata hnumbers hdepth
  refine ⟨⟨s.reread, hread⟩, ?_⟩
  rw [hread, Option.some.injEq]
  exact Schema.reread_eq_self_iff

/-- Nested lists, with a double among their items, read back. -/
theorem metadata_round_trip_iff_nested_lists :
    ∃ s, (Schema.parse
        "model A \x7b\n  x Json @default([\"a\", 1.5, [\"b\", 3]])\n\x7d").result = .ok s ∧
      s.toJson.depth ≤ Json.maxDepth ∧
      s.toJson.numbers = [.double ⟨false, 6755399441055744, -52⟩, .whole 3] ∧
      Schema.ofMetadata? s.metadata = some s := by
  have hexists : ∃ s, (Schema.parse
      "model A \x7b\n  x Json @default([\"a\", 1.5, [\"b\", 3]])\n\x7d").result = .ok s ∧
        s.toJson.depth ≤ Json.maxDepth ∧
        s.toJson.numbers = [.double ⟨false, 6755399441055744, -52⟩, .whole 3] ∧
        ∀ m ∈ s.models, ∀ f ∈ m.fields, ∀ d ∈ f.default, d.ambiguous = false :=
    exists_of_check (by decide +kernel)
  obtain ⟨s, hparse, hdepth, hnumbers, hplain⟩ := hexists
  -- The only double is one and a half, which reads back.
  have hdoubles : ∀ x, Number.double x ∈ s.toJson.numbers → (Number.double x).ReadsBack := by
    intro x hx
    have heq : x = ⟨false, 6755399441055744, -52⟩ := by simpa [hnumbers] using hx
    subst heq
    decide +kernel
  exact ⟨s, hparse, hdepth, hnumbers,
    ((metadata_round_trip_iff _ s hparse hdepth hdoubles).2).2 hplain⟩

/-- A list of a text and a list is read as a call, so that the schema does not read back. -/
theorem metadata_not_round_trip_text_and_list :
    ∃ s, (Schema.parse "model A \x7b\n  x Json @default([\"a\", [\"b\"]])\n\x7d").result = .ok s ∧
      s.toJson.depth ≤ Json.maxDepth ∧ s.toJson.numbers = [] ∧
      (∃ s', Schema.ofMetadata? s.metadata = some s' ∧ s' ≠ s) := by
  have hexists : ∃ s, (Schema.parse
      "model A \x7b\n  x Json @default([\"a\", [\"b\"]])\n\x7d").result = .ok s ∧
        s.toJson.depth ≤ Json.maxDepth ∧ s.toJson.numbers = [] ∧
        ¬ ∀ m ∈ s.models, ∀ f ∈ m.fields, ∀ d ∈ f.default, d.ambiguous = false :=
    exists_of_check (by decide +kernel)
  obtain ⟨s, hparse, hdepth, hnumbers, hcall⟩ := hexists
  have hread := Schema.ofMetadata?_metadata (s := s) (by simp [hnumbers]) hdepth
  exact ⟨s, hparse, hdepth, hnumbers, s.reread, hread, mt Schema.reread_eq_self_iff.1 hcall⟩

end PrismaTypes
