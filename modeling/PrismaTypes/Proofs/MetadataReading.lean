import Mathlib.Data.List.Basic
import PrismaTypes.Metadata.Reader
import PrismaTypes.Metadata.Writer
import PrismaTypes.Proofs.JsonText

/-!
# Reading what metadata writes

Each reader of the metadata document, given what is written for a part of a schema, gives that part
back, with one exception: a default value that is a list of a text and a list is read as a function
call. `Default.reread` makes this change at every depth, and `Schema.reread` makes it in all fields.
-/

namespace PrismaTypes

open Json (Value Tree)

theorem map_eq_self_iff {α : Type} {f : α → α} {items : List α} :
    items.map f = items ↔ ∀ a ∈ items, f a = a := by
  simpa using List.map_inj_left (f := f) (g := id) (l := items)

/-! ## Default values -/

namespace Default

/-- Induction on default values, with the claim for all arguments of a call and all items of a
list. -/
theorem induction {P : Default → Prop} (hcall : ∀ name args, (∀ d ∈ args, P d) → P (call name args))
    (hlist : ∀ items, (∀ d ∈ items, P d) → P (list items)) (hboolean : ∀ b, P (boolean b))
    (hnumber : ∀ n, P (number n)) (htext : ∀ s, P (text s)) (d : Default) : P d :=
  @Default.rec P (fun items => ∀ d ∈ items, P d) hcall hlist hboolean hnumber htext
    (fun _ h => nomatch h) (fun _ _ hhead htail => List.forall_mem_cons.2 ⟨hhead, htail⟩) d

/-- A list of a text and a list, which reads as a function call. -/
def looksLikeCall : List Default → Bool
  | [text _, list _] => true
  | _ => false

mutual

/-- The default value that is read from what is written for one. -/
def reread : Default → Default
  | call name args => call name (rereadAll args)
  | list [text name, list args] => call name (rereadAll args)
  | list items => list (rereadAll items)
  | d => d

def rereadAll : List Default → List Default
  | [] => []
  | d :: rest => d.reread :: rereadAll rest

end

mutual

/-- Somewhere inside there is a list that looks like a call. -/
def ambiguous : Default → Bool
  | call _ args => anyAmbiguous args
  | list items => looksLikeCall items || anyAmbiguous items
  | _ => false

def anyAmbiguous : List Default → Bool
  | [] => false
  | d :: rest => d.ambiguous || anyAmbiguous rest

end

theorem rereadAll_eq_map (items : List Default) : rereadAll items = items.map reread := by
  induction items with
  | nil =>
      rfl
  | cons d rest ih =>
      rw [rereadAll, ih, List.map_cons]

theorem anyAmbiguous_eq_false_iff {items : List Default} :
    anyAmbiguous items = false ↔ ∀ d ∈ items, d.ambiguous = false := by
  induction items with
  | nil =>
      simp [anyAmbiguous]
  | cons d rest ih =>
      rw [anyAmbiguous, Bool.or_eq_false_iff, ih, List.forall_mem_cons]

theorem toJsonList_eq_map (items : List Default) : toJsonList items = items.map toJson := by
  induction items with
  | nil =>
      rfl
  | cons d rest ih =>
      rw [toJsonList, ih, List.map_cons]

theorem exists_of_looksLikeCall {items : List Default} (h : looksLikeCall items = true) :
    ∃ name args, items = [text name, list args] := by
  unfold looksLikeCall at h
  split at h
  · exact ⟨_, _, rfl⟩
  · cases h

theorem reread_list {items : List Default} (h : looksLikeCall items = false) :
    (list items).reread = list (items.map reread) := by
  rw [reread, rereadAll_eq_map]
  rintro name args rfl
  cases h

/-- A default value reads back unchanged exactly when nothing inside it looks like a call. -/
theorem reread_eq_self_iff {d : Default} : d.reread = d ↔ d.ambiguous = false := by
  induction d using Default.induction with
  | hcall name args ih =>
      simp only [reread, ambiguous, call.injEq, true_and, rereadAll_eq_map,
        map_eq_self_iff, anyAmbiguous_eq_false_iff]
      exact forall₂_congr ih
  | hlist items ih =>
      cases hcall : looksLikeCall items with
      | true =>
          -- What is read is a call and no list, whatever its arguments are.
          obtain ⟨name, args, rfl⟩ := exists_of_looksLikeCall hcall
          simp [reread, ambiguous, looksLikeCall]
      | false =>
          simp only [reread_list hcall, list.injEq, ambiguous, hcall, Bool.false_or,
            map_eq_self_iff, anyAmbiguous_eq_false_iff]
          exact forall₂_congr ih
  | hboolean | hnumber | htext =>
      simp [reread, ambiguous]

/-! ### Reading -/

theorem ofTrees?_toTree {items : List Default}
    (h : ∀ d ∈ items, ofTree? d.toJson.toTree = some d.reread) :
    ofTrees? (items.map fun d => d.toJson.toTree) = some (items.map reread) := by
  induction items with
  | nil =>
      rfl
  | cons d rest ih =>
      rw [List.map_cons, ofTrees?, h d (by simp), ih fun d' hd' => h d' (by simp [hd'])]
      rfl

theorem toTree_toJson_list (items : List Default) :
    (list items).toJson.toTree = .list (items.map fun d => d.toJson.toTree) := by
  rw [toJson, Value.toTree, Value.treesOf_eq_map, toJsonList_eq_map, List.map_map]
  rfl

theorem toTree_toJson_ne_null (d : Default) : d.toJson.toTree ≠ .null := by
  cases d <;> simp [toJson, Value.toTree]

theorem toTree_toJson_call (name : String) (args : List Default) :
    (call name args).toJson.toTree = .object [(some "name", .text (some name)),
      (some "args", .list (args.map fun d => d.toJson.toTree))] := by
  simp only [toJson, Value.toTree, Value.treeMembersOf_eq_map, List.map_cons, List.map_nil,
    Value.treesOf_eq_map, toJsonList_eq_map, List.map_map]
  rfl

/-- Only a list is written as a list, and only a text as a text. -/
theorem looksLikeCall_of_toTree {items : List Default} {name : String} {args : List Tree}
    (h : (items.map fun d => d.toJson.toTree) = [.text (some name), .list args]) :
    looksLikeCall items = true := by
  obtain ⟨d, rest, rfl, hd, hrest⟩ := List.map_eq_cons_iff.1 h
  obtain ⟨e, rest, rfl, he, hnil⟩ := List.map_eq_cons_iff.1 hrest
  rw [List.map_eq_nil_iff.1 hnil]
  -- A call is written as an object, so it is mistaken for neither.
  cases d with
  | text s =>
      cases e with
      | list items =>
          rfl
      | call | boolean | number | text =>
          simp [toJson, Value.toTree] at he
  | call | list | boolean | number =>
      simp [toJson, Value.toTree] at hd

/-- What is written for a default value reads as its reread form. The items of a list are kept along
in the induction: two levels down, they may be the arguments of a call. -/
theorem ofTree?_toTree_and_items (d : Default) :
    ofTree? d.toJson.toTree = some d.reread ∧
      ∀ items, d = list items → ∀ x ∈ items, ofTree? x.toJson.toTree = some x.reread := by
  induction d using Default.induction with
  | hcall name args ih =>
      refine ⟨?_, fun _ h => nomatch h⟩
      have hargs := ofTrees?_toTree fun x hx => (ih x hx).1
      rw [toTree_toJson_call, reread, rereadAll_eq_map]
      simp [ofTree?, callOf?, hargs]
  | hlist items ih =>
      refine ⟨?_, fun _ h x hx => (ih x (list.inj h ▸ hx)).1⟩
      cases hcall : looksLikeCall items with
      | true =>
          obtain ⟨name, args, rfl⟩ := exists_of_looksLikeCall hcall
          -- The items of the inner list become the arguments.
          have hargs := ofTrees?_toTree ((ih (list args) (by simp)).2 args rfl)
          rw [toTree_toJson_list, List.map_cons, List.map_cons, toTree_toJson_list, reread,
            rereadAll_eq_map]
          simp [toJson, Value.toTree, ofTree?, hargs]
      | false =>
          rw [toTree_toJson_list, reread_list hcall, ofTree?,
            ofTrees?_toTree fun x hx => (ih x hx).1]
          · rfl
          · intro name args h
            rw [looksLikeCall_of_toTree h] at hcall
            cases hcall
  | hboolean | hnumber | htext =>
      simp [toJson, Value.toTree, ofTree?, reread]

end Default

/-! ## Parts of records -/

namespace Metadata

section Decoders

variable {α β : Type} {decode : Decoder β} {write : α → Value} {f : α → β}

/-- What is written for `a` is read as `f a`, given room for its nesting. -/
def Decodes (decode : Decoder β) (write : α → Value) (f : α → β) : Prop :=
  ∀ a room, (write a).depth ≤ room → decode room (write a).toTree = some (f a)

theorem decodes_text : Decodes Decoder.text Value.text id :=
  fun _ _ _ => rfl

theorem decodes_bool : Decodes Decoder.bool Value.bool id :=
  fun _ _ _ => rfl

theorem decodes_default : Decodes Default.decode Default.toJson Default.reread := by
  intro d room hroom
  obtain ⟨data, hdata⟩ := Value.exists_toValue_toTree hroom
  rw [Default.decode]
  simp only [hdata]
  exact (Default.ofTree?_toTree_and_items d).1

theorem decodes_kind : Decodes FieldKind.decode (fun kind => .text kind.word) id := by
  intro kind room _
  cases kind <;> rfl

theorem mapM_eq_some_map {read : α → Option β} {items : List α}
    (h : ∀ a ∈ items, read a = some (f a)) : items.mapM read = some (items.map f) := by
  induction items with
  | nil =>
      rfl
  | cons a rest ih =>
      rw [List.mapM_cons, h a (by simp), ih fun a' ha' => h a' (by simp [ha'])]
      rfl

theorem Decodes.list (h : Decodes decode write f) :
    Decodes (Decoder.list decode) (fun items => .list (items.map write)) (List.map f) := by
  intro items room hroom
  cases room with
  -- A list needs a level of its own.
  | zero =>
      rw [Value.depth] at hroom
      omega
  | succ room =>
      have hitems := Value.depth_list_le_iff.1 hroom
      rw [Value.toTree, Value.treesOf_eq_map, List.map_map, Decoder.list, List.mapM_map]
      exact mapM_eq_some_map fun a ha => h a room (hitems _ (List.mem_map_of_mem ha))

theorem decodes_textList : Decodes (Decoder.list Decoder.text) textList id := by
  intro items room hroom
  have hitems := decodes_text.list items room hroom
  rwa [List.map_id] at hitems

theorem decodes_nativeType : Decodes NativeType.decode NativeType.toJson id := by
  intro n room hroom
  cases room with
  | zero =>
      rw [NativeType.toJson, Value.depth] at hroom
      omega
  | succ room =>
      have hargs := decodes_textList n.args room
        (Value.depth_list_le_iff.1 hroom _ (by simp))
      simp only [NativeType.toJson, Value.toTree, Value.treesOf_eq_map, List.map_cons,
        List.map_nil, NativeType.decode, hargs]
      rfl

/-- A written value is not absent. -/
theorem Decodes.optional (h : Decodes decode write f) (hnull : ∀ a, (write a).toTree ≠ .null) :
    Decodes (Decoder.optional decode) write fun a => some (f a) := by
  intro a room hroom
  rw [Decoder.optional, h a room hroom]
  · rfl
  · exact fun heq => hnull a heq

theorem decodes_optionalText : Decodes (Decoder.optional Decoder.text) optionalText id := by
  intro s room _
  cases s <;> rfl

end Decoders

/-! ## Records -/

section Records

/-- The members of a record that are there. -/
def present (slots : List (String × Option Value)) : List (String × Value) :=
  slots.flatMap fun slot => memberIf slot.1 slot.2

@[simp] theorem present_nil : present [] = [] := rfl

theorem present_cons (key : String) (v : Option Value) (slots) :
    present ((key, v) :: slots) = memberIf key v ++ present slots := rfl

/-- A list that is there only with items. -/
def listIf {α : Type} (write : α → Value) (items : List α) : Option Value :=
  if items.isEmpty then none else some (.list (items.map write))

theorem textListIf_eq (key : String) (items : List String) :
    textListIf key items = memberIf key (listIf Value.text items) := by
  cases items <;> rfl

variable {slots : List (String × Option Value)}

theorem mem_present {key : String} {v : Value} :
    (key, v) ∈ present slots ↔ (key, some v) ∈ slots := by
  simp only [present, memberIf, List.mem_flatMap, Option.mem_toList,
    Option.map_eq_some_iff, Prod.mk.injEq]
  constructor
  · rintro ⟨⟨_, _⟩, hslot, _, rfl, rfl, rfl⟩
    exact hslot
  · intro hslot
    exact ⟨(key, some v), hslot, v, rfl, rfl, rfl⟩

/-- What a reader finds in a record. -/
def found (slots : List (String × Option Value)) : List (String × Tree) :=
  (present slots).map fun m => (m.1, m.2.toTree)

theorem found_cons_none (key : String) : found ((key, none) :: slots) = found slots := rfl

theorem found_cons_some (key : String) (v : Value) :
    found ((key, some v) :: slots) = (key, v.toTree) :: found slots := rfl

theorem keys_found_sublist (slots : List (String × Option Value)) :
    ((found slots).map Prod.fst).Sublist (slots.map Prod.fst) := by
  induction slots with
  | nil =>
      exact .slnil
  | cons slot slots ih =>
      obtain ⟨key, v | v⟩ := slot
      · exact ih.cons key
      · exact ih.cons_cons key

theorem get?_eq_none_of_notMem {members : List (String × Tree)} {key : String}
    (h : key ∉ members.map Prod.fst) : Members.get? key members = none := by
  induction members with
  | nil =>
      rfl
  | cons m members ih =>
      simp only [List.map_cons, List.mem_cons, not_or] at h
      rw [Members.get?, if_neg (Ne.symm h.1), ih h.2]

theorem get?_found (hnodup : (slots.map Prod.fst).Nodup) {key : String} {v : Option Value}
    (h : (key, v) ∈ slots) : Members.get? key (found slots) = v.map Value.toTree := by
  induction slots with
  | nil =>
      cases h
  | cons slot slots ih =>
      rw [List.map_cons, List.nodup_cons] at hnodup
      -- Keys are distinct, so a member that is left out is not found elsewhere.
      rcases List.mem_cons.1 h with rfl | hlater
      · cases v with
        | none =>
            rw [found_cons_none]
            exact get?_eq_none_of_notMem fun hmem =>
              hnodup.1 ((keys_found_sublist slots).subset hmem)
        | some v =>
            rw [found_cons_some, Members.get?, if_pos rfl]
            rfl
      · have hne : slot.1 ≠ key := fun heq =>
          hnodup.1 (heq ▸ List.mem_map_of_mem (f := Prod.fst) hlater)
        obtain ⟨other, w | w⟩ := slot
        · rw [found_cons_none]
          exact ih hnodup.2 hlater
        · rw [found_cons_some, Members.get?, if_neg hne]
          exact ih hnodup.2 hlater

theorem properties_toTree {keys : List String} (hkeys : slots.map Prod.fst = keys)
    (hnodup : keys.Nodup) (room : Nat) :
    properties keys (room + 1) (Value.object (present slots)).toTree = some (found slots) := by
  have hsublist := keys_found_sublist slots
  rw [hkeys] at hsublist
  -- No member is unknown, and none is given twice.
  have hknown : (found slots).filter (fun m => keys.contains m.1) = found slots := by
    refine List.filter_eq_self.2 fun m hm => ?_
    exact List.contains_iff_mem.2 (hsublist.subset (List.mem_map_of_mem hm))
  have hall : keysOf ((present slots).map fun m => (some m.1, m.2.toTree))
      = some (found slots) := by
    rw [keysOf, List.mapM_map]
    exact mapM_eq_some_map fun _ _ => rfl
  rw [Value.toTree, Value.treeMembersOf_eq_map, properties, hall]
  simp only [Option.bind_eq_bind, Option.bind_some, hknown, if_pos (hnodup.sublist hsublist)]

/-! ### Properties -/

/-- The slots of a record whose document fits the room that is left. -/
structure Fits (slots : List (String × Option Value)) (room : Nat) : Prop where
  nodup : (slots.map Prod.fst).Nodup
  depth : (Value.object (present slots)).depth ≤ room + 1

theorem exists_fits {keys : List String} (hkeys : slots.map Prod.fst = keys)
    (hnodup : keys.Nodup) {room : Nat} (hroom : (Value.object (present slots)).depth ≤ room) :
    ∃ left, room = left + 1 ∧ Fits slots left ∧
      properties keys room (Value.object (present slots)).toTree = some (found slots) := by
  cases room with
  | zero =>
      rw [Value.depth] at hroom
      omega
  | succ room =>
      exact ⟨room, rfl, ⟨hkeys ▸ hnodup, hroom⟩, properties_toTree hkeys hnodup room⟩

namespace Fits

variable {room : Nat} {key : String} {α β : Type} {decode : Decoder β} {write : α → Value}
  {f : α → β} {absent : β}

theorem depth_le (h : Fits slots room) {v : Value} (hslot : (key, some v) ∈ slots) :
    v.depth ≤ room :=
  Value.depth_object_le_iff.1 h.depth (key, v) (mem_present.2 hslot)

theorem required (h : Fits slots room) (hdecode : Decodes decode write f) {a : α}
    (hslot : (key, some (write a)) ∈ slots) :
    required decode room key (found slots) = some (f a) := by
  rw [Metadata.required, get?_found h.nodup hslot]
  exact hdecode a room (h.depth_le hslot)

theorem defaulted (h : Fits slots room) (hdecode : Decodes decode write f) {a : α}
    (hslot : (key, some (write a)) ∈ slots) :
    defaulted decode absent room key (found slots) = some (f a) := by
  rw [Metadata.defaulted, get?_found h.nodup hslot]
  exact hdecode a room (h.depth_le hslot)

theorem optional (h : Fits slots room) (hdecode : Decodes decode write f)
    (hnull : ∀ a, (write a).toTree ≠ .null) {o : Option α}
    (hslot : (key, o.map write) ∈ slots) :
    Metadata.defaulted (Decoder.optional decode) none room key (found slots)
      = some (o.map f) := by
  cases o with
  | none =>
      rw [Metadata.defaulted, get?_found h.nodup hslot]
      rfl
  | some a =>
      exact h.defaulted (hdecode.optional hnull) hslot

theorem list (h : Fits slots room) (hdecode : Decodes decode write f) {items : List α}
    (hslot : (key, listIf write items) ∈ slots) :
    Metadata.defaulted (Decoder.list decode) [] room key (found slots) = some (items.map f) := by
  cases items with
  | nil =>
      rw [Metadata.defaulted, get?_found h.nodup hslot]
      rfl
  | cons a items =>
      exact h.defaulted hdecode.list hslot

theorem text (h : Fits slots room) {s : String} (hslot : (key, some (.text s)) ∈ slots) :
    Metadata.required Decoder.text room key (found slots) = some s :=
  h.required decodes_text hslot

theorem flag (h : Fits slots room) {b absent : Bool} (hslot : (key, some (.bool b)) ∈ slots) :
    Metadata.defaulted Decoder.bool absent room key (found slots) = some b :=
  h.defaulted decodes_bool hslot

theorem optionalText (h : Fits slots room) {s : Option String}
    (hslot : (key, s.map .text) ∈ slots) :
    Metadata.defaulted (Decoder.optional Decoder.text) none room key (found slots) = some s := by
  have hread := h.optional decodes_text (fun _ => nofun) hslot
  rwa [Option.map_id] at hread

theorem texts (h : Fits slots room) {items : List String}
    (hslot : (key, listIf .text items) ∈ slots) :
    Metadata.defaulted (Decoder.list Decoder.text) [] room key (found slots) = some items := by
  have hread := h.list decodes_text hslot
  rwa [List.map_id] at hread

end Fits

end Records

end Metadata

open Metadata

/-! ## Fields -/

namespace Field

/-- The field that is read from what is written for one. -/
def reread (f : Field) : Field :=
  { f with default := f.default.map Default.reread }

/-- The members of a field, those included that are left out. -/
def slots (f : Field) : List (String × Option Value) :=
  [("name", some (.text f.name)),
   ("kind", some (.text f.kind.word)),
   ("isList", some (.bool f.isList)),
   ("isRequired", some (.bool f.isRequired)),
   ("isUnique", some (.bool f.isUnique)),
   ("isId", some (.bool f.isId)),
   ("isReadOnly", some (.bool f.isReadOnly)),
   ("isUpdatedAt", some (.bool f.isUpdatedAt)),
   ("hasDefaultValue", some (.bool f.hasDefault)),
   ("default", f.default.map Default.toJson),
   ("type", some (.text f.typeName)),
   ("dbName", f.dbName.map .text),
   ("nativeType", f.nativeType.map NativeType.toJson),
   ("relationName", f.relationName.map .text),
   ("relationFromFields", listIf .text f.relationFrom),
   ("relationToFields", listIf .text f.relationTo),
   ("relationOnDelete", f.onDelete.map .text),
   ("relationOnUpdate", f.onUpdate.map .text),
   ("documentation", f.documentation.map .text)]

theorem toJson_eq (f : Field) : f.toJson = .object (present f.slots) := by
  simp [toJson, slots, present_cons, textListIf_eq, memberIf]

theorem decodes : Decodes Field.decode Field.toJson Field.reread := by
  intro f room hroom
  rw [toJson_eq] at hroom ⊢
  have hkeys : f.slots.map Prod.fst = keys := rfl
  obtain ⟨room, rfl, hfits, hfound⟩ := exists_fits hkeys (by decide) hroom
  have hname : required Decoder.text room "name" (found f.slots) = some f.name :=
    hfits.text (by simp [slots])
  have hkind : required FieldKind.decode room "kind" (found f.slots) = some f.kind :=
    hfits.required decodes_kind (by simp [slots])
  have hlist : required Decoder.bool room "isList" (found f.slots) = some f.isList :=
    hfits.required decodes_bool (by simp [slots])
  have hrequired : required Decoder.bool room "isRequired" (found f.slots)
      = some f.isRequired := hfits.required decodes_bool (by simp [slots])
  have hisUnique : defaulted Decoder.bool false room "isUnique" (found f.slots)
      = some f.isUnique := hfits.flag (by simp [slots])
  have hisId : defaulted Decoder.bool false room "isId" (found f.slots)
      = some f.isId := hfits.flag (by simp [slots])
  have hisReadOnly : defaulted Decoder.bool false room "isReadOnly" (found f.slots)
      = some f.isReadOnly := hfits.flag (by simp [slots])
  have hisUpdatedAt : defaulted Decoder.bool false room "isUpdatedAt" (found f.slots)
      = some f.isUpdatedAt := hfits.flag (by simp [slots])
  have hhasDefault : defaulted Decoder.bool false room "hasDefaultValue" (found f.slots)
      = some f.hasDefault := hfits.flag (by simp [slots])
  have hdefault : defaulted (Decoder.optional Default.decode) none room "default"
      (found f.slots) = some (f.default.map Default.reread) :=
    hfits.optional decodes_default Default.toTree_toJson_ne_null (by simp [slots])
  have htype : required Decoder.text room "type" (found f.slots) = some f.typeName :=
    hfits.text (by simp [slots])
  have hnative : defaulted (Decoder.optional NativeType.decode) none room "nativeType"
      (found f.slots) = some (f.nativeType.map id) :=
    hfits.optional decodes_nativeType (fun _ => nofun) (by simp [slots])
  have hdbName : defaulted (Decoder.optional Decoder.text) none room "dbName"
      (found f.slots) = some f.dbName := hfits.optionalText (by simp [slots])
  have hrelationName : defaulted (Decoder.optional Decoder.text) none room "relationName"
      (found f.slots) = some f.relationName := hfits.optionalText (by simp [slots])
  have honDelete : defaulted (Decoder.optional Decoder.text) none room "relationOnDelete"
      (found f.slots) = some f.onDelete := hfits.optionalText (by simp [slots])
  have honUpdate : defaulted (Decoder.optional Decoder.text) none room "relationOnUpdate"
      (found f.slots) = some f.onUpdate := hfits.optionalText (by simp [slots])
  have hdocumentation : defaulted (Decoder.optional Decoder.text) none room "documentation"
      (found f.slots) = some f.documentation := hfits.optionalText (by simp [slots])
  have hrelationFrom : defaulted (Decoder.list Decoder.text) [] room "relationFromFields"
      (found f.slots) = some f.relationFrom := hfits.texts (by simp [slots])
  have hrelationTo : defaulted (Decoder.list Decoder.text) [] room "relationToFields"
      (found f.slots) = some f.relationTo := hfits.texts (by simp [slots])
  rw [decode, hfound, Option.bind_eq_bind, Option.bind_some]
  dsimp only
  rw [Nat.add_sub_cancel, hname, hkind, hlist, hrequired, hisUnique, hisId, hisReadOnly,
    hisUpdatedAt, hhasDefault, hdefault, htype, hdbName, hnative, hrelationName, hrelationFrom,
    hrelationTo, honDelete, honUpdate, hdocumentation, Option.map_id]
  rfl

end Field

/-! ## Models -/

namespace PrimaryKey

def slots (k : PrimaryKey) : List (String × Option Value) :=
  [("name", some (optionalText k.name)), ("fields", some (textList k.fields))]

theorem toJson_eq (k : PrimaryKey) : k.toJson = .object (present k.slots) := rfl

theorem decodes : Decodes PrimaryKey.decode PrimaryKey.toJson id := by
  intro k room hroom
  rw [toJson_eq] at hroom ⊢
  have hkeys : k.slots.map Prod.fst = ["name", "fields"] := rfl
  obtain ⟨room, rfl, hfits, hfound⟩ := exists_fits hkeys (by decide) hroom
  have hname : defaulted (Decoder.optional Decoder.text) none room "name" (found k.slots)
      = some k.name := hfits.defaulted decodes_optionalText (by simp [slots])
  have hfields : required (Decoder.list Decoder.text) room "fields" (found k.slots)
      = some k.fields := hfits.required decodes_textList (by simp [slots])
  simp only [decode, hfound, Option.bind_eq_bind, Option.bind_some, Nat.add_sub_cancel, hname,
    hfields]
  rfl

end PrimaryKey

namespace Model

def reread (m : Model) : Model :=
  { m with fields := m.fields.map Field.reread }

def slots (m : Model) : List (String × Option Value) :=
  [("name", some (.text m.name)),
   ("dbName", m.dbName.map .text),
   ("fields", some (.list (m.fields.map Field.toJson))),
   ("primaryKey", m.primaryKey.map PrimaryKey.toJson),
   ("uniqueFields", listIf textList m.uniqueFields),
   ("documentation", m.documentation.map .text)]

theorem toJson_eq (m : Model) : m.toJson = .object (present m.slots) := by
  cases hunique : m.uniqueFields <;>
    simp [toJson, slots, present_cons, listIf, memberIf, hunique]

theorem decodes : Decodes Model.decode Model.toJson Model.reread := by
  intro m room hroom
  rw [toJson_eq] at hroom ⊢
  have hkeys : m.slots.map Prod.fst = keys := rfl
  obtain ⟨room, rfl, hfits, hfound⟩ := exists_fits hkeys (by decide) hroom
  have hname : required Decoder.text room "name" (found m.slots) = some m.name :=
    hfits.text (by simp [slots])
  have hdbName : defaulted (Decoder.optional Decoder.text) none room "dbName" (found m.slots)
      = some m.dbName := hfits.optionalText (by simp [slots])
  have hfields : required (Decoder.list Field.decode) room "fields" (found m.slots)
      = some (m.fields.map Field.reread) :=
    hfits.required Field.decodes.list (by simp [slots])
  have hkey : defaulted (Decoder.optional PrimaryKey.decode) none room "primaryKey"
      (found m.slots) = some (m.primaryKey.map id) :=
    hfits.optional PrimaryKey.decodes (fun _ => nofun) (by simp [slots])
  have hunique : defaulted (Decoder.list (Decoder.list Decoder.text)) [] room "uniqueFields"
      (found m.slots) = some (m.uniqueFields.map id) :=
    hfits.list decodes_textList (by simp [slots])
  have hdocumentation : defaulted (Decoder.optional Decoder.text) none room "documentation"
      (found m.slots) = some m.documentation := hfits.optionalText (by simp [slots])
  simp only [decode, hfound, Option.bind_eq_bind, Option.bind_some, Nat.add_sub_cancel, hname,
    hdbName, hfields, hkey, hunique, hdocumentation, Option.map_id_fun, List.map_id_fun]
  rfl

end Model

/-! ## Enums -/

namespace EnumMember

def slots (m : EnumMember) : List (String × Option Value) :=
  [("name", some (.text m.name)),
   ("dbName", some (optionalText m.dbName)),
   ("documentation", m.documentation.map .text)]

theorem toJson_eq (m : EnumMember) : m.toJson = .object (present m.slots) := by
  simp [toJson, slots, present_cons, memberIf]

theorem decodes : Decodes EnumMember.decode EnumMember.toJson id := by
  intro m room hroom
  rw [toJson_eq] at hroom ⊢
  have hkeys : m.slots.map Prod.fst = ["name", "dbName", "documentation"] := rfl
  obtain ⟨room, rfl, hfits, hfound⟩ := exists_fits hkeys (by decide) hroom
  have hname : required Decoder.text room "name" (found m.slots) = some m.name :=
    hfits.text (by simp [slots])
  have hdbName : defaulted (Decoder.optional Decoder.text) none room "dbName" (found m.slots)
      = some m.dbName := hfits.defaulted decodes_optionalText (by simp [slots])
  have hdocumentation : defaulted (Decoder.optional Decoder.text) none room "documentation"
      (found m.slots) = some m.documentation := hfits.optionalText (by simp [slots])
  simp only [decode, hfound, Option.bind_eq_bind, Option.bind_some, Nat.add_sub_cancel, hname,
    hdbName, hdocumentation]
  rfl

end EnumMember

namespace EnumType

def slots (e : EnumType) : List (String × Option Value) :=
  [("name", some (.text e.name)),
   ("values", some (.list (e.members.map EnumMember.toJson))),
   ("dbName", e.dbName.map .text),
   ("documentation", e.documentation.map .text)]

theorem toJson_eq (e : EnumType) : e.toJson = .object (present e.slots) := by
  simp [toJson, slots, present_cons, memberIf]

theorem decodes : Decodes EnumType.decode EnumType.toJson id := by
  intro e room hroom
  rw [toJson_eq] at hroom ⊢
  have hkeys : e.slots.map Prod.fst = ["name", "values", "dbName", "documentation"] := rfl
  obtain ⟨room, rfl, hfits, hfound⟩ := exists_fits hkeys (by decide) hroom
  have hname : required Decoder.text room "name" (found e.slots) = some e.name :=
    hfits.text (by simp [slots])
  have hmembers : required (Decoder.list EnumMember.decode) room "values" (found e.slots)
      = some (e.members.map id) := hfits.required EnumMember.decodes.list (by simp [slots])
  have hdbName : defaulted (Decoder.optional Decoder.text) none room "dbName" (found e.slots)
      = some e.dbName := hfits.optionalText (by simp [slots])
  have hdocumentation : defaulted (Decoder.optional Decoder.text) none room "documentation"
      (found e.slots) = some e.documentation := hfits.optionalText (by simp [slots])
  simp only [decode, hfound, Option.bind_eq_bind, Option.bind_some, Nat.add_sub_cancel, hname,
    hmembers, hdbName, hdocumentation, List.map_id_fun]
  rfl

end EnumType

/-! ## Schemas -/

namespace Schema

/-- The schema that is read from what is written for one: only default values may change. -/
def reread (s : Schema) : Schema :=
  { s with models := s.models.map Model.reread }

def slots (s : Schema) : List (String × Option Value) :=
  [("models", some (.list (s.models.map Model.toJson))),
   ("enums", some (.list (s.enums.map EnumType.toJson)))]

theorem toJson_eq (s : Schema) : s.toJson = .object (present s.slots) := rfl

theorem decodes : Decodes Schema.decode Schema.toJson Schema.reread := by
  intro s room hroom
  rw [toJson_eq] at hroom ⊢
  have hkeys : s.slots.map Prod.fst = ["models", "enums"] := rfl
  obtain ⟨room, rfl, hfits, hfound⟩ := exists_fits hkeys (by decide) hroom
  have hmodels : required (Decoder.list Model.decode) room "models" (found s.slots)
      = some (s.models.map Model.reread) :=
    hfits.required Model.decodes.list (by simp [slots])
  have henums : required (Decoder.list EnumType.decode) room "enums" (found s.slots)
      = some (s.enums.map id) := hfits.required EnumType.decodes.list (by simp [slots])
  simp only [decode, hfound, Option.bind_eq_bind, Option.bind_some, Nat.add_sub_cancel, hmodels,
    henums, List.map_id_fun]
  rfl

end Schema

end PrismaTypes
