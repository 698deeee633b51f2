import PrismaTypes.Proofs.AcceptedTexts
import PrismaTypes.Proofs.AttributeMeaning
import PrismaTypes.Proofs.DocumentedItems

/-!
# Flags of fields

The flags of a field come from three places: from the mark behind its type, from the attributes
behind that, and from the relations of the fields of its model, which may stand before or after it.
`Field.FlagsOf` says what the node of a field decides, without regard to the order or the arguments
of its attributes, and `Model.FlagsOf` adds what the whole model decides. The field nodes of a block
and the fields of its model are compared one by one.
-/

namespace PrismaTypes

open Grammar (Node Rule BodyRules Fits matchRule topLevel)
open Json (exists_of_bind_eq_ok)
open Outline (Attribute Block FieldDecl Item Misfit declarations nameOf readAttribute readField
  readFieldType ItemOf BlockOf)

/-! ## Marks -/

/-- A field type has one mark at most. -/
theorem Grammar.Fits.not_two_marks {n a b : Node} (h : Fits (.call .fieldType) [n])
    (ha : a ∈ n.children) (hlist : a.rule = .listMarker) (hb : b ∈ n.children) :
    b.rule ≠ .optionalMarker := by
  obtain ⟨base, marks, hchildren, hbase, hlength, -⟩ := h.fieldType
  have hname : base.rule = .unsupportedType ∨ base.rule = .typeName := by
    rcases hbase with hbase | hbase
    · exact .inl hbase
    · exact .inr (hbase.rule_of_token rfl)
  -- What stands in front of the mark is none itself.
  have hmark : ∀ k ∈ n.children, k.rule = .listMarker ∨ k.rule = .optionalMarker → k ∈ marks := by
    intro k hk hrule
    rw [hchildren] at hk
    rcases List.mem_cons.1 hk with rfl | hk
    · rcases hname with hname | hname <;> simp [hname] at hrule
    · exact hk
  intro hoptional
  have heq : a = b :=
    eq_of_length_le_one hlength (hmark a ha (.inl hlist)) (hmark b hb (.inr hoptional))
  rw [heq, hoptional] at hlist
  cases hlist

namespace Outline

/-- What the parts of a field type say beside the name of the type. -/
theorem marks_readFieldType (parts : List Node) (decl : FieldDecl) :
    (readFieldType parts decl).isList = (decl.isList || parts.any (·.rule = .listMarker)) ∧
      (readFieldType parts decl).isOptional
        = (decl.isOptional || parts.any (·.rule = .optionalMarker)) ∧
      (readFieldType parts decl).attributes = decl.attributes := by
  induction parts generalizing decl with
  | nil =>
      simp [readFieldType]
  | cons part parts ih =>
      simp only [readFieldType, List.foldl_cons] at ih ⊢
      rw [(ih _).1, (ih _).2.1, (ih _).2.2]
      split <;> simp_all

/-! ## Attributes -/

/-- An attribute of the given name is written behind the field. -/
def Carries (n : Node) (name : String) : Prop :=
  ∃ a ∈ n.children, a.rule = .fieldAttribute ∧ nameOf a = name

theorem name_of_readAttribute {n : Node} {a : Attribute} (h : readAttribute n = .ok a) :
    a.name = nameOf n := by
  obtain ⟨⟨name, rest⟩, hfirst, h⟩ := exists_of_bind_eq_ok h
  have hname : nameOf n = word name := by simp [nameOf, children_of_firstChild hfirst]
  cases rest with
  | nil =>
      cases h
      exact hname.symm
  | cons args rest =>
      obtain ⟨_, -, h⟩ := exists_of_bind_eq_ok h
      cases h
      exact hname.symm

theorem names_of_mapM_readAttribute {nodes : List Node} {attributes : List Attribute}
    (h : nodes.mapM readAttribute = .ok attributes) :
    attributes.map Attribute.name = nodes.map nameOf := by
  induction nodes generalizing attributes with
  | nil =>
      cases h
      rfl
  | cons n nodes ih =>
      rw [List.mapM_cons] at h
      obtain ⟨a, ha, h⟩ := exists_of_bind_eq_ok h
      obtain ⟨later, hlater, h⟩ := exists_of_bind_eq_ok h
      cases h
      rw [List.map_cons, List.map_cons, name_of_readAttribute ha, ih hlater]

theorem any_is_iff {attributes : List Attribute} {name : String} :
    attributes.any (·.is name) = true ↔ name ∈ attributes.map Attribute.name := by
  simp [Attribute.is]

theorem mem_of_last?_eq_some {attributes : List Attribute} {name : String} {a : Attribute}
    (h : Canonical.last? attributes name = some a) : a ∈ attributes ∧ a.is name = true := by
  rw [Canonical.last?] at h
  have hname := List.find?_some h
  exact ⟨List.mem_reverse.1 (List.mem_of_find?_eq_some h), hname⟩

/-- A field is never a list and optional at once, and its attributes are those behind it. -/
theorem flags_of_readField {n : Node} {decl : FieldDecl} (hfits : Fits (.call .field) [n])
    (h : readField n = .ok decl) :
    (decl.isList = true → decl.isOptional = false) ∧
      ∀ name, decl.attributes.any (·.is name) = true ↔ Carries n name := by
  obtain ⟨-, name, fieldType, attributes, hchildren, hname, htype, -⟩ := hfits.field
  obtain ⟨_, _, _, read, hchildren', hread, rfl⟩ := exists_of_readField h
  obtain ⟨rfl, rfl, rfl⟩ : _ ∧ _ ∧ _ := by simpa [hchildren] using hchildren'
  obtain ⟨hlist, hoptional, hattributes⟩ := marks_readFieldType fieldType.children
    { name := word name, typeName := "", isList := false, isOptional := false, attributes := read }
  constructor
  · intro h
    rw [hlist] at h
    rw [hoptional]
    obtain ⟨a, ha, hrule⟩ : ∃ a ∈ fieldType.children, a.rule = .listMarker := by simpa using h
    simpa using fun b hb => htype.not_two_marks ha hrule hb
  · intro key
    have hname := hname.rule_of_token rfl
    have htype := htype.rule_of_node (.inr rfl)
    rw [hattributes, any_is_iff, names_of_mapM_readAttribute hread]
    simp [Carries, hchildren, hname, htype, and_assoc]

/-- The declarations of a body are read from its declaration nodes, one by one. -/
theorem entries_of_itemOf {α : Type} {entry : Rule} {readEntry : Node → Except Misfit α}
    (hentry : entry ≠ .documentation ∧ entry ≠ .blockAttribute) {nodes : List Node}
    {items : List (Item α)} (h : List.Forall₂ (ItemOf entry readEntry) nodes items) :
    List.Forall₂ (fun n decl => readEntry n = .ok decl) (nodes.filter (·.rule = entry))
      (declarations items) := by
  induction h with
  | nil =>
      exact .nil
  | cons hitem _ ih =>
      cases hitem with
      | documentation hrule =>
          rw [List.filter_cons_of_neg (by simpa [hrule] using hentry.1.symm)]
          exact ih
      | entry hrule hread =>
          rw [List.filter_cons_of_pos (by simpa using hrule)]
          exact .cons hread ih
      | blockAttribute hrule =>
          rw [List.filter_cons_of_neg (by simpa [hrule] using hentry.2.symm)]
          exact ih

end Outline

/-! ## Fields -/

/-- What the node of a field decides about its flags. -/
structure Field.FlagsOf (n : Node) (f : Field) : Prop where
  name : f.name = nameOf n
  isRequired : f.isList = true → f.isRequired = true
  default : f.default.isSome = true → f.hasDefault = true
  hasDefault : f.hasDefault = true ↔ Outline.Carries n "default"
  isId : f.isId = true ↔ Outline.Carries n "id"
  isUnique : f.isUnique = true ↔ Outline.Carries n "unique"
  isUpdatedAt : f.isUpdatedAt = true ↔ Outline.Carries n "updatedAt"

namespace Field

theorem flagsOf_ofDecl {n : Node} {decl : FieldDecl} (hfits : Fits (.call .field) [n])
    (h : readField n = .ok decl) : FlagsOf n (ofDecl decl) := by
  obtain ⟨hlist, hcarries⟩ := Outline.flags_of_readField hfits h
  rw [ofDecl_eq]
  constructor
  case name => exact Outline.name_of_readField h
  case isRequired =>
    intro hl
    simp [Canonical.withAttributes, hlist hl]
  case default =>
    -- A default value is one of a `default` attribute.
    intro hsome
    obtain ⟨value, hvalue⟩ := Option.isSome_iff_exists.1 hsome
    obtain ⟨a, ha, -⟩ := Option.bind_eq_some_iff.1 hvalue
    exact List.any_eq_true.2 ⟨a, Outline.mem_of_last?_eq_some ha⟩
  case hasDefault => exact hcarries "default"
  case isId => exact hcarries "id"
  case isUnique => exact hcarries "unique"
  case isUpdatedAt => exact hcarries "updatedAt"

/-- No flag of a field that its node decides is touched behind its declaration. -/
theorem FlagsOf.of_core {n : Node} {f g : Field} (hcore : f.core = g.core) (h : FlagsOf n g) :
    FlagsOf n f := by
  have hg : FlagsOf n g.core := { h with }
  rw [← hcore] at hg
  exact { hg with }

end Field

/-! ## Models -/

/-- What the node of a model decides about the flags of its fields, and what its fields decide about
each other. -/
structure Model.FlagsOf (b : Node) (m : Model) : Prop where
  name : m.name = nameOf b
  fields : List.Forall₂ Field.FlagsOf (b.children.filter (·.rule = .field)) m.fields
  isReadOnly : ∀ f ∈ m.fields, f.isReadOnly = true ↔ ∃ g ∈ m.fields, f.name ∈ g.relationFrom

namespace Model

theorem isReadOnly_markReadOnly {m : Model} (hnew : ∀ f ∈ m.fields, f.isReadOnly = false)
    {f : Field} (hf : f ∈ m.markReadOnly.fields) :
    f.isReadOnly = true ↔ ∃ g ∈ m.markReadOnly.fields, f.name ∈ g.relationFrom := by
  obtain ⟨f', hf', rfl⟩ := List.mem_map.1 hf
  simp [markReadOnly, hnew f' hf']

theorem isReadOnly_assemble {name : String} {doc : Option String} {items : List (Item FieldDecl)}
    {f : Field} (hf : f ∈ (assemble name doc items).fields) :
    f.isReadOnly = true ↔ ∃ g ∈ (assemble name doc items).fields, f.name ∈ g.relationFrom := by
  refine isReadOnly_markReadOnly (fun g hg => ?_) hf
  rw [foldl_applyAttribute Model.fields applyAttribute_fields] at hg
  obtain ⟨e, -, rfl⟩ := List.mem_map.1 hg
  simp [Field.ofDecl_eq, Canonical.withAttributes]

theorem flagsOf_assemble {b : Node} {items : List (Item FieldDecl)}
    (hfits : Fits (.call .modelBlock) [b])
    (hitems : List.Forall₂ (ItemOf .field readField) b.children.tail items)
    (doc : Option String) : FlagsOf b (assemble (nameOf b) doc items) := by
  obtain ⟨-, name, members, hchildren, hname, hmembers⟩ := hfits.modelBlock
  rw [hchildren, List.tail_cons] at hitems
  have hreads := (List.forall₂_and_left _ _).2
    ⟨fun n hn => List.mem_filter.1 hn, Outline.entries_of_itemOf (by decide) hitems⟩
  -- Fields and declarations are matched by what the declaration settles.
  have hflags : List.Forall₂ (fun n core => ∃ f, Field.FlagsOf n f ∧ core = f.core)
      (members.filter (·.rule = .field))
      ((declarations items).map fun d => (Field.ofDecl d).core) := by
    refine List.forall₂_map_right_iff.2 (hreads.imp ?_)
    rintro n decl ⟨⟨hn, hrule⟩, hread⟩
    have hfield := BodyRules.model.fits_entry (hmembers n hn) (of_decide_eq_true hrule)
    exact ⟨_, Field.flagsOf_ofDecl hfield hread, rfl⟩
  rw [← map_assemble_fields Field.core (fun _ _ => rfl) (fun _ _ => rfl) (nameOf b) doc] at hflags
  refine ⟨assemble_name _ _ _, ?_, fun f hf => isReadOnly_assemble hf⟩
  rw [BodyRules.model.filter_children hchildren hname]
  refine (List.forall₂_map_right_iff.1 hflags).imp ?_
  rintro n f ⟨g, hg, hcore⟩
  exact hg.of_core hcore

end Model

theorem Draft.core_resolveField (d : Draft) (model : String) (f : Field) :
    (d.resolveField model f).core = f.core := rfl

/-- Looking up the types of its fields leaves their flags alone. -/
theorem Model.FlagsOf.resolveModel {b : Node} {m : Model} (h : FlagsOf b m) (d : Draft) :
    FlagsOf b (d.resolveModel m) := by
  constructor
  case name => exact h.name
  case fields =>
    refine List.forall₂_map_right_iff.2 (h.fields.imp fun n f hf => ?_)
    exact .of_core (d.core_resolveField m.name f) hf
  case isReadOnly =>
    intro f hf
    obtain ⟨f', hf', rfl⟩ := List.mem_map.1 hf
    simpa [Draft.resolveModel, Draft.resolveField] using h.isReadOnly f' hf'

/-! ## Drafts -/

namespace Draft

/-- A block that is taken adds a model with the flags of its node, or no model at all. -/
theorem flagsOf_addBlock {d d' : Draft} {n : Node} {b : Block} (hfits : Fits topLevel [n])
    (hblock : BlockOf n b) (h : d.addBlock b = .ok d') :
    ∃ models, d'.schema.models = d.schema.models ++ models ∧
      List.Forall₂ Model.FlagsOf ([n].filter (·.rule = .modelBlock)) models := by
  cases hblock with
  | documentation hrule | config hrule | skipped hrule =>
      cases h
      exact ⟨[], by simp, by simp [hrule]⟩
  | enum hrule =>
      obtain ⟨-, rfl⟩ := eq_of_addBlock_enum h
      exact ⟨[], by simp [Schema.addEnum], by simp [hrule]⟩
  | model hrule hitems =>
      have hmodel := Outline.fits_rule_of_topLevel hfits
      rw [hrule] at hmodel
      obtain ⟨-, rfl⟩ := eq_of_addBlock_model h
      refine ⟨[_], rfl, ?_⟩
      rw [List.filter_cons_of_pos (by simpa using hrule)]
      exact .cons (Model.flagsOf_assemble hmodel hitems d.pending) .nil

theorem flagsOf_addBlocks {d d' : Draft} {nodes : List Node} {blocks : List Block}
    (hfits : ∀ n ∈ nodes, Fits topLevel [n]) (hblocks : List.Forall₂ BlockOf nodes blocks)
    (h : (d.addBlocks blocks).2 = .ok d') :
    ∃ models, d'.schema.models = d.schema.models ++ models ∧
      List.Forall₂ Model.FlagsOf (nodes.filter (·.rule = .modelBlock)) models := by
  induction hblocks generalizing d with
  | nil =>
      cases h
      exact ⟨[], by simp, .nil⟩
  | @cons n b nodes blocks hblock _ ih =>
      obtain ⟨next, hadd, h⟩ := exists_of_addBlocks_cons h
      obtain ⟨first, hfirst, hflags⟩ := flagsOf_addBlock (hfits n (by simp)) hblock hadd
      obtain ⟨later, hlater, hflags'⟩ := ih (fun k hk => hfits k (by simp [hk])) h
      refine ⟨first ++ later, by rw [hlater, hfirst, List.append_assoc], ?_⟩
      rw [← List.singleton_append, List.filter_append]
      exact List.rel_append hflags hflags'

end Draft

/-! ## Results -/

/-- The models of an accepted text are those of the model blocks in its tree, one by one, and the
flags of their fields are the ones that the nodes of the fields and the relations of the model
decide. -/
theorem flags_of_accepted (text : String) (s : Schema) (h : (Schema.parse text).result = .ok s) :
    ∃ tree, matchRule .schema text.toList = .ok [tree] ∧
      List.Forall₂ Model.FlagsOf (tree.children.filter (·.rule = .modelBlock)) s.models := by
  obtain ⟨tree, ns, stop, blocks, d, hmatch, hchildren, hstop, hblocks, hreads, hd, rfl⟩ :=
    exists_taken h
  obtain ⟨models, hmodels, hflags⟩ := Draft.flagsOf_addBlocks hblocks.fits hreads hd
  refine ⟨tree, hmatch, ?_⟩
  have hnodes : tree.children.filter (·.rule = .modelBlock)
      = ns.filter (·.rule = .modelBlock) := by simp [hchildren, hstop]
  rw [hnodes]
  refine List.forall₂_map_right_iff.2 ?_
  rw [hmodels]
  exact hflags.imp fun b m hm => hm.resolveModel d

/-- A key in front of its relation, and attributes that are repeated or have no arguments. -/
def flaggedFields : String :=
  "model A\x7bk Int @default(1) @default\ns Int[] @unique(x) @id\na A? @relation(fields: [k])\x7d"

theorem flags_of_accepted_flagged_fields :
    ∃ s tree, (Schema.parse flaggedFields).result = .ok s ∧
      (s.models.map fun m => m.fields.map fun f =>
          (f.name, [f.isReadOnly, f.isList, f.hasDefault, f.default.isSome, f.isUnique, f.isId]))
        = [[("k", [true, false, true, false, false, false]),
            ("s", [false, true, false, false, true, true]),
            ("a", [false, false, false, false, false, false])]] ∧
      matchRule .schema flaggedFields.toList = .ok [tree] ∧
      List.Forall₂ Model.FlagsOf (tree.children.filter (·.rule = .modelBlock)) s.models := by
  have hexists : ∃ s, (Schema.parse flaggedFields).result = .ok s ∧
      (s.models.map fun m => m.fields.map fun f =>
          (f.name, [f.isReadOnly, f.isList, f.hasDefault, f.default.isSome, f.isUnique, f.isId]))
        = [[("k", [true, false, true, false, false, false]),
            ("s", [false, true, false, false, true, true]),
            ("a", [false, false, false, false, false, false])]] :=
    exists_of_check (by decide +kernel)
  obtain ⟨s, hparse, hflags⟩ := hexists
  obtain ⟨tree, hmatch, hmodels⟩ := flags_of_accepted flaggedFields s hparse
  exact ⟨s, tree, hparse, hflags, hmatch, hmodels⟩

end PrismaTypes
