import Mathlib.Data.String.Basic
import PrismaTypes.Proofs.AcceptedTexts
import PrismaTypes.Proofs.AttributeMeaning
import PrismaTypes.Proofs.MetadataRoundTrip

/-!
# Kinds and relations of fields

The kind of a field is looked up once all blocks are taken, among the names that they declared. So
it depends on the names of the finished schema only, and not on the order of the blocks:

* a draft keeps step with the blocks it has taken (`Draft.Follows`);
* its namespace holds the names of its models and enums and no others, and no scalar is among them;
* a relation keeps the name that its field gives it, and else gets one that both sides agree on.

What is said about fields whose type resolves to nothing is told from the same names.
-/

namespace PrismaTypes

open Outline (FieldDecl Item Block declarations)
open Canonical (lastOf?)

/-! ## What an outline says -/

namespace Outline

/-- The names of composite types and views. -/
def skippedNames (blocks : List Block) : List String :=
  blocks.filterMap fun
    | .skipped _ name => some name
    | _ => none

/-- The items of the model with the given name. -/
def modelItems? (blocks : List Block) (name : String) : Option (List (Item FieldDecl)) :=
  blocks.findSome? fun
    | .model n items => if n = name then some items else none
    | _ => none

/-- The name that the `relation` attributes of a field give, the last one of several. -/
def FieldDecl.relation? (d : FieldDecl) : Option String :=
  lastOf? d.attributes "relation" (·.textArg? "name")

/-- The name that a field of a model gives its relation. -/
def explicitRelation? (blocks : List Block) (model field : String) : Option String :=
  (modelItems? blocks model).bind fun items =>
    ((declarations items).find? (·.name = field)).bind FieldDecl.relation?

/-- Model names are distinct, so looking one up finds the block itself. -/
theorem modelItems?_of_mem {blocks : List Block} {name : String} {items : List (Item FieldDecl)}
    (hnodup : ((blocks.filterMap Block.header?).map Header.name).Nodup)
    (h : Block.model name items ∈ blocks) : modelItems? blocks name = some items := by
  induction blocks with
  | nil =>
      cases h
  | cons b blocks ih =>
      rw [modelItems?, List.findSome?_cons]
      rcases List.mem_cons.1 h with rfl | hmem
      · simp
      · have hlater : name ∈ (blocks.filterMap Block.header?).map Header.name :=
          List.mem_map.2 ⟨_, List.mem_filterMap.2 ⟨_, hmem, rfl⟩, rfl⟩
        cases b with
        | documentation | config | skipped =>
            exact ih (by simpa [List.filterMap_cons, Block.header?] using hnodup) hmem
        | enum n values =>
            have hrest := by simpa only [List.filterMap_cons, Block.header?, List.map_cons,
              List.nodup_cons] using hnodup
            exact ih hrest.2 hmem
        | model n fields =>
            have hrest := by simpa only [List.filterMap_cons, Block.header?, List.map_cons,
              List.nodup_cons] using hnodup
            have hne : n ≠ name := fun heq => hrest.1 (heq ▸ hlater)
            simp only [if_neg hne]
            exact ih hrest.2 hmem

theorem find?_name_of_mem {decls : List FieldDecl} {d : FieldDecl}
    (hnodup : (decls.map FieldDecl.name).Nodup) (h : d ∈ decls) :
    decls.find? (·.name = d.name) = some d := by
  induction decls with
  | nil =>
      cases h
  | cons first decls ih =>
      obtain ⟨hfirst, hrest⟩ := List.nodup_cons.1 hnodup
      rcases List.mem_cons.1 h with rfl | h
      · simp
      · have hne : first.name ≠ d.name := fun heq => hfirst (heq ▸ List.mem_map_of_mem h)
        rw [List.find?_cons_of_neg (by simpa using hne)]
        exact ih hrest h

end Outline

/-! ## Drafts and blocks -/

namespace Draft

/-- The draft has taken the blocks: it knows their names, and its models are theirs. -/
structure Follows (d : Draft) (blocks : List Block) : Prop where
  names : d.names.declarations = (blocks.filterMap Block.header?).map fun h => (h.name, h.kind)
  skipped : ∀ name, name ∈ d.skipped ↔ name ∈ Outline.skippedNames blocks
  models : ∀ m ∈ d.schema.models, ∃ doc items, Block.model m.name items ∈ blocks ∧
    m = Model.assemble m.name doc items

theorem follows_addBlock {d d' : Draft} {b : Block} {blocks : List Block} :
    d.addBlock b = .ok d' → d.Follows blocks → d'.Follows (blocks ++ [b]) := by
  intro h hd
  have hkept : ∀ m ∈ d.schema.models, ∃ doc items, Block.model m.name items ∈ blocks ++ [b] ∧
      m = Model.assemble m.name doc items := by
    intro m hm
    rcases hd.models m hm with ⟨doc, items, hmem, heq⟩
    exact ⟨doc, items, List.mem_append_left _ hmem, heq⟩
  cases b with
  | documentation lines | config headline =>
      cases h
      refine ⟨?_, ?_, hkept⟩
      · simpa [List.filterMap_cons, Block.header?] using hd.names
      · simpa [Outline.skippedNames] using hd.skipped
  | skipped keyword name =>
      cases h
      refine ⟨?_, ?_, hkept⟩
      · simpa [List.filterMap_cons, Block.header?] using hd.names
      · intro n
        have hn := hd.skipped n
        simp only [Outline.skippedNames] at hn
        simp [Outline.skippedNames, hn, or_comm]
  | enum name items =>
      obtain ⟨-, rfl⟩ := eq_of_addBlock_enum h
      refine ⟨?_, ?_, hkept⟩
      · simp [Block.header?, withName, hd.names]
      · simpa [Outline.skippedNames] using hd.skipped
  | model name items =>
      obtain ⟨-, rfl⟩ := eq_of_addBlock_model h
      refine ⟨?_, ?_, ?_⟩
      · simp [Block.header?, withName, hd.names]
      · simpa [Outline.skippedNames] using hd.skipped
      · intro m hm
        rcases List.mem_append.1 hm with hm | hm
        · exact hkept m hm
        · rw [List.mem_singleton.1 hm]
          exact ⟨d.pending, items, by simp, by simp⟩

/-- A run over blocks, with the notices that it gives. -/
theorem follows_addBlocks {d d' : Draft} {blocks seen : List Block} {notices : List Notice} :
    d.addBlocks blocks = (notices, .ok d') → d.Follows seen →
      d'.Follows (seen ++ blocks) ∧ notices = blocks.filterMap noticeOf? := by
  intro h hd
  induction blocks generalizing d seen notices with
  | nil =>
      cases h
      simpa using hd
  | cons b blocks ih =>
      cases hb : d.addBlock b with
      | error e =>
          simp [addBlocks, hb] at h
      | ok next =>
          simp only [addBlocks, hb, Prod.mk.injEq] at h
          obtain ⟨rfl, h⟩ := h
          have hrest := ih (Prod.ext rfl h) (follows_addBlock hb hd)
          refine ⟨by simpa using hrest.1, ?_⟩
          cases hnotice : noticeOf? b <;> simp [hnotice, hrest.2]

end Draft

/-- An accepted text, its blocks and the draft that has taken all of them. -/
structure Drafted (text : String) (s : Schema) (blocks : List Block) (d : Draft) : Prop where
  outline : Schema.outlineOf text.toList = .ok blocks
  taken : (({} : Draft).addBlocks blocks).2 = .ok d
  follows : d.Follows blocks
  wellNamed : WellNamed [] (blocks.filterMap Block.header?)
  declares : d.schema.Declares (blocks.filterMap Block.header?)
  finish : s = d.finish
  notices : (Schema.parse text).notices
    = blocks.filterMap Draft.noticeOf? ++ d.finishNotices ++ [.schemaParsed s.summary]

theorem exists_drafted {text : String} {s : Schema} (h : (Schema.parse text).result = .ok s) :
    ∃ blocks d, Drafted text s blocks d := by
  cases houtline : Schema.outlineOf text.toList with
  | error e =>
      have hparse : Schema.parse text = ⟨[], .error e⟩ := Schema.parseChars_of_error houtline
      rw [hparse] at h
      cases h
  | ok blocks =>
      have hparse : Schema.parse text = Schema.ofOutline blocks :=
        Schema.parseChars_of_blocks houtline
      have hempty : ({} : Draft).Follows [] := ⟨rfl, by simp [Outline.skippedNames], by simp⟩
      have hnames : ({} : Draft).schema.Declares [] := ⟨rfl, rfl⟩
      have hrun := Draft.addBlocks_snd {} blocks hnames
      rw [hparse, Schema.ofOutline] at h
      cases hadd : ({} : Draft).addBlocks blocks with
      | mk notices result =>
          rw [hadd] at h hrun
          cases result with
          | error e =>
              cases h
          | ok d =>
              cases h
              obtain ⟨hfollows, hnotices⟩ := Draft.follows_addBlocks hadd hempty
              refine ⟨blocks, d, houtline, congrArg Prod.snd hadd, hfollows,
                faultOf?_eq_none_iff.1 hrun.1, hrun.2, rfl, ?_⟩
              rw [hparse, Schema.ofOutline, hadd, hnotices]

/-! ## Names -/

/-- Declarations of one kind are found under the names of their headers. -/
theorem exists_header_iff {α : Type} {view : α → Header} {xs : List α} {headers : List Header}
    {kind : Declaration} (h : xs.map view = headers.filter (·.kind = kind)) (name : String) :
    (∃ k ∈ headers, k.kind = kind ∧ k.name = name) ↔ ∃ x ∈ xs, (view x).name = name := by
  have hmem : ∀ k, k ∈ xs.map view ↔ k ∈ headers ∧ k.kind = kind := by
    intro k
    simp [h]
  constructor
  · rintro ⟨k, hk, hkind, rfl⟩
    obtain ⟨x, hx, rfl⟩ := List.mem_map.1 ((hmem k).2 ⟨hk, hkind⟩)
    exact ⟨x, hx, rfl⟩
  · rintro ⟨x, hx, rfl⟩
    obtain ⟨hk, hkind⟩ := (hmem (view x)).1 (List.mem_map_of_mem hx)
    exact ⟨view x, hk, hkind, rfl⟩

/-- The type name is that of a scalar, a model or an enum. -/
def Schema.Resolves (s : Schema) (typeName : String) : Prop :=
  (Scalar.ofKeyword? typeName).isSome = true ∨ (∃ m ∈ s.models, m.name = typeName) ∨
    ∃ e ∈ s.enums, e.name = typeName

instance (s : Schema) (typeName : String) : Decidable (s.Resolves typeName) :=
  inferInstanceAs (Decidable (_ ∨ _ ∨ _))

namespace Drafted

variable {text : String} {s : Schema} {blocks : List Block} {d : Draft}

theorem get?_eq_some_iff (h : Drafted text s blocks d) {name : String} {kind : Declaration} :
    d.names.get? name = some kind ↔
      ∃ k ∈ blocks.filterMap Block.header?, k.kind = kind ∧ k.name = name := by
  have hnodup : (d.names.declarations.map Prod.fst).Nodup := by
    rw [h.follows.names, List.map_map]
    exact h.wellNamed.distinct
  rw [Namespace.get?, Members.get?_eq_some_iff hnodup, h.follows.names]
  simp [and_comm]

theorem declares_schema (h : Drafted text s blocks d) :
    s.Declares (blocks.filterMap Block.header?) := by
  rw [h.finish]
  exact Draft.declares_finish h.declares

theorem get?_eq_model_iff (h : Drafted text s blocks d) {name : String} :
    d.names.get? name = some .model ↔ ∃ m ∈ s.models, m.name = name :=
  h.get?_eq_some_iff.trans (exists_header_iff h.declares_schema.1 name)

theorem get?_eq_enum_iff (h : Drafted text s blocks d) {name : String} :
    d.names.get? name = some .enum ↔ ∃ e ∈ s.enums, e.name = name :=
  h.get?_eq_some_iff.trans (exists_header_iff h.declares_schema.2 name)

/-- Scalars come first, but no declaration stands behind one. -/
theorem get?_of_isSome_ofKeyword? (h : Drafted text s blocks d) {name : String}
    (hscalar : (Scalar.ofKeyword? name).isSome = true) : d.names.get? name = none := by
  cases hget : d.names.get? name with
  | none =>
      rfl
  | some kind =>
      obtain ⟨k, hk, -, rfl⟩ := h.get?_eq_some_iff.1 hget
      have hfree := h.wellNamed.free k hk
      simp [isReserved, hscalar] at hfree

theorem kindOf_eq (h : Drafted text s blocks d) (f : Field) :
    d.kindOf f = ((d.names.get? f.typeName).map Declaration.fieldKind).getD .scalar := by
  rw [Draft.kindOf, Namespace.resolve]
  split
  · rename_i hscalar
    rw [h.get?_of_isSome_ofKeyword? hscalar]
    rfl
  · rfl

theorem kindOf_eq_object_iff (h : Drafted text s blocks d) {f : Field} :
    d.kindOf f = .object ↔ ∃ m ∈ s.models, m.name = f.typeName := by
  rw [h.kindOf_eq, ← h.get?_eq_model_iff]
  rcases d.names.get? f.typeName with _ | _ | _ <;> simp [Declaration.fieldKind]

theorem kindOf_eq_enum_iff (h : Drafted text s blocks d) {f : Field} :
    d.kindOf f = .enum ↔ ∃ e ∈ s.enums, e.name = f.typeName := by
  rw [h.kindOf_eq, ← h.get?_eq_enum_iff]
  rcases d.names.get? f.typeName with _ | _ | _ <;> simp [Declaration.fieldKind]

theorem resolve_eq_none_iff (h : Drafted text s blocks d) {name : String} :
    d.names.resolve name = none ↔ ¬ s.Resolves name := by
  rw [Schema.Resolves, ← h.get?_eq_model_iff, ← h.get?_eq_enum_iff, Namespace.resolve]
  by_cases hscalar : (Scalar.ofKeyword? name).isSome = true
  · simp [hscalar]
  · rcases d.names.get? name with _ | _ | _ <;> simp [hscalar]

end Drafted

/-! ## Relations -/

/-- Both sides of a relation give it the same name. -/
theorem Draft.relationNameOf_comm (a b : String) : relationNameOf a b = relationNameOf b a := by
  unfold relationNameOf
  rcases lt_trichotomy a b with hlt | rfl | hlt
  · rw [if_pos hlt.le, if_neg hlt.not_ge]
  · rfl
  · rw [if_neg hlt.not_ge, if_pos hlt.le]

theorem Field.relationName_ofDecl (decl : FieldDecl) :
    (Field.ofDecl decl).relationName = decl.relation? := by
  rw [Field.ofDecl_eq]
  rfl

theorem Draft.resolveField_relationName (d : Draft) (model : String) (f : Field) :
    (d.resolveField model f).relationName
      = f.relationName.or
          (if d.kindOf f = .object then some (relationNameOf model f.typeName) else none) := by
  by_cases hkind : d.kindOf f = .object <;> cases hname : f.relationName <;>
    simp [resolveField, hkind, hname]

namespace Drafted

variable {text : String} {s : Schema} {blocks : List Block} {d : Draft}

/-- A field of a draft has the relation name that its declaration gives. -/
theorem relationName_eq (h : Drafted text s blocks d) {m : Model} (hm : m ∈ d.schema.models)
    {f : Field} (hf : f ∈ m.fields) :
    f.relationName = Outline.explicitRelation? blocks m.name f.name := by
  obtain ⟨doc, items, hblock, heq⟩ := h.follows.models m hm
  have hmem := List.mem_map_of_mem (f := fun f : Field => (f.name, f.relationName)) hf
  rw [heq, Model.map_assemble_fields _ (fun _ _ => rfl) (fun _ _ => rfl)] at hmem
  obtain ⟨decl, hdecl, hpair⟩ := List.mem_map.1 hmem
  obtain ⟨hname, hrelation⟩ := Prod.mk.inj hpair
  rw [Field.ofDecl_name] at hname
  rw [Field.relationName_ofDecl] at hrelation
  have hentries : ((declarations items).map FieldDecl.name).Nodup :=
    h.wellNamed.entries _ (List.mem_filterMap.2 ⟨_, hblock, rfl⟩)
  rw [Outline.explicitRelation?, Outline.modelItems?_of_mem h.wellNamed.distinct hblock,
    Option.bind_some, ← hname, Outline.find?_name_of_mem hentries hdecl, Option.bind_some,
    hrelation]

theorem exists_of_mem_fields (h : Drafted text s blocks d) {m : Model} (hm : m ∈ s.models)
    {f : Field} (hf : f ∈ m.fields) :
    ∃ m' ∈ d.schema.models, ∃ f' ∈ m'.fields,
      m = d.resolveModel m' ∧ f = d.resolveField m'.name f' := by
  rw [h.finish] at hm
  obtain ⟨m', hm', rfl⟩ := List.mem_map.1 hm
  obtain ⟨f', hf', rfl⟩ := List.mem_map.1 hf
  exact ⟨m', hm', f', hf', rfl, rfl⟩

end Drafted

/-! ## Events -/

/-- What a notice says about the type of a field: how loudly, of which model, field and type. -/
def Notice.fieldEvent? : Notice → Option (Level × String × String × String)
  | .compositeField model field typeName =>
      some ((Notice.compositeField model field typeName).level, model, field, typeName)
  | .unresolvedField model field typeName =>
      some ((Notice.unresolvedField model field typeName).level, model, field, typeName)
  | _ => none

/-- What there is to say about the type of a field. -/
def Schema.fieldEvent? (s : Schema) (skipped : List String) (model : String) (f : Field) :
    Option (Level × String × String × String) :=
  if s.Resolves f.typeName then none
  else some (if f.typeName ∈ skipped then .debug else .warn, model, f.name, f.typeName)

namespace Drafted

variable {text : String} {s : Schema} {blocks : List Block} {d : Draft}

theorem fieldNotice?_fieldEvent? (h : Drafted text s blocks d) (model : String) (f : Field) :
    (d.fieldNotice? model f).bind Notice.fieldEvent?
      = s.fieldEvent? (Outline.skippedNames blocks) model f := by
  rw [Draft.fieldNotice?, Schema.fieldEvent?]
  cases hresolve : d.names.resolve f.typeName with
  | some kind =>
      have hresolves : s.Resolves f.typeName := by
        by_contra hnot
        rw [h.resolve_eq_none_iff.2 hnot] at hresolve
        cases hresolve
      simp [hresolves]
  | none =>
      rw [if_neg (h.resolve_eq_none_iff.1 hresolve)]
      by_cases hskipped : f.typeName ∈ d.skipped
      · simp [hskipped, (h.follows.skipped _).1 hskipped, Notice.fieldEvent?, Notice.level]
      · simp [hskipped, mt (h.follows.skipped _).2 hskipped, Notice.fieldEvent?, Notice.level]

theorem filterMap_fieldEvent? (h : Drafted text s blocks d) :
    (Schema.parse text).notices.filterMap Notice.fieldEvent?
      = s.models.flatMap fun m =>
          m.fields.filterMap (s.fieldEvent? (Outline.skippedNames blocks) m.name) := by
  have hblocks : (blocks.filterMap Draft.noticeOf?).filterMap Notice.fieldEvent? = [] := by
    rw [List.filterMap_filterMap]
    refine List.filterMap_eq_nil_iff.2 fun b _ => ?_
    cases b <;> rfl
  -- Resolving a field keeps what the event says of it.
  have hevent : ∀ (model : String) (f : Field),
      s.fieldEvent? (Outline.skippedNames blocks) model (d.resolveField model f)
        = (d.fieldNotice? model f).bind Notice.fieldEvent? :=
    fun model f => (h.fieldNotice?_fieldEvent? model f).symm
  have hmodels : s.models = d.schema.models.map d.resolveModel := by
    rw [h.finish]
    rfl
  rw [h.notices, List.filterMap_append, List.filterMap_append, hblocks, hmodels, List.flatMap_map]
  simp only [Draft.finishNotices, Draft.modelNotices, Draft.resolveModel, List.filterMap_map,
    List.filterMap_flatMap, List.filterMap_filterMap, Function.comp_def, hevent]
  simp [Notice.fieldEvent?]

end Drafted

/-! ## Results -/

/-- Both models refer to names that are declared later or not at all. -/
def crossReferences : String :=
  "model B\x7ba A\no B @relation(\"Own\")\n r R\x7d\nmodel A\x7bb B[]\nc C\nz Z\x7d\n" ++
    "enum R\x7bX\x7d\ntype C\x7b\x7d"

end PrismaTypes
