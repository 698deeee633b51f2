import Mathlib.Data.List.Forall2
import PrismaTypes.Proofs.NameRules

/-!
# Syntax errors

A text is reported as a syntax error exactly when the grammar refuses it. For the other direction
nothing that comes after the match may fail on its tree: the outline reader finds every part it asks
for, and the steps behind it only complain about names. The type name that a field starts with, the
empty text, never gets through.
-/

namespace PrismaTypes

open Grammar (Node Derives matchRule isIdentifier)
open Outline (FieldDecl Item Block declarations Describes)

/-- The error points at the syntax of the text. -/
def SchemaError.isSyntax : SchemaError → Bool
  | refused _ _ | misfit _ => true
  | _ => false

/-! ## Where fields come from -/

/-- What the declaration of a field settles: all but its kind, the read-only mark, its documentation
and the name of its relation, which depend on the text around it. -/
def Field.core (f : Field) : Field :=
  { f with kind := .scalar, isReadOnly := false, relationName := none, documentation := none }

def Outline.Block.fieldDecls : Block → List FieldDecl
  | .model _ items => declarations items
  | _ => []

/-- Every field of the schema is declared in one of the blocks. -/
def Schema.DeclaredIn (s : Schema) (blocks : List Block) : Prop :=
  ∀ m ∈ s.models, ∀ f ∈ m.fields,
    ∃ b ∈ blocks, ∃ decl ∈ b.fieldDecls, f.core = (Field.ofDecl decl).core

theorem Schema.DeclaredIn.mono {s : Schema} {blocks more : List Block} (h : s.DeclaredIn blocks)
    (hmore : ∀ b ∈ blocks, b ∈ more) : s.DeclaredIn more := by
  intro m hm f hf
  obtain ⟨b, hb, hdecl⟩ := h m hm f hf
  exact ⟨b, hmore b hb, hdecl⟩

theorem Model.exists_decl_of_mem_assemble {name : String} {documentation : Option String}
    {items : List (Item FieldDecl)} {f : Field}
    (hf : f ∈ (Model.assemble name documentation items).fields) :
    ∃ decl ∈ declarations items, f.core = (Field.ofDecl decl).core := by
  have hcore := List.mem_map_of_mem (f := Field.core) hf
  rw [Model.map_assemble_fields Field.core (fun _ _ => rfl) (fun _ _ => rfl)] at hcore
  obtain ⟨decl, hdecl, heq⟩ := List.mem_map.1 hcore
  exact ⟨decl, hdecl, heq.symm⟩

namespace Draft

theorem declaredIn_addBlock {d d' : Draft} {b : Block} {blocks : List Block}
    (h : d.addBlock b = .ok d') (hd : d.schema.DeclaredIn blocks) :
    d'.schema.DeclaredIn (blocks ++ [b]) := by
  -- Only a model adds fields, all of them its own.
  have hkept : d.schema.DeclaredIn (blocks ++ [b]) :=
    hd.mono fun _ hb => List.mem_append_left _ hb
  cases b with
  | documentation lines | config headline | skipped keyword name =>
      cases h
      exact hkept
  | enum name items =>
      obtain ⟨-, rfl⟩ := eq_of_addBlock_enum h
      exact hkept
  | model name items =>
      obtain ⟨-, rfl⟩ := eq_of_addBlock_model h
      intro m hm f hf
      rcases List.mem_append.1 hm with hm | hm
      · exact hkept m hm f hf
      · rw [List.mem_singleton.1 hm] at hf
        obtain ⟨decl, hdecl, heq⟩ := Model.exists_decl_of_mem_assemble hf
        exact ⟨.model name items, by simp, decl, hdecl, heq⟩

theorem declaredIn_addBlocks {d d' : Draft} {blocks seen : List Block}
    (h : (d.addBlocks blocks).2 = .ok d') (hd : d.schema.DeclaredIn seen) :
    d'.schema.DeclaredIn (seen ++ blocks) := by
  induction blocks generalizing d seen with
  | nil =>
      cases h
      rw [List.append_nil]
      exact hd
  | cons b blocks ih =>
      obtain ⟨next, hb, h⟩ := exists_of_addBlocks_cons h
      have hnext := ih h (declaredIn_addBlock hb hd)
      rwa [List.append_assoc] at hnext

theorem declaredIn_finish {d : Draft} {blocks : List Block} (h : d.schema.DeclaredIn blocks) :
    d.finish.DeclaredIn blocks := by
  intro m hm f hf
  obtain ⟨m', hm', rfl⟩ := List.mem_map.1 hm
  obtain ⟨f', hf', rfl⟩ := List.mem_map.1 hf
  exact h m' hm' f' hf'

end Draft

theorem Schema.declaredIn_ofOutline {blocks : List Block} {s : Schema}
    (h : (Schema.ofOutline blocks).result = .ok s) : s.DeclaredIn blocks := by
  unfold Schema.ofOutline at h
  split at h
  · cases h
  · rename_i notices d hadd
    cases h
    have hempty : ({} : Draft).schema.DeclaredIn [] := fun m hm => nomatch hm
    refine Draft.declaredIn_finish (Draft.declaredIn_addBlocks ?_ hempty)
    rw [hadd]

/-- Every field of an accepted text is declared in a block of its outline. -/
theorem declaredIn_of_parse {text : String} {s : Schema} (h : (Schema.parse text).result = .ok s) :
    ∃ blocks, s.DeclaredIn blocks := by
  cases houtline : Schema.outlineOf text.toList with
  | error e =>
      have hparse : Schema.parse text = ⟨[], .error e⟩ := Schema.parseChars_of_error houtline
      rw [hparse] at h
      cases h
  | ok blocks =>
      have hparse : Schema.parse text = Schema.ofOutline blocks :=
        Schema.parseChars_of_blocks houtline
      rw [hparse] at h
      exact ⟨blocks, Schema.declaredIn_ofOutline h⟩

/-- Every field of a block that describes a node has an identifier as its type. -/
theorem Outline.Describes.isIdentifier_typeName {b : Block} {n : Node} (h : Describes b n) :
    ∀ decl ∈ b.fieldDecls, isIdentifier decl.typeName.toList = true := by
  cases h with
  | documentation | enum | config | skipped =>
      intro decl hdecl
      cases hdecl
  | model hrule hitems =>
      exact ((List.forall₂_and_left _ _).1 (hitems.flip.imp fun _ _ h => And.symm h)).1

/-! ## Results -/

theorem parse_of_failure {text : String} {f : Grammar.Failure}
    (h : matchRule .schema text.toList = .error f) :
    (Schema.parse text).result = .error (.refused text.toList f) :=
  congrArg Reading.result (Schema.parseChars_of_error (Schema.outlineOf_of_failure h))

/-- The rules for names report no syntax errors. -/
theorem isSyntax_of_faultOf? {headers : List Header} {e : SchemaError}
    (h : faultOf? [] headers = some e) : e.isSyntax = false := by
  obtain ⟨_, _, _, -, -, hrefused⟩ := faultOf?_eq_some_iff.1 h
  cases hrefused <;> rfl

/-- On a text that the grammar accepts, the outline is read without a misfit, no error points at the
syntax, and every field of the schema has an identifier as its type name. Hence a syntax error is
reported exactly when the grammar refuses the text, which is no matter of fuel. -/
theorem parse_syntax_error_iff_refused (text : String) :
    (∀ nodes, matchRule .schema text.toList = .ok nodes →
      (∃ blocks, Outline.ofNodes (Text.byteLength text.toList) nodes = .ok blocks) ∧
      (∀ e, (Schema.parse text).result = .error e → e.isSyntax = false) ∧
      ∀ s, (Schema.parse text).result = .ok s →
        ∀ m ∈ s.models, ∀ f ∈ m.fields, isIdentifier f.typeName.toList = true) ∧
    ((∃ e, (Schema.parse text).result = .error e ∧ e.isSyntax = true) ↔
      ∃ f, matchRule .schema text.toList = .error f) ∧
    ((∃ f, matchRule .schema text.toList = .error f) ↔
      Derives false (.call .schema) {} text.toList none) := by
  -- What remains to be refused after a match are names.
  have haccepted : ∀ nodes, matchRule .schema text.toList = .ok nodes →
      ∀ e, (Schema.parse text).result = .error e → e.isSyntax = false :=
    fun nodes hnodes e he => isSyntax_of_faultOf? ((result_of_matchRule hnodes).1 e he)
  refine ⟨fun nodes hnodes => ?_, ?_, Grammar.matchRule_eq_error_iff⟩
  · obtain ⟨tree, inner, stop, blocks, -, -, -, hblocks, hall⟩ :=
      Outline.ofNodes_of_matchRule hnodes (Text.byteLength text.toList)
    refine ⟨⟨blocks, hblocks⟩, haccepted nodes hnodes, fun s hs => ?_⟩
    have hparse : Schema.parse text = Schema.ofOutline blocks :=
      Schema.parseChars_of_blocks (Schema.outlineOf_of_nodes hnodes hblocks)
    rw [hparse] at hs
    have htypes : ∀ b ∈ blocks, ∀ decl ∈ b.fieldDecls,
        isIdentifier decl.typeName.toList = true :=
      ((List.forall₂_and_left _ _).1 (hall.imp fun _ _ h => ⟨h.isIdentifier_typeName, h⟩)).1
    intro m hm f hf
    obtain ⟨b, hb, decl, hdecl, hcore⟩ := Schema.declaredIn_ofOutline hs m hm f hf
    -- Resolving a field changes none of what its declaration settles.
    have hname : f.typeName = decl.typeName :=
      (congrArg Field.typeName hcore).trans (Field.ofDecl_typeName decl)
    rw [hname]
    exact htypes b hb decl hdecl
  · constructor
    · rintro ⟨e, he, hsyntax⟩
      cases hmatch : matchRule .schema text.toList with
      | error f =>
          exact ⟨f, rfl⟩
      | ok nodes =>
          rw [haccepted nodes hmatch e he] at hsyntax
          cases hsyntax
    · rintro ⟨f, hf⟩
      exact ⟨_, parse_of_failure hf, rfl⟩

/-- A field with a type is read, and one without a type is a syntax error. -/
theorem parse_syntax_error_iff_refused_missing_type :
    (∃ nodes, matchRule .schema "model A\x7bx Unsupported(\"p\")[]\x7d".toList = .ok nodes ∧
      ∃ blocks, Outline.ofNodes
        (Text.byteLength "model A\x7bx Unsupported(\"p\")[]\x7d".toList) nodes = .ok blocks) ∧
    ∃ e, (Schema.parse "model A\x7bx\x7d").result = .error e ∧ e.isSyntax = true := by
  have hok : (matchRule .schema "model A\x7bx Unsupported(\"p\")[]\x7d".toList).isOk = true := by
    decide +kernel
  have hrefused : (matchRule .schema "model A\x7bx\x7d".toList).isOk = false := by decide +kernel
  constructor
  · cases hnodes : matchRule .schema "model A\x7bx Unsupported(\"p\")[]\x7d".toList with
    | error f =>
        rw [hnodes] at hok
        cases hok
    | ok nodes =>
        exact ⟨nodes, rfl, ((parse_syntax_error_iff_refused _).1 nodes hnodes).1⟩
  · cases hnodes : matchRule .schema "model A\x7bx\x7d".toList with
    | error f =>
        exact (parse_syntax_error_iff_refused _).2.1.2 ⟨f, hnodes⟩
    | ok nodes =>
        rw [hnodes] at hrefused
        cases hrefused

end PrismaTypes
