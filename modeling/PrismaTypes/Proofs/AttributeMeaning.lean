import Mathlib.Data.List.Induction
import PrismaTypes.Proofs.Canonical
import PrismaTypes.Proofs.Assembly

/-!
# What attributes amount to

Attributes are applied one after the other. The outcome can be told from the whole list: a flag is
set when an attribute of its name is there, and of several values the last one stays
(`Field.ofDecl_eq`, `Model.foldl_applyAttribute_eq`, `mappedName?_eq`).
-/

namespace PrismaTypes

open Outline (Value Attribute FieldDecl)
open Canonical (last? lastOf? mapped? nativeType? withAttributes)

/-! ## The last attribute -/

theorem last?_append (attributes : List Attribute) (a : Attribute) (name : String) :
    last? (attributes ++ [a]) name = if a.is name then some a else last? attributes name := by
  by_cases h : a.is name = true <;> simp [last?, h]

theorem lastOf?_append {β : Type} (attributes : List Attribute) (a : Attribute) (name : String)
    (f : Attribute → Option β) :
    lastOf? (attributes ++ [a]) name f
      = if a.is name then (f a).or (lastOf? attributes name f) else lastOf? attributes name f := by
  by_cases h : a.is name = true
  · cases hf : f a <;> simp [lastOf?, h, hf]
  · simp [lastOf?, h]

theorem mapped?_append (attributes : List Attribute) (a : Attribute) :
    mapped? (attributes ++ [a])
      = if a.is "map" then a.textArg? "name" else mapped? attributes := by
  by_cases h : a.is "map" = true <;> simp [mapped?, last?_append, h]

/-! ## Fields -/

namespace Field

theorem applyAttribute_withAttributes (f : Field) (attributes : List Attribute) (a : Attribute) :
    (withAttributes f attributes).applyAttribute a = withAttributes f (attributes ++ [a]) := by
  have hflag : ∀ name : String, revise (a.is name) (fun _ => true) (attributes.any (·.is name))
      = (attributes ++ [a]).any (·.is name) := by
    intro name
    cases h : a.is name <;> simp [revise, h]
  have hnative : revise a.isNative (fun _ => (nativeName? a.name).map fun name =>
        (⟨name, a.args.map fun arg => nativeArg arg.2⟩ : NativeType))
        (attributes.reverse.findSome? nativeType?)
      = (attributes ++ [a]).reverse.findSome? nativeType? := by
    rw [← isSome_nativeName?]
    cases h : nativeName? a.name <;> simp [revise, nativeType?, h]
  rw [applyAttribute_eq]
  simp only [withAttributes, hflag, hnative]
  -- What is left are the values that the last attribute of a name decides.
  cases hdefault : a.is "default" <;> cases hrelation : a.is "relation" <;>
    simp [revise, last?_append, lastOf?_append, mapped?_append, hdefault, hrelation]

/-- A declared field, told from the whole list of its attributes. -/
theorem ofDecl_eq (d : FieldDecl) :
    ofDecl d = withAttributes
      { name := d.name, kind := .scalar, isList := d.isList, isRequired := !d.isOptional,
        typeName := d.typeName } d.attributes := by
  -- The newest attribute stands last, so the induction takes lists from their end.
  have hfold : ∀ (f : Field) (attributes : List Attribute), withAttributes f [] = f →
      attributes.foldl applyAttribute f = withAttributes f attributes := by
    intro f attributes hf
    induction attributes using List.reverseRecOn with
    | nil =>
        exact hf.symm
    | append_singleton attributes a ih =>
        rw [List.foldl_append, ih, List.foldl_cons, List.foldl_nil, applyAttribute_withAttributes]
  exact hfold _ _ rfl

end Field

/-! ## Models and enums -/

/-- The attributes of a model, told from the whole list. -/
theorem Model.foldl_applyAttribute_eq (m : Model) (hname : m.dbName = none)
    (hkey : m.primaryKey = none) (hunique : m.uniqueFields = []) (attributes : List Attribute) :
    attributes.foldl Model.applyAttribute m
      = { m with
          dbName := mapped? attributes
          primaryKey := (last? attributes "id").map fun a =>
            ⟨(a.named? "name").bind Value.text?, a.nameListArg "fields"⟩
          uniqueFields := ((attributes.filter (·.is "unique")).map
            (·.nameListArg "fields")).filter (!·.isEmpty) } := by
  induction attributes using List.reverseRecOn with
  | nil =>
      rcases m with ⟨name, dbName, fields, primaryKey, uniqueFields, documentation⟩
      subst hname hkey hunique
      rfl
  | append_singleton attributes a ih =>
      rw [List.foldl_append, ih, List.foldl_cons, List.foldl_nil, applyAttribute_eq]
      simp only [revise, mapped?_append, last?_append, List.filter_append, List.map_append]
      cases a.is "id" <;> cases hunique : a.is "unique" <;> simp [hunique]

theorem mappedName?_eq (attributes : List Attribute) :
    mappedName? attributes = mapped? attributes := by
  induction attributes using List.reverseRecOn with
  | nil =>
      rfl
  | append_singleton attributes a ih =>
      rw [mapped?_append, ← ih]
      simp [mappedName?]

end PrismaTypes
