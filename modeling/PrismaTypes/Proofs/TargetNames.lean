import PrismaTypes.Proofs.Composition
import PrismaTypes.TypeScript.Declaration

/-!
# Targets of scalars and declared names

A field of a scalar type is rendered with the target of that scalar. No declaration has a reserved
name, so the targets that are words of TypeScript always mean what they say. `Date` and `Buffer` are
targets as well, but they are free names: where a schema declares one of them, its own fields of
type `DateTime` or `Bytes` refer to that declaration.
-/

namespace PrismaTypes

/-! ## Targets -/

namespace Scalar

theorem keyword_of_ofKeyword? {name : String} {scalar : Scalar}
    (h : ofKeyword? name = some scalar) : scalar.keyword = name := by
  have hfound := List.find?_some h
  exact beq_iff_eq.1 hfound

theorem resolve_standard_keyword (scalar : Scalar) :
    TypeMapping.standard.resolve scalar.keyword = scalar.target := by
  cases scalar <;> decide +kernel

/-- Two targets are names that a schema may declare. -/
theorem isReserved_target_eq_false_iff (scalar : Scalar) :
    isReserved scalar.target = false ↔ scalar = .dateTime ∨ scalar = .bytes := by
  cases scalar <;> decide +kernel

end Scalar

/-! ## Declared names -/

namespace Drafted

variable {text : String} {s : Schema} {blocks : List Outline.Block} {d : Draft}

theorem isReserved_of_mem_declaredNames (h : Drafted text s blocks d) {name : String}
    (hname : name ∈ s.declaredNames) : isReserved name = false := by
  have hdeclared := h.mem_declared_iff.2 hname
  rw [Draft.declared, h.follows.names] at hdeclared
  simp only [List.map_map, List.mem_map, Function.comp_apply] at hdeclared
  obtain ⟨header, hheader, rfl⟩ := hdeclared
  exact h.wellNamed.free header hheader

/-- Scalars come first, and no declaration can take their place. -/
theorem kind_of_ofKeyword? (h : Drafted text s blocks d) {m : Model} (hm : m ∈ s.models) {f : Field}
    (hf : f ∈ m.fields) (hscalar : (Scalar.ofKeyword? f.typeName).isSome = true) :
    f.kind = .scalar := by
  obtain ⟨m', -, f', -, -, rfl⟩ := h.exists_of_mem_fields hm hf
  have htype : (Scalar.ofKeyword? f'.typeName).isSome = true := hscalar
  have hkind : d.kindOf f' = .scalar := by
    rw [h.kindOf_eq, h.get?_of_isSome_ofKeyword? htype]
    rfl
  exact hkind

end Drafted

/-! ## Results -/

/-- Under the default configuration a field of a scalar type is rendered with the target of the
scalar, and that is the name of a model or an enum of the schema only for a field of type `DateTime`
beside a declaration `Date`, or of type `Bytes` beside a declaration `Buffer`. -/
theorem scalar_target_declared_iff (text : String) (s : Schema)
    (h : (Schema.parse text).result = .ok s) (m : Model) (hm : m ∈ s.models) (f : Field)
    (hf : f ∈ m.fields) (scalar : Scalar) (hscalar : Scalar.ofKeyword? f.typeName = some scalar) :
    TypeScript.targetType ({} : Config).mapping f = scalar.target ∧
      (TypeScript.targetType ({} : Config).mapping f ∈ s.declaredNames ↔
        (scalar = .dateTime ∧ "Date" ∈ s.declaredNames) ∨
          (scalar = .bytes ∧ "Buffer" ∈ s.declaredNames)) := by
  obtain ⟨blocks, d, hd⟩ := exists_drafted h
  have htarget : TypeScript.targetType ({} : Config).mapping f = scalar.target := by
    rw [TypeScript.targetType, hd.kind_of_ofKeyword? hm hf (by simp [hscalar]),
      ← Scalar.keyword_of_ofKeyword? hscalar]
    exact scalar.resolve_standard_keyword
  refine ⟨htarget, ?_⟩
  rw [htarget]
  constructor
  · intro hdeclared
    have hfree := hd.isReserved_of_mem_declaredNames hdeclared
    rcases scalar.isReserved_target_eq_false_iff.1 hfree with rfl | rfl
    · exact .inl ⟨rfl, hdeclared⟩
    · exact .inr ⟨rfl, hdeclared⟩
  · rintro (⟨rfl, hdeclared⟩ | ⟨rfl, hdeclared⟩) <;> exact hdeclared

/-- A model and an enum with the names of targets, beside fields of scalar types. -/
def capturingNames : String :=
  "model Date\x7bat DateTime\nn Int\x7d\nenum Buffer\x7bX\x7d\nmodel C\x7bb Bytes\x7d"

theorem scalar_target_declared_iff_capturing_names :
    ∃ s, (Schema.parse capturingNames).result = .ok s ∧ s.declaredNames = ["Date", "C", "Buffer"] ∧
      ∃ m ∈ s.models, ∃ f ∈ m.fields, Scalar.ofKeyword? f.typeName = some .bytes ∧
        TypeScript.targetType ({} : Config).mapping f ∈ s.declaredNames := by
  have hexists : ∃ s, (Schema.parse capturingNames).result = .ok s ∧
      s.declaredNames = ["Date", "C", "Buffer"] ∧
      ∃ m ∈ s.models, ∃ f ∈ m.fields, Scalar.ofKeyword? f.typeName = some .bytes :=
    exists_of_check (by decide +kernel)
  obtain ⟨s, hparse, hnames, m, hm, f, hf, hscalar⟩ := hexists
  have hbuffer : "Buffer" ∈ s.declaredNames := by simp [hnames]
  have htarget := scalar_target_declared_iff _ s hparse m hm f hf .bytes hscalar
  exact ⟨s, hparse, hnames, m, hm, f, hf, hscalar, htarget.2.2 (.inr ⟨rfl, hbuffer⟩)⟩

/-- A field of type `DateTime` is rendered with the name of its own model. -/
theorem scalar_target_is_declared_model :
    ∃ s, (Schema.parse "model Date \x7b\n  at DateTime\n\x7d").result = .ok s ∧
      (∃ m ∈ s.models, ∃ f ∈ m.fields, Scalar.ofKeyword? f.typeName = some .dateTime ∧
        TypeScript.targetType ({} : Config).mapping f = m.name) ∧
      TypeScript.emit {} s
        = TypeScript.heading ++ "\nexport interface Date \x7b\n  at: Date;\n\x7d\n" :=
  exists_of_check (by decide +kernel)

end PrismaTypes
