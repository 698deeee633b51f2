import Mathlib.Data.List.Nodup
import PrismaTypes.Schema.OfOutline

/-!
# The order of attributes

An attribute revises some parts of its field or model. What it makes of a part depends on that part
and on the attribute, never on other parts, and a part is left to the attributes of one name, or to
those that give a database type (`Field.applyAttribute_eq`, `Model.applyAttribute_eq`). So two
attributes that share no part may trade places, and with them any list of such attributes may be
rearranged.
-/

namespace PrismaTypes

open Outline (Attribute)

/-! ## Revising a part -/

/-- A part after an attribute that may or may not concern it. -/
def revise {β : Type} (concerned : Bool) (change : β → β) (x : β) : β :=
  if concerned then change x else x

/-- Where at most one of two attributes is concerned, their order does not matter. -/
theorem revise_comm {β : Type} {p q : Bool} (h : ¬ (p = true ∧ q = true)) (u v : β → β) (x : β) :
    revise q v (revise p u x) = revise p u (revise q v x) := by
  cases p <;> cases q
  · rfl
  · rfl
  · rfl
  · exact absurd ⟨rfl, rfl⟩ h

namespace Outline.Attribute

/-- The attribute gives a database type. -/
def isNative (a : Attribute) : Bool :=
  ['d', 'b', '.'].isPrefixOf a.name.toList

theorem not_is_and_is {a b : Attribute} (h : a.name ≠ b.name) (name : String) :
    ¬ (a.is name = true ∧ b.is name = true) := by
  rintro ⟨ha, hb⟩
  exact h ((beq_iff_eq.1 ha).trans (beq_iff_eq.1 hb).symm)

end Outline.Attribute

theorem isSome_nativeName? (a : Attribute) : (nativeName? a.name).isSome = a.isNative := by
  unfold nativeName? Attribute.isNative
  split
  · rename_i heq
    simp [heq]
  · rename_i hother
    refine (Bool.eq_false_iff.2 fun hprefix => ?_).symm
    obtain ⟨rest, hrest⟩ := List.isPrefixOf_iff_prefix.1 hprefix
    exact hother rest hrest.symm

/-! ## Fields -/

namespace Field

/-- What an attribute does to each part of a field. -/
theorem applyAttribute_eq (f : Field) (a : Attribute) :
    f.applyAttribute a =
      { f with
        isId := revise (a.is "id") (fun _ => true) f.isId
        isUnique := revise (a.is "unique") (fun _ => true) f.isUnique
        hasDefault := revise (a.is "default") (fun _ => true) f.hasDefault
        default := revise (a.is "default") (fun _ => a.first?.map Default.ofValue) f.default
        isUpdatedAt := revise (a.is "updatedAt") (fun _ => true) f.isUpdatedAt
        dbName := revise (a.is "map") (fun _ => a.textArg? "name") f.dbName
        relationName := revise (a.is "relation") (a.textArg? "name").or f.relationName
        relationFrom := revise (a.is "relation")
          ((a.named? "fields").map Outline.Value.nameList).getD f.relationFrom
        relationTo := revise (a.is "relation")
          ((a.named? "references").map Outline.Value.nameList).getD f.relationTo
        onDelete := revise (a.is "relation") (fun _ => a.pathArg? "onDelete") f.onDelete
        onUpdate := revise (a.is "relation") (fun _ => a.pathArg? "onUpdate") f.onUpdate
        nativeType := revise a.isNative
          (fun _ => (nativeName? a.name).map fun name =>
            ⟨name, a.args.map fun arg => nativeArg arg.2⟩) f.nativeType } := by
  rcases a with ⟨name, args⟩
  by_cases hknown : name ∈ ["id", "unique", "default", "updatedAt", "map", "relation"]
  · simp only [List.mem_cons, List.not_mem_nil, or_false] at hknown
    rcases hknown with rfl | rfl | rfl | rfl | rfl | rfl <;>
      simp [applyAttribute, applyRelation, revise, Attribute.is, Attribute.isNative]
  · simp only [List.mem_cons, List.not_mem_nil, or_false, not_or] at hknown
    have hnative := isSome_nativeName? ⟨name, args⟩
    cases hname : nativeName? name <;>
      simp [applyAttribute, revise, Attribute.is, hknown, hname, ← hnative]

theorem applyAttribute_comm (f : Field) {a b : Attribute} (hname : a.name ≠ b.name)
    (hnative : ¬ (a.isNative = true ∧ b.isNative = true)) :
    (f.applyAttribute a).applyAttribute b = (f.applyAttribute b).applyAttribute a := by
  simp only [applyAttribute_eq, revise_comm (Attribute.not_is_and_is hname _), revise_comm hnative]

end Field

/-! ## Models -/

namespace Model

/-- What an attribute does to each part of a model. -/
theorem applyAttribute_eq (m : Model) (a : Attribute) :
    m.applyAttribute a =
      { m with
        dbName := revise (a.is "map") (fun _ => a.textArg? "name") m.dbName
        primaryKey := revise (a.is "id")
          (fun _ => some ⟨(a.named? "name").bind Outline.Value.text?, a.nameListArg "fields"⟩)
          m.primaryKey
        uniqueFields := revise (a.is "unique")
          (· ++ [a.nameListArg "fields"].filter (!·.isEmpty)) m.uniqueFields } := by
  rcases a with ⟨name, args⟩
  by_cases hknown : name ∈ ["map", "id", "unique"]
  · simp only [List.mem_cons, List.not_mem_nil, or_false] at hknown
    rcases hknown with rfl | rfl | rfl
    · simp [applyAttribute, revise, Attribute.is]
    · simp [applyAttribute, revise, Attribute.is]
    · -- A list of fields that is empty is not recorded.
      by_cases hnames : (Attribute.mk "unique" args).nameListArg "fields" = [] <;>
        simp [applyAttribute, revise, Attribute.is, hnames]
  · simp only [List.mem_cons, List.not_mem_nil, or_false, not_or] at hknown
    simp [applyAttribute, revise, Attribute.is, hknown]

theorem applyAttribute_comm (m : Model) {a b : Attribute} (hname : a.name ≠ b.name) :
    (m.applyAttribute a).applyAttribute b = (m.applyAttribute b).applyAttribute a := by
  simp only [applyAttribute_eq, revise_comm (Attribute.not_is_and_is hname _)]

end Model

/-! ## Results -/

theorem eq_of_length_le_one {α : Type} {l : List α} {a b : α} (h : l.length ≤ 1) (ha : a ∈ l)
    (hb : b ∈ l) : a = b := by
  rcases l with _ | ⟨c, _ | ⟨d, l⟩⟩
  · cases ha
  · rw [List.mem_singleton.1 ha, List.mem_singleton.1 hb]
  · simp at h

/-- Steps that may trade places unless they are the same one may be taken in any order. -/
theorem foldl_eq_of_perm {σ α : Type} {step : σ → α → σ} {as bs : List α} (hperm : as.Perm bs)
    (hcomm : ∀ a ∈ as, ∀ b ∈ as, a ≠ b → ∀ s, step (step s a) b = step (step s b) a) (s : σ) :
    as.foldl step s = bs.foldl step s := by
  refine hperm.foldl_eq' (fun a ha b hb s => ?_) s
  by_cases hab : a = b
  · rw [hab]
  · exact hcomm a ha b hb hab s

/-- Attributes with different names, of which at most one gives a database type, make the same field
in whatever order they are applied, and block attributes with different names the same model. -/
theorem attribute_order_irrelevant {as bs : List Attribute} (hperm : as.Perm bs)
    (hnames : (as.map Attribute.name).Nodup) :
    ((as.filter Attribute.isNative).length ≤ 1 → ∀ f : Field,
      as.foldl Field.applyAttribute f = bs.foldl Field.applyAttribute f) ∧
    ∀ m : Model, as.foldl Model.applyAttribute m = bs.foldl Model.applyAttribute m := by
  have hne : ∀ a ∈ as, ∀ b ∈ as, a ≠ b → a.name ≠ b.name :=
    fun a ha b hb hab heq => hab (List.inj_on_of_nodup_map hnames ha hb heq)
  refine ⟨fun hnative f => ?_, fun m => ?_⟩
  · refine foldl_eq_of_perm hperm (fun a ha b hb hab f => ?_) f
    refine f.applyAttribute_comm (hne a ha b hb hab) fun hboth => hab ?_
    exact eq_of_length_le_one hnative (List.mem_filter.2 ⟨ha, hboth.1⟩)
      (List.mem_filter.2 ⟨hb, hboth.2⟩)
  · exact foldl_eq_of_perm hperm
      (fun a ha b hb hab m => m.applyAttribute_comm (hne a ha b hb hab)) m

/-- An attribute of each kind. -/
def assortedAttributes : List Attribute :=
  [⟨"id", [(none, .list [.path "a", .path "b"])]⟩, ⟨"default", [(none, .call "now" [])]⟩,
   ⟨"relation", [(some "fields", .list [.path "a"]), (none, .text "R")]⟩,
   ⟨"db.VarChar", [(none, .number "255")]⟩, ⟨"map", [(none, .text "x")]⟩,
   ⟨"unique", [(some "fields", .list [.path "c"])]⟩]

theorem attribute_order_irrelevant_assorted :
    assortedAttributes.Perm assortedAttributes.reverse ∧
      (assortedAttributes.map Attribute.name).Nodup ∧
      (assortedAttributes.filter Attribute.isNative).length ≤ 1 ∧
      (let f : Field := { name := "k", kind := .scalar, typeName := "String" }
       assortedAttributes.foldl Field.applyAttribute f
          = assortedAttributes.reverse.foldl Field.applyAttribute f ∧
        (assortedAttributes.foldl Field.applyAttribute f).nativeType
          = some ⟨"VarChar", ["255"]⟩) ∧
      (let m : Model := { name := "M" }
       assortedAttributes.foldl Model.applyAttribute m
          = assortedAttributes.reverse.foldl Model.applyAttribute m ∧
        (assortedAttributes.foldl Model.applyAttribute m).uniqueFields = [["c"]]) := by
  have hperm : assortedAttributes.Perm assortedAttributes.reverse := (List.reverse_perm _).symm
  have hnames : (assortedAttributes.map Attribute.name).Nodup := by decide
  have hnative : (assortedAttributes.filter Attribute.isNative).length ≤ 1 := by decide
  obtain ⟨hfields, hmodels⟩ := attribute_order_irrelevant hperm hnames
  exact ⟨hperm, hnames, hnative, ⟨hfields hnative _, by decide⟩, hmodels _, by decide⟩

end PrismaTypes
