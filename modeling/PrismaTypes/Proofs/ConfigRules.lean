import Mathlib.Data.List.Nodup
import Mathlib.Tactic.Tauto
import PrismaTypes.Config.Reader
import PrismaTypes.Proofs.JsonText
import PrismaTypes.Proofs.OrderedMembers

/-!
# Which configuration documents are accepted

`Config.Breaks` states the rules for configuration documents, property by property. A document is
checked only after it is laid over the default one. Nothing is lost or made up on the way:

* documents that are read have distinct keys (`Json.distinct_of_read`), and for these
  `Config.violations` lists each broken rule once;
* a default document obeys all rules, and what is laid over it keeps its own faults, also where
  entries of two type mappings are put together (`Config.breaks_overlay_iff`);
* a document that obeys all rules and has every property can be taken over.

So a document is accepted just when it obeys the rules, and is else refused with all that it breaks.
-/

namespace PrismaTypes

/-! ## Distinct keys -/

namespace Json

/-- Every object in a document, at any depth, has each key once. -/
inductive Value.Distinct : Value → Prop
  | null : Distinct .null
  | bool (b : Bool) : Distinct (.bool b)
  | number (n : Number) : Distinct (.number n)
  | text (s : String) : Distinct (.text s)
  | list {items : List Value} (hitems : ∀ v ∈ items, Distinct v) : Distinct (.list items)
  | object {members : List (String × Value)} (hkeys : (members.map Prod.fst).Nodup)
      (hvalues : ∀ m ∈ members, Distinct m.2) : Distinct (.object members)

theorem Value.Distinct.keys {members : List (String × Value)} (h : Distinct (.object members)) :
    (members.map Prod.fst).Nodup := by
  cases h with
  | object hkeys => exact hkeys

theorem Value.Distinct.value {members : List (String × Value)} (h : Distinct (.object members))
    {m : String × Value} (hm : m ∈ members) : m.2.Distinct := by
  cases h with
  | object _ hvalues => exact hvalues m hm

theorem distinct_of_valuesOf {room : Nat} {items : List Tree} {values : List Value}
    (hitem : ∀ t v, Tree.toValue room t = .ok v → v.Distinct)
    (h : valuesOf room items = .ok values) : ∀ v ∈ values, v.Distinct := by
  induction items generalizing values with
  | nil =>
      cases h
      simp
  | cons item items ih =>
      rw [valuesOf] at h
      obtain ⟨value, hvalue, h⟩ := exists_of_bind_eq_ok h
      obtain ⟨rest, hrest, h⟩ := exists_of_bind_eq_ok h
      cases h
      exact List.forall_mem_cons.2 ⟨hitem item value hvalue, ih hrest⟩

theorem distinct_of_membersOf {room : Nat} {members : List (Option String × Tree)}
    {pairs : List (String × Value)}
    (hitem : ∀ t v, Tree.toValue room t = .ok v → v.Distinct)
    (h : membersOf room members = .ok pairs) : ∀ m ∈ pairs, m.2.Distinct := by
  induction members generalizing pairs with
  | nil =>
      cases h
      simp
  | cons member members ih =>
      obtain ⟨_ | key, item⟩ := member
      · cases h
      · rw [membersOf] at h
        obtain ⟨value, hvalue, h⟩ := exists_of_bind_eq_ok h
        obtain ⟨rest, hrest, h⟩ := exists_of_bind_eq_ok h
        cases h
        exact List.forall_mem_cons.2 ⟨hitem item value hvalue, ih hrest⟩

/-- Repeated keys are merged at every level, so they are gone from the data. -/
theorem distinct_of_toValue {room : Nat} {t : Tree} {v : Value} (h : t.toValue room = .ok v) :
    v.Distinct := by
  induction room generalizing t v with
  | zero =>
      rcases t with _ | b | (_ | n) | (_ | s) | items | members <;> cases h <;> constructor
  | succ room ih =>
      have hitem : ∀ t v, Tree.toValue room t = .ok v → v.Distinct := fun t v => ih
      rcases t with _ | b | (_ | n) | (_ | s) | items | members
      case list =>
          rw [Tree.toValue] at h
          obtain ⟨values, hvalues, rfl⟩ := exists_of_map_eq_ok h
          exact .list (distinct_of_valuesOf hitem hvalues)
      case object =>
          rw [Tree.toValue] at h
          obtain ⟨pairs, hpairs, rfl⟩ := exists_of_map_eq_ok h
          refine .object (Members.nodup_keys_ofPairs pairs) fun m hm => ?_
          rcases Members.mem_of_mem_setAll hm with hpair | hnil
          · exact distinct_of_membersOf hitem hpairs m hpair
          · cases hnil
      all_goals cases h <;> constructor

theorem exists_tree_of_read {s : List Char} {v : Value} (h : read s = .ok v) :
    ∃ tree, readTree s = .ok tree ∧ tree.toValue maxDepth = .ok v := by
  rw [read] at h
  obtain ⟨tree, htree, h⟩ := exists_of_bind_eq_ok h
  refine ⟨tree, htree, ?_⟩
  cases hvalue : tree.toValue maxDepth with
  | error fault =>
      rw [hvalue] at h
      cases h
  | ok value =>
      rw [hvalue] at h
      cases h
      rfl

theorem distinct_of_read {s : List Char} {v : Value} (h : read s = .ok v) : v.Distinct := by
  obtain ⟨tree, -, hvalue⟩ := exists_tree_of_read h
  exact distinct_of_toValue hvalue

end Json

namespace Config

open Json (Value)

/-! ## The rules -/

/-- What a value breaks that stands under a key. -/
inductive MemberBreaks (key : String) (value : Value) : Violation → Prop
  | mapping (hkey : key = "mapTypes") (h : ∀ entries, value ≠ .object entries) :
      MemberBreaks key value .mapTypesNotAnObject
  | target {entries : List (String × Value)} {name : String} {target : Value}
      (hkey : key = "mapTypes") (hvalue : value = .object entries)
      (hentry : (name, target) ∈ entries) (h : ∀ s, target ≠ .text s) :
      MemberBreaks key value (.mapTypeNotText name)
  | text (hkey : key ∈ ["outputType", "enumOutputType", "outputFile", "prismaSchema", "$schema"])
      (h : ∀ s, value ≠ .text s) :
      MemberBreaks key value (.notText key)
  | choice {word : String} {allowed : List String}
      (hkey : (key, allowed) ∈
        [("outputType", ["interface", "type"]), ("enumOutputType", ["enum", "type"])])
      (hvalue : value = .text word) (h : word ∉ allowed) :
      MemberBreaks key value (.invalidChoice key word allowed)
  | boolean (hkey : key ∈ ["generateMetadata", "relationFieldsOptional"])
      (h : ∀ b, value ≠ .bool b) :
      MemberBreaks key value (.notBoolean key)
  | unknown (h : key ∉ ["$schema", "outputType", "enumOutputType", "outputFile", "prismaSchema",
      "generateMetadata", "relationFieldsOptional", "mapTypes"]) :
      MemberBreaks key value (.unknownKey key)

/-- What a document breaks. -/
inductive Breaks : Value → Violation → Prop
  | notAnObject {document : Value} (h : ∀ members, document ≠ .object members) :
      Breaks document .notAnObject
  | member {members : List (String × Value)} {key : String} {value : Value} {v : Violation}
      (hmember : (key, value) ∈ members) (h : MemberBreaks key value v) :
      Breaks (.object members) v

theorem breaks_object_iff {members : List (String × Value)} {v : Violation} :
    Breaks (.object members) v ↔ ∃ m ∈ members, MemberBreaks m.1 m.2 v := by
  constructor
  · intro h
    cases h with
    | notAnObject hobject => exact absurd rfl (hobject members)
    | member hmember hbreaks => exact ⟨_, hmember, hbreaks⟩
  · rintro ⟨m, hm, hbreaks⟩
    exact .member hm hbreaks

/-! ## Checks of one property -/

theorem isText_eq_false_iff {v : Value} : v.isText = false ↔ ∀ s, v ≠ .text s := by
  cases v <;> simp [Value.isText]

/-- The checks of known properties, in the order in which they are made. -/
def checks : List (String × (Option Value → List Violation)) :=
  [("mapTypes", mappingViolations),
   ("outputType", choiceViolations "outputType" (ModelStyle.all.map ModelStyle.word)),
   ("enumOutputType", choiceViolations "enumOutputType" (EnumStyle.all.map EnumStyle.word)),
   ("outputFile", textViolations "outputFile"),
   ("prismaSchema", textViolations "prismaSchema"),
   ("$schema", textViolations "$schema"),
   ("generateMetadata", booleanViolations "generateMetadata"),
   ("relationFieldsOptional", booleanViolations "relationFieldsOptional")]

theorem memberViolations_eq (members : List (String × Value)) :
    memberViolations members
      = checks.flatMap (fun c => c.2 (Members.get? c.1 members))
        ++ ((members.map Prod.fst).filter (!knownKeys.contains ·)).map .unknownKey := by
  simp [memberViolations, checks]

theorem mem_mappingViolations_iff {value : Value} {v : Violation} :
    v ∈ mappingViolations (some value) ↔ MemberBreaks "mapTypes" value v := by
  constructor
  · intro h
    cases value with
    | object entries =>
        obtain ⟨e, he, rfl⟩ := List.mem_map.1 h
        obtain ⟨hentry, htext⟩ := List.mem_filter.1 he
        exact .target rfl rfl hentry (isText_eq_false_iff.1 (by simpa using htext))
    | _ =>
        cases List.mem_singleton.1 h
        exact .mapping rfl (by simp)
  · intro h
    cases h with
    | mapping hkey hobject =>
        cases value with
        | object entries => exact absurd rfl (hobject entries)
        | _ => exact List.mem_singleton_self _
    | target hkey hvalue hentry htext =>
        subst hvalue
        refine List.mem_map.2 ⟨_, List.mem_filter.2 ⟨hentry, ?_⟩, rfl⟩
        simp [isText_eq_false_iff.2 htext]
    | text hkey | choice hkey | boolean hkey | unknown hkey =>
        simp at hkey

theorem mem_textViolations_iff {key : String} {value : Value} {v : Violation}
    (hkey : key ∈ ["outputFile", "prismaSchema", "$schema"]) :
    v ∈ textViolations key (some value) ↔ MemberBreaks key value v := by
  have hmem : v ∈ textViolations key (some value) ↔ v = .notText key ∧ ∀ s, value ≠ .text s := by
    cases value <;> simp [textViolations, Value.isText]
  rw [hmem]
  constructor
  · rintro ⟨rfl, htext⟩
    exact .text (by simp only [List.mem_cons] at hkey ⊢; tauto) htext
  · intro h
    simp only [List.mem_cons, List.not_mem_nil, or_false] at hkey
    cases h with
    | text _ htext => exact ⟨rfl, htext⟩
    | mapping hother | target hother | choice hother | boolean hother | unknown hother =>
        rcases hkey with rfl | rfl | rfl <;> simp at hother

theorem mem_booleanViolations_iff {key : String} {value : Value} {v : Violation}
    (hkey : key ∈ ["generateMetadata", "relationFieldsOptional"]) :
    v ∈ booleanViolations key (some value) ↔ MemberBreaks key value v := by
  have hmem : v ∈ booleanViolations key (some value)
      ↔ v = .notBoolean key ∧ ∀ b, value ≠ .bool b := by
    cases value <;> simp [booleanViolations, Value.isBool]
  rw [hmem]
  constructor
  · rintro ⟨rfl, hbool⟩
    exact .boolean hkey hbool
  · intro h
    simp only [List.mem_cons, List.not_mem_nil, or_false] at hkey
    cases h with
    | boolean _ hbool => exact ⟨rfl, hbool⟩
    | mapping hother | target hother | text hother | choice hother | unknown hother =>
        rcases hkey with rfl | rfl <;> simp at hother

theorem textKey_of_choice {key : String} {allowed : List String} (hkey : (key, allowed) ∈
      [("outputType", ["interface", "type"]), ("enumOutputType", ["enum", "type"])]) :
    key ∈ ["outputType", "enumOutputType", "outputFile", "prismaSchema", "$schema"] := by
  simp only [List.mem_cons, Prod.mk.injEq] at hkey ⊢
  tauto

theorem mem_choiceViolations_iff {key : String} {allowed : List String} {value : Value}
    {v : Violation} (hkey : (key, allowed) ∈
      [("outputType", ["interface", "type"]), ("enumOutputType", ["enum", "type"])]) :
    v ∈ choiceViolations key allowed (some value) ↔ MemberBreaks key value v := by
  have hmem : v ∈ choiceViolations key allowed (some value)
      ↔ (v = .notText key ∧ ∀ s, value ≠ .text s)
        ∨ ∃ word, v = .invalidChoice key word allowed ∧ value = .text word ∧ word ∉ allowed := by
    cases value with
    | text word => by_cases hword : word ∈ allowed <;> simp [choiceViolations, hword]
    | _ => simp [choiceViolations]
  rw [hmem]
  constructor
  · rintro (⟨rfl, htext⟩ | ⟨word, rfl, hvalue, hword⟩)
    · exact .text (textKey_of_choice hkey) htext
    · exact .choice hkey hvalue hword
  · intro h
    simp only [List.mem_cons, Prod.mk.injEq, List.not_mem_nil, or_false] at hkey
    cases h with
    | text _ htext => exact .inl ⟨rfl, htext⟩
    | choice hother hvalue hword =>
        -- A key has one list of choices.
        rcases hkey with ⟨rfl, rfl⟩ | ⟨rfl, rfl⟩
        all_goals
          simp at hother
          subst hother
          exact .inr ⟨_, rfl, hvalue, hword⟩
    | mapping hother | target hother | boolean hother | unknown hother =>
        rcases hkey with ⟨rfl, -⟩ | ⟨rfl, -⟩ <;> simp at hother

/-- Every check of a known property reports what its value breaks. -/
theorem mem_check_iff {c : String × (Option Value → List Violation)} (hc : c ∈ checks)
    {value : Value} {v : Violation} : v ∈ c.2 (some value) ↔ MemberBreaks c.1 value v := by
  simp only [checks, List.mem_cons, List.not_mem_nil, or_false] at hc
  rcases hc with rfl | rfl | rfl | rfl | rfl | rfl | rfl | rfl
  · exact mem_mappingViolations_iff
  · exact mem_choiceViolations_iff (by decide)
  · exact mem_choiceViolations_iff (by decide)
  · exact mem_textViolations_iff (by decide)
  · exact mem_textViolations_iff (by decide)
  · exact mem_textViolations_iff (by decide)
  · exact mem_booleanViolations_iff (by decide)
  · exact mem_booleanViolations_iff (by decide)

theorem check_none {c : String × (Option Value → List Violation)} (hc : c ∈ checks) :
    c.2 none = [] := by
  simp only [checks, List.mem_cons, List.not_mem_nil, or_false] at hc
  rcases hc with rfl | rfl | rfl | rfl | rfl | rfl | rfl | rfl <;> rfl

theorem nodup_mappingViolations {value : Value} (h : value.Distinct) :
    (mappingViolations (some value)).Nodup := by
  cases value with
  | object entries =>
      have hkeys : ((entries.filter (!·.2.isText)).map Prod.fst).Nodup :=
        h.keys.sublist (List.filter_sublist.map Prod.fst)
      rw [mappingViolations, ← Function.comp_def Violation.mapTypeNotText Prod.fst, ← List.map_map]
      exact hkeys.map fun _ _ heq => Violation.mapTypeNotText.inj heq
  | _ =>
      exact List.nodup_singleton _

theorem nodup_choiceViolations (key : String) (allowed : List String) (value : Value) :
    (choiceViolations key allowed (some value)).Nodup := by
  cases value with
  | text word =>
      rw [choiceViolations]
      split <;> simp
  | _ =>
      exact List.nodup_singleton _

theorem nodup_check {c : String × (Option Value → List Violation)} (hc : c ∈ checks)
    {value : Value} (h : value.Distinct) : (c.2 (some value)).Nodup := by
  simp only [checks, List.mem_cons, List.not_mem_nil, or_false] at hc
  rcases hc with rfl | rfl | rfl | rfl | rfl | rfl | rfl | rfl
  · exact nodup_mappingViolations h
  · exact nodup_choiceViolations _ _ value
  · exact nodup_choiceViolations _ _ value
  all_goals
    -- The other checks report one fault at most.
    simp only [textViolations, booleanViolations]
    split <;> simp

/-! ## Checks of whole documents -/

/-- The property that a rule is about. -/
def subject : Violation → Option String
  | .notAnObject => none
  | .mapTypesNotAnObject | .mapTypeNotText _ => some "mapTypes"
  | .notText key | .notBoolean key | .invalidChoice key _ _ | .unknownKey key => some key

theorem MemberBreaks.subject_eq {key : String} {value : Value} {v : Violation}
    (h : MemberBreaks key value v) : subject v = some key := by
  cases h with
  | mapping hkey | target hkey => rw [hkey]; rfl
  | text | choice | boolean | unknown => rfl

theorem mem_knownKeys_iff {key : String} : key ∈ knownKeys ↔ ∃ c ∈ checks, c.1 = key := by
  rw [← List.mem_map]
  have hperm : knownKeys.Perm (checks.map Prod.fst) := by decide
  exact hperm.mem_iff

theorem memberBreaks_of_notMem_knownKeys {key : String} {value : Value} {v : Violation}
    (hkey : key ∉ knownKeys) : MemberBreaks key value v ↔ v = .unknownKey key := by
  constructor
  · intro h
    cases h with
    | unknown => rfl
    | mapping hother | target hother =>
        exact absurd (by simp [knownKeys, hother]) hkey
    | text hother | choice hother | boolean hother =>
        refine absurd ?_ hkey
        simp only [List.mem_cons, Prod.mk.injEq, knownKeys] at hother ⊢
        tauto
  · rintro rfl
    exact .unknown hkey

/-- The list of violations names just the broken rules. -/
theorem mem_memberViolations_iff {members : List (String × Value)}
    (hkeys : (members.map Prod.fst).Nodup) {v : Violation} :
    v ∈ memberViolations members ↔ ∃ m ∈ members, MemberBreaks m.1 m.2 v := by
  rw [memberViolations_eq, List.mem_append, List.mem_flatMap, List.mem_map]
  constructor
  · rintro (⟨c, hc, hv⟩ | ⟨key, hkey, rfl⟩)
    · cases hget : Members.get? c.1 members with
      | none =>
          rw [hget, check_none hc] at hv
          cases hv
      | some value =>
          rw [hget] at hv
          exact ⟨_, Members.mem_of_get? hget, (mem_check_iff hc).1 hv⟩
    · obtain ⟨hmem, hunknown⟩ := List.mem_filter.1 hkey
      obtain ⟨m, hm, rfl⟩ := List.mem_map.1 hmem
      exact ⟨m, hm, (memberBreaks_of_notMem_knownKeys (by simpa using hunknown)).2 rfl⟩
  · rintro ⟨⟨key, value⟩, hm, hbreaks⟩
    by_cases hkey : key ∈ knownKeys
    · obtain ⟨c, hc, rfl⟩ := mem_knownKeys_iff.1 hkey
      refine .inl ⟨c, hc, ?_⟩
      rw [(Members.get?_eq_some_iff hkeys).2 hm]
      exact (mem_check_iff hc).2 hbreaks
    · refine .inr ⟨key, List.mem_filter.2 ⟨List.mem_map.2 ⟨_, hm, rfl⟩, by simpa using hkey⟩, ?_⟩
      exact ((memberBreaks_of_notMem_knownKeys hkey).1 hbreaks).symm

/-- Each property is checked once, and no rule is about two properties. -/
theorem nodup_memberViolations {members : List (String × Value)}
    (h : Value.Distinct (.object members)) : (memberViolations members).Nodup := by
  have hsubject : ∀ c ∈ checks, ∀ v ∈ c.2 (Members.get? c.1 members), subject v = some c.1 := by
    intro c hc v hv
    cases hget : Members.get? c.1 members with
    | none =>
        rw [hget, check_none hc] at hv
        cases hv
    | some value =>
        rw [hget] at hv
        exact ((mem_check_iff hc).1 hv).subject_eq
  rw [memberViolations_eq]
  refine List.Nodup.append ?_ ?_ ?_
  · refine List.nodup_flatMap.2 ⟨fun c hc => ?_, ?_⟩
    · cases hget : Members.get? c.1 members with
      | none =>
          rw [check_none hc]
          exact List.nodup_nil
      | some value =>
          exact nodup_check hc (h.value (Members.mem_of_get? hget))
    · have hdistinct : checks.Pairwise (fun c c' => c.1 ≠ c'.1) :=
        List.pairwise_map.1 (by decide : (checks.map Prod.fst).Nodup)
      refine hdistinct.imp_of_mem fun hc hc' hne v hv hv' => hne ?_
      exact Option.some.inj ((hsubject _ hc v hv).symm.trans (hsubject _ hc' v hv'))
  · exact (h.keys.filter _).map fun _ _ heq => Violation.unknownKey.inj heq
  · intro v hv hv'
    obtain ⟨c, hc, hv⟩ := List.mem_flatMap.1 hv
    obtain ⟨key, hkey, rfl⟩ := List.mem_map.1 hv'
    have heq : key = c.1 := Option.some.inj (hsubject c hc _ hv)
    have hknown : key ∈ knownKeys := mem_knownKeys_iff.2 ⟨c, hc, heq.symm⟩
    simp [hknown] at hkey

theorem mem_violations_iff {document : Value} (h : document.Distinct) {v : Violation} :
    v ∈ violations document ↔ Breaks document v := by
  cases document with
  | object members =>
      rw [violations, mem_memberViolations_iff h.keys, breaks_object_iff]
  | _ =>
      constructor
      · intro hv
        cases List.mem_singleton.1 hv
        exact .notAnObject (by simp)
      · intro hv
        cases hv
        exact List.mem_singleton_self _

/-! ## Documents laid over each other -/

/-- What stands under `key` once `value` is laid over what was there. -/
def laid (key : String) (value : Value) (below : Option Value) : Value :=
  match value, below with
  | .object entries, some (.object present) =>
      if key = "mapTypes" then .object (Members.setAll entries present) else value
  | _, _ => value

theorem overlayMember_eq (base : List (String × Value)) (key : String) (value : Value) :
    overlayMember base key value
      = Members.set key (laid key value (Members.get? key base)) base := by
  unfold overlayMember laid
  generalize Members.get? key base = below
  cases value with
  | object entries =>
      rcases below with _ | (_ | _ | _ | _ | _ | present)
      case some.object =>
          dsimp only
          split <;> rfl
      all_goals rfl
  | _ =>
      rfl

/-- A value is replaced or has its entries added to those below. -/
theorem laid_cases (key : String) (value : Value) (below : Option Value) :
    laid key value below = value ∨
      key = "mapTypes" ∧ ∃ entries present, value = .object entries ∧
        below = some (.object present) ∧
        laid key value below = .object (Members.setAll entries present) := by
  unfold laid
  split
  · split
    · exact .inr ⟨‹_›, _, _, rfl, rfl, rfl⟩
    · exact .inl rfl
  · exact .inl rfl

theorem get?_overlay {base members : List (String × Value)} (h : (members.map Prod.fst).Nodup)
    (key : String) :
    Members.get? key (overlay base members)
      = ((Members.get? key members).map fun value => laid key value (Members.get? key base)).or
          (Members.get? key base) := by
  induction members generalizing base with
  | nil =>
      rfl
  | cons member members ih =>
      obtain ⟨hmember, hrest⟩ := List.nodup_cons.1 h
      change Members.get? key (overlay (overlayMember base member.1 member.2) members) = _
      rw [ih hrest, overlayMember_eq, Members.get?_set, Members.get?]
      split
      · rename_i hkey
        -- The key does not come again, so the rest leaves it as it is.
        have hnone : Members.get? key members = none := by
          rw [← Option.not_isSome_iff_eq_none, Members.isSome_get?_iff, ← hkey]
          exact hmember
        rw [hnone, hkey]
        rfl
      · rfl

theorem distinct_laid {key : String} {value : Value} {below : Option Value}
    (hvalue : value.Distinct) (hbelow : ∀ present, below = some present → present.Distinct) :
    (laid key value below).Distinct := by
  rcases laid_cases key value below with heq | ⟨-, entries, present, rfl, rfl, heq⟩
  · rw [heq]
    exact hvalue
  · rw [heq]
    have hpresent := hbelow _ rfl
    refine .object (Members.nodup_keys_setAll entries hpresent.keys) fun m hm => ?_
    rcases Members.mem_of_mem_setAll hm with hentry | hentry
    · exact hvalue.value hentry
    · exact hpresent.value hentry

theorem distinct_overlay {base members : List (String × Value)}
    (hbase : Value.Distinct (.object base)) (h : ∀ m ∈ members, m.2.Distinct) :
    Value.Distinct (.object (overlay base members)) := by
  induction members generalizing base with
  | nil =>
      exact hbase
  | cons member members ih =>
      obtain ⟨hmember, hrest⟩ := List.forall_mem_cons.1 h
      have hlaid : (laid member.1 member.2 (Members.get? member.1 base)).Distinct :=
        distinct_laid hmember fun present hget => hbase.value (Members.mem_of_get? hget)
      change Value.Distinct (.object (overlay (overlayMember base member.1 member.2) members))
      refine ih ?_ hrest
      rw [overlayMember_eq]
      refine .object (Members.nodup_keys_set hbase.keys _ _) fun m hm => ?_
      rcases Members.mem_of_mem_set hm with rfl | hm
      · exact hlaid
      · exact hbase.value hm

theorem memberBreaks_mapping_iff {entries : List (String × Value)} {v : Violation} :
    MemberBreaks "mapTypes" (.object entries) v
      ↔ ∃ e ∈ entries, (∀ s, e.2 ≠ .text s) ∧ v = .mapTypeNotText e.1 := by
  rw [← mem_mappingViolations_iff]
  simp [mappingViolations, isText_eq_false_iff, and_assoc, eq_comm (a := v)]

/-- Targets below are texts, so all faulty entries come from above. -/
theorem memberBreaks_setAll_iff {entries present : List (String × Value)} {v : Violation}
    (hentries : (entries.map Prod.fst).Nodup)
    (hfree : ∀ v, ¬ MemberBreaks "mapTypes" (.object present) v) :
    MemberBreaks "mapTypes" (.object (Members.setAll entries present)) v
      ↔ MemberBreaks "mapTypes" (.object entries) v := by
  rw [memberBreaks_mapping_iff, memberBreaks_mapping_iff]
  constructor
  · rintro ⟨e, he, htext, rfl⟩
    rcases Members.mem_of_mem_setAll he with hentry | hentry
    · exact ⟨e, hentry, htext, rfl⟩
    · exact absurd (memberBreaks_mapping_iff.2 ⟨e, hentry, htext, rfl⟩) (hfree _)
  · rintro ⟨⟨name, target⟩, he, htext, rfl⟩
    refine ⟨(name, target), ?_, htext, rfl⟩
    apply Members.mem_of_get?
    rw [Members.get?_setAll hentries, (Members.get?_eq_some_iff hentries).2 he]
    rfl

theorem memberBreaks_laid_iff {key : String} {value : Value} {below : Option Value} {v : Violation}
    (hvalue : value.Distinct)
    (hfree : ∀ present, below = some present → ∀ v, ¬ MemberBreaks key present v) :
    MemberBreaks key (laid key value below) v ↔ MemberBreaks key value v := by
  rcases laid_cases key value below with heq | ⟨rfl, entries, present, rfl, rfl, heq⟩
  · rw [heq]
  · rw [heq]
    exact memberBreaks_setAll_iff hvalue.keys (hfree _ rfl)

/-- A document laid over one without faults has its own faults and no others. -/
theorem breaks_overlay_iff {base members : List (String × Value)} {v : Violation}
    (hbase : Value.Distinct (.object base)) (hfree : ∀ v, ¬ Breaks (.object base) v)
    (h : Value.Distinct (.object members)) :
    Breaks (.object (overlay base members)) v ↔ Breaks (.object members) v := by
  have hlaid : ∀ {key value}, (key, value) ∈ members →
      (MemberBreaks key (laid key value (Members.get? key base)) v ↔ MemberBreaks key value v) := by
    intro key value hm
    exact memberBreaks_laid_iff (h.value hm) fun present hget v hv =>
      hfree v (.member (Members.mem_of_get? hget) hv)
  rw [breaks_object_iff, breaks_object_iff]
  constructor
  · rintro ⟨⟨key, value⟩, hm, hv⟩
    have hdocument : Value.Distinct (.object (overlay base members)) :=
      distinct_overlay hbase fun m hm => h.value hm
    have hget := (Members.get?_eq_some_iff hdocument.keys).2 hm
    rw [get?_overlay h.keys] at hget
    cases hown : Members.get? key members with
    | none =>
        -- The property comes from below, where nothing is broken.
        rw [hown] at hget
        exact absurd (.member (Members.mem_of_get? hget) hv) (hfree v)
    | some own =>
        rw [hown] at hget
        cases hget
        have hmem := Members.mem_of_get? hown
        exact ⟨_, hmem, (hlaid hmem).1 hv⟩
  · rintro ⟨⟨key, value⟩, hm, hv⟩
    refine ⟨(key, laid key value (Members.get? key base)), Members.mem_of_get? ?_, (hlaid hm).2 hv⟩
    rw [get?_overlay h.keys, (Members.get?_eq_some_iff h.keys).2 hm]
    rfl

/-! ## Documents of configurations -/

/-- The values under the keys of a configuration's document. -/
theorem get?_toMembers (c : Config) :
    Members.get? "$schema" c.toMembers = c.schemaUrl.map Value.text ∧
      Members.get? "outputType" c.toMembers = some (.text c.modelStyle.word) ∧
      Members.get? "enumOutputType" c.toMembers = some (.text c.enumStyle.word) ∧
      Members.get? "outputFile" c.toMembers = some (.text c.outputFile) ∧
      Members.get? "prismaSchema" c.toMembers = some (.text c.schemaFile) ∧
      Members.get? "generateMetadata" c.toMembers = some (.bool c.writeMetadata) ∧
      Members.get? "relationFieldsOptional" c.toMembers = some (.bool c.relationsOptional) ∧
      Members.get? "mapTypes" c.toMembers
        = some (.object (c.mapping.entries.map fun e => (e.1, .text e.2))) := by
  cases hurl : c.schemaUrl <;> simp [toMembers, Members.get?, hurl]

theorem value_of_mem_toMembers {c : Config} {m : String × Value} (hm : m ∈ c.toMembers) :
    (∃ s, m.2 = .text s) ∨ (∃ b, m.2 = .bool b) ∨
      m.2 = .object (c.mapping.entries.map fun e => (e.1, .text e.2)) := by
  rw [toMembers, List.mem_append, Option.mem_toList, Option.map_eq_some_iff] at hm
  simp only [List.mem_cons, List.not_mem_nil, or_false] at hm
  rcases hm with ⟨url, -, rfl⟩ | rfl | rfl | rfl | rfl | rfl | rfl | rfl
  all_goals simp

theorem nodup_keys_toMembers (c : Config) : (c.toMembers.map Prod.fst).Nodup := by
  cases hurl : c.schemaUrl <;> simp [toMembers, hurl]

theorem distinct_toMembers {c : Config} (hnames : (c.mapping.entries.map Prod.fst).Nodup) :
    Value.Distinct (.object c.toMembers) := by
  refine .object (nodup_keys_toMembers c) fun m hm => ?_
  rcases value_of_mem_toMembers hm with ⟨s, heq⟩ | ⟨b, heq⟩ | heq
  · rw [heq]
    exact .text s
  · rw [heq]
    exact .bool b
  · rw [heq]
    refine .object ?_ fun e he => ?_
    · rw [List.map_map]
      exact hnames
    · obtain ⟨entry, -, rfl⟩ := List.mem_map.1 he
      exact .text entry.2

/-- The document of a configuration obeys all rules. -/
theorem not_breaks_toMembers {c : Config} (hnames : (c.mapping.entries.map Prod.fst).Nodup)
    (v : Violation) : ¬ Breaks (.object c.toMembers) v := by
  obtain ⟨hurl, hmodel, henum, houtput, hschema, hmetadata, hrelations, hmapping⟩ :=
    get?_toMembers c
  have hmodelWord : c.modelStyle.word ∈ ModelStyle.all.map ModelStyle.word := by
    cases c.modelStyle <;> decide
  have henumWord : c.enumStyle.word ∈ EnumStyle.all.map EnumStyle.word := by
    cases c.enumStyle <;> decide
  have hknown : (c.toMembers.map Prod.fst).filter (!knownKeys.contains ·) = [] := by
    cases hschemaUrl : c.schemaUrl <;> simp [toMembers, knownKeys, hschemaUrl]
  have htargets : (c.mapping.entries.map fun e => (e.1, Value.text e.2)).filter
      (!·.2.isText) = [] := by
    rw [List.filter_eq_nil_iff]
    intro e he
    obtain ⟨entry, -, rfl⟩ := List.mem_map.1 he
    simp [Value.isText]
  have hnil : violations (.object c.toMembers) = [] := by
    rw [violations, memberViolations, hknown, hmapping, mappingViolations, htargets]
    cases hschemaUrl : c.schemaUrl <;>
      simp [hurl, hmodel, henum, houtput, hschema, hmetadata, hrelations, hschemaUrl,
        choiceViolations, textViolations, booleanViolations, Value.isText, Value.isBool,
        hmodelWord, henumWord]
  rw [← mem_violations_iff (distinct_toMembers hnames), hnil]
  exact List.not_mem_nil

theorem distinct_default : Value.Distinct (.object ({} : Config).toMembers) :=
  distinct_toMembers (Members.nodup_keys_ofPairs _)

theorem not_breaks_default (v : Violation) : ¬ Breaks (.object ({} : Config).toMembers) v :=
  not_breaks_toMembers (Members.nodup_keys_ofPairs _) v

/-! ## Taking documents over -/

theorem exists_text_of_not_breaks {key : String} {value : Value}
    (hkey : key ∈ ["outputType", "enumOutputType", "outputFile", "prismaSchema", "$schema"])
    (hfree : ∀ v, ¬ MemberBreaks key value v) : ∃ s, value = .text s := by
  by_contra hnone
  exact hfree _ (.text hkey (not_exists.1 hnone))

theorem exists_bool_of_not_breaks {key : String} {value : Value}
    (hkey : key ∈ ["generateMetadata", "relationFieldsOptional"])
    (hfree : ∀ v, ¬ MemberBreaks key value v) : ∃ b, value = .bool b := by
  by_contra hnone
  exact hfree _ (.boolean hkey (not_exists.1 hnone))

theorem exists_choiceOf? {α : Type} (ofWord? : String → Option α) (allowed : List String)
    {key : String} {value : Value}
    (hkey : (key, allowed) ∈
      [("outputType", ["interface", "type"]), ("enumOutputType", ["enum", "type"])])
    (hwords : ∀ word ∈ allowed, (ofWord? word).isSome = true)
    (hfree : ∀ v, ¬ MemberBreaks key value v) : ∃ a, choiceOf? ofWord? value = some a := by
  obtain ⟨word, rfl⟩ := exists_text_of_not_breaks (textKey_of_choice hkey) hfree
  by_cases hword : word ∈ allowed
  · exact Option.isSome_iff_exists.1 (hwords word hword)
  · exact absurd (.choice hkey rfl hword) (hfree _)

theorem exists_mappingOf? {value : Value} (hfree : ∀ v, ¬ MemberBreaks "mapTypes" value v) :
    ∃ mapping, mappingOf? value = some mapping := by
  have hobject : ∃ entries, value = .object entries := by
    by_contra hnone
    exact hfree _ (.mapping rfl (not_exists.1 hnone))
  obtain ⟨entries, rfl⟩ := hobject
  have htargets : ∀ e ∈ entries, ∃ s, e.2 = .text s := by
    intro e he
    by_contra hnone
    exact hfree _ (.target rfl rfl he (not_exists.1 hnone))
  have hmapM : ∃ pairs, (entries.mapM fun e =>
      (textOf? e.2).map fun target => (e.1, target)) = some pairs := by
    clear hfree
    induction entries with
    | nil =>
        exact ⟨[], rfl⟩
    | cons e entries ih =>
        obtain ⟨⟨s, hs⟩, hrest⟩ := List.forall_mem_cons.1 htargets
        obtain ⟨pairs, hpairs⟩ := ih hrest
        have htarget : textOf? e.2 = some s := by rw [hs]; rfl
        exact ⟨(e.1, s) :: pairs, by simp [List.mapM_cons, htarget, hpairs]⟩
  obtain ⟨pairs, hpairs⟩ := hmapM
  exact ⟨⟨pairs⟩, by rw [mappingOf?, hpairs]; rfl⟩

/-- A document that obeys the rules and has all properties but the first describes a
configuration. -/
theorem exists_ofMembers? {members : List (String × Value)}
    (hfree : ∀ v, ¬ Breaks (.object members) v)
    (hall : ∀ key ∈ knownKeys, key ≠ "$schema" → (Members.get? key members).isSome = true) :
    ∃ c, ofMembers? members = some c := by
  have hvalue : ∀ {key value}, Members.get? key members = some value →
      ∀ v, ¬ MemberBreaks key value v :=
    fun hget v hv => hfree v (.member (Members.mem_of_get? hget) hv)
  have hfound : ∀ key ∈ knownKeys, key ≠ "$schema" →
      ∃ value, Members.get? key members = some value ∧ ∀ v, ¬ MemberBreaks key value v := by
    intro key hkey hne
    obtain ⟨value, hget⟩ := Option.isSome_iff_exists.1 (hall key hkey hne)
    exact ⟨value, hget, hvalue hget⟩
  have hschema : ∃ url, optionalTextOf? (Members.get? "$schema" members) = some url := by
    cases hget : Members.get? "$schema" members with
    | none =>
        exact ⟨none, rfl⟩
    | some value =>
        obtain ⟨s, rfl⟩ := exists_text_of_not_breaks (by decide) (hvalue hget)
        exact ⟨some s, rfl⟩
  obtain ⟨url, hurl⟩ := hschema
  obtain ⟨modelValue, hmodelGet, hmodelFree⟩ := hfound "outputType" (by decide) (by decide)
  obtain ⟨modelStyle, hmodel⟩ :=
    exists_choiceOf? ModelStyle.ofWord? ["interface", "type"] (by decide) (by decide) hmodelFree
  obtain ⟨enumValue, henumGet, henumFree⟩ := hfound "enumOutputType" (by decide) (by decide)
  obtain ⟨enumStyle, henum⟩ :=
    exists_choiceOf? EnumStyle.ofWord? ["enum", "type"] (by decide) (by decide) henumFree
  obtain ⟨_, houtput, hfree'⟩ := hfound "outputFile" (by decide) (by decide)
  obtain ⟨outputFile, rfl⟩ := exists_text_of_not_breaks (by decide) hfree'
  obtain ⟨_, hfile, hfree'⟩ := hfound "prismaSchema" (by decide) (by decide)
  obtain ⟨schemaFile, rfl⟩ := exists_text_of_not_breaks (by decide) hfree'
  obtain ⟨_, hmetadata, hfree'⟩ := hfound "generateMetadata" (by decide) (by decide)
  obtain ⟨writeMetadata, rfl⟩ := exists_bool_of_not_breaks (by decide) hfree'
  obtain ⟨_, hrelations, hfree'⟩ := hfound "relationFieldsOptional" (by decide) (by decide)
  obtain ⟨relationsOptional, rfl⟩ := exists_bool_of_not_breaks (by decide) hfree'
  obtain ⟨mappingValue, hmappingGet, hmappingFree⟩ := hfound "mapTypes" (by decide) (by decide)
  obtain ⟨mapping, hmapping⟩ := exists_mappingOf? hmappingFree
  refine ⟨⟨url, modelStyle, enumStyle, outputFile, schemaFile, writeMetadata, relationsOptional,
    mapping⟩, ?_⟩
  simp [ofMembers?, hurl, hmodelGet, hmodel, henumGet, henum, houtput, hfile, hmetadata, hrelations,
    hmappingGet, hmapping, textOf?, boolOf?]

/-! ## Reading -/

/-- A document that is laid over the default one has all properties but the first. -/
theorem isSome_get?_overlay {members : List (String × Value)} (h : (members.map Prod.fst).Nodup) :
    ∀ key ∈ knownKeys, key ≠ "$schema" →
      (Members.get? key (overlay ({} : Config).toMembers members)).isSome = true := by
  intro key hkey hne
  have hbase : (Members.get? key ({} : Config).toMembers).isSome = true := by
    revert key
    decide
  rw [get?_overlay h, Option.isSome_or, hbase, Bool.or_true]

theorem complete_object (members : List (String × Value)) :
    complete (.object members) =
      if violations (.object (overlay ({} : Config).toMembers members)) = [] then
        .ok (overlay ({} : Config).toMembers members)
      else .error (violations (.object (overlay ({} : Config).toMembers members))) := by
  rw [complete, violations]
  cases memberViolations (overlay ({} : Config).toMembers members) <;> rfl

/-- Laid over the default document, a document breaks the rules that it breaks by itself. -/
theorem mem_violations_overlay_iff {members : List (String × Value)} {v : Violation}
    (h : Value.Distinct (.object members)) :
    v ∈ violations (.object (overlay ({} : Config).toMembers members))
      ↔ Breaks (.object members) v := by
  rw [mem_violations_iff (distinct_overlay distinct_default fun m hm => h.value hm)]
  exact breaks_overlay_iff distinct_default not_breaks_default h

theorem complete_of_not_breaks {members : List (String × Value)}
    (h : Value.Distinct (.object members)) (hfree : ∀ v, ¬ Breaks (.object members) v) :
    complete (.object members) = .ok (overlay ({} : Config).toMembers members) := by
  have hnone : violations (.object (overlay ({} : Config).toMembers members)) = [] :=
    List.eq_nil_iff_forall_not_mem.2 fun v hv => hfree v ((mem_violations_overlay_iff h).1 hv)
  rw [complete_object, if_pos hnone]

theorem read_of_complete_error {text : String} {document : Value} {broken : List Violation}
    (h : Json.read text.toList = .ok document) (hbroken : complete document = .error broken) :
    read text = .error (.invalid broken) := by
  simp [read, readFrom, h, hbroken]

theorem read_of_complete_ok {text : String} {document : Value} {members : List (String × Value)}
    {c : Config} (h : Json.read text.toList = .ok document)
    (hmembers : complete document = .ok members) (hc : ofMembers? members = some c) :
    read text = .ok c := by
  simp [read, readFrom, h, hmembers, hc]

/-- A document is accepted and obeys all rules, or it is refused with what it breaks. -/
theorem read_cases {text : String} {document : Value} (h : Json.read text.toList = .ok document) :
    ((∃ c, read text = .ok c) ∧ ∀ v, ¬ Breaks document v) ∨
      ∃ broken, read text = .error (.invalid broken) ∧ broken ≠ [] ∧ broken.Nodup ∧
        ∀ v, v ∈ broken ↔ Breaks document v := by
  have hdistinct := Json.distinct_of_read h
  cases document with
  | object members =>
      have hkeys := hdistinct.keys
      have hlaid : Value.Distinct (.object (overlay ({} : Config).toMembers members)) :=
        distinct_overlay distinct_default fun m hm => hdistinct.value hm
      have hmem : ∀ v, v ∈ violations (.object (overlay ({} : Config).toMembers members))
          ↔ Breaks (.object members) v :=
        fun v => mem_violations_overlay_iff hdistinct
      have hcomplete := complete_object members
      by_cases hnone : violations (.object (overlay ({} : Config).toMembers members)) = []
      · rw [if_pos hnone] at hcomplete
        have hfree : ∀ v, ¬ Breaks (.object members) v := by
          intro v
          rw [← hmem v, hnone]
          exact List.not_mem_nil
        obtain ⟨c, hc⟩ := exists_ofMembers?
          (fun v hv => hfree v ((hmem v).1 ((mem_violations_iff hlaid).2 hv)))
          (isSome_get?_overlay hkeys)
        exact .inl ⟨⟨c, read_of_complete_ok h hcomplete hc⟩, hfree⟩
      · rw [if_neg hnone] at hcomplete
        exact .inr
          ⟨_, read_of_complete_error h hcomplete, hnone, nodup_memberViolations hlaid, hmem⟩
  | _ =>
      refine .inr ⟨[.notAnObject], read_of_complete_error h rfl, by simp, by simp, fun v => ?_⟩
      exact mem_violations_iff hdistinct

theorem nodup_violations {document : Value} (h : document.Distinct) :
    (violations document).Nodup := by
  cases document with
  | object members =>
      exact nodup_memberViolations h
  | _ =>
      exact List.nodup_singleton _

/-- A text that holds a document is accepted as a configuration just when the document is an object
that obeys all rules. Any other one is refused with all rules that it breaks, each of them once. -/
theorem read_outcome_of_document {text : String} {document : Value}
    (h : Json.read text.toList = .ok document) :
    (∀ path input cause, read text ≠ .error (.malformed path input cause)) ∧
      ((∃ c, read text = .ok c) ↔
        (∃ members, document = .object members) ∧ ∀ v, ¬ Breaks document v) ∧
      ((¬ ∃ c, read text = .ok c) →
        ∃ broken, read text = .error (.invalid broken) ∧ broken.Perm (violations document) ∧
          broken.Nodup ∧ ∀ v, v ∈ broken ↔ Breaks document v) := by
  have hdistinct := Json.distinct_of_read h
  rcases read_cases h with ⟨⟨c, hc⟩, hfree⟩ | ⟨broken, hbroken, hne, hnodup, hmem⟩
  · have hobject : ∃ members, document = .object members := by
      by_contra hnone
      exact hfree _ (.notAnObject (not_exists.1 hnone))
    refine ⟨?_, ⟨fun _ => ⟨hobject, hfree⟩, fun _ => ⟨c, hc⟩⟩, fun hnone => absurd ⟨c, hc⟩ hnone⟩
    simp [hc]
  · obtain ⟨v, hv⟩ := List.exists_mem_of_ne_nil broken hne
    have hperm : broken.Perm (violations document) := by
      refine (List.perm_ext_iff_of_nodup hnodup (nodup_violations hdistinct)).2 fun v => ?_
      rw [hmem, mem_violations_iff hdistinct]
    refine ⟨by simp [hbroken], ⟨?_, fun hfree => absurd ((hmem v).1 hv) (hfree.2 v)⟩,
      fun _ => ⟨broken, hbroken, hperm, hnodup, hmem⟩⟩
    rintro ⟨c, hc⟩
    rw [hbroken] at hc
    cases hc

/-- A document with a repeated property, whose mapping is in an order of its own. -/
def faultyText : String :=
  "\x7b\"mapTypes\": 1, \"strict\": true, \"outputType\": \"class\",
    \"mapTypes\": \x7b\"Json\": null, \"Uuid\": [], \"String\": 2, \"Int\": \"bigint\"\x7d\x7d"

/-- Faulty entries are listed in the order of the standard mapping, not in that of the text. -/
theorem read_outcome_of_document_faultyText :
    ∃ document, Json.read faultyText.toList = .ok document ∧
      violations document =
        [.mapTypeNotText "Json", .mapTypeNotText "Uuid", .mapTypeNotText "String",
          .invalidChoice "outputType" "class" ["interface", "type"], .unknownKey "strict"] ∧
      ∃ broken, read faultyText = .error (.invalid broken) ∧ broken.Perm (violations document) ∧
        broken.head? = some (.mapTypeNotText "String") := by
  have hlisted : (Json.read faultyText.toList).map violations = .ok
      [.mapTypeNotText "Json", .mapTypeNotText "Uuid", .mapTypeNotText "String",
        .invalidChoice "outputType" "class" ["interface", "type"], .unknownKey "strict"] := by
    decide +kernel
  have hrefused : read faultyText = .error (.invalid
      [.mapTypeNotText "String", .mapTypeNotText "Json", .mapTypeNotText "Uuid",
        .invalidChoice "outputType" "class" ["interface", "type"], .unknownKey "strict"]) := by
    decide +kernel
  obtain ⟨document, hread, hviolations⟩ := Json.exists_of_map_eq_ok hlisted
  obtain ⟨-, -, houtcome⟩ := read_outcome_of_document hread
  obtain ⟨broken, hbroken, hperm, -⟩ := houtcome (by simp [hrefused])
  refine ⟨document, hread, hviolations, broken, hbroken, hperm, ?_⟩
  have heq := hrefused.symm.trans hbroken
  cases heq
  rfl

end Config

end PrismaTypes
