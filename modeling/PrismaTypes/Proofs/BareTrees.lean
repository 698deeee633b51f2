import PrismaTypes.Proofs.OutlineReading

/-!
# Trees without places

Of a tree the outline needs the rules, their order, and the texts of single words. `Node.bare` drops
the rest: all places, and the texts of nodes that are made of several words. A node and its bare
form are read alike (`readAttribute_bare`, `readField_bare`, `readEnumValue_bare`), except for the
rows that the placement of documentation asks for.

`Node.strings` lists the string literals of a tree, which are the only words that may hold a line
break.
-/

namespace PrismaTypes
namespace Grammar

/-! ## Bare nodes -/

/-- The rules of single words. -/
def Rule.isWord : Rule → Bool
  | docText | skippedKeyword | typeName | attributeName | argName => true
  | stringLiteral | numberLiteral | booleanLiteral | path | identifier => true
  | _ => false

namespace Node

mutual

/-- The node without places, and without the texts of nodes that are no single words. -/
def bare : Node → Node
  | mk rule _ text children => mk rule {} (if rule.isWord then text else []) (bareAll children)

def bareAll : List Node → List Node
  | [] => []
  | n :: ns => n.bare :: bareAll ns

end

theorem bareAll_eq_map (ns : List Node) : bareAll ns = ns.map bare := by
  induction ns with
  | nil =>
      rfl
  | cons n ns ih =>
      rw [bareAll, ih, List.map_cons]

@[simp] theorem rule_bare (n : Node) : n.bare.rule = n.rule := by
  cases n
  rfl

@[simp] theorem children_bare (n : Node) : n.bare.children = n.children.map bare := by
  cases n
  exact bareAll_eq_map _

theorem text_bare {n : Node} (h : n.rule.isWord = true) : n.bare.text = n.text := by
  cases n with
  | mk rule place text children =>
      exact if_pos h

mutual

/-- The string literals in a tree, from left to right. -/
def strings : Node → List Node
  | mk rule place text children =>
      (if rule = .stringLiteral then [mk rule place text children] else []) ++ stringsAll children

def stringsAll : List Node → List Node
  | [] => []
  | n :: ns => n.strings ++ stringsAll ns

end

theorem stringsAll_eq_flatMap (ns : List Node) : stringsAll ns = ns.flatMap strings := by
  induction ns with
  | nil =>
      rfl
  | cons n ns ih =>
      rw [stringsAll, ih, List.flatMap_cons]

@[simp] theorem stringsAll_append (ns ms : List Node) :
    stringsAll (ns ++ ms) = stringsAll ns ++ stringsAll ms := by
  simp [stringsAll_eq_flatMap]

theorem mem_strings_of_children {n m : Node} (h : m ∈ stringsAll n.children) : m ∈ n.strings := by
  cases n
  rw [strings]
  exact List.mem_append_right _ h

end Node

/-- A token of a word keeps its text. -/
theorem Fits.text_bare_of_token {rule : Rule} {scan : List Char → Option Scan} {n : Node}
    (hform : rule.form = .token scan) (hword : rule.isWord = true) (h : Fits (.call rule) [n]) :
    n.bare.text = n.text := by
  obtain ⟨place, text, s, rest, -, hn⟩ := (Fits.token_iff hform).1 h
  cases hn
  exact Node.text_bare hword

end Grammar

namespace Outline

open Grammar

theorem word_bare {n : Node} (h : n.bare.text = n.text) : word n.bare = word n :=
  congrArg String.ofList h

/-! ## Values -/

theorem mapM_bare {α : Type} {read : Node → Except Misfit α} {nodes : List Node}
    (h : ∀ n ∈ nodes, read n.bare = read n) :
    (nodes.map Node.bare).mapM read = nodes.mapM read := by
  induction nodes with
  | nil =>
      rfl
  | cons n nodes ih =>
      rw [List.map_cons, List.mapM_cons, List.mapM_cons, h n (by simp),
        ih fun n' hn' => h n' (by simp [hn'])]

mutual

theorem readValue_bare (n : Node) (h : Fits (.call .expression) [n]) :
    readValue n.bare = readValue n := by
  rcases Fits.expression_iff.1 h with h | h | h | h | h | h
  · obtain ⟨hrule, name, args, hchildren, hname, hargs⟩ := h.functionCall
    have hread : readArgs (args.children.map Node.bare) = readArgs args.children := by
      rw [readArgs_eq_mapM, readArgs_eq_mapM]
      refine mapM_bare fun arg harg => ?_
      have hlt : sizeOf arg < sizeOf n :=
        Nat.lt_trans (sizeOf_lt_of_mem_children harg)
          (sizeOf_lt_of_mem_children (by simp [hchildren]))
      exact readArg_bare arg (hargs.attributeArgs arg harg)
    rcases n with ⟨rule, place, text, children⟩
    rcases args with ⟨argsRule, argsPlace, argsText, args⟩
    cases hrule
    cases hchildren
    have hargs : readArgs (args.map Node.bare) = readArgs args := hread
    simp only [Node.bare, Node.bareAll, Node.bareAll_eq_map, readValue, hargs,
      word_bare (hname.text_bare_of_token rfl rfl)]
  · obtain ⟨hrule, hitems⟩ := h.arrayLiteral
    have hread : readValues (n.children.map Node.bare) = readValues n.children := by
      rw [readValues_eq_mapM, readValues_eq_mapM]
      refine mapM_bare fun item hitem => ?_
      have hlt : sizeOf item < sizeOf n := sizeOf_lt_of_mem_children hitem
      exact readValue_bare item (hitems item hitem)
    rcases n with ⟨rule, place, text, children⟩
    cases hrule
    have hvalues : readValues (children.map Node.bare) = readValues children := hread
    simp only [Node.bare, Node.bareAll_eq_map, readValue, hvalues]
  -- A literal or a name keeps its text.
  all_goals
    obtain ⟨place, text, s, rest, -, hn⟩ := (Fits.token_iff rfl).1 h
    cases hn
    rfl
termination_by sizeOf n
decreasing_by all_goals exact hlt

theorem readArg_bare (n : Node) (h : Fits (.call .attributeArg) [n]) :
    readArg n.bare = readArg n := by
  rcases h.attributeArg with ⟨name, value, hchildren, hname, hvalue⟩ | ⟨value, hchildren, hvalue⟩
  · have hlt : sizeOf value < sizeOf n := sizeOf_lt_of_mem_children (by simp [hchildren])
    have hread := readValue_bare value hvalue
    rcases n with ⟨rule, place, text, children⟩
    cases hchildren
    have hword : word name.bare = word name := word_bare (Node.text_bare (by rw [hname]; rfl))
    simp only [Node.bare, Node.bareAll, readArg, Node.rule_bare, hname, if_true, hread, hword]
  · have hlt : sizeOf value < sizeOf n := sizeOf_lt_of_mem_children (by simp [hchildren])
    have hread := readValue_bare value hvalue
    rcases n with ⟨rule, place, text, children⟩
    cases hchildren
    simp only [Node.bare, Node.bareAll, readArg, Node.rule_bare, hvalue.rule_ne_argName, if_false,
      hread]
termination_by sizeOf n
decreasing_by all_goals exact hlt

end

/-! ## Attributes -/

theorem readAttribute_bare {rule : Rule} {mark : String} {n : Node}
    (hform : rule.form = .spaced (.sequence (.word mark)
      [.call .attributeName, .optional (.call .attributeArgs)]))
    (h : Fits (.call rule) [n]) : readAttribute n.bare = readAttribute n := by
  obtain ⟨name, rest, hchildren, hname, hrest⟩ := h.attributeParts hform
  have hword : word name.bare = word name := word_bare (hname.text_bare_of_token rfl rfl)
  rcases hrest with rfl | ⟨args, rfl, hargs⟩
  · simp [readAttribute, firstChild, hchildren, hword, bind, Except.bind]
  · have hread : readArgs (args.children.map Node.bare) = readArgs args.children := by
      rw [readArgs_eq_mapM, readArgs_eq_mapM]
      exact mapM_bare fun arg harg => readArg_bare arg (hargs.attributeArgs arg harg)
    simp [readAttribute, firstChild, hchildren, hword, hread, bind, Except.bind]

/-! ## Declarations -/

theorem readFieldType_bare {parts : List Node} (h : ∀ n ∈ parts, n.rule = .typeName →
    n.bare.text = n.text) (decl : FieldDecl) :
    readFieldType (parts.map Node.bare) decl = readFieldType parts decl := by
  induction parts generalizing decl with
  | nil =>
      rfl
  | cons n parts ih =>
      have htail := fun d => ih (fun n' hn' => h n' (by simp [hn'])) d
      simp only [readFieldType, List.map_cons, List.foldl_cons, Node.rule_bare] at htail ⊢
      -- Only a type name is read by its text.
      by_cases hrule : n.rule = .typeName
      · simp only [hrule, word_bare (h n (by simp) hrule), htail]
      · split <;> simp_all

theorem readField_bare {n : Node} (h : Fits (.call .field) [n]) :
    readField n.bare = readField n := by
  obtain ⟨-, name, fieldType, attributes, hchildren, hname, htype, hattributes⟩ := h.field
  have hword : word name.bare = word name := word_bare (hname.text_bare_of_token rfl rfl)
  have hkept : ∀ a ∈ attributes.filter (·.rule = .fieldAttribute),
      Fits (.call .fieldAttribute) [a] :=
    fun a ha => hattributes a (List.mem_of_mem_filter ha)
  have hfilter : (attributes.map Node.bare).filter (·.rule = .fieldAttribute)
      = (attributes.filter (·.rule = .fieldAttribute)).map Node.bare := by
    rw [List.filter_map]
    congr 1
    exact List.filter_congr fun a _ => by simp
  have hparts : ∀ decl, readFieldType (fieldType.children.map Node.bare) decl
      = readFieldType fieldType.children decl :=
    readFieldType_bare fun part _ hrule => Node.text_bare (by rw [hrule]; rfl)
  have hread := mapM_bare fun a ha => readAttribute_bare rfl (hkept a ha)
  simp [readField, firstChild, hchildren, hword, hfilter, hread, hparts, bind, Except.bind]

theorem readEnumValue_bare {n : Node} (h : Fits (.call .enumValue) [n]) :
    readEnumValue n.bare = readEnumValue n := by
  obtain ⟨-, name, attributes, hchildren, hname, hattributes⟩ := h.enumValue
  have hword : word name.bare = word name := word_bare (hname.text_bare_of_token rfl rfl)
  have hread := mapM_bare fun a ha => readAttribute_bare rfl (hattributes a ha)
  simp [readEnumValue, firstChild, hchildren, hword, hread, bind, Except.bind]

end Outline
end PrismaTypes
