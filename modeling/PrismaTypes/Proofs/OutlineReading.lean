import PrismaTypes.Outline.Reader
import PrismaTypes.Proofs.TreeShape

/-!
# Reading outlines of matched texts

The tree of a matched schema has every part that the outline reader asks for, so that reading it
never ends in a misfit. The proof goes up the tree: values and arguments by induction on the node,
then attributes, declarations, items and blocks. On the way the type name of every field is seen to
be an identifier.
-/

namespace PrismaTypes
namespace Outline

open Grammar

/-! ## Values -/

theorem readValues_eq_mapM (nodes : List Node) : readValues nodes = nodes.mapM readValue := by
  induction nodes with
  | nil =>
      rfl
  | cons n nodes ih =>
      rw [readValues, ih, List.mapM_cons]

theorem readArgs_eq_mapM (nodes : List Node) : readArgs nodes = nodes.mapM readArg := by
  induction nodes with
  | nil =>
      rfl
  | cons n nodes ih =>
      rw [readArgs, ih, List.mapM_cons]

/-- Nodes that can all be read can be read one after the other. -/
theorem mapM_of_forall {α : Type} {read : Node → Except Misfit α} {nodes : List Node}
    (h : ∀ n ∈ nodes, ∃ a, read n = .ok a) : ∃ as, nodes.mapM read = .ok as := by
  induction nodes with
  | nil =>
      exact ⟨[], rfl⟩
  | cons n nodes ih =>
      obtain ⟨a, ha⟩ := h n (by simp)
      obtain ⟨as, has⟩ := ih fun n' hn' => h n' (by simp [hn'])
      exact ⟨a :: as, by simp [List.mapM_cons, ha, has, bind, Except.bind, pure, Except.pure]⟩

theorem sizeOf_lt_of_mem_children {n child : Node} (h : child ∈ n.children) :
    sizeOf child < sizeOf n := by
  cases n with
  | mk rule place text children =>
      have hlt := List.sizeOf_lt_of_mem (show child ∈ children from h)
      simp only [Node.mk.sizeOf_spec]
      omega

mutual

theorem readValue_of_fits (n : Node) (h : Fits (.call .expression) [n]) :
    ∃ v, readValue n = .ok v := by
  rcases Fits.expression_iff.1 h with h | h | h | h | h | h
  · obtain ⟨hrule, name, args, hchildren, -, hargs⟩ := h.functionCall
    have hread : ∃ vs, readArgs args.children = .ok vs := by
      rw [readArgs_eq_mapM]
      refine mapM_of_forall fun arg harg => ?_
      -- The argument list stands between the call and its arguments, so the size drops twice.
      have hlt : sizeOf arg < sizeOf n :=
        Nat.lt_trans (sizeOf_lt_of_mem_children harg)
          (sizeOf_lt_of_mem_children (by simp [hchildren]))
      exact readArg_of_fits arg (hargs.attributeArgs arg harg)
    obtain ⟨vs, hvs⟩ := hread
    rcases n with ⟨rule, place, text, children⟩
    rcases args with ⟨argsRule, argsPlace, argsText, args⟩
    cases hrule
    cases hchildren
    have hargs : readArgs args = .ok vs := hvs
    exact ⟨.call (word name) vs, by simp [readValue, hargs, Except.map]⟩
  · obtain ⟨hrule, hitems⟩ := h.arrayLiteral
    have hread : ∃ vs, readValues n.children = .ok vs := by
      rw [readValues_eq_mapM]
      refine mapM_of_forall fun item hitem => ?_
      have hlt : sizeOf item < sizeOf n := sizeOf_lt_of_mem_children hitem
      exact readValue_of_fits item (hitems item hitem)
    obtain ⟨vs, hvs⟩ := hread
    rcases n with ⟨rule, place, text, children⟩
    cases hrule
    exact ⟨.list vs, by simp [readValue, show readValues children = .ok vs from hvs, Except.map]⟩
  -- A literal or a name is read off the text of its token.
  all_goals
    obtain ⟨place, text, s, rest, -, hn⟩ := (Fits.token_iff rfl).1 h
    cases hn
    exact ⟨_, by rw [readValue]⟩
termination_by sizeOf n
decreasing_by all_goals exact hlt

theorem readArg_of_fits (n : Node) (h : Fits (.call .attributeArg) [n]) :
    ∃ arg, readArg n = .ok arg := by
  rcases h.attributeArg with ⟨name, value, hchildren, hname, hvalue⟩ | ⟨value, hchildren, hvalue⟩
  · have hlt : sizeOf value < sizeOf n := sizeOf_lt_of_mem_children (by simp [hchildren])
    obtain ⟨v, hv⟩ := readValue_of_fits value hvalue
    rcases n with ⟨rule, place, text, children⟩
    cases hchildren
    exact ⟨(some (word name), v), by simp [readArg, hname, hv, Except.map]⟩
  · have hlt : sizeOf value < sizeOf n := sizeOf_lt_of_mem_children (by simp [hchildren])
    obtain ⟨v, hv⟩ := readValue_of_fits value hvalue
    rcases n with ⟨rule, place, text, children⟩
    cases hchildren
    exact ⟨(none, v), by simp [readArg, hvalue.rule_ne_argName, hv, Except.map]⟩
termination_by sizeOf n
decreasing_by all_goals exact hlt

end

/-! ## Attributes -/

theorem readAttribute_of_fits {rule : Rule} {mark : String} {n : Node}
    (hform : rule.form = .spaced (.sequence (.word mark)
      [.call .attributeName, .optional (.call .attributeArgs)]))
    (h : Fits (.call rule) [n]) : ∃ a, readAttribute n = .ok a := by
  obtain ⟨name, rest, hchildren, -, hrest⟩ := h.attributeParts hform
  -- An attribute without parentheses has no arguments.
  rcases hrest with rfl | ⟨args, rfl, hargs⟩
  · exact ⟨⟨word name, []⟩, by
      simp [readAttribute, firstChild, hchildren, bind, Except.bind, pure, Except.pure]⟩
  · obtain ⟨vs, hvs⟩ :=
      mapM_of_forall fun arg harg => readArg_of_fits arg (hargs.attributeArgs arg harg)
    rw [← readArgs_eq_mapM] at hvs
    exact ⟨⟨word name, vs⟩, by
      simp [readAttribute, firstChild, hchildren, hvs, bind, Except.bind, pure, Except.pure]⟩

/-! ## Declarations -/

/-- The word of a node's first child, which names a declaration. -/
def nameOf (n : Node) : String :=
  (n.children.head?.map word).getD ""

theorem nameOf_eq {n name : Node} {rest : List Node} (h : n.children = name :: rest) :
    nameOf n = word name := by
  simp [nameOf, h]

/-- The type name comes from the first part; marks do not touch it. -/
theorem typeName_readFieldType {base : Node} {marks : List Node} {decl : FieldDecl}
    (hmarks : ∀ mark ∈ marks, mark.rule = .listMarker ∨ mark.rule = .optionalMarker) :
    (readFieldType (base :: marks) decl).typeName =
      (readFieldType [base] decl).typeName := by
  -- The marks are applied one by one, each to what the earlier ones left.
  have hkeep : ∀ (marks : List Node) (decl : FieldDecl),
      (∀ mark ∈ marks, mark.rule = .listMarker ∨ mark.rule = .optionalMarker) →
      (readFieldType marks decl).typeName = decl.typeName := by
    intro marks
    induction marks with
    | nil =>
        intro decl _
        rfl
    | cons mark marks ih =>
        intro decl h
        have htail := fun d => ih d fun m hm => h m (by simp [hm])
        simp only [readFieldType, List.foldl_cons] at htail ⊢
        rw [htail]
        rcases h mark (by simp) with hrule | hrule <;> simp [hrule]
  exact hkeep marks _ hmarks

theorem name_readFieldType (parts : List Node) (decl : FieldDecl) :
    (readFieldType parts decl).name = decl.name := by
  induction parts generalizing decl with
  | nil =>
      rfl
  | cons part parts ih =>
      simp only [readFieldType, List.foldl_cons] at ih ⊢
      rw [ih]
      split <;> rfl

theorem isIdentifier_readFieldType {n : Node} {decl : FieldDecl}
    (h : Fits (.call .fieldType) [n]) :
    isIdentifier (readFieldType n.children decl).typeName.toList = true := by
  obtain ⟨base, marks, hchildren, hbase, -, hmarks⟩ := h.fieldType
  rw [hchildren, typeName_readFieldType hmarks]
  -- An unsupported type goes by one fixed name.
  rcases hbase with hrule | hname
  · simp only [readFieldType, List.foldl_cons, List.foldl_nil, hrule]
    decide
  · obtain ⟨place, text, s, rest, hscan, hn⟩ := (Fits.token_iff rfl).1 hname
    cases hn
    simpa [readFieldType, word] using scanIdentifier_isIdentifier hscan

theorem readField_of_fits {n : Node} (h : Fits (.call .field) [n]) :
    ∃ d, readField n = .ok d ∧ d.name = nameOf n ∧ isIdentifier d.typeName.toList = true := by
  obtain ⟨-, name, fieldType, attributes, hchildren, -, htype, hattributes⟩ := h.field
  have hkept : ∀ a ∈ attributes.filter (·.rule = .fieldAttribute),
      Fits (.call .fieldAttribute) [a] :=
    fun a ha => hattributes a (List.mem_of_mem_filter ha)
  obtain ⟨as, has⟩ := mapM_of_forall fun a ha => readAttribute_of_fits rfl (hkept a ha)
  refine ⟨_, by
    simp [readField, firstChild, hchildren, has, bind, Except.bind, pure, Except.pure]; rfl, ?_, ?_⟩
  · simp [name_readFieldType, nameOf, hchildren]
  · exact isIdentifier_readFieldType htype

theorem readEnumValue_of_fits {n : Node} (h : Fits (.call .enumValue) [n]) :
    ∃ d, readEnumValue n = .ok d ∧ d.name = nameOf n := by
  obtain ⟨-, name, attributes, hchildren, -, hattributes⟩ := h.enumValue
  obtain ⟨as, has⟩ := mapM_of_forall fun a ha => readAttribute_of_fits rfl (hattributes a ha)
  refine ⟨⟨word name, as⟩, ?_, by simp [nameOf, hchildren]⟩
  simp [readEnumValue, firstChild, hchildren, has, bind, Except.bind, pure, Except.pure]

/-! ## Items -/

/-- The declarations among items. -/
def declarations {α : Type} (items : List (Item α)) : List α :=
  items.filterMap fun
    | .entry d _ => some d
    | _ => none

/-- Items are read in order, and their declarations are those of the nodes marked by `entry`. -/
theorem readItems_of_fits {α : Type} {item entry : Rule} {readEntry : Node → Except Misfit α}
    {good : Node → α → Prop} {nodes : List Node} (R : BodyRules item entry)
    (hread : ∀ {n}, Fits (.call entry) [n] → ∃ d, readEntry n = .ok d ∧ good n d)
    (h : ∀ n ∈ nodes, Fits (.call item) [n]) :
    ∃ items, readItems entry readEntry nodes = .ok items ∧
      List.Forall₂ good (nodes.filter (·.rule = entry)) (declarations items) := by
  obtain ⟨hdocumentation, hattribute⟩ := R.other
  induction nodes with
  | nil =>
      exact ⟨[], rfl, .nil⟩
  | cons n nodes ih =>
      obtain ⟨items, hitems, hgood⟩ := ih fun n' hn' => h n' (by simp [hn'])
      obtain ⟨hfits, hrule⟩ := R.fits_rule (h n (by simp))
      -- Only an entry adds a declaration; the other nodes are filtered out on the left, too.
      rcases hrule with hrule | hrule | hrule <;> rw [hrule] at hfits
      · refine ⟨.documentation (readDocumentation n) :: items, ?_, ?_⟩
        · simp [readItems, hrule, hitems, bind, Except.bind, pure, Except.pure]
        · simpa [hrule, hdocumentation.symm, declarations] using hgood
      · obtain ⟨d, hd, hnd⟩ := hread hfits
        refine ⟨.entry d (lastRow n) :: items, ?_, ?_⟩
        · simp [readItems, hrule, hdocumentation, hd, hitems, bind, Except.bind, pure, Except.pure]
        · simpa [hrule, declarations] using ⟨hnd, hgood⟩
      · obtain ⟨a, ha⟩ := readAttribute_of_fits rfl hfits
        refine ⟨.blockAttribute a :: items, ?_, ?_⟩
        · simp [readItems, hrule, hattribute.symm, ha, hitems, bind, Except.bind, pure, Except.pure]
        · simpa [hrule, hattribute.symm, declarations] using hgood

/-! ## Blocks -/

/-- The block says what the node says: it is of the same kind, has the same name, and declares the
same names in the same order, each field with an identifier as its type. -/
inductive Describes : Block → Node → Prop
  | documentation {lines : List DocLine} {n : Node} (hrule : n.rule = .documentation) :
      Describes (.documentation lines) n
  | model {items : List (Item FieldDecl)} {n : Node} (hrule : n.rule = .modelBlock)
      (hitems : List.Forall₂ (fun n d => d.name = nameOf n ∧ isIdentifier d.typeName.toList = true)
        (n.children.filter (·.rule = .field)) (declarations items)) :
      Describes (.model (nameOf n) items) n
  | enum {items : List (Item ValueDecl)} {n : Node} (hrule : n.rule = .enumBlock)
      (hitems : List.Forall₂ (fun n d => d.name = nameOf n)
        (n.children.filter (·.rule = .enumValue)) (declarations items)) :
      Describes (.enum (nameOf n) items) n
  | config {headline : String} {n : Node} (hrule : n.rule = .configBlock) :
      Describes (.config headline) n
  | skipped {keyword name : String} {n : Node} (hrule : n.rule = .skippedBlock) :
      Describes (.skipped keyword name) n

/-- Behind its name a block is read as its members are. -/
theorem readBody_eq {α : Type} {entry : Rule} {readEntry : Node → Except Misfit α} {n name : Node}
    {members : List Node} (part : String) (make : String → List (Item α) → Block)
    (hchildren : n.children = name :: members) :
    (do
      let (name, rest) ← firstChild n part
      return some (make (word name) (← readItems entry readEntry rest)))
      = (readItems entry readEntry members).map fun items => some (make (nameOf n) items) := by
  rw [nameOf_eq hchildren, firstChild, hchildren]
  rfl

theorem readBlock_model {n name : Node} {members : List Node} (hrule : n.rule = .modelBlock)
    (hchildren : n.children = name :: members) :
    readBlock n = (readItems .field readField members).map
      fun items => some (.model (nameOf n) items) := by
  rw [readBlock, hrule]
  exact readBody_eq "model name" .model hchildren

theorem readBlock_enum {n name : Node} {members : List Node} (hrule : n.rule = .enumBlock)
    (hchildren : n.children = name :: members) :
    readBlock n = (readItems .enumValue readEnumValue members).map
      fun items => some (.enum (nameOf n) items) := by
  rw [readBlock, hrule]
  exact readBody_eq "enum name" .enum hchildren

theorem readBody_of_fits {α : Type} {item entry : Rule} {readEntry : Node → Except Misfit α}
    {good : Node → α → Prop} {n name : Node} {members : List Node} (R : BodyRules item entry)
    (make : String → List (Item α) → Block)
    (hread : ∀ {n}, Fits (.call entry) [n] → ∃ d, readEntry n = .ok d ∧ good n d)
    (hchildren : n.children = name :: members) (hname : Fits (.call .identifier) [name])
    (hmembers : ∀ k ∈ members, Fits (.call item) [k]) :
    ∃ items, (readItems entry readEntry members).map (fun items => some (make (nameOf n) items))
        = .ok (some (make (nameOf n) items)) ∧
      List.Forall₂ good (n.children.filter (·.rule = entry)) (declarations items) := by
  obtain ⟨items, hitems, hgood⟩ := readItems_of_fits R hread hmembers
  refine ⟨items, by rw [hitems]; rfl, ?_⟩
  rwa [R.filter_children hchildren hname]

theorem readBlock_of_fits {n : Node}
    (h : Fits (.choice (.call .documentation) (.call .definition)) [n]) :
    ∃ b, readBlock n = .ok (some b) ∧ Describes b n := by
  rcases Fits.topLevel_iff.1 h with h | h | h | h | h
  · have hrule := h.rule_of_node (.inl rfl)
    exact ⟨_, by rw [readBlock, hrule], .documentation hrule⟩
  · obtain ⟨hrule, name, members, hchildren, hname, hmembers⟩ := h.modelBlock
    obtain ⟨items, hread, hgood⟩ :=
      readBody_of_fits .model .model readField_of_fits hchildren hname hmembers
    exact ⟨_, (readBlock_model hrule hchildren).trans hread, .model hrule hgood⟩
  · obtain ⟨hrule, name, members, hchildren, hname, hmembers⟩ := h.enumBlock
    obtain ⟨items, hread, hgood⟩ :=
      readBody_of_fits .enum .enum readEnumValue_of_fits hchildren hname hmembers
    exact ⟨_, (readBlock_enum hrule hchildren).trans hread, .enum hrule hgood⟩
  · obtain ⟨place, text, cs, -, hn⟩ := (Fits.node_iff (.inl rfl)).1 h
    cases hn
    exact ⟨_, rfl, .config rfl⟩
  · obtain ⟨hrule, keyword, name, items, hchildren, -, -⟩ := h.skippedBlock
    refine ⟨.skipped (word keyword) (word name), ?_, .skipped hrule⟩
    simp [readBlock, hrule, firstChild, hchildren, bind, Except.bind, pure, Except.pure]

theorem readBlocks_of_fits {nodes : List Node} {stop : Node} (hstop : stop.rule = .endOfInput)
    (h : ∀ n ∈ nodes, Fits (.choice (.call .documentation) (.call .definition)) [n]) :
    ∃ blocks, readBlocks (nodes ++ [stop]) = .ok blocks ∧ List.Forall₂ Describes blocks nodes := by
  induction nodes with
  | nil =>
      -- The end of the input is read as no block.
      refine ⟨[], ?_, .nil⟩
      simp [readBlocks, readBlock, hstop, bind, Except.bind, pure, Except.pure]
  | cons n nodes ih =>
      obtain ⟨b, hb, hdescribes⟩ := readBlock_of_fits (h n (by simp))
      obtain ⟨blocks, hblocks, hall⟩ := ih fun n' hn' => h n' (by simp [hn'])
      refine ⟨b :: blocks, ?_, .cons hdescribes hall⟩
      simp [readBlocks, hb, hblocks, bind, Except.bind, pure, Except.pure]

/-- The outline of a matched schema: one block for each child of the tree, up to the end of the
input. -/
theorem ofNodes_of_matchRule {input : List Char} {nodes : List Node}
    (h : matchRule .schema input = .ok nodes) (size : Nat) :
    ∃ tree inner stop blocks, nodes = [tree] ∧ tree.children = inner ++ [stop] ∧
      stop.rule = .endOfInput ∧ ofNodes size nodes = .ok blocks ∧
      List.Forall₂ Describes blocks inner := by
  obtain ⟨m, hm, rfl⟩ := matchRule_eq_ok_iff.1 h
  obtain ⟨tree, inner, stop, htree, hchildren, hstop, hinner⟩ := hm.fits.schema
  obtain ⟨blocks, hblocks, hall⟩ := readBlocks_of_fits hstop hinner
  refine ⟨tree, inner, stop, blocks, htree, hchildren, hstop, ?_, hall⟩
  rw [htree, ofNodes, hchildren, hblocks]

end Outline
end PrismaTypes
