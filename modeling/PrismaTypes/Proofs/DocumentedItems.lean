import PrismaTypes.Proofs.AlikeOutlines
import PrismaTypes.Proofs.JsonText
import PrismaTypes.Proofs.NameRules

/-!
# Which lines document which item

The lines of an item are told by its neighbours alone: those of the run directly before it, without
the line that trails the declaration in front of that run (`leadingLines`), and the line that trails
the item itself (`trailingLines`). Placing documentation keeps a text and a row from item to item;
after any prefix of a body both are what the neighbours say (`map_placeFrom`), so that the finished
schema has the documentation of its tree (`Documented`).
-/

namespace PrismaTypes

open Grammar (Node Rule BodyRules Fits trails topLevel)
open Json (exists_of_bind_eq_ok exists_of_map_eq_ok)
open Outline (Attribute Block DocLine FieldDecl ValueDecl Item Misfit lastRow nameOf readAttribute
  readDocLine readDocumentation readEnumValue readField)

namespace Documentation

/-! ## Lines of an item -/

/-- The lines of a run of documentation; other nodes have none. -/
def runLines (n : Node) : List Node :=
  if n.rule = .documentation then n.children else []

/-- The declaration that the nodes end with, if they do. -/
def latest? (entry : Rule) (ns : List Node) : Option Node :=
  ns.getLast?.filter fun d => d.rule = entry

/-- The lines of the run directly before an item, where `prior` are the nodes before it. A line that
trails the declaration in front of the run belongs to that declaration. -/
def leadingLines (entry : Rule) (prior : List Node) : List Node :=
  match prior.getLast? with
  | none => []
  | some run =>
      if (latest? entry prior.dropLast).any fun d => trails d run then (runLines run).tail
      else runLines run

/-- The line that trails the item `d`, where `later` are the nodes after it: the first one of the
run directly after it, if it says something. -/
def trailingLines (d : Node) (later : List Node) : List Node :=
  match later with
  | [] => []
  | run :: _ =>
      if trails d run then
        ((runLines run).take 1).filter fun line => (readDocLine line).text ≠ ""
      else []

/-- The lines that document the declaration `d` of a body. -/
def linesFor (entry : Rule) (prior : List Node) (d : Node) (later : List Node) : List Node :=
  leadingLines entry prior ++ trailingLines d later

/-- The lines of the node directly before a block. -/
def linesBefore (prior : List Node) : List Node :=
  (prior.getLast?.map runLines).getD []

/-- Lines as one text; `none` when there are none. -/
def textOf (lines : List Node) : Option String :=
  if lines.isEmpty then none
  else some ("\n".intercalate (lines.map fun line => (readDocLine line).text))

/-! ## Documentation of a tree -/

/-- What `f` says of the nodes that follow `prior`, each with all nodes before and after it. -/
def inContext {β : Type} (f : List Node → Node → List Node → Option β) (prior : List Node) :
    List Node → List β
  | [] => []
  | n :: later => (f prior n later).toList ++ inContext f (prior ++ [n]) later

/-- A declaration with its documentation. -/
def entryIn (entry : Rule) (prior : List Node) (d : Node) (later : List Node) :
    Option (String × Option String) :=
  if d.rule = entry then some (nameOf d, textOf (linesFor entry prior d later)) else none

/-- A block with its documentation and its declarations, which follow its name. -/
def blockIn (block entry : Rule) (prior : List Node) (b : Node) (_later : List Node) :
    Option (String × Option String × List (String × Option String)) :=
  if b.rule = block then
    some (nameOf b, textOf (linesBefore prior), inContext (entryIn entry) [] b.children.tail)
  else none

/-- The rule of the declarations in a block, for the blocks that are taken over. -/
def entryRule? : Rule → Option Rule
  | .modelBlock => some .field
  | .enumBlock => some .enumValue
  | _ => none

/-- The lines that document a declaration. -/
def linesIn (entry : Rule) (prior : List Node) (d : Node) (later : List Node) :
    Option (List Node) :=
  if d.rule = entry then some (linesFor entry prior d later) else none

/-- The lines that document a block, and those that document its declarations. -/
def blockLinesIn (prior : List Node) (b : Node) (_later : List Node) : Option (List Node) :=
  (entryRule? b.rule).map fun entry =>
    linesBefore prior ++ (inContext (linesIn entry) [] b.children.tail).flatten

def ofModel (m : Model) : String × Option String × List (String × Option String) :=
  (m.name, m.documentation, m.fields.map fun f => (f.name, f.documentation))

def ofEnum (e : EnumType) : String × Option String × List (String × Option String) :=
  (e.name, e.documentation, e.members.map fun v => (v.name, v.documentation))

end Documentation

/-- Models, enums, fields and values are documented by the lines that belong to them in the tree,
and by no others. -/
structure Documented (tree : Node) (s : Schema) : Prop where
  models : s.models.map Documentation.ofModel
    = Documentation.inContext (Documentation.blockIn .modelBlock .field) [] tree.children
  enums : s.enums.map Documentation.ofEnum
    = Documentation.inContext (Documentation.blockIn .enumBlock .enumValue) [] tree.children

namespace Documentation

variable {α β : Type} {entry : Rule} {readEntry : Node → Except Misfit α} {name : α → String}
  {seen prior later rest : List Node} {d n run : Node}

/-! ## Neighbours -/

theorem runLines_of_ne (h : n.rule ≠ .documentation) : runLines n = [] :=
  if_neg h

theorem latest?_concat (seen : List Node) (n : Node) :
    latest? entry (seen ++ [n]) = if n.rule = entry then some n else none := by
  simp [latest?, Option.filter]

theorem leadingLines_concat (seen : List Node) (run : Node) :
    leadingLines entry (seen ++ [run])
      = if (latest? entry seen).any fun d => trails d run then (runLines run).tail
        else runLines run := by
  simp [leadingLines]

theorem leadingLines_concat_of_ne (h : n.rule ≠ .documentation) :
    leadingLines entry (seen ++ [n]) = [] := by
  rw [leadingLines_concat, runLines_of_ne h]
  simp

theorem linesBefore_concat (seen : List Node) (run : Node) :
    linesBefore (seen ++ [run]) = runLines run := by
  simp [linesBefore]

theorem trails_of_ne (h : n.rule ≠ .documentation) : trails d n = false := by
  simp [trails, h]

/-- A node of which nothing is said, and which says nothing of others, can be left out. -/
theorem inContext_concat (f : List Node → Node → List Node → Option β) {stop : Node}
    (hstop : ∀ prior, f prior stop [] = none)
    (hlater : ∀ prior n later, f prior n (later ++ [stop]) = f prior n later)
    (seen ns : List Node) :
    inContext f seen (ns ++ [stop]) = inContext f seen ns := by
  induction ns generalizing seen with
  | nil =>
      simp [inContext, hstop]
  | cons n ns ih =>
      rw [List.cons_append, inContext, inContext, ih, hlater]

/-! ## Texts -/

@[simp] theorem leading?_nil : leading? [] = none := rfl

@[simp] theorem textOf_nil : textOf [] = none := rfl

theorem textOf_eq (lines : List Node) : textOf lines = leading? (lines.map readDocLine) := by
  simp [textOf, leading?, joinLines, Function.comp_def]

/-- A trailing line is put behind the lines before the item. -/
theorem textOf_concat (lines : List Node) (line : Node) :
    textOf (lines ++ [line]) = append (textOf lines) (readDocLine line).text := by
  by_cases hlines : lines = []
  · simp [hlines, textOf, append]
  · have htexts : lines.map (fun line => (readDocLine line).text) ≠ [] := by simpa using hlines
    simp [textOf, append, hlines, String.intercalate_append_of_ne_nil htexts]

theorem trailingLines_cases (d : Node) (later : List Node) :
    trailingLines d later = [] ∨ ∃ line, trailingLines d later = [line] := by
  rcases later with _ | ⟨run, later⟩
  · exact .inl rfl
  · rw [trailingLines]
    split
    · rcases runLines run with _ | ⟨line, lines⟩
      · exact .inl rfl
      · by_cases htext : (readDocLine line).text = ""
        · exact .inl (by simp [htext])
        · exact .inr ⟨line, by simp [htext]⟩
    · exact .inl rfl

theorem trail_textOf (lines : List Node) (n : Node) (later : List Node) (decl : α)
    (done : List (α × Option String)) :
    trail (textOf (trailingLines n later)) ((decl, textOf lines) :: done)
      = (decl, textOf (lines ++ trailingLines n later)) :: done := by
  rcases trailingLines_cases n later with hnone | ⟨line, hline⟩
  · simp [hnone, trail]
  · rw [hline, textOf_concat]
    simp [textOf, trail, String.intercalate_singleton]

/-- The line that is still to come for the latest declaration. -/
def linesToCome (entry : Rule) (seen rest : List Node) : List Node :=
  ((latest? entry seen).map fun d => trailingLines d rest).getD []

theorem linesToCome_concat (seen rest : List Node) (n : Node) :
    linesToCome entry (seen ++ [n]) rest = if n.rule = entry then trailingLines n rest else [] := by
  rw [linesToCome, latest?_concat]
  split <;> rfl

theorem linesToCome_nil (seen : List Node) : linesToCome entry seen [] = [] := by
  cases hlatest : latest? entry seen <;> simp [linesToCome, trailingLines, hlatest]

theorem linesToCome_of_ne (h : n.rule ≠ .documentation) :
    linesToCome entry seen (n :: rest) = [] := by
  cases hlatest : latest? entry seen <;> simp [linesToCome, trailingLines, trails_of_ne h, hlatest]

/-- A run is split as its neighbours say. -/
theorem split_readDocumentation (hrun : run.rule = .documentation) (seen rest : List Node) :
    split ((latest? entry seen).map lastRow) (readDocumentation run)
      = (textOf (linesToCome entry seen (run :: rest)),
          textOf (leadingLines entry (seen ++ [run]))) := by
  rw [leadingLines_concat, linesToCome]
  cases hlines : run.children with
  | nil =>
      cases latest? entry seen <;>
        simp [readDocumentation, split, hlines, trailingLines, runLines]
  | cons line lines =>
      cases latest? entry seen with
      | none =>
          simp [readDocumentation, split, hlines, textOf_eq, runLines, hrun]
      | some d =>
          have hrow : (readDocLine line).row = line.place.row := rfl
          have htrails : trails d run = decide (lastRow d = line.place.row) := by
            simp [trails, hrun, hlines]
          by_cases hsame : lastRow d = line.place.row
          · -- A line without text is taken from the run all the same.
            by_cases htext : (readDocLine line).text = "" <;>
              simp [readDocumentation, split, hlines, textOf_eq, runLines, hrun, hrow, htrails,
                hsame, trailingLines, htext, leading?, joinLines]
          · simp [readDocumentation, split, hlines, textOf_eq, runLines, hrun, hrow, htrails, hsame,
              trailingLines]

/-! ## Lines taken -/

/-- Of a run, the line that trails the declaration before it is not left for the next one. -/
theorem linesToCome_append_sublist (seen rest : List Node) (run : Node) :
    (linesToCome entry seen (run :: rest) ++ leadingLines entry (seen ++ [run])).Sublist
      (runLines run) := by
  rw [leadingLines_concat, linesToCome]
  cases latest? entry seen with
  | none =>
      simp
  | some d =>
      by_cases htrails : trails d run = true
      · have htail : (runLines run).take 1 ++ (runLines run).tail = runLines run := by
          cases runLines run <;> rfl
        simp only [trailingLines, htrails, Option.map_some, Option.getD_some, Option.any_some,
          if_true]
        refine (List.filter_sublist.append_right _).trans ?_
        rw [htail]
      · simp [trailingLines, htrails]

/-- The lines that the declarations of a body take are some of its lines, in their order. -/
theorem flatten_inContext_sublist (hentry : entry ≠ .documentation) (seen nodes : List Node) :
    (linesToCome entry seen nodes ++ (inContext (linesIn entry) seen nodes).flatten).Sublist
      (leadingLines entry seen ++ nodes.flatMap runLines) := by
  -- By induction on the nodes still to come. The lines of the run in front of them and the line
  -- that trails the latest declaration are not yet taken.
  induction nodes generalizing seen with
  | nil =>
      simp [linesToCome_nil, inContext]
  | cons n nodes ih =>
      have hstep := ih (seen ++ [n])
      rw [linesToCome_concat] at hstep
      by_cases hdecl : n.rule = entry
      · -- The line that trails the declaration comes right after the lines before it.
        have hrun : n.rule ≠ .documentation := fun heq => hentry (hdecl.symm.trans heq)
        rw [if_pos hdecl, leadingLines_concat_of_ne hrun, List.nil_append] at hstep
        rw [linesToCome_of_ne hrun, List.flatMap_cons, runLines_of_ne hrun]
        simp only [inContext, linesIn, hdecl, if_true, linesFor, Option.toList_some,
          List.singleton_append, List.flatten_cons, List.nil_append, List.append_assoc]
        exact hstep.append_left _
      rw [if_neg hdecl, List.nil_append] at hstep
      have hskip : inContext (linesIn entry) seen (n :: nodes)
          = inContext (linesIn entry) (seen ++ [n]) nodes := by
        simp [inContext, linesIn, hdecl]
      rw [hskip, List.flatMap_cons]
      by_cases hrun : n.rule = .documentation
      · -- The run in front of another run is lost, and this one is shared by its neighbours.
        refine .trans ?_ (List.sublist_append_right _ _)
        refine (hstep.append_left _).trans ?_
        rw [← List.append_assoc]
        exact (linesToCome_append_sublist seen nodes n).append_right _
      · rw [leadingLines_concat_of_ne hrun, List.nil_append] at hstep
        rw [linesToCome_of_ne hrun, runLines_of_ne hrun]
        exact hstep.trans (List.sublist_append_right _ _)

/-- All lines of a run, or of the braces of a block that is taken over. -/
def linesWithin (b : Node) : List Node :=
  runLines b ++ if (entryRule? b.rule).isSome then b.children.tail.flatMap runLines else []

theorem entry_of_entryRule? {rule : Rule} (h : entryRule? rule = some entry) :
    rule ≠ .documentation ∧ entry ≠ .documentation ∧ entry ≠ .blockAttribute := by
  unfold entryRule? at h
  split at h <;> cases h <;> decide

/-- The lines that all items take are some of the lines, in their order. -/
theorem flatten_blockLinesIn_sublist (seen nodes : List Node) :
    (inContext blockLinesIn seen nodes).flatten.Sublist
      (linesBefore seen ++ nodes.flatMap linesWithin) := by
  induction nodes generalizing seen with
  | nil =>
      simp [inContext]
  | cons n nodes ih =>
      have hstep := ih (seen ++ [n])
      rw [linesBefore_concat] at hstep
      rw [List.flatMap_cons, inContext, List.flatten_append]
      cases hblock : entryRule? n.rule with
      | none =>
          simp only [blockLinesIn, hblock, Option.map_none, Option.toList_none, List.flatten_nil,
            List.nil_append, linesWithin, Option.isSome_none, Bool.false_eq_true, if_false,
            List.append_nil]
          exact hstep.trans (List.sublist_append_right _ _)
      | some entry =>
          obtain ⟨hrun, hentry, -⟩ := entry_of_entryRule? hblock
          have hbody := flatten_inContext_sublist hentry [] n.children.tail
          rw [runLines_of_ne hrun, List.nil_append] at hstep
          simp only [blockLinesIn, hblock, Option.map_some, Option.toList_some, List.flatten_cons,
            List.flatten_nil, List.append_nil, linesWithin, runLines_of_ne hrun, Option.isSome_some,
            if_true, List.nil_append, List.append_assoc]
          refine List.Sublist.append_left ?_ _
          exact ((List.sublist_append_right _ _).trans hbody).append hstep

/-- Behind a run that a block attribute or the end of the body cuts off, declarations take lines of
later runs only. -/
theorem flatten_inContext_sublist_of_cut (hentry : entry ≠ .documentation ∧ entry ≠ .blockAttribute)
    (seen later : List Node) (hcut : (later.head?.all fun n => n.rule = .blockAttribute) = true) :
    (inContext (linesIn entry) seen later).flatten.Sublist (later.flatMap runLines) := by
  cases later with
  | nil =>
      simp [inContext]
  | cons n later =>
      have hrule : n.rule = .blockAttribute := by simpa using hcut
      have hrun : n.rule ≠ .documentation := by simp [hrule]
      have hdecl : n.rule ≠ entry := fun heq => hentry.2 (heq.symm.trans hrule)
      have hlater := flatten_inContext_sublist hentry.1 (seen ++ [n]) later
      rw [linesToCome_concat, if_neg hdecl, leadingLines_concat_of_ne hrun, List.nil_append,
        List.nil_append] at hlater
      rw [List.flatMap_cons, runLines_of_ne hrun]
      simpa [inContext, linesIn, hdecl] using hlater

end Documentation

/-! ## Reading items -/

namespace Outline

variable {α : Type} {entry : Rule} {readEntry : Node → Except Misfit α}

/-- The node is read as the item. -/
inductive ItemOf (entry : Rule) (readEntry : Node → Except Misfit α) : Node → Item α → Prop
  | documentation {n : Node} (hrule : n.rule = .documentation) :
      ItemOf entry readEntry n (.documentation (readDocumentation n))
  | entry {n : Node} {decl : α} (hrule : n.rule = entry) (hread : readEntry n = .ok decl) :
      ItemOf entry readEntry n (.entry decl (lastRow n))
  | blockAttribute {n : Node} {a : Attribute} (hrule : n.rule = .blockAttribute) :
      ItemOf entry readEntry n (.blockAttribute a)

theorem itemOf_of_readItems {nodes : List Node} {items : List (Item α)}
    (hrules : ∀ n ∈ nodes,
      n.rule = .documentation ∨ n.rule = entry ∨ n.rule = .blockAttribute)
    (h : readItems entry readEntry nodes = .ok items) :
    List.Forall₂ (ItemOf entry readEntry) nodes items := by
  induction nodes generalizing items with
  | nil =>
      cases h
      exact .nil
  | cons n nodes ih =>
      have hrest : ∀ k ∈ nodes,
          k.rule = .documentation ∨ k.rule = entry ∨ k.rule = .blockAttribute :=
        fun k hk => hrules k (by simp [hk])
      rw [readItems] at h
      by_cases hdoc : n.rule = .documentation
      · rw [if_pos hdoc] at h
        obtain ⟨later, hlater, h⟩ := exists_of_bind_eq_ok h
        cases h
        exact .cons (.documentation hdoc) (ih hrest hlater)
      by_cases hentry : n.rule = entry
      · rw [if_neg hdoc, if_pos hentry] at h
        obtain ⟨decl, hdecl, h⟩ := exists_of_bind_eq_ok h
        obtain ⟨later, hlater, h⟩ := exists_of_bind_eq_ok h
        cases h
        exact .cons (.entry hentry hdecl) (ih hrest hlater)
      have hattribute : n.rule = .blockAttribute :=
        ((hrules n (by simp)).resolve_left hdoc).resolve_left hentry
      rw [if_neg hdoc, if_neg hentry, if_pos hattribute] at h
      obtain ⟨a, -, h⟩ := exists_of_bind_eq_ok h
      obtain ⟨later, hlater, h⟩ := exists_of_bind_eq_ok h
      cases h
      exact .cons (.blockAttribute hattribute) (ih hrest hlater)

theorem children_of_firstChild {n child : Node} {part : String} {rest : List Node}
    (h : firstChild n part = .ok (child, rest)) : n.children = child :: rest := by
  unfold firstChild at h
  split at h
  · cases h
  · rename_i hchildren
    cases h
    exact hchildren

theorem exists_of_readField {n : Node} {decl : FieldDecl} (h : readField n = .ok decl) :
    ∃ name fieldType rest attributes, n.children = name :: fieldType :: rest ∧
      (rest.filter (·.rule = .fieldAttribute)).mapM readAttribute = .ok attributes ∧
      decl = readFieldType fieldType.children
        { name := word name, typeName := "", isList := false, isOptional := false,
          attributes } := by
  obtain ⟨⟨name, rest⟩, hfirst, h⟩ := exists_of_bind_eq_ok h
  cases rest with
  | nil =>
      cases h
  | cons fieldType rest =>
      obtain ⟨attributes, hattributes, h⟩ := exists_of_bind_eq_ok h
      cases h
      exact ⟨name, fieldType, rest, attributes, children_of_firstChild hfirst, hattributes, rfl⟩

theorem name_of_readField {n : Node} {decl : FieldDecl} (h : readField n = .ok decl) :
    decl.name = nameOf n := by
  obtain ⟨name, fieldType, rest, attributes, hchildren, -, rfl⟩ := exists_of_readField h
  simp [name_readFieldType, nameOf, hchildren]

theorem name_of_readEnumValue {n : Node} {decl : ValueDecl} (h : readEnumValue n = .ok decl) :
    decl.name = nameOf n := by
  obtain ⟨⟨name, rest⟩, hfirst, h⟩ := exists_of_bind_eq_ok h
  obtain ⟨attributes, -, h⟩ := exists_of_bind_eq_ok h
  cases h
  simp [nameOf, children_of_firstChild hfirst]

end Outline

/-! ## Placing along a body -/

namespace Documentation

variable {α : Type} {entry : Rule} {readEntry : Node → Except Misfit α} {name : α → String}

/-- After the nodes `seen` the text waiting is that of the lines before the next item, the row is
that of the latest declaration, and only the line that trails it is still to come. -/
theorem map_placeFrom (hentry : entry ≠ .documentation ∧ entry ≠ .blockAttribute)
    (hname : ∀ {n decl}, readEntry n = .ok decl → name decl = nameOf n) {nodes : List Node}
    {items : List (Item α)} (h : List.Forall₂ (Outline.ItemOf entry readEntry) nodes items)
    (seen : List Node) (done : List (α × Option String)) :
    (placeFrom (textOf (leadingLines entry seen)) ((latest? entry seen).map lastRow) done
        items).map (fun e => (name e.1, e.2))
      = ((trail (textOf (linesToCome entry seen nodes)) done).reverse.map fun e => (name e.1, e.2))
          ++ inContext (entryIn entry) seen nodes := by
  induction h generalizing seen done with
  | nil =>
      simp [placeFrom, linesToCome_nil, trail_none, inContext]
  | @cons n item nodes items hitem h ih =>
      cases hitem with
      | documentation hrule =>
          have hother : n.rule ≠ entry := fun heq => hentry.1 (heq.symm.trans hrule)
          have hstep := ih (seen ++ [n]) (trail (textOf (linesToCome entry seen (n :: nodes))) done)
          rw [latest?_concat, linesToCome_concat, if_neg hother, if_neg hother] at hstep
          rw [placeFrom, split_readDocumentation hrule seen nodes]
          simpa [trail_none, inContext, entryIn, hother] using hstep
      | @entry decl hrule hread =>
          have hother : n.rule ≠ .documentation := fun heq => hentry.1 (hrule.symm.trans heq)
          have hstep := ih (seen ++ [n]) ((decl, textOf (leadingLines entry seen)) :: done)
          rw [latest?_concat, linesToCome_concat, if_pos hrule, if_pos hrule,
            leadingLines_concat_of_ne hother, trail_textOf] at hstep
          rw [placeFrom, linesToCome_of_ne hother]
          simpa [trail_none, inContext, entryIn, hrule, linesFor, hname hread] using hstep
      | blockAttribute hrule =>
          have hother : n.rule ≠ entry := fun heq => hentry.2 (heq.symm.trans hrule)
          have hrun : n.rule ≠ .documentation := by simp [hrule]
          have hstep := ih (seen ++ [n]) done
          rw [latest?_concat, linesToCome_concat, if_neg hother, if_neg hother,
            leadingLines_concat_of_ne hrun] at hstep
          rw [placeFrom, linesToCome_of_ne hrun]
          simpa [trail_none, inContext, entryIn, hother] using hstep

theorem place_eq_inContext (hentry : entry ≠ .documentation ∧ entry ≠ .blockAttribute)
    (hname : ∀ {n decl}, readEntry n = .ok decl → name decl = nameOf n) {nodes : List Node}
    {items : List (Item α)} (h : List.Forall₂ (Outline.ItemOf entry readEntry) nodes items) :
    (place items).map (fun e => (name e.1, e.2)) = inContext (entryIn entry) [] nodes :=
  map_placeFrom hentry hname h [] []

end Documentation

/-! ## Blocks -/

theorem Model.applyAttribute_documentation (m : Model) (a : Attribute) :
    (m.applyAttribute a).documentation = m.documentation := by
  rw [applyAttribute_eq]

theorem Documentation.ofModel_assemble (name : String) (doc : Option String)
    (items : List (Item FieldDecl)) :
    ofModel (Model.assemble name doc items)
      = (name, doc, (place items).map fun e => (e.1.name, e.2)) := by
  have hdoc : (Model.assemble name doc items).documentation = doc :=
    Model.foldl_applyAttribute Model.documentation Model.applyAttribute_documentation
      (blockAttributes items) _
  have hfields : (Model.assemble name doc items).fields.map (fun f => (f.name, f.documentation))
      = (place items).map fun e => (e.1.name, e.2) := by
    simp only [Model.assemble, Model.markReadOnly, List.map_map]
    rw [Model.foldl_applyAttribute Model.fields Model.applyAttribute_fields, List.map_map]
    exact List.map_congr_left fun e _ => by simp
  rw [ofModel, Model.assemble_name, hdoc, hfields]

theorem Documentation.ofEnum_assemble (name : String) (doc : Option String)
    (items : List (Item ValueDecl)) :
    ofEnum (EnumType.assemble name doc items)
      = (name, doc, (place items).map fun e => (e.1.name, e.2)) := by
  simp [ofEnum, EnumType.assemble, EnumType.memberOf, Function.comp_def]

namespace Outline

/-- The node is read as the block. -/
inductive BlockOf : Node → Block → Prop
  | documentation {n : Node} (hrule : n.rule = .documentation) (hlines : n.children ≠ []) :
      BlockOf n (.documentation (readDocumentation n))
  | model {n : Node} {items : List (Item FieldDecl)} (hrule : n.rule = .modelBlock)
      (hitems : List.Forall₂ (ItemOf .field readField) n.children.tail items) :
      BlockOf n (.model (nameOf n) items)
  | enum {n : Node} {items : List (Item ValueDecl)} (hrule : n.rule = .enumBlock)
      (hitems : List.Forall₂ (ItemOf .enumValue readEnumValue) n.children.tail items) :
      BlockOf n (.enum (nameOf n) items)
  | config {n : Node} {headline : String} (hrule : n.rule = .configBlock) :
      BlockOf n (.config headline)
  | skipped {n : Node} {keyword name : String} (hrule : n.rule = .skippedBlock) :
      BlockOf n (.skipped keyword name)

/-- Where a block is read as its members are, its items are those of the members. -/
theorem itemOf_of_body {item entry : Rule} {α : Type} {readEntry : Node → Except Misfit α}
    {n name : Node} {members : List Node} {make : String → List (Item α) → Block} {b : Block}
    (R : BodyRules item entry) (hchildren : n.children = name :: members)
    (hmembers : ∀ k ∈ members, Fits (.call item) [k])
    (h : (readItems entry readEntry members).map (fun items => some (make (nameOf n) items))
      = .ok (some b)) :
    ∃ items, b = make (nameOf n) items ∧
      List.Forall₂ (ItemOf entry readEntry) n.children.tail items := by
  obtain ⟨items, hitems, hb⟩ := exists_of_map_eq_ok h
  cases hb
  refine ⟨items, rfl, ?_⟩
  rw [hchildren]
  exact itemOf_of_readItems (fun k hk => (R.fits_rule (hmembers k hk)).2) hitems

theorem blockOf_of_fits {n : Node} {b : Block} (h : Fits topLevel [n])
    (hread : readBlock n = .ok (some b)) : BlockOf n b := by
  rcases Fits.topLevel_iff.1 h with h | h | h | h | h
  · have hrule := h.rule_of_node (.inl rfl)
    rw [readBlock, hrule] at hread
    cases hread
    refine .documentation hrule ?_
    obtain ⟨place, text, cs, hlines, hn⟩ := (Fits.node_iff (.inl rfl)).1 h
    cases hn
    obtain ⟨first, more, hfirst, -, rfl⟩ := Fits.seq_iff.1 hlines
    obtain ⟨place', text', cs', -, rfl⟩ := (Fits.node_iff (.inr rfl)).1 hfirst
    simp
  · obtain ⟨hrule, name, members, hchildren, -, hmembers⟩ := h.modelBlock
    rw [readBlock_model hrule hchildren] at hread
    obtain ⟨items, rfl, hitems⟩ := itemOf_of_body .model hchildren hmembers hread
    exact .model hrule hitems
  · obtain ⟨hrule, name, members, hchildren, -, hmembers⟩ := h.enumBlock
    rw [readBlock_enum hrule hchildren] at hread
    obtain ⟨items, rfl, hitems⟩ := itemOf_of_body .enum hchildren hmembers hread
    exact .enum hrule hitems
  · obtain ⟨place, text, cs, -, hn⟩ := (Fits.node_iff (.inl rfl)).1 h
    cases hn
    cases hread
    exact .config rfl
  · obtain ⟨hrule, keyword, name, items, hchildren, -, -⟩ := h.skippedBlock
    rw [readBlock, hrule] at hread
    simp only [firstChild, hchildren] at hread
    obtain ⟨_, hfirst, hread⟩ := exists_of_bind_eq_ok hread
    cases hfirst
    cases hread
    exact .skipped hrule

end Outline

namespace Draft

open Documentation (inContext blockIn ofModel ofEnum textOf linesBefore runLines)

theorem documented_addBlock {d d' : Draft} {n : Node} {b : Block} {seen : List Node}
    (hblock : Outline.BlockOf n b) (hpending : d.pending = textOf (linesBefore seen))
    (h : d.addBlock b = .ok d') (later : List Node) :
    d'.pending = textOf (linesBefore (seen ++ [n])) ∧
      d'.schema.models.map ofModel
        = d.schema.models.map ofModel ++ (blockIn .modelBlock .field seen n later).toList ∧
      d'.schema.enums.map ofEnum
        = d.schema.enums.map ofEnum ++ (blockIn .enumBlock .enumValue seen n later).toList := by
  rw [Documentation.linesBefore_concat]
  cases hblock with
  | documentation hrule hlines =>
      cases h
      simp [blockIn, hrule, Documentation.textOf_eq, runLines, Documentation.leading?, hlines,
        Outline.readDocumentation]
  | model hrule hitems =>
      have hplace :=
        Documentation.place_eq_inContext (by decide) Outline.name_of_readField hitems
      obtain ⟨-, rfl⟩ := eq_of_addBlock_model h
      simp [blockIn, hrule, runLines, Schema.addModel, Documentation.ofModel_assemble, hpending,
        hplace]
  | enum hrule hitems =>
      have hplace :=
        Documentation.place_eq_inContext (by decide) Outline.name_of_readEnumValue hitems
      obtain ⟨-, rfl⟩ := eq_of_addBlock_enum h
      simp [blockIn, hrule, runLines, Schema.addEnum, Documentation.ofEnum_assemble, hpending,
        hplace]
  | config hrule | skipped hrule =>
      cases h
      simp [blockIn, hrule, runLines]

theorem documented_addBlocks {d d' : Draft} {nodes : List Node} {blocks : List Block}
    (seen : List Node) (hblocks : List.Forall₂ Outline.BlockOf nodes blocks)
    (hpending : d.pending = textOf (linesBefore seen)) (h : (d.addBlocks blocks).2 = .ok d') :
    d'.schema.models.map ofModel
        = d.schema.models.map ofModel ++ inContext (blockIn .modelBlock .field) seen nodes ∧
      d'.schema.enums.map ofEnum
        = d.schema.enums.map ofEnum ++ inContext (blockIn .enumBlock .enumValue) seen nodes := by
  induction hblocks generalizing d seen with
  | nil =>
      cases h
      simp [inContext]
  | @cons n b nodes blocks hblock hblocks ih =>
      obtain ⟨next, hadd, h⟩ := exists_of_addBlocks_cons h
      obtain ⟨hnext, hmodels, henums⟩ := documented_addBlock hblock hpending hadd nodes
      obtain ⟨hmodels', henums'⟩ := ih (seen ++ [n]) hnext h
      rw [hmodels', henums', hmodels, henums]
      simp [inContext]

theorem map_ofModel_finish (d : Draft) :
    d.finish.models.map ofModel = d.schema.models.map ofModel := by
  simp only [finish, List.map_map]
  refine List.map_congr_left fun m _ => ?_
  simp [ofModel, resolveModel, resolveField, Function.comp_def]

end Draft

/-! ## Whole texts -/

theorem Outline.blockOf_of_reads {nodes : List Node} {blocks : List Block}
    (hfits : ∀ n ∈ nodes, Fits topLevel [n]) (h : Outline.Reads nodes blocks) :
    List.Forall₂ Outline.BlockOf nodes blocks := by
  induction h with
  | nil =>
      exact .nil
  | cons hread h ih =>
      have hrest := ih fun k hk => hfits k (List.mem_cons_of_mem _ hk)
      exact .cons (blockOf_of_fits (hfits _ List.mem_cons_self) hread) hrest

/-- An accepted text is a tree of blocks, all of which the draft of its schema has taken. -/
theorem exists_taken {text : String} {s : Schema} (h : (Schema.parse text).result = .ok s) :
    ∃ tree ns stop blocks d, Grammar.matchRule .schema text.toList = .ok [tree] ∧
      tree.children = ns ++ [stop] ∧ stop.rule = .endOfInput ∧ Schema.Blocks text.toList ns ∧
      List.Forall₂ Outline.BlockOf ns blocks ∧ (({} : Draft).addBlocks blocks).2 = .ok d ∧
      s = d.finish := by
  obtain ⟨nodes, hmatch⟩ := Schema.matchRule_of_result h
  obtain ⟨tree, ns, stop, rfl, hchildren, hstop, hruns⟩ := Grammar.runs_of_matchRule hmatch
  have hblocks : Schema.Blocks text.toList ns := hruns
  obtain ⟨blocks, hreads⟩ := Outline.reads_of_fits hblocks.fits
  have hparse : Schema.parse text = Schema.ofOutline blocks :=
    Schema.parseChars_of_blocks (hblocks.outlineOf hreads)
  rw [hparse, Schema.result_ofOutline] at h
  obtain ⟨d, hd, rfl⟩ := Json.exists_of_map_eq_ok h
  exact ⟨tree, ns, stop, blocks, d, hmatch, hchildren, hstop, hblocks,
    Outline.blockOf_of_reads hblocks.fits hreads, hd, rfl⟩

/-- An accepted text is a tree of blocks, and its schema is documented by that tree. -/
theorem exists_documented {text : String} {s : Schema} (h : (Schema.parse text).result = .ok s) :
    ∃ tree ns stop, Grammar.matchRule .schema text.toList = .ok [tree] ∧
      tree.children = ns ++ [stop] ∧ stop.rule = .endOfInput ∧ Schema.Blocks text.toList ns ∧
      Documented tree s := by
  obtain ⟨tree, ns, stop, blocks, d, hmatch, hchildren, hstop, hblocks, hreads, hd, rfl⟩ :=
    exists_taken h
  refine ⟨tree, ns, stop, hmatch, hchildren, hstop, hblocks, ?_⟩
  obtain ⟨hmodels, henums⟩ := Draft.documented_addBlocks [] hreads rfl hd
  have hend : ∀ block entry prior, block ≠ .endOfInput →
      Documentation.blockIn block entry prior stop [] = none := by
    intro block entry prior hblock
    rw [Documentation.blockIn, hstop, if_neg hblock.symm]
  constructor
  · rw [Draft.map_ofModel_finish, hmodels, hchildren, Documentation.inContext_concat _
      (fun prior => hend _ _ prior (by decide)) (fun _ _ _ => rfl)]
    rfl
  · rw [hchildren, Documentation.inContext_concat _ (fun prior => hend _ _ prior (by decide))
      (fun _ _ _ => rfl)]
    exact henums

end PrismaTypes
