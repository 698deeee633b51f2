import PrismaTypes.Proofs.Assembly
import PrismaTypes.Proofs.Rows
import PrismaTypes.Proofs.TreeShape
import PrismaTypes.Proofs.ValueText

/-!
# Reading written blocks

The members of a canonical block are read back one after the other, each up to the start of the next
one (`yields_members`). Two things have to be kept apart from what they resemble: the attribute of a
field from that of its block, and documentation above a member from documentation behind the member
before it. The first is decided by the second at sign, the second by the rows.
-/

namespace PrismaTypes

open Grammar
open Outline (Value Attribute FieldDecl ValueDecl DocLine Item readAttribute readField readEnumValue
  readItems readDocLine readDocumentation lastRow)
open Text (Place)
open Canonical (FieldSpec Member Modifier attributesText docLines indentation)

/-! ## Attributes of a declaration -/

/-- A text at which the attributes of a declaration are over. -/
structure EndsAttributes (s : List Char) : Prop where
  noArgs : s.head? ≠ some '('
  noAttribute : ∀ place, Derives false (.call .fieldAttribute) place s none

theorem endsAttributes_of_head {c : Char} {s : List Char} (hargs : c ≠ '(') (hat : c ≠ '@') :
    EndsAttributes (c :: s) :=
  ⟨by simpa using hargs, refuses rfl (by simpa [Rule.opens] using hat) false⟩

/-- The attribute of a block is none of a field, since no name starts with an at sign. -/
theorem endsAttributes_of_block (s : List Char) : EndsAttributes ('@' :: '@' :: s) := by
  refine ⟨by simp, fun place => .spaced rfl (.seqSecondFails (.literal rfl) (.seqFirstFails ?_))⟩
  exact refuses rfl (by rfl) false _

/-- What follows a declaration: a line break and blanks, then the next thing. -/
structure NextLine (r t : List Char) : Prop where
  breaks : ∃ blanks, blanks.all isSpace = true ∧ t = '\n' :: blanks ++ r
  settled : Before r r
  ends : EndsAttributes r

namespace NextLine

variable {r t : List Char}

theorem before (h : NextLine r t) : Before r t := by
  obtain ⟨blanks, hblanks, rfl⟩ := h.breaks
  exact before_spaces (by simpa using ⟨rfl, by simpa using hblanks⟩) h.settled

theorem stops (h : NextLine r t) : stops t = true := by
  obtain ⟨blanks, -, rfl⟩ := h.breaks
  rfl

end NextLine

theorem stops_attributesText (attributes : List Attribute) {t : List Char}
    (ht : stops t = true) : stops (attributesText attributes ++ t) = true := by
  cases attributes with
  | nil =>
      exact ht
  | cons a attributes =>
      rfl

/-- The nodes of a declaration's attributes. -/
def AreAttributes (attributes : List Attribute) (nodes : List Node) : Prop :=
  (∀ n ∈ nodes, n.rule = .fieldAttribute) ∧ nodes.mapM readAttribute = .ok attributes

/-- The attributes after a declaration's own words. -/
theorem yields_attributes {attributes : List Attribute} (h : ∀ a ∈ attributes, a.WellSpelled)
    {r t : List Char} (ht : NextLine r t) :
    ∃ s, Before s (attributesText attributes ++ t) ∧ s.head? ≠ some '(' ∧
      ∀ place, Yields (.many (.call .fieldAttribute)) place s (Before r)
        (AreAttributes attributes) := by
  induction attributes with
  | nil =>
      -- The blanks before the next line go with the declaration only up to here.
      refine ⟨r, ht.before, ht.ends.noArgs, fun place => ?_⟩
      refine ((Yields.manyNone (ht.ends.noAttribute place)).before ht.before.self).mono ?_
      rintro ns rfl
      exact ⟨by simp, rfl⟩
  | cons a attributes ih =>
      obtain ⟨s, hs, hargs, hmore⟩ := ih fun a' ha' => h a' (List.mem_cons_of_mem a ha')
      have htext : attributesText (a :: attributes) ++ t
          = [' '] ++ (['@'] ++ (a.write quoted ++ (attributesText attributes ++ t))) := by
        simp [attributesText]
      refine ⟨['@'] ++ (a.write quoted ++ (attributesText attributes ++ t)), ?_, by simp, ?_⟩
      · rw [htext]
        exact before_spaces rfl (before_of_solid rfl)
      · intro place
        have hone : Yields (.call .fieldAttribute) place _ (Before s) _ :=
          yields_attribute rfl (h a (by simp)) (fun s _ => quotes_quoted s)
            (stops_attributesText attributes ht.stops) hs hargs place
        rw [← List.append_assoc] at hone ⊢
        refine (hone.manyStep rfl hs (hmore _)).mono ?_
        rintro ns ⟨before, after, ⟨n, rfl, hrule, hn⟩, ⟨hrules, hafter⟩, rfl⟩
        refine ⟨?_, by simp [List.mapM_cons, hn, hafter, bind, Except.bind, pure, Except.pure]⟩
        intro n' hn'
        rcases List.mem_append.1 hn' with hn' | hn'
        · rw [List.mem_singleton.1 hn', hrule]
        · exact hrules n' hn'

/-! ## Field types -/

/-- The type name is read as one even if it starts like a type that the language does not know. -/
theorem unsupportedType_fails {name rest : List Char} (hname : isIdentifier name = true)
    (hrest : rest.head?.any isWordPart = false) (hargs : rest.head? ≠ some '(') (place : Place) :
    Derives true (.call .unsupportedType) place (name ++ rest) none := by
  have hbody : Derives true (.sequence (.word "Unsupported") [.word "(", .call .stringLiteral,
      .word ")"]) place (name ++ rest) none := by
    cases hword : afterWord? "Unsupported".toList (name ++ rest) with
    | none =>
        exact .seqFirstFails (.literalFails hword)
    | some after =>
        refine .seqSecondFails (.literal hword) (.seqFirstFails (.literalFails ?_))
        refine afterWord?_eq_none_iff.2 ?_
        rintro ⟨more, hmore⟩
        -- The name would end where the bracket stands.
        have hafter : after = '(' :: more := hmore.symm
        have htext : name ++ rest = "Unsupported".toList ++ ('(' :: more) := by
          rw [← hafter]
          exact afterWord?_eq_some_iff.1 hword
        have hscan := scanIdentifier_append hname hrest
        rw [htext, scanIdentifier_append (by decide) (by rw [List.head?_cons]; decide)] at hscan
        have hsame : '(' :: more = rest := congrArg Prod.snd (Option.some.inj hscan)
        exact hargs (by rw [← hsame]; rfl)
  exact .tight rfl hbody

/-- What the mark of a field type adds to a declaration. -/
def Canonical.Modifier.apply (m : Modifier) (decl : FieldDecl) : FieldDecl :=
  match m with
  | .plain => decl
  | .optional => { decl with isOptional := true }
  | .list => { decl with isList := true }

theorem derives_modifier (m : Modifier) {c : Char} (hc : isSpace c = true) (u : List Char)
    (place : Place) :
    ∃ nodes, Derives true (.optional (.call .typeModifier)) place (m.mark ++ c :: u)
        (some ⟨m.mark, nodes, c :: u⟩) ∧
      ∀ decl, Outline.readFieldType nodes decl = m.apply decl := by
  cases m with
  | plain =>
      refine ⟨[], .optionalNone (refuses rfl ?_ true place), fun decl => rfl⟩
      have hspace : c = ' ' ∨ c = '\t' ∨ c = '\r' ∨ c = '\n' := by
        simpa [isSpace, or_assoc] using hc
      rcases hspace with rfl | rfl | rfl | rfl <;> rfl
  | optional =>
      have hmark : Derives true (.call .optionalMarker) place ('?' :: c :: u) _ :=
        .spaced rfl (.literal rfl)
      have hlist : Derives true (.call .listMarker) place ('?' :: c :: u) none :=
        refuses rfl rfl true place
      exact ⟨_, .optional (.silent rfl (.choiceSecond hlist hmark)), fun decl => rfl⟩
  | list =>
      have hmark : Derives true (.call .listMarker) place ('[' :: ']' :: c :: u) _ :=
        .spaced rfl (.literal rfl)
      exact ⟨_, .optional (.silent rfl (.choiceFirst hmark)), fun decl => rfl⟩

theorem head_mark (m : Modifier) {c : Char} (hc : isSpace c = true) (u : List Char) :
    (m.mark ++ c :: u).head?.any isWordPart = false ∧ (m.mark ++ c :: u).head? ≠ some '(' := by
  cases m with
  | plain =>
      have hspace : c = ' ' ∨ c = '\t' ∨ c = '\r' ∨ c = '\n' := by
        simpa [isSpace, or_assoc] using hc
      rcases hspace with rfl | rfl | rfl | rfl <;> exact ⟨rfl, by simp [Modifier.mark]⟩
  | optional | list =>
      exact ⟨rfl, by simp [Modifier.mark]⟩

/-- The node of a field type tells the type name and the mark. -/
def IsFieldType (f : FieldSpec) (nodes : List Node) : Prop :=
  ∃ n, nodes = [n] ∧ ∀ decl, Outline.readFieldType n.children decl
    = f.modifier.apply { decl with typeName := f.typeName }

theorem yields_fieldType {f : FieldSpec} (hf : f.WellSpelled) {c : Char} (hc : isSpace c = true)
    (u : List Char) (place : Place) :
    Yields (.call .fieldType) place (f.typeName.toList ++ (f.modifier.mark ++ c :: u)) (· = c :: u)
      (IsFieldType f) := by
  obtain ⟨hpart, hargs⟩ := head_mark f.modifier hc u
  have hunsupported := unsupportedType_fails hf.typeName hpart hargs place
  have hname : Derives true (.call .typeName) place
      (f.typeName.toList ++ (f.modifier.mark ++ c :: u)) _ := .token rfl
  rw [scanIdentifier_append hf.typeName hpart] at hname
  obtain ⟨nodes, hmark, hread⟩ := derives_modifier f.modifier hc u
    (place.advance (f.typeName.toList ++ []))
  -- Name and mark are matched without blanks between them.
  have hboth : Derives true (.seq (.choice (.call .unsupportedType) (.call .typeName))
      (.optional (.call .typeModifier))) place _ _ :=
    .seq (.choiceSecond hunsupported hname) hmark
  refine ⟨_, .tight rfl hboth, rfl, _, rfl, fun decl => ?_⟩
  rw [← hread]
  simp [Match.append, Match.asNode, Match.ofScan, Outline.readFieldType,
    Outline.word]

/-! ## Declarations -/

/-- The declaration is read back in front of the next line. Its node covers its text and perhaps
blanks after it. -/
structure ReadsEntry {α β : Type} (rule : Rule) (read : Node → Except Outline.Misfit β)
    (write : α → List Char) (decl : α → β) (a : α) : Prop where
  head : ∃ c rest, write a = c :: rest ∧ isWordStart c = true
  yields : ∀ {r t : List Char}, NextLine r t → ∀ place,
    Yields (.call rule) place (write a ++ t) (Before r) fun ns =>
      ∃ n, ns = [n] ∧ n.rule = rule ∧ n.place = place ∧ read n = .ok (decl a) ∧
        ∃ u, n.text ++ u = write a ++ t ∧ Before r u

/-- The field as it is declared. -/
def Canonical.FieldSpec.decl (f : FieldSpec) : FieldDecl :=
  f.modifier.apply
    { name := f.name, typeName := f.typeName, isList := false, isOptional := false,
      attributes := f.attributes }

theorem space_attributesText (attributes : List Attribute) {r t : List Char} (ht : NextLine r t) :
    ∃ c u, attributesText attributes ++ t = c :: u ∧ isSpace c = true := by
  cases attributes with
  | nil =>
      obtain ⟨blanks, -, rfl⟩ := ht.breaks
      exact ⟨'\n', blanks ++ r, rfl, rfl⟩
  | cons a attributes =>
      exact ⟨' ', _, rfl, rfl⟩

theorem readsEntry_field {f : FieldSpec} (hf : f.WellSpelled) :
    ReadsEntry .field readField FieldSpec.text FieldSpec.decl f := by
  obtain ⟨c, rest, hhead, hc, -⟩ := exists_of_isIdentifier hf.name
  refine ⟨⟨c, _, by simp [FieldSpec.text, hhead]; rfl, hc⟩, fun {r t} ht place => ?_⟩
  obtain ⟨s, hs, -, hattributes⟩ := yields_attributes hf.attributes ht
  obtain ⟨d, u, hafter, hd⟩ := space_attributesText f.attributes ht
  rw [hafter] at hs
  have htype : ∀ place, Yields (.seq (.call .fieldType) (.many (.call .fieldAttribute))) place
      ((f.typeName.toList ++ f.modifier.mark) ++ d :: u) (Before r)
      (Joined (IsFieldType f) (AreAttributes f.attributes)) := by
    intro place
    have hone := yields_fieldType hf hd u place
    rw [← List.append_assoc] at hone
    exact hone.seq_gap hs (hattributes _)
  have hscan : scanIdentifier (f.name.toList ++
      ([' '] ++ ((f.typeName.toList ++ f.modifier.mark) ++ d :: u))) = _ :=
    scanIdentifier_append hf.name rfl
  have hname : Yields (.call .identifier) place _ _ _ := .token rfl hscan
  obtain ⟨e, tail, hheadType, he, -⟩ := exists_of_isIdentifier hf.typeName
  have hblank : Before ((f.typeName.toList ++ f.modifier.mark) ++ d :: u)
      ([' '] ++ ((f.typeName.toList ++ f.modifier.mark) ++ d :: u)) := by
    refine before_spaces rfl (before_of_solid ?_)
    simp [hheadType, (opens_of_isWordStart he).2.2.2]
  have htext : f.text ++ t
      = f.name.toList ++ ([' '] ++ ((f.typeName.toList ++ f.modifier.mark) ++ d :: u)) := by
    rw [← hafter]
    simp [FieldSpec.text]
  rw [htext]
  refine (Yields.node rfl (hname.seq_gap hblank (htype _))).mono ?_
  rintro ns ⟨text, children, rfl, ⟨before, after, rfl, ⟨types, attributes, ⟨n, rfl, htypeRead⟩,
    ⟨hrules, hread⟩, rfl⟩, rfl⟩, hcover⟩
  refine ⟨_, rfl, rfl, rfl, ?_, hcover⟩
  -- The reader picks the attributes out of all children after the type.
  have hfilter : attributes.filter (fun n => n.rule = .fieldAttribute) = attributes :=
    List.filter_eq_self.2 fun n hn => by simpa using hrules n hn
  simp [readField, Outline.firstChild, hfilter, hread, htypeRead, bind, Except.bind,
    pure, Except.pure, Outline.word, FieldSpec.decl]

theorem readsEntry_value {v : ValueDecl} (hv : Canonical.ValueSpelled v) :
    ReadsEntry .enumValue readEnumValue Canonical.valueText id v := by
  obtain ⟨c, rest, hhead, hc, -⟩ := exists_of_isIdentifier hv.name
  refine ⟨⟨c, _, by simp [Canonical.valueText, hhead]; rfl, hc⟩, fun {r t} ht place => ?_⟩
  obtain ⟨s, hs, -, hattributes⟩ := yields_attributes hv.attributes ht
  have hscan : scanIdentifier (v.name.toList ++ (attributesText v.attributes ++ t)) = _ :=
    scanIdentifier_append hv.name
      (any_isWordPart_of_stops (stops_attributesText v.attributes ht.stops))
  have hname : Yields (.call .identifier) place _ _ _ := .token rfl hscan
  rw [Canonical.valueText, List.append_assoc]
  refine (Yields.node rfl (hname.seq_gap hs (hattributes _))).mono ?_
  rintro ns ⟨text, children, rfl, ⟨before, after, rfl, ⟨-, hread⟩, rfl⟩, hcover⟩
  refine ⟨_, rfl, rfl, rfl, ?_, hcover⟩
  simp [readEnumValue, Outline.firstChild, hread, bind, Except.bind, pure,
    Except.pure, Outline.word]

/-! ## Documentation -/

theorem trim_space (s : List Char) : Text.trim (' ' :: s) = Text.trim s := by
  have hblank : Text.isBlank ' ' = true := by decide
  simp [Text.trim, Text.trimStart, hblank]

theorem before_newline {r u : List Char} (h : Before r u) : Before r ('\n' :: u) := by
  have hblanks : ['\n'].all isSpace = true := rfl
  exact before_spaces hblanks h

theorem before_docLine (u : List Char) :
    Before ('/' :: '/' :: '/' :: ' ' :: u) ('/' :: '/' :: '/' :: ' ' :: u) := by
  simp [Before, gap, splitBlanks, isSpace, opensComment]

theorem yields_docLine {line : String} (hline : Canonical.IsDocLine line) (u : List Char)
    (place : Place) :
    Yields (.call .docLine) place (('/' :: '/' :: '/' :: ' ' :: line.toList) ++ '\n' :: u)
      (· = '\n' :: u) (fun ns => ∃ n, ns = [n] ∧ readDocLine n = ⟨place.row, line⟩) := by
  have hall : (' ' :: line.toList).all (fun c => !isLineBreak c) = true := by
    have hunbroken := hline.unbroken
    simp only [List.any_eq_false] at hunbroken
    simp only [List.all_cons, Bool.and_eq_true, List.all_eq_true]
    exact ⟨by decide, fun c hc => by simpa using hunbroken c hc⟩
  have hscan : scanDocText ((' ' :: line.toList) ++ '\n' :: u)
      = some (' ' :: line.toList, '\n' :: u) :=
    congrArg some (spanOf_append hall rfl)
  have htext : Derives true (.call .docText)
      ((place.advance ['/', '/', '/']).advance []) (' ' :: line.toList ++ '\n' :: u) _ :=
    .token rfl
  rw [hscan] at htext
  -- A fourth slash would make a plain comment of the line.
  have hahead : Derives true (.notAhead ['/']) (place.advance ['/', '/', '/'])
      (' ' :: line.toList ++ '\n' :: u) _ := .notAhead rfl
  have hbody : Derives true (.sequence (.word "///") [.notAhead ['/'], .call .docText]) place
      ('/' :: '/' :: '/' :: (' ' :: line.toList ++ '\n' :: u)) _ :=
    .seq (.literal rfl) (.seq hahead htext)
  refine ⟨_, .tight rfl hbody, rfl, _, rfl, ?_⟩
  have htrim : Text.trim (' ' :: line.toList) = line.toList := by
    rw [trim_space, hline.trimmed]
  simp [readDocLine, Match.append, Match.asNode, Match.ofScan, Match.empty, htrim]

/-- The lines after the first one of a documentation. -/
theorem yields_docLines {lines : List String} (h : ∀ line ∈ lines, Canonical.IsDocLine line)
    {indent : List Char} (hindent : indent.all isSpace = true) {r t : List Char} (ht : Before r t)
    (hr : r.head? ≠ some '/') :
    ∃ s, Before s (docLines indent lines ++ t) ∧ ∀ place,
      Yields (.many (.call .docLine)) place s (Before r)
        (fun ns => ns.map (fun n => (readDocLine n).text) = lines) := by
  induction lines with
  | nil =>
      refine ⟨r, ht, fun place => ?_⟩
      have hnone : Derives false (.call .docLine) place r none := by
        refine refuses rfl ?_ false place
        cases r with
        | nil =>
            rfl
        | cons c rest =>
            simpa [Rule.opens] using hr
      refine ((Yields.manyNone hnone).before ht.self).mono ?_
      rintro ns rfl
      rfl
  | cons line lines ih =>
      obtain ⟨s, hs, hmore⟩ := ih fun l hl => h l (List.mem_cons_of_mem line hl)
      have htext : docLines indent (line :: lines) ++ t = indent ++
          (('/' :: '/' :: '/' :: ' ' :: line.toList) ++ '\n' :: (docLines indent lines ++ t)) := by
        simp [docLines]
      refine ⟨_, by rw [htext]; exact before_spaces hindent (before_docLine _), fun place => ?_⟩
      have hbreak : Before s ('\n' :: (docLines indent lines ++ t)) :=
        before_newline hs
      have hone :=
        (yields_docLine (h line (by simp)) (docLines indent lines ++ t) place).before hbreak
      refine (hone.manyStep rfl hbreak (hmore _)).mono ?_
      rintro ns ⟨before, after, ⟨n, rfl, hn⟩, hafter, rfl⟩
      simp [hn, hafter]

/-- The node of a documentation whose first line stands on the given row. -/
def IsDocumentation (doc : List String) (row : Nat) (nodes : List Node) : Prop :=
  ∃ n line lines, nodes = [n] ∧ n.rule = .documentation ∧ readDocumentation n = line :: lines ∧
    line.row = row ∧ (line :: lines).map DocLine.text = doc

theorem yields_documentation {line : String} {lines : List String}
    (h : ∀ l ∈ line :: lines, Canonical.IsDocLine l) {indent : List Char}
    (hindent : indent.all isSpace = true) {r t : List Char} (ht : Before r t)
    (hr : r.head? ≠ some '/') (place : Place) :
    Yields (.call .documentation) place
      (('/' :: '/' :: '/' :: ' ' :: line.toList) ++ '\n' :: (docLines indent lines ++ t)) (Before r)
      (IsDocumentation (line :: lines) place.row) := by
  obtain ⟨s, hs, hmore⟩ := yields_docLines (fun l hl => h l (List.mem_cons_of_mem line hl)) hindent
    ht hr
  have hbreak : Before s ('\n' :: (docLines indent lines ++ t)) :=
    before_newline hs
  have hone := yields_docLine (h line (by simp)) (docLines indent lines ++ t) place
  refine (Yields.node rfl (hone.seq_gap hbreak (hmore _))).mono ?_
  rintro ns ⟨text, children, rfl, ⟨before, after, ⟨n, rfl, hn⟩, hafter, rfl⟩, -⟩
  refine ⟨_, ⟨place.row, line⟩, after.map readDocLine, rfl, rfl, ?_, rfl, ?_⟩
  · simp [readDocumentation, hn]
  · simpa [Function.comp_def] using hafter

/-! ## Rows -/

/-- Blanks at the end of a node's text do not move the row on which its own text ends. -/
theorem lineFeeds_trimEnd_of_prefix {x w blanks : List Char} (hx : x <+: w ++ blanks)
    (h : ∀ c ∈ blanks, Text.isBlank c = true) :
    Text.lineFeeds (Text.trimEnd x) ≤ Text.lineFeeds w := by
  -- Either the text ends inside `w`, or it is `w` with some of the blanks.
  rcases List.prefix_or_prefix_of_prefix hx (List.prefix_append w blanks) with hw | ⟨more, rfl⟩
  · exact Nat.le_trans (lineFeeds_trimEnd_le x) (hw.sublist.count_le '\n')
  · have hmore : more <+: blanks := (List.prefix_append_right_inj w).1 hx
    rw [trimEnd_append_blanks w fun c hc => h c (hmore.subset hc)]
    exact lineFeeds_trimEnd_le w

/-- A declaration ends on a row before the next line. -/
theorem lastRow_lt {n : Node} {w r t u : List Char} (ht : NextLine r t)
    (htext : n.text ++ u = w ++ t) (hu : Before r u) :
    lastRow n < (n.place.advance (w ++ (gap false t).1)).row := by
  obtain ⟨blanks, hblanks, rfl⟩ := ht.breaks
  have hspaces : ('\n' :: blanks).all isSpace = true := by
    simpa using ⟨rfl, by simpa using hblanks⟩
  have hgap : (gap false ('\n' :: blanks ++ r)).1 = '\n' :: blanks := by
    have hr : (gap false r).1 ++ r = r := by
      have hsplit := gap_splits false r
      rwa [show (gap false r).2 = r from ht.settled] at hsplit
    rw [gap_spaces hspaces, List.append_left_eq_self.1 hr, List.append_nil]
  -- The node may cover some of the blanks, but never the next line itself.
  have hprefix : n.text <+: w ++ '\n' :: blanks := by
    refine ⟨(gap false u).1, ?_⟩
    have hsplit := gap_splits false u
    rw [show (gap false u).2 = r from hu] at hsplit
    rw [← hsplit, ← List.append_assoc, List.cons_append, ← List.cons_append, ← List.append_assoc]
      at htext
    exact List.append_cancel_right htext
  have hfeeds := lineFeeds_trimEnd_of_prefix hprefix fun c hc =>
    isBlank_of_isSpace (List.all_eq_true.1 hspaces c hc)
  -- The line break after `w` counts for the place and not for the node.
  rw [hgap]
  simp only [lastRow, Place.advance, Text.lineFeeds, List.count_append, List.count_cons] at hfeeds ⊢
  simp only [beq_self_eq_true, if_true]
  omega

/-! ## Members -/

/-- No declaration starts like an attribute, and no item like the end of a block. -/
theorem Grammar.BodyRules.opens {item entry : Rule} (R : BodyRules item entry) :
    entry.opens '@' = false ∧ item.opens '\x7d' = false := by
  cases R <;> decide

variable {α β : Type} {item entry : Rule} {read : Node → Except Outline.Misfit β}
  {write : α → List Char} {decl : α → β} {spelled : α → Prop}

/-- A declaration with the documentation above it. -/
def placed (decl : α → β) (e : List String × α) : β × Option String :=
  (decl e.2, Canonical.docOf e.1)

/-- The items carry the block attributes of the members, and their declarations with the
documentation above them, provided that the declaration before them ends above their row. -/
structure Carries (decl : α → β) (members : List (Member α)) (row : Nat)
    (items : List (Item β)) : Prop where
  attributes : blockAttributes items = Canonical.attributesOf members
  entries : ∀ (last : Option Nat) (done : List (β × Option String)), (∀ k ∈ last, k < row) →
    Documentation.placeFrom none last done items
      = done.reverse ++ (Canonical.entries members).map (placed decl)

theorem leading?_eq_docOf {lines : List DocLine} {doc : List String}
    (h : lines.map DocLine.text = doc) : Documentation.leading? lines = Canonical.docOf doc := by
  subst h
  simp [Documentation.leading?, Canonical.docOf, Documentation.joinLines]

theorem carries_blockAttribute {members : List (Member α)} {a : Attribute} {row row' : Nat}
    {items : List (Item β)} (h : Carries decl members row' items) :
    Carries decl (.blockAttribute a :: members) row (.blockAttribute a :: items) := by
  refine ⟨?_, fun last done _ => ?_⟩
  · exact congrArg (a :: ·) h.attributes
  · simpa [Documentation.placeFrom, Canonical.entries] using h.entries none done (by simp)

/-- An entry without documentation above it. -/
theorem carries_entry {members : List (Member α)} {a : α} {row row' k : Nat}
    {items : List (Item β)} (h : Carries decl members row' items) (hk : k < row') :
    Carries decl (.entry [] a :: members) row (.entry (decl a) k :: items) := by
  refine ⟨?_, fun last done _ => ?_⟩
  · exact h.attributes
  · have hrest := h.entries (some k) ((decl a, none) :: done) (by simpa using hk)
    simpa [Documentation.placeFrom, Canonical.entries, placed, Canonical.docOf] using hrest

/-- The documentation starts below the declaration before it, so none of it trails. -/
theorem carries_documented {members : List (Member α)} {a : α} {doc : List String}
    {row row' k : Nat} {items : List (Item β)} {line : DocLine} {lines : List DocLine}
    (h : Carries decl members row' items) (hk : k < row') (hrow : line.row = row)
    (hdoc : (line :: lines).map DocLine.text = doc) :
    Carries decl (.entry doc a :: members) row
      (.documentation (line :: lines) :: .entry (decl a) k :: items) := by
  refine ⟨?_, fun last done hlast => ?_⟩
  · exact h.attributes
  · have hbelow : last ≠ some line.row := by
      rintro rfl
      exact absurd (hlast line.row rfl) (by omega)
    have hrest := h.entries (some k) ((decl a, Canonical.docOf doc) :: done) (by simpa using hk)
    simpa [Documentation.placeFrom, Documentation.split, hbelow, Documentation.trail_none,
      leading?_eq_docOf hdoc, Canonical.entries, placed] using hrest

/-- The items that the nodes of a block's members are read as. -/
def ReadsMembers (entry : Rule) (read : Node → Except Outline.Misfit β) (decl : α → β)
    (members : List (Member α)) (row : Nat) (nodes : List Node) : Prop :=
  ∃ items, readItems entry read nodes = .ok items ∧ Carries decl members row items

/-- A declaration is read in front of members that start below it. -/
def ReadsFirst (entry : Rule) (read : Node → Except Outline.Misfit β) (decl : α → β) (a : α)
    (members : List (Member α)) (nodes : List Node) : Prop :=
  ∃ k row items, readItems entry read nodes = .ok (.entry (decl a) k :: items) ∧
    Carries decl members row items ∧ k < row

section Members

variable (R : BodyRules item entry) {members : List (Member α)} {r s t : List Char}

include R

/-- A block attribute in front of members that are read back. -/
theorem yields_blockAttribute {a : Attribute} (ha : a.WellSpelled) (hs : NextLine s t)
    (hmore : ∀ place, Yields (.many (.call item)) place s (Before r)
      (ReadsMembers entry read decl members place.row)) (place : Place) :
    Yields (.many (.call item)) place (['@', '@'] ++ (a.write quoted ++ t)) (Before r)
      (ReadsMembers entry read decl (.blockAttribute a :: members) place.row) := by
  have hattribute : Yields (.call .blockAttribute) place
      (['@', '@'] ++ (a.write quoted ++ t)) _ _ :=
    yields_attribute rfl ha (fun s _ => quotes_quoted s) hs.stops hs.before hs.ends.noArgs place
  have hdoc : Derives false (.call .documentation) place
      (['@', '@'] ++ (a.write quoted ++ t)) none :=
    refuses rfl rfl false place
  have hentry : Derives false (.call entry) place (['@', '@'] ++ (a.write quoted ++ t)) none :=
    refuses R.takes.2 (by simpa using R.opens.1) false place
  have hone : Yields (.call item) place (['@', '@'] ++ (a.write quoted ++ t)) _ _ :=
    .silent R.items (.choiceSecond hdoc (.choiceSecond hentry hattribute))
  rw [← List.append_assoc] at hone ⊢
  refine (hone.manyStep R.takes.1 hs.before (hmore _)).mono ?_
  rintro ns ⟨before, after, ⟨n, rfl, hrule, hn⟩, ⟨items, hread, hitems⟩, rfl⟩
  refine ⟨.blockAttribute a :: items, ?_, carries_blockAttribute hitems⟩
  simp [readItems, hrule, R.other.2.symm, hn, hread, bind, Except.bind, pure, Except.pure]

theorem yields_entry {a : α} (ha : ReadsEntry entry read write decl a) (hs : NextLine s t)
    (hmore : ∀ place, Yields (.many (.call item)) place s (Before r)
      (ReadsMembers entry read decl members place.row)) (place : Place) :
    Yields (.many (.call item)) place (write a ++ t) (Before r)
      (ReadsFirst entry read decl a members) := by
  obtain ⟨c, rest, hhead, hc⟩ := ha.head
  have hslash : c ≠ '/' := by
    rintro rfl
    cases hc
  have hdoc : Derives false (.call .documentation) place (write a ++ t) none :=
    refuses rfl (by simpa [hhead, Rule.opens] using hslash) false place
  have hone : Yields (.call item) place (write a ++ t) _ _ :=
    .silent R.items (.choiceSecond hdoc (ha.yields hs place).choiceFirst)
  refine (hone.manyStep R.takes.1 hs.before (hmore _)).mono ?_
  rintro ns ⟨before, after, ⟨n, rfl, hrule, hplace, hn, u, htext, hu⟩, ⟨items, hread, hitems⟩, rfl⟩
  -- The row comes from the node's own text, so it is known only after the match.
  refine ⟨lastRow n, _, items, ?_, hitems, ?_⟩
  · simp [readItems, hrule, R.other.1, hn, hread, bind, Except.bind, pure, Except.pure]
  · rw [← hplace]
    exact lastRow_lt hs htext hu

/-- A declaration with documentation above it. -/
theorem yields_documented {a : α} {line : String} {lines : List String}
    (hlines : ∀ l ∈ line :: lines, Canonical.IsDocLine l)
    (ha : ReadsEntry entry read write decl a) (hs : NextLine s t)
    (hmore : ∀ place, Yields (.many (.call item)) place s (Before r)
      (ReadsMembers entry read decl members place.row)) (place : Place) :
    Yields (.many (.call item)) place
      (('/' :: '/' :: '/' :: ' ' :: line.toList) ++
        '\n' :: (docLines indentation lines ++ (indentation ++ (write a ++ t)))) (Before r)
      (ReadsMembers entry read decl (.entry (line :: lines) a :: members) place.row) := by
  obtain ⟨c, rest, hhead, hc⟩ := ha.head
  have hsolid : (write a ++ t).head?.all isSolid = true := by
    simp [hhead, (opens_of_isWordStart hc).2.2.2]
  have hslash : (write a ++ t).head? ≠ some '/' := by
    rw [hhead]
    rintro hhead'
    cases hhead'
    cases hc
  have hbefore : Before (write a ++ t) (indentation ++ (write a ++ t)) :=
    before_spaces rfl (before_of_solid hsolid)
  have hdoc : Yields (.call .documentation) place
      (('/' :: '/' :: '/' :: ' ' :: line.toList) ++
        '\n' :: (docLines indentation lines ++ (indentation ++ (write a ++ t)))) _ _ :=
    yields_documentation hlines rfl hbefore hslash place
  have hone : Yields (.call item) place _ _ _ := .silent R.items hdoc.choiceFirst
  have htext : ('/' :: '/' :: '/' :: ' ' :: line.toList) ++
      '\n' :: (docLines indentation lines ++ (indentation ++ (write a ++ t)))
      = (('/' :: '/' :: '/' :: ' ' :: line.toList) ++ '\n' :: docLines indentation lines) ++
        (indentation ++ (write a ++ t)) := by simp
  rw [htext] at hone ⊢
  refine (hone.manyStep R.takes.1 hbefore (yields_entry R ha hs hmore _)).mono ?_
  rintro ns ⟨before, after, ⟨n, first, others, rfl, hrule, hn, hrow, hdocs⟩,
    ⟨k, row, items, hread, hitems, hk⟩, rfl⟩
  refine ⟨_, ?_, carries_documented hitems hk hrow hdocs⟩
  simp [readItems, hrule, hn, hread, bind, Except.bind, pure, Except.pure]

/-- The members of a block, up to the text at which they are over. -/
theorem yields_members (hmembers : ∀ m ∈ members, m.WellSpelled spelled)
    (hread : ∀ a, spelled a → ReadsEntry entry read write decl a) (hr : Before r r)
    (hends : EndsAttributes r) (hstop : ∀ place, Derives false (.call item) place r none) :
    ∃ s blanks, blanks.all isSpace = true ∧
      members.flatMap (Member.text write) ++ r = blanks ++ s ∧ Before s s ∧ EndsAttributes s ∧
      ∀ place, Yields (.many (.call item)) place s (Before r)
        (ReadsMembers entry read decl members place.row) := by
  induction members with
  | nil =>
      refine ⟨r, [], rfl, rfl, hr, hends, fun place => ?_⟩
      refine ((Yields.manyNone (hstop place)).before hr).mono ?_
      rintro ns rfl
      exact ⟨[], rfl, rfl, fun last done _ => by simp [Documentation.placeFrom, Canonical.entries]⟩
  | cons m members ih =>
      obtain ⟨s, blanks, hblanks, htext, hs, hsends, hmore⟩ :=
        ih fun m' hm' => hmembers m' (List.mem_cons_of_mem m hm')
      have hnext : NextLine s ('\n' :: (members.flatMap (Member.text write) ++ r)) :=
        ⟨⟨blanks, hblanks, by rw [htext]; rfl⟩, hs, hsends⟩
      have hm := hmembers m (by simp)
      cases m with
      | blockAttribute a =>
          refine ⟨_, indentation, rfl, ?_, before_of_solid rfl, endsAttributes_of_block _,
            yields_blockAttribute R hm hnext hmore⟩
          simp [Member.text]
      | entry doc a =>
          have ha := hread a hm.2
          obtain ⟨c, rest, hhead, hc⟩ := ha.head
          cases doc with
          | nil =>
              refine ⟨_, indentation, rfl, ?_, before_of_solid ?_, ?_,
                fun place => (yields_entry R ha hnext hmore place).mono ?_⟩
              · simp [Member.text, docLines]
              · simp [hhead, (opens_of_isWordStart hc).2.2.2]
              · rw [hhead]
                refine endsAttributes_of_head ?_ ?_ <;>
                · rintro rfl
                  cases hc
              · rintro ns ⟨k, row, items, hitems, hcarries, hk⟩
                exact ⟨_, hitems, carries_entry hcarries hk⟩
          | cons line lines =>
              refine ⟨_, indentation, rfl, ?_, before_docLine _,
                endsAttributes_of_head (by decide) (by decide),
                yields_documented R hm.1 ha hnext hmore⟩
              simp [Member.text, docLines]

end Members

end PrismaTypes
