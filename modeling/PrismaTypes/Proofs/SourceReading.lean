import PrismaTypes.Proofs.AcceptedTexts
import PrismaTypes.Proofs.MetadataRoundTrip
import PrismaTypes.Proofs.SourceReader

/-!
# Generated files are read as they were meant

Every line of a generated file is told from its neighbours by the reader of declarations, and
documentation contributes nothing but comments:

* a comment ends where its own end mark stands, since marks inside it are broken;
* no line of a comment is blank, and none breaks into two;
* names hold neither blanks nor signs, because all of them are identifiers.

So the declarations of a file are those of the schema, one chunk for each.
-/

namespace PrismaTypes

open Text (isBlank)
open Grammar (Node BodyRules Fits isIdentifier isWordStart isWordPart isLetter isDigit matchRule)
open Outline (nameOf word)

namespace TypeScript

/-! ## Comments -/

theorem mem_of_mem_trim {s : List Char} {c : Char} (h : c ∈ Text.trim s) : c ∈ s := by
  rw [Text.trim, Text.trimEnd, List.mem_reverse] at h
  have hstart := (List.dropWhile_sublist isBlank).subset h
  exact (List.dropWhile_sublist isBlank).subset (List.mem_reverse.1 hstart)

theorem not_mem_of_mem_linesFrom {line s : List Char} (hline : '\n' ∉ line) :
    ∀ l ∈ Text.linesFrom line s, '\n' ∉ l := by
  induction s generalizing line with
  | nil =>
      intro l hl
      rw [Text.linesFrom] at hl
      split at hl
      · cases hl
      · rw [List.mem_singleton.1 hl]
        simpa using hline
  | cons c s ih =>
      intro l hl
      rw [Text.linesFrom] at hl
      split at hl
      · rcases List.mem_cons.1 hl with rfl | hl
        · -- A carriage return that is dropped takes nothing else along.
          unfold Text.dropReturn
          split <;> simp_all
        · exact ih (by simp) l hl
      · rename_i hc
        refine ih ?_ l hl
        simpa [eq_comm] using ⟨hc, hline⟩

theorem mem_of_mem_breakMarks {s : List Char} {c : Char} (h : c ∈ breakMarks s) (hc : c ≠ '\\') :
    c ∈ s := by
  fun_induction breakMarks s with
  | case1 s ih =>
      simp only [List.mem_cons] at h ⊢
      rcases h with h | h | h | h
      · exact .inl h
      · exact absurd h hc
      · exact .inr (.inl h)
      · exact .inr (.inr (ih h))
  | case2 d s hother ih =>
      rcases List.mem_cons.1 h with h | h
      · exact List.mem_cons.2 (.inl h)
      · exact List.mem_cons.2 (.inr (ih h))
  | case3 =>
      cases h

/-- A line of a comment is one line, whose marks are broken. -/
theorem exists_of_mem_commentLines {doc line : List Char} (h : line ∈ commentLines doc) :
    '\n' ∉ line ∧ ∃ s, line = breakMarks s := by
  obtain ⟨l, hl, rfl⟩ := List.mem_map.1 h
  refine ⟨fun hmem => ?_, _, rfl⟩
  have htrim := mem_of_mem_breakMarks hmem (by decide)
  exact not_mem_of_mem_linesFrom (by simp) l hl (mem_of_mem_trim htrim)

theorem withoutComments_spaces {indent : List Char} (h : ∀ c ∈ indent, c = ' ')
    (rest : List Char) :
    withoutComments (indent ++ rest) = indent ++ withoutComments rest := by
  induction indent with
  | nil =>
      rfl
  | cons c indent ih =>
      have hc : c = ' ' := h c (by simp)
      rw [List.cons_append, withoutComments_cons (by simp [hc]),
        ih fun d hd => h d (by simp [hd]), List.cons_append]

/-- A comment leaves its indent behind. -/
theorem lexes_comment {indent body : List Char} (hindent : ∀ c ∈ indent, c = ' ')
    (hbody : Inert body) :
    Lexes (indent ++ '/' :: '*' :: (body ++ ['*', '/', '\n'])) [] := by
  refine .of_withoutComments (indent ++ ['\n']) (fun rest => ?_) ?_
  · have hopen : withoutComments ('/' :: '*' :: (body ++ ['*', '/', '\n'] ++ rest))
        = afterComment (body ++ ('*' :: '/' :: '\n' :: rest)) := by
      simp [withoutComments]
    have hclose : afterComment ('*' :: '/' :: '\n' :: rest) = '\n' :: withoutComments rest := by
      rw [afterComment, withoutComments_cons (by simp)]
    rw [List.append_assoc, withoutComments_spaces hindent, List.cons_append, List.cons_append,
      hopen, hbody, hclose]
    simp
  · refine Mode.run_blank ?_
    have hblank : ∀ c ∈ indent, isBlank c = true := by
      intro c hc
      rw [hindent c hc]
      decide
    simpa [show isBlank '\n' = true by decide] using hblank

theorem Solid.marked {line : List Char} {c : Char} (hbreak : '\n' ∉ line) (hc : c ∈ line)
    (hmark : isBlank c = false) : Solid (line ++ ['\n']) := by
  refine .line hbreak ?_ .nil
  cases hall : line.all isBlank with
  | false =>
      rfl
  | true =>
      rw [List.all_eq_true.1 hall c hc] at hmark
      cases hmark

theorem not_mem_spaces {indent : List Char} (h : ∀ c ∈ indent, c = ' ') {c : Char}
    (hc : c ≠ ' ') : c ∉ indent :=
  fun hmem => hc (h c hmem)

theorem solid_starred {indent line : List Char} (hindent : ∀ c ∈ indent, c = ' ')
    (hline : '\n' ∉ line) : Solid (starred indent line) := by
  have hbreak : '\n' ∉ indent := not_mem_spaces hindent (by decide)
  unfold starred
  split
  · have hsolid : Solid ((indent ++ [' ', '*']) ++ ['\n']) :=
      .marked (c := '*') (by simp [hbreak]) (by simp) (by decide)
    simpa using hsolid
  · have hsolid : Solid ((indent ++ [' ', '*', ' '] ++ line) ++ ['\n']) :=
      .marked (c := '*') (by simp [hbreak, hline]) (by simp) (by decide)
    simpa using hsolid

theorem quiet_starred {indent s : List Char} (hindent : ∀ c ∈ indent, c = ' ') :
    Quiet (starred indent (breakMarks s)) := by
  have hslash : '/' ∉ indent := not_mem_spaces hindent (by decide)
  unfold starred
  split
  · have hquiet : Quiet ((indent ++ [' ', '*']) ++ ['\n']) :=
      quiet_of_no_slash (by simp [hslash]) (by decide) (by decide)
    simpa using hquiet
  · have hstar : Quiet ((indent ++ [' ', '*']) ++ [' ']) :=
      quiet_of_no_slash (by simp [hslash]) (by decide) (by decide)
    simpa using hstar.append (quiet_breakMarks s (by decide) (by decide))

theorem solid_docComment (doc : Option String) {indent : List Char}
    (hindent : ∀ c ∈ indent, c = ' ') : Solid (docComment doc indent) := by
  have hbreak : '\n' ∉ indent := not_mem_spaces hindent (by decide)
  have hlines : ∀ line ∈ commentLines ((doc.map String.toList).getD []), '\n' ∉ line := by
    intro line hline
    exact (exists_of_mem_commentLines hline).1
  unfold docComment
  split
  · exact .nil
  · rename_i line hone
    have hline : '\n' ∉ line := hlines line (by simp [hone])
    have hsolid : Solid ((indent ++ ['/', '*', '*', ' '] ++ line ++ [' ', '*', '/']) ++ ['\n']) :=
      .marked (c := '/') (by simp [hbreak, hline]) (by simp) (by decide)
    simpa using hsolid
  · generalize commentLines ((doc.map String.toList).getD []) = lines at hlines
    -- The first and the last line hold the marks, each line between them a star.
    have hfirst : Solid ((indent ++ ['/', '*', '*']) ++ ['\n']) :=
      .marked (c := '/') (by simp [hbreak]) (by simp) (by decide)
    have hlast : Solid ((indent ++ [' ', '*', '/']) ++ ['\n']) :=
      .marked (c := '/') (by simp [hbreak]) (by simp) (by decide)
    have hmiddle : Solid (lines.flatMap (starred indent)) := by
      apply flatMap_of_append .nil Solid.append
      intro line hline
      exact solid_starred hindent (hlines line hline)
    simpa using (hfirst.append hmiddle).append hlast

/-- A comment is ended by its own end mark: what stands before that mark is quiet. -/
theorem exists_quiet_docComment (doc : Option String) {indent : List Char}
    (hindent : ∀ c ∈ indent, c = ' ')
    (hsome : commentLines ((doc.map String.toList).getD []) ≠ []) :
    ∃ body, Quiet ('*' :: body) ∧
      docComment doc indent = indent ++ '/' :: '*' :: ('*' :: body ++ ['*', '/', '\n']) := by
  have hslash : '/' ∉ indent := not_mem_spaces hindent (by decide)
  have hlines : ∀ line ∈ commentLines ((doc.map String.toList).getD []),
      ∃ s, line = breakMarks s := by
    intro line hline
    exact (exists_of_mem_commentLines hline).2
  unfold docComment
  split
  · rename_i hnone
    exact absurd hnone hsome
  · rename_i line hone
    obtain ⟨s, rfl⟩ := hlines line (by simp [hone])
    have hstar : Quiet (['*'] ++ [' ']) := quiet_of_no_slash (by simp) (by decide) (by decide)
    have hquiet := hstar.append (quiet_breakMarks s (show ' ' ≠ '*' by decide) (by decide))
    exact ⟨' ' :: (breakMarks s ++ [' ']), hquiet, by simp⟩
  · generalize commentLines ((doc.map String.toList).getD []) = lines at hlines
    have hopen : Quiet (['*'] ++ ['\n']) := quiet_of_no_slash (by simp) (by decide) (by decide)
    have hclose : Quiet (indent ++ [' ']) := quiet_of_no_slash hslash (by decide) (by decide)
    have hmiddle : Quiet (lines.flatMap (starred indent)) := by
      apply flatMap_of_append trivial Quiet.append
      intro line hline
      obtain ⟨s, rfl⟩ := hlines line hline
      exact quiet_starred hindent
    exact ⟨'\n' :: (lines.flatMap (starred indent) ++ (indent ++ [' '])),
      hopen.append (hmiddle.append hclose), by simp⟩

/-- Documentation contributes no token and no blank line. -/
theorem piece_docComment (doc : Option String) {indent : List Char}
    (hindent : ∀ c ∈ indent, c = ' ') : Piece (docComment doc indent) [] := by
  refine ⟨solid_docComment doc hindent, ?_⟩
  by_cases hnone : commentLines ((doc.map String.toList).getD []) = []
  · have hempty : docComment doc indent = [] := by simp only [docComment, hnone]
    rw [hempty]
    exact .nil
  · obtain ⟨body, hquiet, heq⟩ := exists_quiet_docComment doc hindent hnone
    rw [heq]
    exact lexes_comment hindent hquiet.inert

/-! ## Blocks -/

theorem memberIndent_spaces : ∀ c ∈ memberIndent, c = ' ' := by
  simp [memberIndent]

/-- The words that start a declaration. -/
theorem part_export {form : String} (h : isName form = true) :
    Part ("export".toList ++ [' '] ++ (form.toList ++ [' '])) [.word "export", .word form] :=
  (Part.spaced (by decide)).append (Part.spaced h)

def enumMemberTokens (m : EnumMember) : List Token :=
  [.word m.name, .mark '=', .text m.name, .mark ',']

theorem piece_enumMemberLine {m : EnumMember} (h : isName m.name = true) :
    Piece (enumMemberLine m) (enumMemberTokens m) := by
  have hindent : Part memberIndent [] := ⟨rfl, by decide, by decide⟩
  have hkey : Part (m.name.toList ++ [' ', '=', ' ']) [.word m.name, .mark '='] :=
    .name h (fun _ => rfl) (by decide) (by decide)
  have hcomma : Part [','] [.mark ','] := ⟨rfl, by decide, by decide⟩
  have hline := ((hindent.append hkey).append ((Part.quoted h).append hcomma)).line (by simp)
  have hpiece := (piece_docComment m.documentation memberIndent_spaces).append hline
  simpa [enumMemberLine, enumMemberTokens] using hpiece

def unionTokens : List EnumMember → List Token
  | [] => [.word "never"]
  | m :: ms => .text m.name :: ms.flatMap fun m => [.mark '|', .text m.name]

theorem intercalate_cons (separator first : List Char) (rest : List (List Char)) :
    separator.intercalate (first :: rest) = first ++ rest.flatMap (separator ++ ·) := by
  induction rest generalizing first with
  | nil =>
      simp [List.intercalate]
  | cons next rest ih =>
      have hrest := ih next
      simp only [List.intercalate] at hrest ⊢
      rw [List.intersperse_cons_cons, List.flatten_cons, List.flatten_cons, hrest]
      simp

theorem toList_unionOf (m : EnumMember) (ms : List EnumMember) :
    (unionOf (m :: ms)).toList
      = '"' :: m.name.toList ++ ['"']
        ++ ms.flatMap fun m => [' ', '|', ' '] ++ ('"' :: m.name.toList ++ ['"']) := by
  have hunion : unionOf (m :: ms)
      = " | ".intercalate ((m :: ms).map fun m => "\"" ++ m.name ++ "\"") := rfl
  rw [hunion, String.toList_intercalate, List.map_cons, List.map_cons, intercalate_cons]
  simp [List.flatMap_map]

def enumTokens : EnumStyle → EnumType → List Token
  | .enums, e =>
      [.word "export", .word "enum", .word e.name, .mark '\x7b']
        ++ e.members.flatMap enumMemberTokens ++ [.mark '\x7d']
  | .unions, e =>
      [.word "export", .word "type", .word e.name, .mark '='] ++ unionTokens e.members
        ++ [.mark ';']

theorem part_unionOf {members : List EnumMember} (h : ∀ m ∈ members, isName m.name = true) :
    Part ((unionOf members).toList ++ [';']) (unionTokens members ++ [.mark ';']) := by
  cases members with
  | nil =>
      exact ⟨rfl, by decide, by decide⟩
  | cons m ms =>
      have hfirst := Part.quoted (h m (by simp))
      have hrest : Part
          (ms.flatMap fun m => [' ', '|', ' '] ++ ('"' :: m.name.toList ++ ['"']))
          (ms.flatMap fun m => [.mark '|'] ++ [.text m.name]) := by
        apply Part.flatMap
        intro m' hm'
        have hbar : Part [' ', '|', ' '] [.mark '|'] := ⟨rfl, by decide, by decide⟩
        exact hbar.append (Part.quoted (h m' (by simp [hm'])))
      have hend : Part [';'] [.mark ';'] := ⟨rfl, by decide, by decide⟩
      rw [toList_unionOf]
      exact (hfirst.append hrest).append hend

theorem piece_enumBlock (style : EnumStyle) {e : EnumType} (hname : isName e.name = true)
    (hmembers : ∀ m ∈ e.members, isName m.name = true) :
    Piece (enumBlock style e) (enumTokens style e) := by
  have hdoc := piece_docComment e.documentation (List.forall_mem_nil _)
  cases style with
  | enums =>
      have hwords := part_export (show isName "enum" = true by decide)
      have hhead : Part (e.name.toList ++ [' ', '\x7b']) [.word e.name, .mark '\x7b'] :=
        .name hname (fun _ => rfl) (by decide) (by decide)
      have hlines : Piece (e.members.flatMap enumMemberLine)
          (e.members.flatMap enumMemberTokens) := by
        apply Piece.flatMap
        intro m hm
        exact piece_enumMemberLine (hmembers m hm)
      have hend : Part ['\x7d'] [.mark '\x7d'] := ⟨rfl, by decide, by decide⟩
      have hpiece := ((hdoc.append ((hwords.append hhead).line (by simp))).append hlines).append
        (hend.line (by simp))
      simpa [enumBlock, enumTokens] using hpiece
  | unions =>
      have hwords := part_export (show isName "type" = true by decide)
      have hhead : Part (e.name.toList ++ [' ', '=', ' ']) [.word e.name, .mark '='] :=
        .name hname (fun _ => rfl) (by decide) (by decide)
      have hpiece := hdoc.append
        (((hwords.append hhead).append (part_unionOf hmembers)).line (by simp))
      simpa [enumBlock, enumTokens] using hpiece

def memberTokens (c : Config) (f : Field) : List Token :=
  .word f.name :: ((if rendersOptional c.relationsOptional f then [.mark '?'] else [])
    ++ .mark ':' :: .word (targetType c.mapping f)
    :: ((if f.isList then [.mark '[', .mark ']'] else []) ++ [.mark ';']))

theorem piece_fieldLine {c : Config} {f : Field} (hname : isName f.name = true)
    (htype : isName (targetType c.mapping f) = true) :
    Piece (fieldLine c f) (memberTokens c f) := by
  have hindent : Part memberIndent [] := ⟨rfl, by decide, by decide⟩
  have hfield : Part (f.name.toList
      ++ ((if rendersOptional c.relationsOptional f then ['?'] else []) ++ [':', ' ']))
      (.word f.name :: ((if rendersOptional c.relationsOptional f then [.mark '?'] else [])
        ++ [.mark ':'])) := by
    cases rendersOptional c.relationsOptional f
    all_goals exact .name hname (fun _ => rfl) (by decide) (by decide)
  have htarget : Part ((targetType c.mapping f).toList
      ++ ((if f.isList then ['[', ']'] else []) ++ [';']))
      (.word (targetType c.mapping f) :: ((if f.isList then [.mark '[', .mark ']'] else [])
        ++ [.mark ';'])) := by
    cases f.isList
    all_goals exact .name htype (fun _ => rfl) (by decide) (by decide)
  have hpiece := (piece_docComment f.documentation memberIndent_spaces).append
    (((hindent.append hfield).append htarget).line (by simp))
  have hmark : (if rendersOptional c.relationsOptional f then "?" else "").toList
      = if rendersOptional c.relationsOptional f then ['?'] else [] := by
    split <;> rfl
  have hlist : (if f.isList then "[]" else "").toList
      = if f.isList then ['[', ']'] else [] := by
    split <;> rfl
  simpa [fieldLine, member, memberTokens, hmark, hlist] using hpiece

def headTokens (name : String) : ModelStyle → List Token
  | .interfaces => [.word "export", .word "interface", .word name, .mark '\x7b']
  | .typeAliases => [.word "export", .word "type", .word name, .mark '=', .mark '\x7b']

theorem piece_modelHead (style : ModelStyle) {name : String} (h : isName name = true) :
    Piece (modelHead style name).toList (headTokens name style) := by
  cases style with
  | interfaces =>
      have hwords := part_export (show isName "interface" = true by decide)
      have hhead : Part (name.toList ++ [' ', '\x7b']) [.word name, .mark '\x7b'] :=
        .name h (fun _ => rfl) (by decide) (by decide)
      show Piece ("export interface " ++ name ++ " \x7b\n").toList _
      simpa [headTokens] using (hwords.append hhead).line (by simp)
  | typeAliases =>
      have hwords := part_export (show isName "type" = true by decide)
      have hhead : Part (name.toList ++ [' ', '=', ' ', '\x7b'])
          [.word name, .mark '=', .mark '\x7b'] :=
        .name h (fun _ => rfl) (by decide) (by decide)
      show Piece ("export type " ++ name ++ " = \x7b\n").toList _
      simpa [headTokens] using (hwords.append hhead).line (by simp)

def modelTokens (c : Config) (m : Model) : List Token :=
  headTokens m.name c.modelStyle ++ m.fields.flatMap (memberTokens c) ++ [.mark '\x7d']

theorem piece_modelBlock {c : Config} {m : Model} (hname : isName m.name = true)
    (hfields : ∀ f ∈ m.fields, isName f.name = true ∧ isName (targetType c.mapping f) = true) :
    Piece (modelBlock c m) (modelTokens c m) := by
  have hdoc := piece_docComment m.documentation (List.forall_mem_nil _)
  have hlines : Piece (m.fields.flatMap (fieldLine c)) (m.fields.flatMap (memberTokens c)) := by
    apply Piece.flatMap
    intro f hf
    exact piece_fieldLine (hfields f hf).1 (hfields f hf).2
  have hend : Part ['\x7d'] [.mark '\x7d'] := ⟨rfl, by decide, by decide⟩
  have hpiece := ((hdoc.append (piece_modelHead c.modelStyle hname)).append hlines).append
    (hend.line (by simp))
  simpa [modelBlock, modelTokens] using hpiece

/-! ## What the tokens spell -/

def Decl.ofEnum (e : EnumType) : Decl :=
  .enum e.name (e.members.map EnumMember.name)

/-- The member that a field stands for. Scalars go through the mapping, and relations are optional
where the configuration says so. -/
def Member.ofField (c : Config) (f : Field) : Member where
  name := f.name
  optional := !f.isRequired || (f.kind = .object && c.relationsOptional)
  type := if f.kind = .scalar then (c.mapping.get? f.typeName).getD f.typeName else f.typeName
  list := f.isList

def Decl.ofModel (c : Config) (m : Model) : Decl :=
  .record m.name (m.fields.map (Member.ofField c))

/-- Members are read one after the other, up to the mark that closes their declaration. -/
theorem declsFrom_members {α β : Type} {inside : List β → Inside} {spelling : α → List Token}
    {value : α → β} {decl : List β → Decl} {closing : Token} {rest : List Token}
    (hmember : ∀ done x more, declsFrom (inside done) (spelling x ++ more)
      = declsFrom (inside (done ++ [value x])) more)
    (hclose : ∀ done, declsFrom (inside done) (closing :: rest)
      = (declsFrom .file rest).map (decl done :: ·)) (done : List β) (xs : List α) :
    declsFrom (inside done) (xs.flatMap spelling ++ closing :: rest)
      = (declsFrom .file rest).map (decl (done ++ xs.map value) :: ·) := by
  induction xs generalizing done with
  | nil =>
      rw [List.map_nil, List.append_nil]
      exact hclose done
  | cons x xs ih =>
      calc declsFrom (inside done) ((x :: xs).flatMap spelling ++ closing :: rest)
          = declsFrom (inside done) (spelling x ++ (xs.flatMap spelling ++ closing :: rest)) := by
            rw [List.flatMap_cons, List.append_assoc]
        _ = declsFrom (inside (done ++ [value x])) (xs.flatMap spelling ++ closing :: rest) :=
            hmember done x _
        _ = (declsFrom .file rest).map (decl (done ++ [value x] ++ xs.map value) :: ·) := ih _
        _ = (declsFrom .file rest).map (decl (done ++ (x :: xs).map value) :: ·) := by simp

theorem spells_enumTokens (style : EnumStyle) (e : EnumType) :
    Spells (enumTokens style e) [Decl.ofEnum e] := by
  intro rest
  cases style with
  | enums =>
      have hmember : ∀ values m more,
          declsFrom (.enum e.name values) (enumMemberTokens m ++ more)
            = declsFrom (.enum e.name (values ++ [m.name])) more := by
        intro values m more
        exact if_pos rfl
      rw [enumTokens, List.append_assoc]
      exact declsFrom_members hmember (fun _ => rfl) [] e.members
  | unions =>
      have hmember : ∀ values (m : EnumMember) more,
          declsFrom (.union e.name values) ([.mark '|', .text m.name] ++ more)
            = declsFrom (.union e.name (values ++ [m.name])) more := by
        intro values m more
        rfl
      rw [enumTokens, List.append_assoc]
      -- A union without members is spelled by a word of its own.
      cases hmembers : e.members with
      | nil =>
          simp only [Decl.ofEnum, hmembers]
          rfl
      | cons m members =>
          simp only [Decl.ofEnum, hmembers]
          exact declsFrom_members hmember (fun _ => rfl) [m.name] members

theorem memberTokens_eq (c : Config) (f : Field) :
    memberTokens c f
      = .word (Member.ofField c f).name
        :: ((if (Member.ofField c f).optional then [.mark '?'] else [])
          ++ .mark ':' :: .word (Member.ofField c f).type
          :: ((if (Member.ofField c f).list then [.mark '[', .mark ']'] else [])
            ++ [.mark ';'])) := by
  have htype : targetType c.mapping f = (Member.ofField c f).type := by
    cases hkind : f.kind <;> simp [targetType, Member.ofField, hkind, TypeMapping.resolve]
  have hoptional : rendersOptional c.relationsOptional f = (Member.ofField c f).optional := by
    simp [rendersOptional, Member.ofField, Field.isRelation]
  rw [memberTokens, htype, hoptional]
  rfl

theorem declsFrom_member (name : String) (members : List Member) (m : Member)
    (rest : List Token) :
    declsFrom (.record name members)
        (.word m.name :: ((if m.optional then [.mark '?'] else []) ++ .mark ':' :: .word m.type
          :: ((if m.list then [.mark '[', .mark ']'] else []) ++ [.mark ';'])) ++ rest)
      = declsFrom (.record name (members ++ [m])) rest := by
  rcases m with ⟨field, optional, type, list⟩
  cases optional <;> cases list <;> rfl

theorem spells_modelTokens (c : Config) (m : Model) :
    Spells (modelTokens c m) [Decl.ofModel c m] := by
  intro rest
  have hmember : ∀ members f more,
      declsFrom (.record m.name members) (memberTokens c f ++ more)
        = declsFrom (.record m.name (members ++ [Member.ofField c f])) more := by
    intro members f more
    rw [memberTokens_eq, declsFrom_member]
  have hfields : declsFrom (.record m.name [])
        (m.fields.flatMap (memberTokens c) ++ .mark '\x7d' :: rest)
      = (declsFrom .file rest).map (Decl.ofModel c m :: ·) :=
    declsFrom_members hmember (fun _ => rfl) [] m.fields
  rw [modelTokens, List.append_assoc, List.append_assoc]
  cases c.modelStyle with
  | interfaces | typeAliases =>
      exact hfields

/-! ## Names of accepted texts -/

theorem isNamePart_of_isWordPart {c : Char} (h : isWordPart c = true) : isNamePart c = true := by
  have hrange : (97 ≤ c.toNat ∧ c.toNat ≤ 122) ∨ (65 ≤ c.toNat ∧ c.toNat ≤ 90) ∨ c.toNat = 95 ∨
      (48 ≤ c.toNat ∧ c.toNat ≤ 57) := by
    simp only [isWordPart, isWordStart, isLetter, isDigit, Bool.or_eq_true, Bool.and_eq_true,
      decide_eq_true_eq] at h
    rcases h with ((h | h) | rfl) | h
    · exact .inl h
    · exact .inr (.inl h)
    · exact .inr (.inr (.inl rfl))
    · exact .inr (.inr (.inr h))
  have hblank : isBlank c = false := by
    simp [isBlank, Text.inRanges, Text.blankRanges]
    omega
  have hsign : Text.inRanges signRanges c = false := by
    simp [Text.inRanges, signRanges]
    omega
  simp [isNamePart, hblank, hsign]

theorem isName_of_isIdentifier {s : String} (h : isIdentifier s.toList = true) :
    isName s = true := by
  cases hs : s.toList with
  | nil =>
      simp [hs, isIdentifier] at h
  | cons c rest =>
      rw [hs, isIdentifier, Bool.and_eq_true, List.all_eq_true] at h
      have hstart : isWordPart c = true := by simp [isWordPart, h.1]
      have hnonempty : s.isEmpty = false := by
        cases hempty : s.isEmpty with
        | false =>
            rfl
        | true =>
            simp [String.isEmpty_iff.1 hempty] at hs
      have hall : ∀ d ∈ c :: rest, isNamePart d = true := by
        intro d hd
        rcases List.mem_cons.1 hd with rfl | hd
        · exact isNamePart_of_isWordPart hstart
        · exact isNamePart_of_isWordPart (h.2 d hd)
      simp only [isName, hnonempty, hs, List.all_eq_true.2 hall]
      rfl

end TypeScript

open TypeScript (isName isName_of_isIdentifier)

theorem Outline.isName_nameOf {n name : Node} {rest : List Node}
    (hchildren : n.children = name :: rest) (h : Fits (.call .identifier) [name]) :
    isName (nameOf n) = true := by
  rcases (Fits.token_iff rfl).1 h with ⟨place, text, s, tail, hscan, hname⟩
  cases hname
  apply isName_of_isIdentifier
  simpa [nameOf, hchildren, word] using Grammar.scanIdentifier_isIdentifier hscan

/-- All names that a block declares are words by themselves. -/
structure Header.Named (k : Header) : Prop where
  name : isName k.name = true
  entries : ∀ entry ∈ k.entries, isName entry = true

/-- The entries of a block are named if each of its declarations is. -/
theorem Outline.isName_entries {n name : Node} {items : List Node} {item entry : Grammar.Rule}
    (R : BodyRules item entry) (hchildren : n.children = name :: items)
    (hname : Fits (.call .identifier) [name]) (hitems : ∀ i ∈ items, Fits (.call item) [i])
    (hentry : ∀ {i}, Fits (.call entry) [i] → isName (nameOf i) = true) :
    ∀ word ∈ (n.children.filter (·.rule = entry)).map nameOf, isName word = true := by
  intro word hmem
  rw [R.filter_children hchildren hname] at hmem
  rcases List.mem_map.1 hmem with ⟨i, hi, rfl⟩
  rcases List.mem_filter.1 hi with ⟨hi, hrule⟩
  exact hentry (R.fits_entry (hitems i hi) (of_decide_eq_true hrule))

theorem Header.named_of_fits {n : Node} {k : Header}
    (h : Fits (.choice (.call .documentation) (.call .definition)) [n])
    (hk : headerOfNode? n = some k) : k.Named := by
  rcases Fits.topLevel_iff.1 h with h | h | h | h | h
  · simp [headerOfNode?, h.rule_of_node (.inl rfl)] at hk
  · rcases h.modelBlock with ⟨hrule, name, items, hchildren, hname, hitems⟩
    simp only [headerOfNode?, hrule, Option.some.injEq] at hk
    subst hk
    refine ⟨Outline.isName_nameOf hchildren hname, ?_⟩
    apply Outline.isName_entries .model hchildren hname hitems
    intro i hi
    rcases hi.field.2 with ⟨field, _, _, hparts, hfield, -, -⟩
    exact Outline.isName_nameOf hparts hfield
  · rcases h.enumBlock with ⟨hrule, name, items, hchildren, hname, hitems⟩
    simp only [headerOfNode?, hrule, Option.some.injEq] at hk
    subst hk
    refine ⟨Outline.isName_nameOf hchildren hname, ?_⟩
    apply Outline.isName_entries .enum hchildren hname hitems
    intro i hi
    rcases hi.enumValue.2 with ⟨value, _, hparts, hvalue, -⟩
    exact Outline.isName_nameOf hparts hvalue
  · simp [headerOfNode?, h.rule_of_node (.inl rfl)] at hk
  · simp [headerOfNode?, h.skippedBlock.1] at hk

theorem Header.named_of_matchRule {input : List Char} {nodes : List Node}
    (h : matchRule .schema input = .ok nodes) : ∀ k ∈ headersOf nodes, k.Named := by
  rcases Grammar.matchRule_eq_ok_iff.1 h with ⟨m, hm, rfl⟩
  rcases hm.fits.schema with ⟨tree, blocks, stop, htree, hchildren, hstop, hblocks⟩
  intro k hk
  have hmem : k ∈ (blocks ++ [stop]).filterMap headerOfNode? := by
    simpa [headersOf, htree, hchildren] using hk
  rcases List.mem_filterMap.1 hmem with ⟨n, hn, hheader⟩
  rcases List.mem_append.1 hn with hn | hn
  · exact Header.named_of_fits (hblocks n hn) hheader
  · rw [List.mem_singleton.1 hn] at hheader
    simp [headerOfNode?, hstop] at hheader

/-- Every name in the schema is a word by itself. -/
structure Schema.Named (s : Schema) : Prop where
  enums : ∀ e ∈ s.enums, isName e.name = true ∧ ∀ m ∈ e.members, isName m.name = true
  models : ∀ m ∈ s.models, isName m.name = true ∧ ∀ f ∈ m.fields, isName f.name = true
  types : ∀ m ∈ s.models, ∀ f ∈ m.fields, isName f.typeName = true

theorem isName_typeName_of_matchRule {text : String} {nodes : List Node} {s : Schema}
    (hnodes : matchRule .schema text.toList = .ok nodes)
    (h : (Schema.parse text).result = .ok s) :
    ∀ m ∈ s.models, ∀ f ∈ m.fields, isName f.typeName = true := by
  rcases Outline.ofNodes_of_matchRule hnodes (Text.byteLength text.toList) with
    ⟨tree, inner, stop, blocks, -, -, -, hblocks, hall⟩
  have hparse : Schema.parse text = Schema.ofOutline blocks :=
    Schema.parseChars_of_blocks (Schema.outlineOf_of_nodes hnodes hblocks)
  rw [hparse] at h
  have htypes : ∀ b ∈ blocks, ∀ decl ∈ b.fieldDecls, isIdentifier decl.typeName.toList = true :=
    ((List.forall₂_and_left _ _).1 (hall.imp fun _ _ h => ⟨h.isIdentifier_typeName, h⟩)).1
  intro m hm f hf
  rcases Schema.declaredIn_ofOutline h m hm f hf with ⟨b, hb, decl, hdecl, hcore⟩
  have hname : f.typeName = decl.typeName :=
    (congrArg Field.typeName hcore).trans (Field.ofDecl_typeName decl)
  rw [hname]
  exact isName_of_isIdentifier (htypes b hb decl hdecl)

theorem Schema.named_of_parse {text : String} {s : Schema}
    (h : (Schema.parse text).result = .ok s) : s.Named := by
  cases hnodes : matchRule .schema text.toList with
  | error f =>
      rw [parse_of_failure hnodes] at h
      cases h
  | ok nodes =>
      have hheaders := Header.named_of_matchRule hnodes
      have hdeclares := ((result_of_matchRule hnodes).2 s h).2
      refine ⟨?_, ?_, isName_typeName_of_matchRule hnodes h⟩
      · intro e he
        have hmem := List.mem_map_of_mem (f := Header.ofEnum) he
        rw [hdeclares.2] at hmem
        have hnamed := hheaders _ (List.mem_of_mem_filter hmem)
        refine ⟨hnamed.name, ?_⟩
        intro m hm
        exact hnamed.entries _ (List.mem_map_of_mem hm)
      · intro m hm
        have hmem := List.mem_map_of_mem (f := Header.ofModel) hm
        rw [hdeclares.1] at hmem
        have hnamed := hheaders _ (List.mem_of_mem_filter hmem)
        refine ⟨hnamed.name, ?_⟩
        intro f hf
        exact hnamed.entries _ (List.mem_map_of_mem hf)

/-! ## Files -/

namespace TypeScript

/-- The declarations that a file should hold. -/
def declsOf (c : Config) (s : Schema) : List Decl :=
  s.enums.map Decl.ofEnum ++ s.models.map (Decl.ofModel c)

/-- The blocks of a file below its heading. -/
def blocksOf (c : Config) (s : Schema) : List (List Char) :=
  s.enums.map (enumBlock c.enumStyle) ++ s.models.map (modelBlock c)

theorem emitChars_eq (c : Config) (s : Schema) :
    emitChars c s = heading.toList ++ (blocksOf c s).flatMap ('\n' :: ·) := by
  simp [emitChars, blocksOf, List.flatMap_map]

theorem isName_targetType {c : Config} {f : Field}
    (hmapping : ∀ e ∈ c.mapping.entries, isName e.2 = true) (h : isName f.typeName = true) :
    isName (targetType c.mapping f) = true := by
  unfold targetType
  split
  · unfold TypeMapping.resolve
    cases hget : c.mapping.get? f.typeName with
    | none =>
        exact h
    | some target =>
        exact hmapping _ (Members.mem_of_get? hget)
  · exact h
  · exact h

/-- The block is made of whole lines that spell the declaration. -/
def BlockFor (block : List Char) (d : Decl) : Prop :=
  ∃ ts, Piece block ts ∧ Spells ts [d]

theorem forall₂_blocksOf {c : Config} {s : Schema} (hs : s.Named)
    (hmapping : ∀ e ∈ c.mapping.entries, isName e.2 = true) :
    List.Forall₂ BlockFor (blocksOf c s) (declsOf c s) := by
  have henums : List.Forall₂ BlockFor (s.enums.map (enumBlock c.enumStyle))
      (s.enums.map Decl.ofEnum) := by
    rw [List.forall₂_map_left_iff, List.forall₂_map_right_iff, List.forall₂_same]
    intro e he
    rcases hs.enums e he with ⟨hname, hmembers⟩
    exact ⟨_, piece_enumBlock c.enumStyle hname hmembers, spells_enumTokens c.enumStyle e⟩
  have hmodels : List.Forall₂ BlockFor (s.models.map (modelBlock c))
      (s.models.map (Decl.ofModel c)) := by
    rw [List.forall₂_map_left_iff, List.forall₂_map_right_iff, List.forall₂_same]
    intro m hm
    rcases hs.models m hm with ⟨hname, hfields⟩
    refine ⟨_, piece_modelBlock hname ?_, spells_modelTokens c m⟩
    intro f hf
    exact ⟨hfields f hf, isName_targetType hmapping (hs.types m hm f hf)⟩
  exact List.rel_append henums hmodels

section Blocks

variable {blocks : List (List Char)} {ds : List Decl}

theorem solid_of_forall₂ (h : List.Forall₂ BlockFor blocks ds) : ∀ b ∈ blocks, Solid b := by
  induction h with
  | nil =>
      simp
  | cons hblock _ ih =>
      intro b hb
      rcases List.mem_cons.1 hb with rfl | hb
      · rcases hblock with ⟨ts, hpiece, -⟩
        exact hpiece.solid
      · exact ih b hb

/-- Each block by itself is read as its declaration. -/
theorem map_decls?_of_forall₂ (h : List.Forall₂ BlockFor blocks ds) :
    blocks.map (fun b => decls? (String.ofList b)) = ds.map (fun d => some [d]) := by
  induction h with
  | nil =>
      rfl
  | cons hblock _ ih =>
      rcases hblock with ⟨ts, hpiece, hspells⟩
      rw [List.map_cons, List.map_cons, ih, decls?_of_lexes hpiece.lexes hspells]

theorem exists_tokens_of_forall₂ (h : List.Forall₂ BlockFor blocks ds) :
    ∃ ts, Lexes (blocks.flatMap ('\n' :: ·)) ts ∧ Spells ts ds := by
  induction h with
  | nil =>
      exact ⟨[], .nil, .nil⟩
  | cons hblock _ ih =>
      rcases hblock with ⟨ts, hpiece, hspells⟩
      rcases ih with ⟨us, hlexes, hrest⟩
      have hbreak : Lexes ['\n'] [] := by
        refine .of_withoutComments ['\n'] ?_ rfl
        intro rest
        exact withoutComments_line List.not_mem_nil rest
      exact ⟨ts ++ us, (hbreak.append hpiece.lexes).append hlexes, hspells.append hrest⟩

end Blocks

theorem piece_heading : Piece heading.toList [] := by
  have hfirst : Piece ('/' :: '/' :: " This file is auto-generated by prisma-extractor.".toList
      ++ ['\n']) [] := .remark (by decide) (by decide)
  have hsecond : Piece ('/' :: '/' :: " Do not edit this file directly.".toList ++ ['\n']) [] :=
    .remark (by decide) (by decide)
  have hpiece := hfirst.append hsecond
  simpa [heading] using hpiece

end TypeScript

open TypeScript (emit heading chunks decls? declsOf)

/-- Let every target of the type mapping be one word. Then the file for an accepted text is its
heading and one block after each blank line, the enums before the models. A reader that drops all
comments finds in each block the one declaration that the schema has for it, and in the whole file
the declarations of the schema in their order, whatever the documentation says. -/
theorem emitted_declarations_read_back (text : String) (s : Schema) (c : Config)
    (h : (Schema.parse text).result = .ok s)
    (hmapping : ∀ e ∈ c.mapping.entries, isName e.2 = true) :
    ∃ blocks : List (List Char),
      (emit c s).toList = heading.toList ++ blocks.flatMap ('\n' :: ·) ∧
      chunks (emit c s).toList = heading.toList :: blocks ∧
      blocks.map (fun b => decls? (String.ofList b)) = (declsOf c s).map (fun d => some [d]) ∧
      decls? (emit c s) = some (declsOf c s) := by
  have hblocks := TypeScript.forall₂_blocksOf (Schema.named_of_parse h) hmapping
  have htext : (emit c s).toList
      = heading.toList ++ (TypeScript.blocksOf c s).flatMap ('\n' :: ·) := by
    rw [emit, String.toList_ofList, TypeScript.emitChars_eq]
  refine ⟨TypeScript.blocksOf c s, htext, ?_, TypeScript.map_decls?_of_forall₂ hblocks, ?_⟩
  · rw [htext]
    exact TypeScript.chunks_of_solid TypeScript.piece_heading.solid
      (TypeScript.solid_of_forall₂ hblocks)
  · rcases TypeScript.exists_tokens_of_forall₂ hblocks with ⟨ts, hlexes, hspells⟩
    rw [emit, TypeScript.emitChars_eq]
    exact TypeScript.decls?_of_lexes (TypeScript.piece_heading.lexes.append hlexes) hspells

/-- Documentation that tries to end its comment and to open another one. -/
def hostileDocumentation : String :=
  "/// */ /* x\n///\n/// y */\nmodel A\x7br R? /// */ type\na A[]\nn Int\x7d\n" ++
    "enum R\x7bX\nY\x7d"

theorem emitted_declarations_read_back_hostile :
    ∃ s, (Schema.parse hostileDocumentation).result = .ok s ∧
      s.models.map Model.documentation = [some "*/ /* x\n\ny */"] ∧
      decls? (emit {} s) = some [.enum "R" ["X", "Y"],
        .record "A" [⟨"r", true, "R", false⟩, ⟨"a", true, "A", true⟩,
          ⟨"n", false, "number", false⟩]] := by
  have hexists : ∃ s, (Schema.parse hostileDocumentation).result = .ok s ∧
      s.models.map Model.documentation = [some "*/ /* x\n\ny */"] ∧
      declsOf {} s = [.enum "R" ["X", "Y"],
        .record "A" [⟨"r", true, "R", false⟩, ⟨"a", true, "A", true⟩,
          ⟨"n", false, "number", false⟩]] :=
    exists_of_check (by decide +kernel)
  rcases hexists with ⟨s, hparse, hdocumentation, hdecls⟩
  have htargets : ∀ e ∈ ({} : Config).mapping.entries, isName e.2 = true := by
    decide +kernel
  rcases emitted_declarations_read_back _ s {} hparse htargets with ⟨blocks, -, -, -, hread⟩
  rw [hdecls] at hread
  exact ⟨s, hparse, hdocumentation, hread⟩

end PrismaTypes
