import Mathlib.Data.List.Forall2
import PrismaTypes.Proofs.SourceReading

/-!
# The text of a documentation comment

What a comment says, and that it is one comment whatever the documentation holds:

* `Trimmed` and `LinesOf` say what is left of a text without the blanks around it, and into which
  lines it falls;
* `Broken` relates a line to its text in a comment by the pieces between the end marks, so it says
  nothing about how the marks are found;
* `Laid` gives the rows of a comment for the texts of its lines;
* `IsDocComment` puts together what makes a text the comment of a documentation.

A comment is written for every documentation that is not blank, and it is well formed.
-/

namespace PrismaTypes
namespace TypeScript

open Text (isBlank joinWith)

/-! ## Trimmed texts and lines -/

/-- What is left of a text without the blanks around it. -/
structure Trimmed (s t : List Char) : Prop where
  around : ∃ before after, s = before ++ t ++ after ∧
    (∀ c ∈ before, isBlank c = true) ∧ ∀ c ∈ after, isBlank c = true
  first : ∀ c, t.head? = some c → isBlank c = false
  last : ∀ c, t.getLast? = some c → isBlank c = false

theorem isBlank_of_head?_dropWhile {s : List Char} {c : Char}
    (h : (s.dropWhile isBlank).head? = some c) : isBlank c = false := by
  have hnot := List.head?_dropWhile_not isBlank s
  rw [h] at hnot
  exact hnot

theorem isBlank_of_mem_takeWhile {s : List Char} {c : Char} (h : c ∈ s.takeWhile isBlank) :
    isBlank c = true :=
  List.all_eq_true.1 List.all_takeWhile c h

theorem eq_trimEnd_append (s : List Char) :
    s = Text.trimEnd s ++ (s.reverse.takeWhile isBlank).reverse := by
  rw [Text.trimEnd, ← List.reverse_append, List.takeWhile_append_dropWhile, List.reverse_reverse]

theorem trimmed_trim (s : List Char) : Trimmed s (Text.trim s) := by
  have hend := eq_trimEnd_append (Text.trimStart s)
  refine ⟨⟨s.takeWhile isBlank, ((Text.trimStart s).reverse.takeWhile isBlank).reverse, ?_, ?_, ?_⟩,
    ?_, ?_⟩
  · rw [Text.trim, List.append_assoc, ← hend]
    exact List.takeWhile_append_dropWhile.symm
  · intro c hc
    exact isBlank_of_mem_takeWhile hc
  · intro c hc
    exact isBlank_of_mem_takeWhile (List.mem_reverse.1 hc)
  · -- Trimming the end keeps the first character.
    intro c hc
    apply isBlank_of_head?_dropWhile (s := s)
    change (Text.trimStart s).head? = some c
    rw [hend, List.head?_append, ← Text.trim, hc]
    rfl
  · intro c hc
    apply isBlank_of_head?_dropWhile (s := (Text.trimStart s).reverse)
    rwa [Text.trim, Text.trimEnd, List.getLast?_reverse] at hc

theorem Trimmed.eq_nil_iff {s t : List Char} (h : Trimmed s t) :
    t = [] ↔ ∀ c ∈ s, isBlank c = true := by
  obtain ⟨before, after, rfl, hbefore, hafter⟩ := h.around
  constructor
  · rintro rfl c hc
    rw [List.append_nil] at hc
    exact (List.mem_append.1 hc).elim (hbefore c) (hafter c)
  · intro hblank
    cases t with
    | nil =>
        rfl
    | cons c t =>
        have hmark := h.first c rfl
        rw [hblank c (by simp)] at hmark
        cases hmark

/-- The lines of a text. A line feed ends a line, together with a carriage return before it, and
the text behind the last line feed is a line unless it is empty. -/
inductive LinesOf : List Char → List (List Char) → Prop
  | nil : LinesOf [] []
  | last {line : List Char} (hline : '\n' ∉ line) (hfilled : line ≠ []) : LinesOf line [line]
  | feed {line rest : List Char} {ls : List (List Char)} (hline : '\n' ∉ line)
      (hreturn : line.getLast? ≠ some '\r') (hrest : LinesOf rest ls) :
      LinesOf (line ++ '\n' :: rest) (line :: ls)
  | returnFeed {line rest : List Char} {ls : List (List Char)} (hline : '\n' ∉ line)
      (hrest : LinesOf rest ls) : LinesOf (line ++ '\r' :: '\n' :: rest) (line :: ls)

theorem LinesOf.dropReturn {line rest : List Char} {ls : List (List Char)} (hline : '\n' ∉ line)
    (h : LinesOf rest ls) :
    LinesOf (line.reverse ++ '\n' :: rest) ((Text.dropReturn line).reverse :: ls) := by
  unfold Text.dropReturn
  split
  · rename_i line
    rw [List.reverse_cons, List.append_assoc]
    exact .returnFeed (by simpa using hline) h
  · rename_i hother
    refine .feed (by simpa using hline) ?_ h
    rw [List.getLast?_reverse]
    intro hhead
    obtain ⟨more, rfl⟩ := List.head?_eq_some_iff.1 hhead
    exact hother more rfl

/-- The line read so far, reversed, belongs to the first line that is given. -/
theorem linesOf_linesFrom {line : List Char} (hline : '\n' ∉ line) (s : List Char) :
    LinesOf (line.reverse ++ s) (Text.linesFrom line s) := by
  induction s generalizing line with
  | nil =>
      rw [Text.linesFrom, List.append_nil]
      split
      · rename_i hempty
        rw [List.isEmpty_iff.1 hempty]
        exact .nil
      · rename_i hfilled
        exact .last (by simpa using hline) (by simpa using hfilled)
  | cons c s ih =>
      rw [Text.linesFrom]
      split
      · rename_i hc
        subst hc
        exact .dropReturn hline (ih List.not_mem_nil)
      · rename_i hc
        have hmore : '\n' ∉ c :: line := by simpa [eq_comm] using ⟨hc, hline⟩
        simpa using ih hmore

theorem linesOf_lines (s : List Char) : LinesOf s (Text.lines s) :=
  linesOf_linesFrom List.not_mem_nil s

theorem LinesOf.eq_nil_iff {s : List Char} {ls : List (List Char)} (h : LinesOf s ls) :
    ls = [] ↔ s = [] := by
  cases h with
  | nil =>
      simp
  | last _ hfilled =>
      simpa using hfilled
  | feed =>
      simp
  | returnFeed =>
      simp

theorem commentLines_eq_nil_iff (doc : List Char) :
    commentLines doc = [] ↔ ∀ c ∈ doc, isBlank c = true := by
  rw [commentLines, List.map_eq_nil_iff, (linesOf_lines _).eq_nil_iff,
    (trimmed_trim doc).eq_nil_iff]

/-! ## Broken marks -/

/-- The text is the line with a backslash in each of its end marks: the pieces between the marks
are kept. -/
def Broken (line text : List Char) : Prop :=
  ∃ piece pieces, (∀ p ∈ piece :: pieces, ¬ ['*', '/'] <:+: p) ∧
    line = joinWith ['*', '/'] (piece :: pieces) ∧
    text = joinWith ['*', '\\', '/'] (piece :: pieces)

theorem joinWith_cons_cons (separator piece : List Char) (c : Char) (pieces : List (List Char)) :
    joinWith separator ((c :: piece) :: pieces) = c :: joinWith separator (piece :: pieces) := by
  cases pieces <;> simp [joinWith]

theorem broken_breakMarks (s : List Char) : Broken s (breakMarks s) := by
  fun_induction breakMarks s with
  | case1 s ih =>
      obtain ⟨piece, pieces, hfree, hline, htext⟩ := ih
      refine ⟨[], piece :: pieces, ?_, ?_, ?_⟩
      · intro p hp
        rcases List.mem_cons.1 hp with rfl | hp
        · simp
        · exact hfree p hp
      · simp [joinWith, ← hline]
      · simp [joinWith, ← htext]
  | case2 c s hother ih =>
      obtain ⟨piece, pieces, hfree, hline, htext⟩ := ih
      refine ⟨c :: piece, pieces, ?_, ?_, ?_⟩
      · intro p hp
        rcases List.mem_cons.1 hp with rfl | hp
        · intro hmark
          rcases List.infix_cons_iff.1 hmark with hstart | hinside
          · -- A mark at the start of the piece would stand at the start of the line.
            obtain ⟨more, hmore⟩ := hstart
            obtain ⟨hstar, rfl⟩ := List.cons.inj hmore
            apply hother (joinWith ['*', '/'] (more :: pieces)) hstar.symm
            rw [hline]
            exact joinWith_cons_cons ['*', '/'] more '/' pieces
          · exact hfree piece (by simp) hinside
        · exact hfree p (by simp [hp])
      · rw [joinWith_cons_cons, ← hline]
      · rw [joinWith_cons_cons, ← htext]
  | case3 =>
      exact ⟨[], [], by simp, rfl, rfl⟩

/-! ## Rows -/

/-- A row between the rows of the marks. A blank line is a bare star. -/
inductive StarRow (indent : List Char) : List Char → List Char → Prop
  | bare : StarRow indent (indent ++ " *".toList) []
  | full {text : List Char} (h : text ≠ []) :
      StarRow indent (indent ++ " * ".toList ++ text) text

/-- The rows of a comment for the texts of its lines: a single text shares its row with the marks,
several texts stand between them. -/
inductive Laid (indent : List Char) : List (List Char) → List (List Char) → Prop
  | one (text : List Char) : Laid indent [indent ++ "/** ".toList ++ text ++ " */".toList] [text]
  | several {rows texts : List (List Char)} (hmany : 2 ≤ texts.length)
      (h : List.Forall₂ (StarRow indent) rows texts) :
      Laid indent ((indent ++ "/**".toList) :: rows ++ [indent ++ " */".toList]) texts

/-- The row is one line that is not empty and starts with the indent. -/
def IsRow (indent row : List Char) : Prop :=
  '\n' ∉ row ∧ row ≠ [] ∧ indent <+: row

theorem IsRow.of_append {indent rest : List Char} (hindent : '\n' ∉ indent) (hrest : '\n' ∉ rest)
    (hfilled : rest ≠ []) : IsRow indent (indent ++ rest) :=
  ⟨by simp [hindent, hrest], by simp [hfilled], List.prefix_append indent rest⟩

theorem StarRow.isRow {indent row text : List Char} (h : StarRow indent row text)
    (hindent : '\n' ∉ indent) (htext : '\n' ∉ text) : IsRow indent row := by
  cases h with
  | bare =>
      exact .of_append hindent (by decide) (by decide)
  | full =>
      rw [List.append_assoc]
      exact .of_append hindent (by simp [htext]) (by simp)

section Laid

variable {indent : List Char} {rows texts : List (List Char)}

theorem isRow_of_starRows (h : List.Forall₂ (StarRow indent) rows texts)
    (hindent : '\n' ∉ indent) (htexts : ∀ text ∈ texts, '\n' ∉ text) :
    ∀ row ∈ rows, IsRow indent row := by
  induction h with
  | nil =>
      simp
  | cons hrow _ ih =>
      intro row hmem
      rcases List.mem_cons.1 hmem with rfl | hmem
      · exact hrow.isRow hindent (htexts _ (by simp))
      · exact ih (fun text htext => htexts text (by simp [htext])) row hmem

theorem Laid.isRow (h : Laid indent rows texts) (hindent : '\n' ∉ indent)
    (htexts : ∀ text ∈ texts, '\n' ∉ text) : ∀ row ∈ rows, IsRow indent row := by
  intro row hrow
  cases h with
  | one text =>
      rw [List.mem_singleton.1 hrow, List.append_assoc, List.append_assoc]
      exact .of_append hindent (by simp [htexts text]) (by simp)
  | several hmany hrows =>
      rcases List.mem_append.1 hrow with hrow | hrow
      · rcases List.mem_cons.1 hrow with rfl | hrow
        · exact .of_append hindent (by decide) (by decide)
        · exact isRow_of_starRows hrows hindent htexts row hrow
      · rw [List.mem_singleton.1 hrow]
        exact .of_append hindent (by decide) (by decide)

theorem Laid.length_eq_one_iff (h : Laid indent rows texts) :
    rows.length = 1 ↔ texts.length = 1 := by
  cases h with
  | one text =>
      simp
  | several hmany hrows =>
      simp only [List.length_append, List.length_cons, List.length_nil]
      omega

end Laid

/-- Each star row is written on a line of its own. -/
theorem exists_starRow (indent line : List Char) :
    ∃ row, StarRow indent row line ∧ starred indent line = row ++ ['\n'] := by
  cases line with
  | nil =>
      exact ⟨_, .bare, by simp [starred]⟩
  | cons c line =>
      exact ⟨_, .full (List.cons_ne_nil c line), by simp [starred]⟩

theorem exists_starRows (indent : List Char) (lines : List (List Char)) :
    ∃ rows, List.Forall₂ (StarRow indent) rows lines ∧
      lines.flatMap (starred indent) = rows.flatMap (· ++ ['\n']) := by
  induction lines with
  | nil =>
      exact ⟨[], .nil, rfl⟩
  | cons line lines ih =>
      obtain ⟨row, hrow, hwritten⟩ := exists_starRow indent line
      obtain ⟨rows, hrows, hrest⟩ := ih
      exact ⟨row :: rows, .cons hrow hrows, by simp [hwritten, hrest]⟩

theorem exists_laid (doc : Option String) (indent : List Char)
    (hsome : commentLines ((doc.map String.toList).getD []) ≠ []) :
    ∃ rows, Laid indent rows (commentLines ((doc.map String.toList).getD [])) ∧
      docComment doc indent = rows.flatMap (· ++ ['\n']) := by
  unfold docComment
  split
  · rename_i hnone
    exact absurd hnone hsome
  · rename_i line hone
    rw [hone]
    exact ⟨_, .one line, by simp⟩
  · rename_i hother
    generalize commentLines ((doc.map String.toList).getD []) = lines at hsome hother
    have hmany : 2 ≤ lines.length := by
      match lines with
      | [] => exact absurd rfl hsome
      | [line] => exact absurd rfl (hother line)
      | _ :: _ :: _ => simp
    obtain ⟨rows, hrows, hwritten⟩ := exists_starRows indent lines
    exact ⟨_, .several hmany hrows, by simp [hwritten]⟩

/-! ## One end mark -/

theorem quiet_of_no_star {s : List Char} (h : '*' ∉ s) : Quiet s := by
  induction s with
  | nil =>
      trivial
  | cons c s ih =>
      refine ⟨?_, ih fun hmem => h (by simp [hmem])⟩
      rintro rfl
      exact absurd (by simp) h

/-- After a quiet piece the first end mark is the one behind it. -/
theorem Quiet.end_unique {body : List Char} (h : Quiet body) {before after : List Char}
    (heq : body ++ ['*', '/', '\n'] = before ++ '*' :: '/' :: after) : after = ['\n'] := by
  induction body generalizing before with
  | nil =>
      match before with
      | [] => simpa using heq.symm
      | [_] => simp at heq
      | [_, _] => simp at heq
      | _ :: _ :: _ :: _ => simp at heq
  | cons c body ih =>
      cases before with
      | nil =>
          -- The mark would start in the piece.
          obtain ⟨rfl, hrest⟩ := List.cons.inj heq
          obtain ⟨d, hd, hslash⟩ := h.1 rfl
          have hhead : (body ++ ['*', '/', '\n']).head? = some '/' := congrArg List.head? hrest
          rw [List.head?_append, hd] at hhead
          exact absurd (Option.some.inj hhead) hslash
      | cons b before =>
          exact ih h.2 (List.cons.inj heq).2

/-! ## Comments -/

/-- The text is one comment that says the documentation. -/
structure IsDocComment (doc indent text : List Char) : Prop where
  /-- The indent and the mark of a documentation comment start it. -/
  opens : indent ++ "/**".toList <+: text
  /-- The end mark and a line feed end it. -/
  closes : "*/\n".toList <:+ text
  /-- No end mark stands before the last. -/
  closes_once : ∀ before after, text = before ++ "*/".toList ++ after → after = ['\n']
  /-- It consists of rows, and these hold the lines of the documentation in order. -/
  content : ∃ whole lines rows texts,
    Trimmed doc whole ∧ LinesOf whole lines ∧
    List.Forall₂ (fun line text => ∃ t, Trimmed line t ∧ Broken t text) lines texts ∧
    Laid indent rows texts ∧ (∀ row ∈ rows, IsRow indent row) ∧
    text = rows.flatMap (· ++ ['\n']) ∧ (rows.length = 1 ↔ lines.length = 1)

theorem broken_commentLines (doc : List Char) :
    List.Forall₂ (fun line text => ∃ t, Trimmed line t ∧ Broken t text)
      (Text.lines (Text.trim doc)) (commentLines doc) := by
  rw [commentLines, List.forall₂_map_right_iff, List.forall₂_same]
  intro line _
  exact ⟨Text.trim line, trimmed_trim line, broken_breakMarks _⟩

theorem isDocComment_docComment (doc : String) {indent : List Char}
    (hindent : ∀ c ∈ indent, c = ' ') (hsome : commentLines doc.toList ≠ []) :
    IsDocComment doc.toList indent (docComment (some doc) indent) := by
  have hbreak : '\n' ∉ indent := not_mem_spaces hindent (by decide)
  obtain ⟨body, hquiet, heq⟩ := exists_quiet_docComment (some doc) hindent hsome
  obtain ⟨rows, hlaid, hrows⟩ := exists_laid (some doc) indent hsome
  -- Up to its end mark the comment is quiet: indent and slash hold no star.
  have hstart : Quiet (indent ++ ['/']) := by
    apply quiet_of_no_star
    simpa using not_mem_spaces hindent (show '*' ≠ ' ' by decide)
  have hstars : Quiet ('*' :: '*' :: body) := ⟨fun _ => ⟨'*', rfl, by decide⟩, hquiet⟩
  constructor
  · rw [heq]
    exact ⟨body ++ ['*', '/', '\n'], by simp⟩
  · rw [heq]
    exact ⟨indent ++ '/' :: '*' :: '*' :: body, by simp⟩
  · intro before after htext
    have hends : (indent ++ ['/'] ++ '*' :: '*' :: body) ++ ['*', '/', '\n']
        = before ++ '*' :: '/' :: after := by
      simpa [heq] using htext
    exact (hstart.append hstars).end_unique hends
  · refine ⟨_, _, rows, _, trimmed_trim _, linesOf_lines _, broken_commentLines _, hlaid, ?_, hrows,
      ?_⟩
    · apply hlaid.isRow hbreak
      intro text htext
      exact (exists_of_mem_commentLines htext).1
    · rw [hlaid.length_eq_one_iff]
      simp [commentLines]

/-- Every documentation that is not blank gets one comment, with its lines in order; a blank one
gets none. -/
theorem docComment_wellFormed (doc : String) (indent : List Char)
    (hindent : ∀ c ∈ indent, c = ' ') :
    (docComment (some doc) indent = [] ↔ ∀ c ∈ doc.toList, isBlank c = true) ∧
      ((∃ c ∈ doc.toList, isBlank c = false) →
        IsDocComment doc.toList indent (docComment (some doc) indent)) := by
  by_cases hblank : ∀ c ∈ doc.toList, isBlank c = true
  · have hnone : commentLines doc.toList = [] := (commentLines_eq_nil_iff _).2 hblank
    have hempty : docComment (some doc) indent = [] := by
      unfold docComment
      rw [Option.map_some, Option.getD_some, hnone]
    refine ⟨iff_of_true hempty hblank, ?_⟩
    rintro ⟨c, hc, hmark⟩
    rw [hblank c hc] at hmark
    cases hmark
  · have hsome : commentLines doc.toList ≠ [] := mt (commentLines_eq_nil_iff _).1 hblank
    have hcomment := isDocComment_docComment doc hindent hsome
    refine ⟨iff_of_false ?_ hblank, fun _ => hcomment⟩
    intro hempty
    obtain ⟨rest, hrest⟩ := hcomment.opens
    simp [hempty] at hrest

/-- Documentation with end marks in its lines, a blank line and both kinds of line ends. -/
def markedDoc : String :=
  " **//\r\n\n a\rb */ "

/-- The marks are broken, the blank line is a bare star, and a single carriage return ends no line.
-/
theorem docComment_wellFormed_marked :
    (∀ c ∈ [' ', ' '], c = ' ') ∧
      docComment (some markedDoc) [' ', ' ']
        = "  /**\n   * **\\//\n   *\n   * a\rb *\\/\n   */\n".toList ∧
      IsDocComment markedDoc.toList [' ', ' '] (docComment (some markedDoc) [' ', ' ']) := by
  have hindent : ∀ c ∈ [' ', ' '], c = ' ' := by simp
  have hmark : ∃ c ∈ markedDoc.toList, isBlank c = false := ⟨'a', by decide, by decide⟩
  exact ⟨hindent, by decide +kernel, (docComment_wellFormed markedDoc [' ', ' '] hindent).2 hmark⟩

end TypeScript
end PrismaTypes
