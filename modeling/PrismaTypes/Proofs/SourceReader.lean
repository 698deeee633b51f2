import PrismaTypes.TypeScript.Declaration

/-!
# A reader for declarations

What a generated file says, told from its text alone:

* `chunks` cuts a text at its blank lines;
* `withoutComments` drops every comment, up to the first mark that ends it;
* `tokens` cuts what is left into words, quoted texts and marks;
* `decls?` reads the declarations that these spell, enums in both styles and records in both.

The lemmas say what a piece of text contributes, whatever stands behind it: `Solid` pieces have no
blank line, `Lexes` pieces give their tokens, and `Spells` lists of tokens give their declarations.
All three hold of pieces put together as soon as they hold of each. Lines are put together of parts
(`Part`) and become pieces of a file (`Piece`) with the break that ends them.
-/

namespace PrismaTypes
namespace TypeScript

open Text (isBlank)

section FlatMap

variable {α β γ : Type} {xs : List α}

/-- What holds of pieces and of any two that are put together holds of a whole list of them. -/
theorem flatMap_of_append₂ {R : List β → List γ → Prop} (hnil : R [] [])
    (happend : ∀ {s t s' t'}, R s t → R s' t' → R (s ++ s') (t ++ t')) {f : α → List β}
    {g : α → List γ} (h : ∀ x ∈ xs, R (f x) (g x)) : R (xs.flatMap f) (xs.flatMap g) := by
  induction xs with
  | nil =>
      exact hnil
  | cons x xs ih =>
      rw [List.flatMap_cons, List.flatMap_cons]
      apply happend (h x (by simp))
      apply ih
      intro y hy
      exact h y (by simp [hy])

theorem flatMap_of_append {P : List β → Prop} (hnil : P [])
    (happend : ∀ {s t}, P s → P t → P (s ++ t)) {f : α → List β} (h : ∀ x ∈ xs, P (f x)) :
    P (xs.flatMap f) :=
  flatMap_of_append₂ (R := fun s (_ : List β) => P s) (g := fun _ => []) hnil happend h

end FlatMap

/-! ## Chunks -/

/-- The parts of a text between blank lines. The finished lines of the current part are given, and
what is read of its last line. -/
def chunksFrom (chunk line : List Char) : List Char → List (List Char)
  | [] => [chunk ++ line]
  | c :: rest =>
      if c = '\n' then
        if line.all isBlank then chunk :: chunksFrom [] [] rest
        else chunksFrom (chunk ++ line ++ ['\n']) [] rest
      else chunksFrom chunk (line ++ [c]) rest

def chunks (s : List Char) : List (List Char) :=
  chunksFrom [] [] s

/-- Finished lines, none of them blank. -/
inductive Solid : List Char → Prop
  | nil : Solid []
  | line {line rest : List Char} (hbreak : '\n' ∉ line) (hfull : line.all isBlank = false)
      (hrest : Solid rest) : Solid (line ++ '\n' :: rest)

theorem Solid.append {s t : List Char} (hs : Solid s) (ht : Solid t) : Solid (s ++ t) := by
  induction hs with
  | nil =>
      exact ht
  | line hbreak hfull _ ih =>
      simpa using Solid.line hbreak hfull ih

theorem chunksFrom_line {line : List Char} (h : '\n' ∉ line) (chunk done rest : List Char) :
    chunksFrom chunk done (line ++ '\n' :: rest)
      = if (done ++ line).all isBlank then chunk :: chunksFrom [] [] rest
        else chunksFrom (chunk ++ done ++ line ++ ['\n']) [] rest := by
  induction line generalizing done with
  | nil =>
      simp [chunksFrom]
  | cons c line ih =>
      have hc : c ≠ '\n' := fun heq => h (by simp [heq])
      have hline : '\n' ∉ line := fun hmem => h (by simp [hmem])
      rw [List.cons_append, chunksFrom, if_neg hc, ih hline]
      simp

/-- A solid piece joins the current chunk. -/
theorem Solid.chunksFrom {s : List Char} (hs : Solid s) (chunk rest : List Char) :
    chunksFrom chunk [] (s ++ rest) = chunksFrom (chunk ++ s) [] rest := by
  induction hs generalizing chunk with
  | nil =>
      simp
  | @line line tail hbreak hfull _ ih =>
      rw [List.append_assoc, List.cons_append, chunksFrom_line hbreak, List.nil_append, hfull]
      simp [ih]

/-- Solid blocks after one blank line each are the chunks of a text. -/
theorem chunks_of_solid {head : List Char} {blocks : List (List Char)} (hhead : Solid head)
    (hblocks : ∀ b ∈ blocks, Solid b) :
    chunks (head ++ blocks.flatMap ('\n' :: ·)) = head :: blocks := by
  induction blocks generalizing head with
  | nil =>
      rw [chunks, hhead.chunksFrom]
      simp [chunksFrom]
  | cons b blocks ih =>
      have hrest := ih (hblocks b (by simp)) fun b' hb' => hblocks b' (by simp [hb'])
      rw [chunks, hhead.chunksFrom]
      simpa [chunksFrom, chunks] using hrest

/-! ## Comments -/

mutual

/-- The text without its comments. -/
def withoutComments : List Char → List Char
  | '/' :: '*' :: rest => afterComment rest
  | c :: rest => c :: withoutComments rest
  | [] => []

/-- The same for a text that starts inside a comment. -/
def afterComment : List Char → List Char
  | '*' :: '/' :: rest => withoutComments rest
  | _ :: rest => afterComment rest
  | [] => []

end

theorem withoutComments_cons {c : Char} {rest : List Char}
    (h : c = '/' → rest.head? ≠ some '*') :
    withoutComments (c :: rest) = c :: withoutComments rest := by
  rw [withoutComments]
  rintro tail rfl rfl
  exact h rfl rfl

/-- A line without stars opens no comment. -/
theorem withoutComments_line {line : List Char} (h : '*' ∉ line) (rest : List Char) :
    withoutComments (line ++ '\n' :: rest) = line ++ '\n' :: withoutComments rest := by
  induction line with
  | nil =>
      exact withoutComments_cons (by simp)
  | cons c line ih =>
      have hline : '*' ∉ line := fun hmem => h (by simp [hmem])
      rw [List.cons_append, withoutComments_cons, ih hline, List.cons_append]
      intro _
      cases line with
      | nil =>
          simp
      | cons d line =>
          simpa [eq_comm] using fun heq : d = '*' => hline (by simp [heq])

/-- Inside a comment the piece is passed over, whatever follows it. -/
def Inert (s : List Char) : Prop :=
  ∀ rest, afterComment (s ++ rest) = afterComment rest

theorem afterComment_cons {c : Char} {rest : List Char} (h : c = '*' → rest.head? ≠ some '/') :
    afterComment (c :: rest) = afterComment rest := by
  rw [afterComment]
  rintro tail rfl rfl
  exact h rfl rfl

/-- Each star of the piece has a character of the piece behind it, and that is no slash. So no end
mark stands in the piece, and none starts at its end. -/
def Quiet : List Char → Prop
  | [] => True
  | c :: rest => (c = '*' → ∃ d, rest.head? = some d ∧ d ≠ '/') ∧ Quiet rest

theorem Quiet.append {s t : List Char} (hs : Quiet s) (ht : Quiet t) : Quiet (s ++ t) := by
  induction s with
  | nil =>
      exact ht
  | cons c s ih =>
      refine ⟨fun hc => ?_, ih hs.2⟩
      obtain ⟨d, hd, hslash⟩ := hs.1 hc
      exact ⟨d, by simp [hd], hslash⟩

theorem Quiet.inert {s : List Char} (h : Quiet s) : Inert s := by
  intro rest
  induction s with
  | nil =>
      rfl
  | cons c s ih =>
      rw [List.cons_append, afterComment_cons, ih h.2]
      intro hc
      obtain ⟨d, hd, hslash⟩ := h.1 hc
      simpa [hd] using hslash

/-- A piece without slashes is quiet, if something other than a star or a slash ends it. -/
theorem quiet_of_no_slash {s : List Char} {last : Char} (hs : '/' ∉ s) (hstar : last ≠ '*')
    (hslash : last ≠ '/') : Quiet (s ++ [last]) := by
  induction s with
  | nil =>
      exact ⟨fun heq => absurd heq hstar, trivial⟩
  | cons c s ih =>
      have hrest : '/' ∉ s := fun hmem => hs (by simp [hmem])
      refine ⟨fun _ => ?_, ih hrest⟩
      cases s with
      | nil =>
          exact ⟨last, rfl, hslash⟩
      | cons d s =>
          exact ⟨d, rfl, fun heq => hrest (by simp [heq])⟩

theorem head?_breakMarks (s : List Char) : (breakMarks s).head? = s.head? := by
  fun_cases breakMarks s <;> simp

/-- Broken marks end no comment. -/
theorem quiet_breakMarks (s : List Char) {last : Char} (hstar : last ≠ '*')
    (hslash : last ≠ '/') : Quiet (breakMarks s ++ [last]) := by
  fun_induction breakMarks s with
  | case1 s ih =>
      exact ⟨fun _ => ⟨'\\', rfl, by decide⟩, by simp, by simp, ih⟩
  | case2 c s hother ih =>
      refine ⟨?_, ih⟩
      rintro rfl
      -- A star before a slash would have been broken.
      cases s with
      | nil =>
          exact ⟨last, rfl, hslash⟩
      | cons d s =>
          refine ⟨d, by simp [head?_breakMarks], ?_⟩
          rintro rfl
          exact hother s rfl rfl
  | case3 =>
      exact ⟨fun heq => absurd heq hstar, trivial⟩

/-! ## Tokens -/

inductive Token
  | word (s : String)
  | text (s : String)
  | mark (c : Char)
  deriving DecidableEq, Repr

/-- The signs of ASCII without the underscore and the dollar sign. -/
def signRanges : List (Nat × Nat) :=
  [(0x21, 0x23), (0x25, 0x2F), (0x3A, 0x40), (0x5B, 0x5E), (0x60, 0x60), (0x7B, 0x7E)]

/-- May stand in a word: all letters and digits, and whatever else is neither blank nor a sign. -/
def isNamePart (c : Char) : Bool :=
  !isBlank c && !Text.inRanges signRanges c

/-- One word by itself. -/
def isName (s : String) : Bool :=
  !s.isEmpty && s.toList.all isNamePart

/-- Where a character finds the reader. -/
inductive Mode
  | between
  | word (done : List Char)
  | text (done : List Char)
  | slash
  /-- In a comment up to the end of the line. -/
  | remark

namespace Mode

/-- The tokens that are finished with a character between two tokens. -/
def start (c : Char) : List Token × Mode :=
  if isBlank c then ([], between)
  else if isNamePart c then ([], word [c])
  else if c = '"' then ([], text [])
  else if c = '/' then ([], slash)
  else ([.mark c], between)

def step : Mode → Char → List Token × Mode
  | between, c => start c
  | word done, c =>
      if isNamePart c then ([], word (done ++ [c]))
      else (.word (String.ofList done) :: (start c).1, (start c).2)
  | text done, c =>
      if c = '"' then ([.text (String.ofList done)], between) else ([], text (done ++ [c]))
  | slash, c => if c = '/' then ([], remark) else (.mark '/' :: (start c).1, (start c).2)
  | remark, c => if c = '\n' then ([], between) else ([], remark)

/-- The tokens that are finished within a text. -/
def run : Mode → List Char → List Token × Mode
  | m, [] => ([], m)
  | m, c :: rest =>
      let next := run (m.step c).2 rest
      ((m.step c).1 ++ next.1, next.2)

/-- The token that the end of the text finishes. An open text is never finished. -/
def finish : Mode → Option (List Token)
  | between => some []
  | word done => some [.word (String.ofList done)]
  | text _ => none
  | slash => some [.mark '/']
  | remark => some []

theorem run_append (m : Mode) (s t : List Char) :
    m.run (s ++ t) = ((m.run s).1 ++ ((m.run s).2.run t).1, ((m.run s).2.run t).2) := by
  induction s generalizing m with
  | nil =>
      rfl
  | cons c s ih =>
      simp [run, ih]

/-- Names collect in one word. -/
theorem run_word {done s : List Char} (h : s.all isNamePart = true) :
    (word done).run s = ([], word (done ++ s)) := by
  induction s generalizing done with
  | nil =>
      simp [run]
  | cons c s ih =>
      rw [List.all_cons, Bool.and_eq_true] at h
      simp [run, step, h.1, ih h.2]

theorem run_text {done s : List Char} (h : '"' ∉ s) :
    (text done).run s = ([], text (done ++ s)) := by
  induction s generalizing done with
  | nil =>
      simp [run]
  | cons c s ih =>
      have hc : c ≠ '"' := fun heq => h (by simp [heq])
      have hs : '"' ∉ s := fun hmem => h (by simp [hmem])
      simp [run, step, hc, ih hs]

end Mode

theorem isBlank_of_isNamePart {c : Char} (h : isNamePart c = true) : isBlank c = false := by
  simpa using (Bool.and_eq_true_iff.1 h).1

theorem ne_of_isNamePart {c d : Char} (h : isNamePart c = true) (hd : isNamePart d = false) :
    c ≠ d := by
  rintro rfl
  rw [h] at hd
  cases hd

theorem isNamePart_of_isName {s : String} (h : isName s = true) {c : Char} (hc : c ∈ s.toList) :
    isNamePart c = true :=
  List.all_eq_true.1 (Bool.and_eq_true_iff.1 h).2 c hc

theorem not_mem_of_isName {s : String} (h : isName s = true) {d : Char}
    (hd : isNamePart d = false) : d ∉ s.toList :=
  fun hmem => ne_of_isNamePart (isNamePart_of_isName h hmem) hd rfl

/-- A name is open until something else follows it. -/
theorem Mode.run_name {s : String} (h : isName s = true) :
    between.run s.toList = ([], word s.toList) := by
  have hall := (Bool.and_eq_true_iff.1 h).2
  cases hs : s.toList with
  | nil =>
      have hempty : s.isEmpty = true := by simpa using hs
      simp [isName, hempty] at h
  | cons c rest =>
      rw [hs] at hall
      obtain ⟨hc, hrest⟩ := by simpa using hall
      have hblank := isBlank_of_isNamePart hc
      have hword : (word [c]).run rest = ([], word (c :: rest)) :=
        run_word (by simpa using hrest)
      simp [run, step, start, hblank, hc, hword]

/-- The tokens of a text with all comments left out. -/
def tokens (s : List Char) : Option (List Token) :=
  let read := Mode.between.run (withoutComments s)
  read.2.finish.map (read.1 ++ ·)

/-- The piece gives the tokens, whatever follows it. -/
def Lexes (s : List Char) (ts : List Token) : Prop :=
  ∀ rest, tokens (s ++ rest) = (tokens rest).map (ts ++ ·)

namespace Lexes

theorem nil : Lexes [] [] := by
  intro rest
  simp

theorem append {s t : List Char} {ts us : List Token} (hs : Lexes s ts) (ht : Lexes t us) :
    Lexes (s ++ t) (ts ++ us) := by
  intro rest
  rw [List.append_assoc, hs, ht, Option.map_map]
  simp [Function.comp_def]

theorem tokens_eq {s : List Char} {ts : List Token} (h : Lexes s ts) : tokens s = some ts := by
  have hs := h []
  rw [List.append_nil] at hs
  rw [hs]
  simp [tokens, withoutComments, Mode.run, Mode.finish]

/-- The tokens of a piece are found in what is left of it without comments. -/
theorem of_withoutComments {s : List Char} {ts : List Token} (kept : List Char)
    (hkept : ∀ rest, withoutComments (s ++ rest) = kept ++ withoutComments rest)
    (hrun : Mode.between.run kept = (ts, .between)) : Lexes s ts := by
  intro rest
  simp only [tokens, hkept, Mode.run_append, hrun, Option.map_map, Function.comp_def,
    List.append_assoc]

end Lexes

/-! ## Lines -/

theorem Mode.run_blank {s : List Char} (h : s.all isBlank = true) :
    between.run s = ([], between) := by
  induction s with
  | nil =>
      rfl
  | cons c s ih =>
      rw [List.all_cons, Bool.and_eq_true] at h
      simp [run, step, start, h.1, ih h.2]

/-- Part of a line with the tokens that begin and end in it. -/
structure Part (s : List Char) (ts : List Token) : Prop where
  run : Mode.between.run s = (ts, .between)
  noBreak : '\n' ∉ s
  noStar : '*' ∉ s

namespace Part

theorem nil : Part [] [] :=
  ⟨rfl, by simp, by simp⟩

theorem append {s t : List Char} {ts us : List Token} (hs : Part s ts) (ht : Part t us) :
    Part (s ++ t) (ts ++ us) := by
  refine ⟨?_, by simp [hs.noBreak, ht.noBreak], by simp [hs.noStar, ht.noStar]⟩
  rw [Mode.run_append, hs.run, ht.run]

theorem flatMap {α : Type} {f : α → List Char} {g : α → List Token} {xs : List α}
    (h : ∀ x ∈ xs, Part (f x) (g x)) : Part (xs.flatMap f) (xs.flatMap g) :=
  flatMap_of_append₂ nil append h

/-- A name with what ends it. -/
theorem name {s : String} {t : List Char} {ts : List Token} (h : isName s = true)
    (hrun : ∀ done, (Mode.word done).run t = (.word (String.ofList done) :: ts, .between))
    (hbreak : '\n' ∉ t) (hstar : '*' ∉ t) : Part (s.toList ++ t) (.word s :: ts) := by
  refine ⟨?_, ?_, ?_⟩
  · rw [Mode.run_append, Mode.run_name h, hrun, String.ofList_toList]
    rfl
  · simp [not_mem_of_isName h (show isNamePart '\n' = false by decide), hbreak]
  · simp [not_mem_of_isName h (show isNamePart '*' = false by decide), hstar]

theorem spaced {s : String} (h : isName s = true) : Part (s.toList ++ [' ']) [.word s] :=
  name h (fun _ => rfl) (by decide) (by decide)

theorem quoted {s : String} (h : isName s = true) :
    Part ('"' :: s.toList ++ ['"']) [.text s] := by
  have hquote : '"' ∉ s.toList := not_mem_of_isName h (by decide)
  refine ⟨?_, ?_, ?_⟩
  · have hopen : Mode.between.run ['"'] = ([], .text []) := rfl
    have hclose : (Mode.text s.toList).run ['"'] = ([.text s], .between) := by
      simp [Mode.run, Mode.step]
    have hinner : (Mode.text []).run (s.toList ++ ['"']) = ([.text s], .between) := by
      rw [Mode.run_append, Mode.run_text hquote]
      exact hclose
    rw [← List.singleton_append, List.append_assoc, Mode.run_append, hopen, hinner]
    rfl
  · simp [not_mem_of_isName h (show isNamePart '\n' = false by decide)]
  · simp [not_mem_of_isName h (show isNamePart '*' = false by decide)]

end Part

/-- Whole lines with the tokens in them. -/
structure Piece (s : List Char) (ts : List Token) : Prop where
  solid : Solid s
  lexes : Lexes s ts

namespace Piece

theorem nil : Piece [] [] :=
  ⟨.nil, .nil⟩

theorem append {s t : List Char} {ts us : List Token} (hs : Piece s ts) (ht : Piece t us) :
    Piece (s ++ t) (ts ++ us) :=
  ⟨hs.solid.append ht.solid, hs.lexes.append ht.lexes⟩

theorem flatMap {α : Type} {f : α → List Char} {g : α → List Token} {xs : List α}
    (h : ∀ x ∈ xs, Piece (f x) (g x)) : Piece (xs.flatMap f) (xs.flatMap g) :=
  flatMap_of_append₂ nil append h

end Piece

theorem Part.line {s : List Char} {ts : List Token} (h : Part s ts) (hts : ts ≠ []) :
    Piece (s ++ ['\n']) ts := by
  refine ⟨.line h.noBreak ?_ .nil, .of_withoutComments (s ++ ['\n']) ?_ ?_⟩
  · -- A blank line has no tokens.
    cases hblank : s.all isBlank with
    | false =>
        rfl
    | true =>
        have hrun := Mode.run_blank hblank
        rw [h.run] at hrun
        exact absurd (Prod.mk.inj hrun).1 hts
  · intro rest
    rw [List.append_assoc, List.singleton_append, withoutComments_line h.noStar]
    simp
  · rw [Mode.run_append, h.run]
    simp [Mode.run, Mode.step, show Mode.start '\n' = ([], .between) from rfl]

theorem Mode.run_remark {s : List Char} (h : '\n' ∉ s) : remark.run s = ([], remark) := by
  induction s with
  | nil =>
      rfl
  | cons c s ih =>
      have hc : c ≠ '\n' := fun heq => h (by simp [heq])
      have hs : '\n' ∉ s := fun hmem => h (by simp [hmem])
      simp [run, step, hc, ih hs]

/-- A line after two slashes has no tokens. -/
theorem Piece.remark {s : List Char} (hbreak : '\n' ∉ s) (hstar : '*' ∉ s) :
    Piece ('/' :: '/' :: s ++ ['\n']) [] := by
  refine ⟨.line (by simp [hbreak]) ?_ .nil, .of_withoutComments ('/' :: '/' :: s ++ ['\n']) ?_ ?_⟩
  · have hslash : isBlank '/' = false := by decide
    simp [hslash]
  · intro rest
    have hslashes : '*' ∉ '/' :: '/' :: s := by simp [hstar]
    simpa using withoutComments_line hslashes rest
  · have hslashes : Mode.between.run ['/', '/'] = ([], .remark) := rfl
    have hsplit : '/' :: '/' :: s ++ ['\n'] = ['/', '/'] ++ (s ++ ['\n']) := rfl
    rw [hsplit, Mode.run_append, hslashes, Mode.run_append, Mode.run_remark hbreak]
    rfl

/-! ## Declarations -/

/-- A member of a record, such as `posts?: Post[]`. -/
structure Member where
  name : String
  optional : Bool
  type : String
  list : Bool
  deriving DecidableEq, Repr

inductive Decl
  | enum (name : String) (values : List String)
  | record (name : String) (members : List Member)
  deriving DecidableEq, Repr

/-- What the next token belongs to, with the parts that are already read. -/
inductive Inside
  | file
  /-- Behind the word that every declaration starts with. -/
  | declaration
  | enum (name : String) (values : List String)
  /-- Behind the equals sign of a type. -/
  | alias (name : String)
  | union (name : String) (values : List String)
  | record (name : String) (members : List Member)
  /-- Behind the colon of a member. -/
  | member (name : String) (members : List Member) (field : String) (optional : Bool)

/-- The declarations that tokens spell, with nothing before, between and after them. -/
def declsFrom : Inside → List Token → Option (List Decl)
  | .file, [] => some []
  | .file, .word "export" :: rest => declsFrom .declaration rest
  | .declaration, .word "enum" :: .word name :: .mark '\x7b' :: rest =>
      declsFrom (.enum name []) rest
  | .declaration, .word "interface" :: .word name :: .mark '\x7b' :: rest =>
      declsFrom (.record name []) rest
  | .declaration, .word "type" :: .word name :: .mark '=' :: rest => declsFrom (.alias name) rest
  | .alias name, .mark '\x7b' :: rest => declsFrom (.record name []) rest
  | .alias name, .word "never" :: .mark ';' :: rest =>
      (declsFrom .file rest).map (.enum name [] :: ·)
  | .alias name, .text value :: rest => declsFrom (.union name [value]) rest
  | .enum name values, .word key :: .mark '=' :: .text value :: .mark ',' :: rest =>
      if key = value then declsFrom (.enum name (values ++ [value])) rest else none
  | .enum name values, .mark '\x7d' :: rest => (declsFrom .file rest).map (.enum name values :: ·)
  | .union name values, .mark '|' :: .text value :: rest =>
      declsFrom (.union name (values ++ [value])) rest
  | .union name values, .mark ';' :: rest => (declsFrom .file rest).map (.enum name values :: ·)
  | .record name members, .word field :: .mark ':' :: rest =>
      declsFrom (.member name members field false) rest
  | .record name members, .word field :: .mark '?' :: .mark ':' :: rest =>
      declsFrom (.member name members field true) rest
  | .record name members, .mark '\x7d' :: rest =>
      (declsFrom .file rest).map (.record name members :: ·)
  | .member name members field optional, .word type :: .mark ';' :: rest =>
      declsFrom (.record name (members ++ [⟨field, optional, type, false⟩])) rest
  | .member name members field optional,
    .word type :: .mark '[' :: .mark ']' :: .mark ';' :: rest =>
      declsFrom (.record name (members ++ [⟨field, optional, type, true⟩])) rest
  | _, _ => none

/-- The declarations of a source text. -/
def decls? (source : String) : Option (List Decl) :=
  (tokens source.toList).bind (declsFrom .file)

/-- The tokens of a piece spell the declarations, whatever follows them. -/
def Spells (ts : List Token) (ds : List Decl) : Prop :=
  ∀ rest, declsFrom .file (ts ++ rest) = (declsFrom .file rest).map (ds ++ ·)

namespace Spells

theorem nil : Spells [] [] := by
  intro rest
  simp

theorem append {ts us : List Token} {ds es : List Decl} (ht : Spells ts ds) (hu : Spells us es) :
    Spells (ts ++ us) (ds ++ es) := by
  intro rest
  rw [List.append_assoc, ht, hu, Option.map_map]
  simp [Function.comp_def]

end Spells

/-- Pieces whose tokens spell declarations are read as these. -/
theorem decls?_of_lexes {s : List Char} {ts : List Token} {ds : List Decl} (hs : Lexes s ts)
    (ht : Spells ts ds) : decls? (String.ofList s) = some ds := by
  have hds := ht []
  rw [List.append_nil] at hds
  rw [decls?, String.toList_ofList, hs.tokens_eq, Option.bind_some, hds,
    show declsFrom .file [] = some [] from rfl]
  simp

end TypeScript
end PrismaTypes
