import Mathlib.Data.List.Induction
import Mathlib.Data.List.TakeWhile
import PrismaTypes.Proofs.AlikeOutlines
import PrismaTypes.TypeScript.Declaration

/-!
# Line endings

A text whose lines end in a line feed may as well end them in a carriage return and a line feed. The
change touches blanks, comments and the ends of documentation lines, but no word, so that it is a
change of layout (`lineEndings`). The main result is `parse_withReturns`: the schema stays the same,
documentation included, as long as no string literal is broken across lines.
-/

namespace PrismaTypes

open Grammar
open Text (Place SameRows isBlank lineFeeds trimEnd)

/-! ## Carriage returns -/

namespace Text

/-- The text with a carriage return before every line feed. -/
def withReturns (s : List Char) : List Char :=
  s.flatMap fun c => if c = '\n' then ['\r', '\n'] else [c]

@[simp] theorem withReturns_nil : withReturns [] = [] := rfl

@[simp] theorem withReturns_append (u w : List Char) :
    withReturns (u ++ w) = withReturns u ++ withReturns w :=
  List.flatMap_append

theorem withReturns_feed (s : List Char) :
    withReturns ('\n' :: s) = '\r' :: '\n' :: withReturns s := rfl

theorem withReturns_cons {c : Char} (hc : c ≠ '\n') (s : List Char) :
    withReturns (c :: s) = c :: withReturns s := by
  simp [withReturns, hc]

theorem withReturns_eq_self {s : List Char} (h : '\n' ∉ s) : withReturns s = s := by
  induction s with
  | nil =>
      rfl
  | cons c s ih =>
      have hc : c ≠ '\n' ∧ '\n' ∉ s := by simpa [eq_comm] using h
      rw [withReturns_cons hc.1, ih hc.2]

@[simp] theorem lineFeeds_withReturns (s : List Char) :
    lineFeeds (withReturns s) = lineFeeds s := by
  induction s with
  | nil =>
      rfl
  | cons c s ih =>
      by_cases hc : c = '\n'
      · subst hc
        simpa [withReturns_feed, lineFeeds] using ih
      · simpa [withReturns_cons hc, lineFeeds, hc] using ih

theorem trimEnd_withReturns (s : List Char) :
    trimEnd (withReturns s) = withReturns (trimEnd s) := by
  induction s using List.reverseRecOn with
  | nil =>
      rfl
  | append_singleton s c ih =>
      rw [withReturns_append]
      by_cases hc : c = '\n'
      · subst hc
        have hfeed : ∀ d ∈ ['\n'], isBlank d = true := List.forall_mem_singleton.2 rfl
        have hbreak : ∀ d ∈ withReturns ['\n'], isBlank d = true :=
          List.forall_mem_cons.2 ⟨rfl, hfeed⟩
        rw [trimEnd_append_blanks _ hbreak, trimEnd_append_blanks _ hfeed, ih]
      rw [withReturns_cons hc, withReturns_nil]
      by_cases hblank : isBlank c = true
      · have hend : ∀ d ∈ [c], isBlank d = true := by simpa using hblank
        rw [trimEnd_append_blanks _ hend, trimEnd_append_blanks _ hend, ih]
      · have hsolid : isBlank c = false := by simpa using hblank
        rw [trimEnd_concat hsolid, trimEnd_concat hsolid, withReturns_append, withReturns_cons hc,
          withReturns_nil]

theorem sameRows_withReturns (g : List Char) : SameRows g (withReturns g) := by
  constructor
  · rw [lineFeeds_withReturns]
  · rw [trimEnd_withReturns, lineFeeds_withReturns, lineFeeds_withReturns]

end Text

open Text (withReturns)

/-! ## The change of layout -/

/-- Up to the end of the line nothing changes. -/
theorem agree_withReturns (s : List Char) : Agree s (withReturns s) := by
  refine ⟨s.takeWhile (· ≠ '\n'), s.dropWhile (· ≠ '\n'), withReturns (s.dropWhile (· ≠ '\n')),
    by simp, ?_, ?_⟩
  · have hline : '\n' ∉ s.takeWhile (· ≠ '\n') := fun hmem => by
      simpa using List.mem_takeWhile_imp hmem
    conv_lhs => rw [← List.takeWhile_append_dropWhile (p := (· ≠ '\n')) (l := s)]
    rw [Text.withReturns_append, Text.withReturns_eq_self hline]
  · -- What is left starts with the line feed.
    cases hrest : s.dropWhile (· ≠ '\n') with
    | nil =>
        exact ⟨rfl, rfl, fun _ => rfl⟩
    | cons c rest =>
        have hc : c = '\n' := by
          have hnot := List.head?_dropWhile_not (fun c : Char => decide (c ≠ '\n')) s
          rw [hrest] at hnot
          simpa using hnot
        subst hc
        exact ⟨rfl, rfl, fun _ => rfl⟩

theorem splitBlanks_withReturns (inComment : Bool) (s : List Char) (hs : '\r' ∉ s) :
    splitBlanks inComment (withReturns s) =
      (withReturns (splitBlanks inComment s).1, withReturns (splitBlanks inComment s).2) := by
  induction s generalizing inComment with
  | nil =>
      rfl
  | cons c s ih =>
      have hrest : '\r' ∉ s := fun hmem => hs (by simp [hmem])
      by_cases hc : c = '\n'
      · -- Carriage return and line feed are blank, and the first of them ends a comment.
        subst hc
        rw [Text.withReturns_feed]
        cases inComment <;>
          simp [splitBlanks, isSpace, isLineBreak, Scan.push, ih false hrest, Text.withReturns_feed]
      · have hopens : opensComment (c :: withReturns s) = opensComment (c :: s) := by
          have hagree := (agree_withReturns (c :: s)).opensComment
          rwa [Text.withReturns_cons hc] at hagree
        rw [Text.withReturns_cons hc, splitBlanks, splitBlanks, hopens]
        split
        · simp [Scan.push, ih _ hrest, Text.withReturns_cons hc]
        split
        · simp [Scan.push, ih _ hrest, Text.withReturns_cons hc]
        split
        · simp [Scan.push, ih _ hrest, Text.withReturns_cons hc]
        · simp [Text.withReturns_cons hc]

theorem gap_withReturns {s : List Char} (hs : '\r' ∉ s) :
    gap false (withReturns s) = (withReturns (gap false s).1, withReturns (gap false s).2) :=
  splitBlanks_withReturns false s hs

/-- A carriage return before every line feed. -/
def lineEndings : Relayout where
  holds _ s s' := '\r' ∉ s ∧ s' = withReturns s
  keeps _ w := '\n' ∉ w
  whole := True
  agree := by
    rintro _ s _ ⟨-, rfl⟩
    exact agree_withReturns s
  word := by
    rintro _ w r _ ⟨hreturn, rfl⟩ hw
    have hline : '\n' ∉ w := fun hmem => absurd (hw '\n' hmem) (by decide)
    refine ⟨withReturns r, ?_, fun hmem => hreturn (by simp [hmem]), rfl⟩
    rw [Text.withReturns_append, Text.withReturns_eq_self hline]
  string := by
    rintro _ w r _ ⟨hreturn, rfl⟩ - hline
    refine ⟨withReturns r, ?_, fun hmem => hreturn (by simp [hmem]), rfl⟩
    rw [Text.withReturns_append, Text.withReturns_eq_self hline]
  blanks := by
    rintro _ s _ ⟨hreturn, rfl⟩ -
    refine ⟨fun hmem => hreturn ?_, by rw [gap_withReturns hreturn]⟩
    rw [← gap_splits false s]
    exact List.mem_append_right _ hmem
  rows := by
    rintro _ s _ ⟨hreturn, rfl⟩ -
    rw [gap_withReturns hreturn]
    exact Text.sameRows_withReturns _

/-! ## Schemas -/

/-- A text without carriage returns that is accepted, and in which no string literal goes over more
than one line, is accepted with both characters at the end of each line, too. It gives the same
schema, with the same documentation, and so the same declarations under every configuration. -/
theorem parse_withReturns (text : String) (s : Schema) (hreturn : '\r' ∉ text.toList)
    (hparse : (Schema.parse text).result = .ok s)
    (hliterals : ∀ n ∈ Schema.stringLiterals text.toList, '\n' ∉ n.text) :
    (Schema.parse (String.ofList (withReturns text.toList))).result = .ok s ∧
      ∀ c, (Schema.parse (String.ofList (withReturns text.toList))).result.map (TypeScript.emit c)
        = .ok (TypeScript.emit c s) := by
  obtain ⟨ns, hblocks, hstrings⟩ := Schema.exists_blocks hparse
  have hholds : lineEndings.holds (({} : Place).advance (gap false text.toList).1)
      (gap false text.toList).2 (gap false (withReturns text.toList)).2 :=
    lineEndings.blanks ⟨hreturn, rfl⟩ (.inr trivial)
  obtain ⟨ns', hblocks', hsame⟩ := hblocks.relaid_topLevel (L := lineEndings) trivial
    (fun h => h.2) hholds (gap_idem _) (gap_idem _) (fun n hn => hliterals n (hstrings n hn))
    (({} : Place).advance (gap false (withReturns text.toList)).1)
  have hresult : (Schema.parse (String.ofList (withReturns text.toList))).result = .ok s := by
    rw [Schema.parse, String.toList_ofList, hblocks.result_eq hblocks' hsame]
    exact hparse
  exact ⟨hresult, fun c => by rw [hresult]; rfl⟩

/-- Documentation before and behind a field, next to a comment and a string literal. -/
def documentedLines : String :=
  "/// A\n///\nmodel A\x7b\n n Int /// n\n // c\n /// t\n t String @default(\"x\")\n\x7d\n"

theorem parse_withReturns_documented :
    ∃ s, (Schema.parse documentedLines).result = .ok s ∧
      s.models.map Model.documentation = [some "A\n"] ∧
      s.models.map (fun m => m.fields.map Field.documentation) = [[some "n", some "t"]] ∧
      '\r' ∉ documentedLines.toList ∧
      (Schema.parse (String.ofList (withReturns documentedLines.toList))).result = .ok s := by
  have hexists : ∃ s, (Schema.parse documentedLines).result = .ok s ∧
      s.models.map Model.documentation = [some "A\n"] ∧
      s.models.map (fun m => m.fields.map Field.documentation) = [[some "n", some "t"]] :=
    exists_of_check (by decide +kernel)
  obtain ⟨s, hparse, hmodel, hfields⟩ := hexists
  have hreturn : '\r' ∉ documentedLines.toList := by decide +kernel
  have hliterals : ∀ n ∈ Schema.stringLiterals documentedLines.toList, '\n' ∉ n.text := by
    decide +kernel
  exact ⟨s, hparse, hmodel, hfields, hreturn,
    (parse_withReturns documentedLines s hreturn hparse hliterals).1⟩

end PrismaTypes
