import Mathlib.Data.List.DropRight
import PrismaTypes.Proofs.MemberPlaces

/-!
# Lines behind an item

A declaration ends with its last word, but the blanks and comments behind that word may belong to
its match: they do unless the word closes an argument list (`Ends`). Rows count line feeds only, and
of blanks at the end of a match no rows count. Both decide whether the line after a declaration
trails it:

* a line trails a declaration only if the last line break before it is a lone carriage return, or
  if there is none;
* a line that starts on the row on which an item ends documents a later declaration only directly
  behind a block attribute, or behind a lone carriage return.
-/

namespace PrismaTypes
namespace Grammar

open Text (Place StandsAt Marked between isBlank)
open Outline (lastRow readDocLine)

/-! ## The last word of an item -/

/-- The place right after the last child. -/
def Node.lastEnds (n : Node) : Place :=
  (n.children.getLast?.map Node.ends).getD n.ends

/-- The place right after the last word of a part of a declaration. -/
def Node.partEnd (part : Node) : Place :=
  if part.rule = .fieldAttribute then part.lastEnds else part.ends

/-- The place right after the last word of a declaration or a block attribute. -/
def Node.wordsEnd (n : Node) : Place :=
  (n.children.getLast?.map Node.partEnd).getD n.ends

/-- The match ends with a word at the place `stop`. Blanks behind the word belong to the match only
if it takes all of them. -/
inductive Ends (place : Place) (m : Match) (stop : Place) : Prop
  | intro {own blanks : List Char} (htaken : m.taken = own ++ blanks) (hmarked : Marked own)
      (hstop : stop = place.advance own)
      (hblanks : blanks = [] ∨ gap false (blanks ++ m.rest) = (blanks, m.rest))

namespace Ends

variable {place stop : Place} {m m₁ m₂ : Match}

theorem closed (h : Marked m.taken) : Ends place m (place.advance m.taken) :=
  .intro (by simp) h rfl (.inl rfl)

/-- A part that may follow is missing, and the blanks in front of it are taken. -/
theorem open_end (h : Marked m.taken) :
    Ends place (m.append (gap false m.rest).1 (.empty (gap false m.rest).2))
      (place.advance m.taken) := by
  have htaken : (m.append (gap false m.rest).1 (.empty (gap false m.rest).2)).taken =
      m.taken ++ (gap false m.rest).1 := by
    simp [Match.append, Match.empty]
  refine .intro htaken h rfl (.inr ?_)
  simp [Match.append, Match.empty, gap_splits]

theorem append {b : List Char} (h : Ends (place.advance (m₁.taken ++ b)) m₂ stop) :
    Ends place (m₁.append b m₂) stop := by
  obtain ⟨htaken, hmarked, hstop, hblanks⟩ := h
  refine .intro ?_ (hmarked.append_left (m₁.taken ++ b)) ?_ hblanks
  · simp [Match.append, htaken]
  · rw [hstop, Place.advance_append _ (m₁.taken ++ b)]

theorem asNode {rule : Rule} (h : Ends place m stop) : Ends place (m.asNode rule place) stop := by
  obtain ⟨htaken, hmarked, hstop, hblanks⟩ := h
  exact .intro htaken hmarked hstop hblanks

end Ends

/-! ## Words -/

section Words

variable {tight : Bool} {place : Place} {s : List Char} {m : Match} {n : Node} {rule : Rule}

theorem Derives.marked_literal {word : List Char}
    (h : Derives tight (.literal word) place s (some m)) (hword : isInk word = true) :
    Marked m.taken := by
  cases h
  exact isInk_marked hword

theorem Derives.marked_token {scan : List Char → Option Scan} (hform : rule.form = .token scan)
    (hdoc : rule ≠ .docText) (hstring : rule ≠ .stringLiteral)
    (h : Derives tight (.call rule) place s (some m)) : Marked m.taken := by
  obtain ⟨x, hx, rfl⟩ := h.of_token_some hform
  exact isInk_marked (Rule.token_ink hform hdoc hstring hx)

theorem Derives.marked_attributeArgs (h : Derives tight (.call .attributeArgs) place s (some m)) :
    Marked m.taken := by
  obtain ⟨m', h', rfl⟩ := h.of_spaced_some rfl
  obtain ⟨m₁, m₂, -, h₂, rfl⟩ := h'.of_seq
  obtain ⟨m₃, m₄, -, h₄, rfl⟩ := h₂.of_seq
  have hparen : Marked m₄.taken := h₄.marked_literal rfl
  exact (hparen.append_left _).append_left _

theorem Derives.marked_fieldType (h : Derives tight (.call .fieldType) place s (some m)) :
    Marked m.taken := by
  obtain ⟨m', h', rfl⟩ := h.of_tight_some rfl
  obtain ⟨m₁, m₂, h₁, h₂, rfl⟩ := h'.of_seq
  rcases h₂.of_optional with h₂ | ⟨-, rfl⟩
  · -- The mark of a list or of an optional type is a word of its own.
    have hmark : Marked m₂.taken := by
      rcases (h₂.of_silent rfl).of_choice with h₂ | ⟨-, h₂⟩ <;>
      · obtain ⟨m₃, h₃, rfl⟩ := h₂.of_spaced_some rfl
        exact h₃.marked_literal rfl
    exact hmark.append_left _
  · have hname : Marked m₁.taken := by
      rcases h₁.of_choice with h₁ | ⟨-, h₁⟩
      · obtain ⟨m₃, h₃, rfl⟩ := h₁.of_tight_some rfl
        obtain ⟨m₄, m₅, -, h₅, rfl⟩ := h₃.of_seq
        obtain ⟨m₆, m₇, -, h₇, rfl⟩ := h₅.of_seq
        obtain ⟨m₈, m₉, -, h₉, rfl⟩ := h₇.of_seq
        have hparen : Marked m₉.taken := h₉.marked_literal rfl
        exact ((hparen.append_left _).append_left _).append_left _
      · exact h₁.marked_token rfl (by decide) (by decide)
    simpa [Match.append, Match.empty, Match.asNode, gap] using hname

end Words

/-! ## Items -/

section Items

variable {tight : Bool} {place : Place} {s : List Char} {m m₁ m₂ : Match} {n : Node} {rule : Rule}
  {body : Pattern}

theorem Derives.node_of_token {scan : List Char → Option Scan} (hform : rule.form = .token scan)
    (h : Derives tight (.call rule) place s (some m)) :
    ∃ part, m.nodes = [part] ∧ part.rule = rule ∧ part.ends = place.advance m.taken := by
  obtain ⟨x, -, rfl⟩ := h.of_token_some hform
  exact ⟨_, rfl, rfl, rfl⟩

theorem Derives.node_of_body (hform : rule.form = .spaced body ∨ rule.form = .tight body)
    (h : Derives tight (.call rule) place s (some m)) :
    ∃ part, m.nodes = [part] ∧ part.rule = rule ∧ part.ends = place.advance m.taken := by
  rcases hform with hform | hform
  · obtain ⟨m', -, rfl⟩ := h.of_spaced_some hform
    exact ⟨_, rfl, rfl, rfl⟩
  · obtain ⟨m', -, rfl⟩ := h.of_tight_some hform
    exact ⟨_, rfl, rfl, rfl⟩

/-- An attribute ends with its arguments or, if it has none, with its name. -/
theorem ends_attribute {mark : String} (hform : rule.form = .spaced (.sequence (.word mark)
      [.call .attributeName, .optional (.call .attributeArgs)]))
    (h : Derives false (.call rule) place s (some m)) (hnodes : m.nodes = [n]) :
    Ends place m n.lastEnds ∧ n.wordsEnd = n.lastEnds := by
  obtain ⟨m', h', rfl⟩ := h.of_spaced_some hform
  obtain ⟨m₁, t₁, h₁, r₁, rfl⟩ := h'.of_seq
  obtain ⟨m₂, m₃, h₂, h₃, rfl⟩ := r₁.of_seq
  obtain ⟨name, hname, hrule, hends⟩ := h₂.node_of_token rfl
  have hchildren : n.children = m₁.nodes ++ (m₂.nodes ++ m₃.nodes) := by
    cases hnodes
    rfl
  rcases h₃.of_optional with h₃ | ⟨-, rfl⟩
  · obtain ⟨args, hargs, hrule, hends⟩ := h₃.node_of_body (.inl rfl)
    have hlast : n.children.getLast? = some args := by simp [hchildren, hargs]
    refine ⟨?_, by simp [Node.wordsEnd, Node.lastEnds, Node.partEnd, hlast, hrule]⟩
    rw [Node.lastEnds, hlast, Option.map_some, Option.getD_some, hends]
    exact .asNode (.append (.append (.closed h₃.marked_attributeArgs)))
  · have hlast : n.children.getLast? = some name := by simp [hchildren, hname, Match.empty]
    refine ⟨?_, by simp [Node.wordsEnd, Node.lastEnds, Node.partEnd, hlast, hrule]⟩
    rw [Node.lastEnds, hlast, Option.map_some, Option.getD_some, hends]
    exact .asNode (.append (.open_end (h₂.marked_token rfl (by decide) (by decide))))

/-- Attributes one after the other end with the last one. -/
theorem ends_attributes (h : Derives false (.many (.call .fieldAttribute)) place s (some m)) :
    m = .empty s ∨ ∃ last, m.nodes.getLast? = some last ∧ last.rule = .fieldAttribute ∧
      Ends place m last.lastEnds := by
  generalize he : Pattern.many (.call .fieldAttribute) = e at h
  generalize ht : false = tight at h
  generalize ho : some m = o at h
  -- On the repetition. Blanks behind an attribute that is not the last one are skipped.
  induction h generalizing m with
  | manyNone h =>
      cases ho
      exact .inl rfl
  | @manyLast _ _ _ _ m₁ _ h₁ h₂ hlast =>
      cases he
      cases ho
      subst ht
      obtain ⟨part, hnodes, hrule, -⟩ := h₁.node_of_body (.inl rfl)
      exact .inr ⟨part, by simp [hnodes], hrule, (ends_attribute rfl h₁ hnodes).1⟩
  | @manyMore _ _ _ _ m₁ m₂ h₁ h₂ hmore ih₁ ih₂ =>
      cases he
      cases ho
      subst ht
      rcases ih₂ rfl rfl rfl with rfl | ⟨last, hlast, hrule, hends⟩
      · exact absurd rfl hmore
      · exact .inr ⟨last, by simp [Match.append, hlast], hrule, hends.append⟩
  | _ =>
      cases he

/-- A part and the attributes after it end with the last attribute or, if there is none, with the
part. -/
theorem ends_of_attributes {part : Node} (hnodes : m₁.nodes = [part])
    (hrule : part.rule ≠ .fieldAttribute) (hends : part.ends = place.advance m₁.taken)
    (hmarked : Marked m₁.taken)
    (h₂ : Derives false (.many (.call .fieldAttribute))
      (place.advance (m₁.taken ++ (gap false m₁.rest).1)) (gap false m₁.rest).2 (some m₂)) :
    ∃ last, (m₁.nodes ++ m₂.nodes).getLast? = some last ∧
      Ends place (m₁.append (gap false m₁.rest).1 m₂) last.partEnd := by
  rcases ends_attributes h₂ with rfl | ⟨last, hlast, hattribute, hstop⟩
  · refine ⟨part, by simp [hnodes, Match.empty], ?_⟩
    rw [Node.partEnd, if_neg hrule, hends]
    exact .open_end hmarked
  · refine ⟨last, by simp [hlast], ?_⟩
    rw [Node.partEnd, if_pos hattribute]
    exact hstop.append

theorem ends_enumValue (h : Derives false (.call .enumValue) place s (some m))
    (hnodes : m.nodes = [n]) : Ends place m n.wordsEnd := by
  obtain ⟨m', h', rfl⟩ := h.of_spaced_some rfl
  obtain ⟨m₁, m₂, h₁, h₂, rfl⟩ := h'.of_seq
  obtain ⟨name, hname, hrule, hends⟩ := h₁.node_of_token rfl
  obtain ⟨last, hlast, hstop⟩ := ends_of_attributes hname (by simp [hrule]) hends
    (h₁.marked_token rfl (by decide) (by decide)) h₂
  have hchildren : n.children = m₁.nodes ++ m₂.nodes := by
    cases hnodes
    rfl
  rw [Node.wordsEnd, hchildren, hlast]
  exact hstop.asNode

theorem ends_field (h : Derives false (.call .field) place s (some m)) (hnodes : m.nodes = [n]) :
    Ends place m n.wordsEnd := by
  obtain ⟨m', h', rfl⟩ := h.of_spaced_some rfl
  obtain ⟨m₀, t₀, h₀, r₀, rfl⟩ := h'.of_seq
  obtain ⟨m₁, m₂, h₁, h₂, rfl⟩ := r₀.of_seq
  obtain ⟨type, htype, hrule, hends⟩ := h₁.node_of_body (.inr rfl)
  obtain ⟨last, hlast, hstop⟩ := ends_of_attributes htype (by simp [hrule]) hends
    h₁.marked_fieldType h₂
  have hchildren : n.children = m₀.nodes ++ (m₁.nodes ++ m₂.nodes) := by
    cases hnodes
    rfl
  rw [Node.wordsEnd, hchildren, List.getLast?_append, hlast]
  exact hstop.append.asNode

theorem ends_blockAttribute (h : Derives false (.call .blockAttribute) place s (some m))
    (hnodes : m.nodes = [n]) : Ends place m n.wordsEnd := by
  obtain ⟨hends, hlast⟩ := ends_attribute rfl h hnodes
  rwa [hlast]

/-- Every member that is no documentation ends with its last word. -/
theorem BodyRules.ends {item entry : Rule} (R : BodyRules item entry)
    (h : Firm false (.call item) place s m) (hnodes : m.nodes = [n])
    (hrule : n.rule ≠ .documentation) : Ends place m n.wordsEnd := by
  rcases R.cases h hnodes with ⟨hdoc, -⟩ | ⟨-, h⟩ | ⟨-, h⟩
  · exact absurd hdoc hrule
  · cases R with
    | model =>
        exact ends_field h.derives hnodes
    | enum =>
        exact ends_enumValue h.derives hnodes
  · exact ends_blockAttribute h.derives hnodes

end Items

/-! ## Blanks -/

/-- Behind every character that is not blank there is a line break. -/
def BreaksClose (g : List Char) : Prop :=
  ∀ u c v, g = u ++ c :: v → isBlank c = false → ∃ d ∈ v, isLineBreak d = true

theorem BreaksClose.cons {c : Char} {g : List Char} (h : BreaksClose g)
    (hc : isBlank c = false → ∃ d ∈ g, isLineBreak d = true) : BreaksClose (c :: g) := by
  intro u d v heq hd
  cases u with
  | nil =>
      cases heq
      exact hc hd
  | cons e u =>
      exact h u d v (List.cons.inj heq).2 hd

/-- In front of a word every comment is closed, also one that is open already. -/
theorem breaksClose_splitBlanks (inComment : Bool) (s : List Char)
    (h : (splitBlanks inComment s).2 ≠ []) :
    BreaksClose (splitBlanks inComment s).1 ∧
      (inComment = true → ∃ d ∈ (splitBlanks inComment s).1, isLineBreak d = true) := by
  fun_induction splitBlanks inComment s with
  | case1 inComment =>
      exact absurd rfl h
  | case2 c rest ih =>
      obtain ⟨hrest, hopen⟩ := ih h
      by_cases hbreak : isLineBreak c = true
      · refine ⟨hrest.cons fun hc => ?_, fun _ => ⟨c, by simp [Scan.push], hbreak⟩⟩
        rw [isLineBreak_of_solid hc] at hbreak
        cases hbreak
      · obtain ⟨d, hd, hclose⟩ := hopen (by simpa using hbreak)
        exact ⟨hrest.cons fun _ => ⟨d, hd, hclose⟩, fun _ => ⟨d, by simp [Scan.push, hd], hclose⟩⟩
  | case3 inComment c rest hcomment hspace ih =>
      refine ⟨(ih h).1.cons fun hc => ?_, fun hopen => absurd hopen hcomment⟩
      rw [isBlank_of_isSpace hspace] at hc
      cases hc
  | case4 inComment c rest hcomment hspace hopens ih =>
      obtain ⟨hrest, hopen⟩ := ih h
      exact ⟨hrest.cons fun _ => hopen rfl, fun hopen => absurd hopen hcomment⟩
  | case5 inComment c rest hcomment hspace hopens =>
      refine ⟨fun u d v heq => ?_, fun hopen => absurd hopen hcomment⟩
      simp at heq

theorem isLineBreak_cases {c : Char} (h : isLineBreak c = true) : c = '\n' ∨ c = '\r' := by
  simpa [isLineBreak] using h

/-- The last line break of a text that has one. -/
theorem exists_last_lineBreak {g : List Char} (h : ∃ c ∈ g, isLineBreak c = true) :
    ∃ u c v, g = u ++ c :: v ∧ isLineBreak c = true ∧ ∀ d ∈ v, isLineBreak d = false := by
  have hfind : (g.reverse.find? isLineBreak).isSome = true := by simpa using h
  obtain ⟨c, hc⟩ := Option.isSome_iff_exists.1 hfind
  obtain ⟨hbreak, v, u, hsplit, hv⟩ := List.find?_eq_some_iff_append.1 hc
  refine ⟨u.reverse, c, v.reverse, ?_, hbreak, by simpa using hv⟩
  rw [← List.reverse_reverse g, hsplit]
  simp

theorem rtakeWhile_append_of_forall {p : Char → Bool} (u : List Char) {w : List Char}
    (h : ∀ c ∈ w, p c = true) : (u ++ w).rtakeWhile p = u.rtakeWhile p ++ w := by
  have hreverse : ∀ c ∈ w.reverse, p c = true := by simpa using h
  rw [List.rtakeWhile, List.reverse_append, List.takeWhile_append_of_pos hreverse]
  simp [List.rtakeWhile]

/-- Blanks and comments that do not end on a new row have a lone carriage return as their last line
break, if they have any. -/
theorem exists_carriageReturn {g : List Char} (hclose : BreaksClose g)
    (hfeed : '\n' ∉ g.rtakeWhile isBlank) (h : ∃ c ∈ g, isLineBreak c = true) :
    ∃ u v, g = u ++ '\r' :: v ∧ ∀ d ∈ v, isLineBreak d = false := by
  obtain ⟨u, c, v, rfl, hc, hv⟩ := exists_last_lineBreak h
  rcases isLineBreak_cases hc with rfl | rfl
  · -- No comment starts behind the last line break, so only blanks follow it.
    have hblank : ∀ d ∈ v, isBlank d = true := by
      intro d hd
      by_contra hsolid
      obtain ⟨a, b, rfl⟩ := List.append_of_mem hd
      obtain ⟨e, he, hbreak⟩ := hclose (u ++ '\n' :: a) d b (by simp) (by simpa using hsolid)
      rw [hv e (by simp [he])] at hbreak
      cases hbreak
    have hall : ∀ d ∈ '\n' :: v, isBlank d = true := by
      simpa using ⟨by decide, hblank⟩
    rw [rtakeWhile_append_of_forall u hall] at hfeed
    simp at hfeed
  · exact ⟨u, v, rfl, hv⟩

theorem lineFeeds_trimEnd_eq_iff (g : List Char) :
    Text.lineFeeds (Text.trimEnd g) = Text.lineFeeds g ↔ '\n' ∉ g.rtakeWhile isBlank := by
  have htrim : Text.trimEnd g = g.rdropWhile isBlank := rfl
  have hsplit : Text.lineFeeds g
      = Text.lineFeeds (g.rdropWhile isBlank) + Text.lineFeeds (g.rtakeWhile isBlank) := by
    rw [← Text.lineFeeds_append, List.rdropWhile_append_rtakeWhile]
  rw [htrim, hsplit, ← List.count_eq_zero]
  simp [Text.lineFeeds]

/-- Behind the last word there are blanks and comments only. Where they belong to the match, no line
feed counts but those behind the last comment. -/
theorem Ends.behind {place stop : Place} {m : Match} (h : Ends place m stop)
    (hnext : (gap false m.rest).2 ≠ []) :
    ∃ own g, m.taken ++ (gap false m.rest).1 = own ++ g ∧ stop = place.advance own ∧
      BreaksClose g ∧ (Text.Level m.taken (gap false m.rest).1
        ↔ '\n' ∉ if place.advance m.taken = stop then g else g.rtakeWhile isBlank) := by
  obtain @⟨own, blanks, htaken, hmarked, rfl, hblanks⟩ := h
  rw [htaken]
  by_cases hnone : blanks = []
  · subst hnone
    refine ⟨own, (gap false m.rest).1, by simp, rfl, ?_, ?_⟩
    · exact (breaksClose_splitBlanks false m.rest hnext).1
    · rw [List.append_nil, if_pos rfl, Text.level_iff hmarked, Text.lineFeeds, List.count_eq_zero]
  · -- The blanks are taken by the match, so that nothing is left in front of what follows.
    have htook : gap false (blanks ++ m.rest) = (blanks, m.rest) := hblanks.resolve_left hnone
    have hleft : gap false m.rest = ([], m.rest) := by
      have hagain := gap_gap (blanks ++ m.rest)
      rwa [htook] at hagain
    rw [hleft] at hnext ⊢
    refine ⟨own, blanks, by simp, rfl, ?_, ?_⟩
    · have hclose := breaksClose_splitBlanks false (blanks ++ m.rest)
      rw [show splitBlanks false (blanks ++ m.rest) = (blanks, m.rest) from htook] at hclose
      exact (hclose hnext).1
    · have hmoved : place.advance (own ++ blanks) ≠ place.advance own := by
        intro heq
        exact hnone (Text.Place.advance_append_eq_iff.1 heq)
      rw [if_neg hmoved, Text.level_append_iff hmarked, lineFeeds_trimEnd_eq_iff]

/-! ## Neighbours -/

/-- Of the blanks and comments `g` behind an item, those whose line feeds put what follows on
another row: all of them, or the blanks behind the last comment where `g` belongs to the item's
match. -/
def Node.rowBlanks (d : Node) (g : List Char) : List Char :=
  if d.ends = d.wordsEnd then g else g.rtakeWhile isBlank

/-- The text between the last word of an item and a line behind it. -/
def Node.textTo (d : Node) (input : List Char) (line : Node) : List Char :=
  between input d.wordsEnd.offset line.place.offset

section Neighbours

variable {input : List Char} {entry : Rule} {prior later : List Node} {d run line : Node}

/-- What stands between an item and the member after it. -/
theorem Body.blanks_behind (h : Body input entry (prior ++ d :: run :: later))
    (hrule : d.rule ≠ .documentation) :
    ∃ g t, StandsAt input d.wordsEnd (g ++ t) ∧ run.place = d.wordsEnd.advance g ∧
      BreaksClose g ∧
      (trails d run = true ↔ run.rule = .documentation ∧ '\n' ∉ d.rowBlanks g) := by
  obtain ⟨item, place, s, r, R, hs, hgap, hruns⟩ := h
  obtain ⟨t, m, ht, -, hm, hnodes, htext, hrest⟩ := hruns.split R.leaves hs hgap
  obtain ⟨hplace, hdoc⟩ := hrest.head R.leaves run rfl
  have hnext : (gap false m.rest).2 ≠ [] := by
    obtain ⟨m', hm', -⟩ := hrest.of_cons R.leaves
    rw [← hm'.derives.splits]
    simp [hm'.derives.taken_ne_nil R.takes.1]
  obtain ⟨own, g, hbehind, hstop, hclose, hlevel⟩ := (R.ends hm hnodes hrule).behind hnext
  refine ⟨g, (gap false m.rest).2, ?_, ?_, hclose, ?_⟩
  · have hsplit : own ++ (g ++ (gap false m.rest).2) = t := by
      rw [← List.append_assoc, ← hbehind, List.append_assoc, gap_splits, hm.derives.splits]
    rw [hstop]
    exact StandsAt.advance (hsplit ▸ ht)
  · rw [hplace, hbehind, hstop, Place.advance_append]
  · rw [trails_iff (a := d) (htext ▸ hplace) hdoc, htext, hlevel, Node.rowBlanks, Node.ends, htext]

/-- The last word of an item lies within it, and its row is at most the one on which its match
ends. -/
theorem Body.wordsEnd_le (h : Body input entry (prior ++ d :: later))
    (hrule : d.rule ≠ .documentation) :
    d.place ≤ d.wordsEnd ∧ d.wordsEnd ≤ d.ends ∧ d.wordsEnd.row ≤ lastRow d ∧
      ∃ t, StandsAt input d.wordsEnd t := by
  obtain ⟨item, place, s, r, R, hs, hgap, hruns⟩ := h
  obtain ⟨t, m, ht, -, hm, hnodes, htext, -⟩ := hruns.split R.leaves hs hgap
  rw [← hm.derives.splits] at ht
  cases R.ends hm hnodes hrule with
  | @intro own blanks htaken hmarked hstop hblanks =>
      rw [htaken] at htext ht
      rw [hstop, Node.ends, lastRow, htext, Place.advance_append, hmarked.lineFeeds_trimEnd_append]
      refine ⟨Place.le_advance _ _, Place.le_advance _ _, ?_, blanks ++ m.rest, ?_⟩
      · simp only [Place.advance]
        omega
      · exact StandsAt.advance (by simpa using ht)

theorem Body.pairwise {members : List Node} (h : Body input entry members) :
    members.Pairwise fun a b => a.ends ≤ b.place := by
  obtain ⟨item, place, s, r, R, -, -, hruns⟩ := h
  exact hruns.pairwise R.leaves

open Documentation (runLines)

/-- The lines of a run stand behind its start and before the next members. -/
theorem Body.line_places (h : Body input entry (prior ++ run :: later))
    (hline : line ∈ runLines run) :
    run.place ≤ line.place ∧ ∀ n ∈ later, line.place.offset < n.place.offset := by
  obtain ⟨item, place, s, r, R, hs, hgap, hruns⟩ := h
  obtain ⟨t, m, -, -, hm, hnodes, -, hrest⟩ := hruns.split R.leaves hs hgap
  have horder := R.runLines_inOrder hm hnodes
  refine ⟨horder.start_le line hline, fun n hn => ?_⟩
  exact Nat.lt_of_lt_of_le (horder.lt_stop line hline) (hrest.le_place R.leaves n hn).1

/-- A line stands in one run only. -/
theorem Body.not_mem_runLines (h : Body input entry (prior ++ run :: later))
    (hline : line ∈ runLines run) : ∀ n ∈ later, line ∉ runLines n := by
  intro n hn hmem
  have hlt := (h.line_places hline).2 n hn
  obtain ⟨mid, after, rfl⟩ := List.append_of_mem hn
  have hsame : Body input entry ((prior ++ run :: mid) ++ n :: after) := by simpa using h
  exact Nat.lt_irrefl _ (Nat.lt_of_lt_of_le hlt (hsame.line_places hmem).1.1)

/-- A run of documentation is a repetition of lines, and no further run follows it. -/
theorem Body.docLines (h : Body input entry (prior ++ run :: later))
    (hrun : run.rule = .documentation) :
    (∃ t r, StandsAt input run.place t ∧ (gap false t).2 = t ∧
      Runs (.call .docLine) run.place t run.children r) ∧
      ∀ n ∈ later.head?, n.rule ≠ .documentation := by
  obtain ⟨item, place, s, r, R, hs, hgap, hruns⟩ := h
  obtain ⟨t, m, ht, htgap, hm, hnodes, -, hrest⟩ := hruns.split R.leaves hs hgap
  obtain ⟨-, -, hlines⟩ := (R.documentation hm hnodes hrun).docLines hnodes
  refine ⟨⟨t, _, ht, htgap, hlines⟩, fun n hn hdoc => ?_⟩
  obtain ⟨after, rfl⟩ := List.head?_eq_some_iff.1 hn
  obtain ⟨m', hm', hnodes', -, -, -⟩ := hrest.of_cons R.leaves
  obtain ⟨-, hsome, hmore⟩ := (R.documentation hm' hnodes' hdoc).docLines hnodes'
  obtain ⟨first, lines, hfirst⟩ := List.exists_cons_of_ne_nil hsome
  rw [hfirst] at hmore
  -- The lines of the first run would have gone on.
  obtain ⟨m₁, hm₁, -⟩ := hmore.of_cons .docLine
  cases hm₁.derives.unique (hlines.balks.derives _)

end Neighbours

/-! ## Line breaks in a run -/

theorem Derives.lineBreak_after_docLine {tight : Bool} {place : Place} {s : List Char} {m : Match}
    (h : Derives tight (.call .docLine) place s (some m)) :
    m.rest.head?.all isLineBreak = true := by
  obtain ⟨m', h', rfl⟩ := h.of_tight_some rfl
  obtain ⟨m₁, m₂, -, h₂, rfl⟩ := h'.of_seq
  obtain ⟨m₃, m₄, -, h₄, rfl⟩ := h₂.of_seq
  obtain ⟨x, hx, rfl⟩ := h₄.of_token_some rfl
  cases hx
  have hstops := spanOf_stops (fun c => !isLineBreak c) (gap true m₃.rest).2
  change (spanOf (fun c => !isLineBreak c) (gap true m₃.rest).2).2.head?.all isLineBreak = true
  generalize (spanOf (fun c => !isLineBreak c) (gap true m₃.rest).2).2 = rest at hstops
  cases rest with
  | nil =>
      rfl
  | cons c rest =>
      simpa using hstops

/-- A line break follows each line but the last one of a run. -/
theorem Runs.lineBreak_after {place : Place} {s r : List Char} {first : Node} {lines : List Node}
    (h : Runs (.call .docLine) place s (first :: lines) r) (hlines : lines ≠ []) :
    ∃ c g t, isLineBreak c = true ∧ s = (first.text ++ c :: g) ++ t ∧ (gap false t).2 = t ∧
      Runs (.call .docLine) (place.advance (first.text ++ c :: g)) t lines r := by
  obtain ⟨m, hm, -, -, htext, hrest⟩ := h.of_cons .docLine
  have hbreak := hm.derives.lineBreak_after_docLine
  have hsplits := hm.derives.splits
  obtain ⟨second, more, rfl⟩ := List.exists_cons_of_ne_nil hlines
  cases hafter : m.rest with
  | nil =>
      -- Nothing is left for a second line.
      obtain ⟨m', hm', -⟩ := hrest.of_cons .docLine
      have htaken := hm'.derives.taken_ne_nil rfl
      have hnil := hm'.derives.splits
      rw [hafter] at hnil
      exact absurd (List.append_eq_nil_iff.1 hnil).1 htaken
  | cons c rest =>
      have hc : isLineBreak c = true := by simpa [hafter] using hbreak
      have hspace : isSpace c = true := by
        rcases isLineBreak_cases hc with rfl | rfl <;> rfl
      have hgap : gap false (c :: rest) = (c :: (gap false rest).1, (gap false rest).2) := by
        simp [gap, splitBlanks, hspace, Scan.push]
      rw [hafter, hgap] at hrest
      refine ⟨c, (gap false rest).1, (gap false rest).2, hc, ?_, gap_idem _, htext ▸ hrest⟩
      rw [htext, List.append_assoc, List.cons_append, gap_splits, ← hafter, hsplits]

theorem lastRow_le_ends (n : Node) : lastRow n ≤ n.ends.row :=
  Nat.add_le_add_left (lineFeeds_trimEnd_le n.text) _

section Neighbours

variable {input : List Char} {entry : Rule} {before after : List Node} {d p run line : Node}

theorem Body.ends_le (h : Body input entry (before ++ run :: after)) (hp : p ∈ before) :
    p.ends ≤ run.place :=
  (List.pairwise_append.1 h.pairwise).2.2 p hp run (by simp)

/-- A line that is not the first one of its run stands on the row of an earlier item only behind a
carriage return. -/
theorem Body.carriageReturn_before (h : Body input entry (before ++ run :: after))
    (hrun : run.rule = .documentation) (hp : p ∈ before) (hitem : p.rule ≠ .documentation)
    (hline : line ∈ run.children) (hfirst : run.children.head? ≠ some line)
    (hrow : line.place.row ≤ lastRow p) :
    '\r' ∈ p.textTo input line := by
  obtain ⟨⟨t, r, ht, -, hlines⟩, -⟩ := h.docLines hrun
  have hends := h.ends_le hp
  have hword : p.wordsEnd ≤ p.ends ∧ ∃ t, StandsAt input p.wordsEnd t := by
    obtain ⟨a, b, rfl⟩ := List.append_of_mem hp
    rw [List.append_assoc, List.cons_append] at h
    exact ⟨(h.wordsEnd_le hitem).2.1, (h.wordsEnd_le hitem).2.2.2⟩
  obtain ⟨hle, tail, htail⟩ := hword
  obtain ⟨first, lines, hchildren⟩ := List.exists_cons_of_ne_nil (List.ne_nil_of_mem hline)
  have hlater : line ∈ lines := by
    rw [hchildren] at hline hfirst
    rcases List.mem_cons.1 hline with rfl | hline
    · exact absurd rfl hfirst
    · exact hline
  -- From the item to the run, from its first line to the next, and from there to the line.
  obtain ⟨g₁, rfl, hrunPlace⟩ := htail.exists_advance ht (hle.trans hends).1
  rw [hchildren] at hlines
  obtain ⟨c, g, t', hc, rfl, hgap, hmore⟩ := hlines.lineBreak_after (List.ne_nil_of_mem hlater)
  have hnext := hmore.le_place .docLine line hlater
  obtain ⟨a, b, rfl⟩ := List.append_of_mem hlater
  obtain ⟨rest, -, hrest, -⟩ := hmore.split .docLine ht.advance hgap
  obtain ⟨g₂, rfl, hlinePlace⟩ := ht.advance.exists_advance hrest hnext.1
  have hplace : line.place = p.wordsEnd.advance (g₁ ++ (first.text ++ c :: g) ++ g₂) := by
    rw [hlinePlace, hrunPlace, Place.advance_append _ _ g₂, Place.advance_append _ g₁]
  have hbetween : p.textTo input line = g₁ ++ (first.text ++ c :: g) ++ g₂ := by
    rw [Node.textTo, hplace]
    refine StandsAt.between (s := rest) ?_
    simpa using htail
  have hreturn : c = '\r' := by
    rcases isLineBreak_cases hc with rfl | rfl
    · -- A line feed would put the line on a later row than the item.
      have hrows := hnext.2
      have hitemRow := lastRow_le_ends p
      have hrunRow := hends.2
      simp only [Place.advance, Text.lineFeeds, List.count_append, List.count_cons_self] at hrows
      omega
    · rfl
  rw [hbetween, ← hreturn]
  simp

theorem Body.first_place (h : Body input entry (before ++ run :: after))
    (hrun : run.rule = .documentation) {lines : List Node}
    (hchildren : run.children = line :: lines) : line.place = run.place ∧ line ∉ lines := by
  obtain ⟨⟨t, r, -, -, hlines⟩, -⟩ := h.docLines hrun
  rw [hchildren] at hlines
  obtain ⟨m, -, -, hplace, -⟩ := hlines.of_cons .docLine
  refine ⟨hplace, fun hmem => ?_⟩
  obtain ⟨item, place, s, r, R, hs, hgap, hruns⟩ := h
  obtain ⟨t, m, -, -, hm, hnodes, -, -⟩ := hruns.split R.leaves hs hgap
  have hnodup := (R.documentation hm hnodes hrun).lines_inOrder hnodes |>.nodup
  rw [hchildren] at hnodup
  exact (List.nodup_cons.1 hnodup).1 hmem

/-- The first line of a run on the row on which an earlier item ends trails the declaration directly
before the run. -/
theorem Body.trails_of_row (h : Body input entry ((before ++ [d]) ++ run :: after))
    (hrun : run.rule = .documentation) (hp : p ∈ before ++ [d]) {lines : List Node}
    (hchildren : run.children = line :: lines) (hrow : line.place.row ≤ lastRow p) :
    trails d run = true := by
  have hplace := (h.first_place hrun hchildren).1
  have hlast := (h.ends_le (p := d) (by simp)).2
  have hends := lastRow_le_ends d
  have hearlier : lastRow p ≤ lastRow d := by
    rcases List.mem_append.1 hp with hp | hp
    · rw [List.append_assoc] at h
      have hbefore := (Body.ends_le h hp).2
      exact (lastRow_le_ends p).trans (hbefore.trans (Nat.le_add_right _ _))
    · rw [List.mem_singleton.1 hp]
  have hsame : lastRow d = line.place.row := by
    rw [hplace] at hrow ⊢
    omega
  simp [trails, hrun, hchildren, hsame]

end Neighbours

/-! ## Lines of a declaration -/

section Declarations

open Documentation (latest?_concat leadingLines leadingLines_concat linesFor runLines trailingLines
  trails_of_ne)

variable {input : List Char} {entry : Rule} {prior later before mid rest after lines : List Node}
  {d n p run line : Node}

theorem rule_of_trails (h : trails d run = true) : run.rule = .documentation := by
  by_contra hrule
  rw [trails_of_ne hrule] at h
  cases h

theorem mem_trailingLines_iff :
    line ∈ trailingLines d later ↔ ∃ run rest lines, later = run :: rest ∧ trails d run = true ∧
      run.children = line :: lines ∧ (readDocLine line).text ≠ "" := by
  rcases later with _ | ⟨run, rest⟩
  · simp [trailingLines]
  · by_cases htrails : trails d run = true
    · have hrun := rule_of_trails htrails
      rcases hchildren : run.children with _ | ⟨first, lines⟩
      · simp [trailingLines, htrails, runLines, hrun, hchildren]
      · have hmem : line ∈ trailingLines d (run :: rest)
            ↔ line = first ∧ (readDocLine line).text ≠ "" := by
          simp only [trailingLines, if_pos htrails, runLines, if_pos hrun, hchildren,
            List.take_succ_cons, List.take_zero, List.mem_filter, List.mem_singleton,
            decide_eq_true_eq]
        rw [hmem]
        constructor
        · rintro ⟨rfl, htext⟩
          exact ⟨run, rest, lines, rfl, htrails, hchildren, htext⟩
        · rintro ⟨_, _, lines', heq, -, hfirst, htext⟩
          cases heq
          exact ⟨(List.cons.inj (hchildren.symm.trans hfirst)).1.symm, htext⟩
    · simp [trailingLines, htrails]

theorem mem_runLines_of_trailingLines (h : line ∈ trailingLines d later) :
    ∃ run ∈ later, line ∈ runLines run := by
  obtain ⟨run, rest, lines, rfl, htrails, hchildren, -⟩ := mem_trailingLines_iff.1 h
  exact ⟨run, by simp, by simp [runLines, rule_of_trails htrails, hchildren]⟩

theorem mem_runLines_of_leadingLines (h : line ∈ leadingLines entry prior) :
    ∃ before run, prior = before ++ [run] ∧ line ∈ runLines run := by
  rcases List.eq_nil_or_concat prior with rfl | ⟨before, run, rfl⟩
  · cases h
  · refine ⟨before, run, by simp, ?_⟩
    rw [List.concat_eq_append, leadingLines_concat] at h
    split at h
    · exact List.mem_of_mem_tail h
    · exact h

/-- A line behind the start of a declaration can only trail it. -/
theorem Body.mem_linesFor_iff (h : Body input entry (prior ++ d :: later))
    (hbehind : d.place.offset ≤ line.place.offset) :
    line ∈ linesFor entry prior d later ↔ line ∈ trailingLines d later := by
  rw [linesFor, List.mem_append, or_iff_right]
  intro hleading
  obtain ⟨before, run, rfl, hline⟩ := mem_runLines_of_leadingLines hleading
  rw [List.append_assoc] at h
  exact Nat.lt_irrefl _ (Nat.lt_of_lt_of_le ((Body.line_places h hline).2 d (by simp)) hbehind)

theorem Body.trailing_line_iff (h : Body input entry (prior ++ d :: run :: after))
    (hd : d.rule ≠ .documentation) (hrun : run.rule = .documentation)
    (hchildren : run.children = line :: lines) :
    line ∈ linesFor entry prior d (run :: after) ↔ (readDocLine line).text ≠ "" ∧
      '\n' ∉ d.rowBlanks (d.textTo input line) := by
  have hsplit : Body input entry ((prior ++ [d]) ++ run :: after) := by simpa using h
  have hplace := (hsplit.first_place hrun hchildren).1
  obtain ⟨g, t, hat, hnext, -, htrails⟩ := h.blanks_behind hd
  have hbehind : d.place.offset ≤ line.place.offset := by
    rw [hplace, hnext]
    exact ((h.wordsEnd_le hd).1.trans (Place.le_advance _ _)).1
  rw [h.mem_linesFor_iff hbehind, mem_trailingLines_iff, Node.textTo, hplace, hnext,
    hat.between]
  constructor
  · rintro ⟨_, _, _, heq, htrail, -, htext⟩
    cases heq
    exact ⟨htext, (htrails.1 htrail).2⟩
  · rintro ⟨htext, hfeed⟩
    exact ⟨run, after, lines, rfl, htrails.2 ⟨hrun, hfeed⟩, hchildren, htext⟩

theorem Body.carriageReturn_of_trailing (h : Body input entry (prior ++ d :: later))
    (hd : d.rule ≠ .documentation) (hline : line ∈ linesFor entry prior d later)
    (hbehind : d.wordsEnd.offset ≤ line.place.offset)
    (hbreak : ∃ c ∈ d.textTo input line, isLineBreak c = true) :
    ∃ u v, d.textTo input line = u ++ '\r' :: v ∧
      ∀ c ∈ v, isLineBreak c = false := by
  have hstart : d.place.offset ≤ line.place.offset := Nat.le_trans (h.wordsEnd_le hd).1.1 hbehind
  obtain ⟨run, after, lines, rfl, htrail, hchildren, -⟩ :=
    mem_trailingLines_iff.1 ((h.mem_linesFor_iff hstart).1 hline)
  obtain ⟨g, t, hat, hnext, hclose, htrails⟩ := h.blanks_behind hd
  obtain ⟨hrun, hfeed⟩ := htrails.1 htrail
  have hsplit : Body input entry ((prior ++ [d]) ++ run :: after) := by simpa using h
  rw [Node.textTo, (hsplit.first_place hrun hchildren).1, hnext, hat.between] at hbreak ⊢
  refine exists_carriageReturn hclose ?_ hbreak
  rw [Node.rowBlanks] at hfeed
  split at hfeed
  · exact fun hmem => hfeed ((List.rtakeWhile_suffix _ _).subset hmem)
  · exact hfeed

theorem Body.rule_cases (h : Body input entry (prior ++ n :: later)) :
    n.rule = .documentation ∨ n.rule = entry ∨ n.rule = .blockAttribute := by
  obtain ⟨item, place, s, r, R, hs, hgap, hruns⟩ := h
  obtain ⟨t, m, -, -, hm, hnodes, -, -⟩ := hruns.split R.leaves hs hgap
  rcases R.cases hm hnodes with ⟨h, -⟩ | ⟨h, -⟩ | ⟨h, -⟩
  · exact .inl h
  · exact .inr (.inl h)
  · exact .inr (.inr h)

theorem Body.entry_ne (h : Body input entry (prior ++ n :: later)) :
    entry ≠ .documentation ∧ entry ≠ .blockAttribute := by
  obtain ⟨item, place, s, r, R, -⟩ := h
  exact R.other

/-- The lines that a run on the row of an earlier item leaves to the next declaration. -/
theorem Body.mem_leadingLines_iff (h : Body input entry (before ++ run :: after))
    (hrun : run.rule = .documentation) (hp : p ∈ before) (hline : line ∈ run.children)
    (hrow : line.place.row ≤ lastRow p) :
    line ∈ leadingLines entry (before ++ [run]) ↔ run.children.head? ≠ some line ∨
      before.getLast?.map Node.rule = some .blockAttribute := by
  obtain ⟨first, lines, hchildren⟩ := List.exists_cons_of_ne_nil (List.ne_nil_of_mem hline)
  obtain ⟨before, last, rfl⟩ : ∃ before' last, before = before' ++ [last] := by
    rcases List.eq_nil_or_concat before with rfl | ⟨before', last, rfl⟩
    · cases hp
    · exact ⟨before', last, by simp⟩
  rw [leadingLines_concat, latest?_concat, runLines, if_pos hrun, hchildren]
  rw [hchildren] at hline
  rcases List.mem_cons.1 hline with rfl | hlater
  · -- The first line is left only if no declaration takes it. No run stands before another one.
    have hsplit : Body input entry (before ++ last :: run :: after) := by simpa using h
    have hfirst := (h.first_place hrun hchildren).2
    rcases hsplit.rule_cases with hrule | hrule | hrule
    · exact absurd hrun ((hsplit.docLines hrule).2 run rfl)
    · have htrails := h.trails_of_row hrun hp hchildren hrow
      simp [hrule, htrails, hfirst, h.entry_ne.2]
    · simp [hrule, h.entry_ne.2.symm]
  · -- The other lines are left whether the first one is taken or not.
    have hne : first ≠ line := by
      rintro rfl
      exact (h.first_place hrun hchildren).2 hlater
    cases (if last.rule = entry then some last else none).any fun d => trails d run <;>
      simp [hlater, hne]

/-- Only the declaration directly behind a run can take lines of it that do not trail. -/
theorem Body.mem_linesFor_iff_row (h : Body input entry (before ++ run :: (mid ++ d :: rest)))
    (hrun : run.rule = .documentation) (hp : p ∈ before) (hline : line ∈ run.children)
    (hrow : line.place.row ≤ lastRow p) :
    line ∈ linesFor entry (before ++ run :: mid) d rest ↔ mid = [] ∧
      (run.children.head? ≠ some line ∨ before.getLast?.map Node.rule = some .blockAttribute) := by
  have hmem : line ∈ runLines run := by rwa [runLines, if_pos hrun]
  have hother := h.not_mem_runLines hmem
  have htrailing : line ∉ trailingLines d rest := by
    intro htrailing
    obtain ⟨n, hn, hlines⟩ := mem_runLines_of_trailingLines htrailing
    exact hother n (by simp [hn]) hlines
  rw [linesFor, List.mem_append, or_iff_left htrailing]
  rcases List.eq_nil_or_concat mid with rfl | ⟨mid, last, rfl⟩
  · rw [h.mem_leadingLines_iff hrun hp hline hrow]
    simp
  · simp only [List.concat_eq_append, List.append_eq_nil_iff, List.cons_ne_nil, and_false,
      false_and, iff_false]
    intro hleading
    obtain ⟨before', n, heq, hlines⟩ := mem_runLines_of_leadingLines hleading
    rw [← List.cons_append, ← List.append_assoc] at heq
    obtain ⟨-, hn⟩ := List.append_inj' heq rfl
    cases hn
    exact hother last (by simp) hlines

end Declarations
end Grammar

/-! ## Results -/

open Grammar (Node isLineBreak matchRule)
open Documentation (entryRule? linesFor)
open Outline (lastRow readDocLine)

/-- A decidable property of a member of a model, told by its index, can be checked by matching the
text. -/
theorem exists_member_of_check {text : String} {P : List Node → Node → List Node → Prop}
    [∀ prior n later, Decidable (P prior n later)] (i : Nat)
    (h : (match matchRule .schema text.toList with
      | .ok [tree] => decide (∃ b ∈ tree.children, entryRule? b.rule = some .field ∧
          ∃ n ∈ (b.children.tail.drop i).head?.toList,
            P (b.children.tail.take i) n (b.children.tail.drop i).tail)
      | _ => false) = true) :
    ∃ tree, matchRule .schema text.toList = .ok [tree] ∧ ∃ b ∈ tree.children,
      entryRule? b.rule = some .field ∧ ∃ prior n later, b.children.tail = prior ++ n :: later ∧
        P prior n later := by
  split at h
  · rename_i tree hmatch
    obtain ⟨b, hb, hentry, n, hn, hP⟩ := of_decide_eq_true h
    refine ⟨tree, hmatch, b, hb, hentry, _, n, _, ?_, hP⟩
    have hdrop : b.children.tail.drop i = n :: (b.children.tail.drop i).tail := by
      have hhead : (b.children.tail.drop i).head? = some n := by simpa using hn
      obtain ⟨rest, hrest⟩ := List.head?_eq_some_iff.1 hhead
      rw [hrest, List.tail_cons]
    rw [← hdrop, List.take_append_drop]
  · cases h

/-- The first line of the run behind a declaration documents it exactly if it says something and no
line feed puts it on another row. So a line behind a declaration can document it across a line
break, but only if the last line break between them is a lone carriage return. -/
theorem line_behind_declaration_iff (text : String) (s : Schema)
    (h : (Schema.parse text).result = .ok s) :
    ∃ tree, matchRule .schema text.toList = .ok [tree] ∧ Documented tree s ∧
      ∀ b ∈ tree.children, ∀ entry, entryRule? b.rule = some entry →
        ∀ prior d later, b.children.tail = prior ++ d :: later → d.rule = entry →
          (∀ run after line lines, later = run :: after → run.rule = .documentation →
            run.children = line :: lines →
            (line ∈ linesFor entry prior d later ↔ (readDocLine line).text ≠ "" ∧
              '\n' ∉ d.rowBlanks (d.textTo text.toList line))) ∧
          ∀ line ∈ linesFor entry prior d later, d.wordsEnd.offset ≤ line.place.offset →
            (∃ c ∈ d.textTo text.toList line, isLineBreak c = true) →
            ∃ u v, d.textTo text.toList line = u ++ '\r' :: v ∧ ∀ c ∈ v, isLineBreak c = false := by
  obtain ⟨tree, ns, stop, hmatch, hchildren, hstop, hblocks, hdocumented⟩ := exists_documented h
  refine ⟨tree, hmatch, hdocumented, fun b hb entry hentry prior d later hsplit hd => ?_⟩
  have hb' := mem_of_mem_children hchildren hstop hb hentry
  have hbody := Grammar.body_of_blocks hblocks hb' hentry
  rw [hsplit] at hbody
  have hrule : d.rule ≠ .documentation := hd ▸ hbody.entry_ne.1
  constructor
  · rintro run after line lines rfl hrun hlines
    exact hbody.trailing_line_iff hrule hrun hlines
  · intro line hline hbehind hbreak
    exact hbody.carriageReturn_of_trailing hrule hline hbehind hbreak

/-- The field has a line feed and a comment behind it, and then a carriage return. -/
def commentedField : String :=
  "model A\x7bx Int\n// c\r/// a\n\x7d"

theorem line_behind_declaration_iff_commented :
    ∃ s, (Schema.parse commentedField).result = .ok s ∧
      s.models.map Documentation.ofModel = [("A", none, [("x", some "a")])] ∧
      ∃ tree, matchRule .schema commentedField.toList = .ok [tree] ∧ ∃ b ∈ tree.children,
        entryRule? b.rule = some .field ∧ ∃ prior d later, b.children.tail = prior ++ d :: later ∧
          d.rule = .field ∧ ∃ line ∈ linesFor .field prior d later,
            '\n' ∈ d.textTo commentedField.toList line ∧
            ∃ u v, d.textTo commentedField.toList line = u ++ '\r' :: v ∧
              ∀ c ∈ v, isLineBreak c = false := by
  have hexists : ∃ s, (Schema.parse commentedField).result = .ok s ∧
      s.models.map Documentation.ofModel = [("A", none, [("x", some "a")])] :=
    exists_of_check (by decide +kernel)
  have hcheck : ∃ tree, matchRule .schema commentedField.toList = .ok [tree] ∧ ∃ b ∈ tree.children,
      entryRule? b.rule = some .field ∧ ∃ prior d later, b.children.tail = prior ++ d :: later ∧
        d.rule = .field ∧ ∃ line ∈ linesFor .field prior d later,
          d.wordsEnd.offset ≤ line.place.offset ∧ '\n' ∈ d.textTo commentedField.toList line :=
    exists_member_of_check 0 (by decide +kernel)
  obtain ⟨s, hparse, hmodels⟩ := hexists
  obtain ⟨tree, hmatch, b, hb, hentry, prior, d, later, hsplit, hd, line, hline, hbehind, hfeed⟩ :=
    hcheck
  obtain ⟨tree', hmatch', -, hall⟩ := line_behind_declaration_iff _ s hparse
  rw [hmatch] at hmatch'
  cases hmatch'
  have hreturn := (hall b hb .field hentry prior d later hsplit hd).2 line hline hbehind
    ⟨'\n', hfeed, rfl⟩
  exact ⟨s, hparse, hmodels, tree, hmatch, b, hb, hentry, prior, d, later, hsplit, hd, line, hline,
    hfeed, hreturn⟩

/-- A line behind a carriage return documents the field on the line before it. -/
theorem line_behind_carriageReturn_trails :
    ∃ tree, matchRule .schema "model A \x7b\n  x Int\r  /// about y\n  y Int\n\x7d".toList
        = .ok [tree] ∧
      ∃ b ∈ tree.children, entryRule? b.rule = some .field ∧ ∃ prior d later,
        b.children.tail = prior ++ d :: later ∧ d.rule = .field ∧
          ∃ line ∈ linesFor .field prior d later, d.wordsEnd.offset ≤ line.place.offset ∧
            (d.textTo "model A \x7b\n  x Int\r  /// about y\n  y Int\n\x7d".toList line).any
              isLineBreak = true :=
  exists_member_of_check 0 (by decide +kernel)

/-- A line that starts on the row on which an earlier item ends documents a later declaration
exactly if that declaration comes directly behind the run of the line, and either the line is not
the first one of the run or the run comes directly behind a block attribute. In the first case a
carriage return stands between the item and the line. -/
theorem line_on_ending_row_iff (text : String) (s : Schema)
    (h : (Schema.parse text).result = .ok s) :
    ∃ tree, matchRule .schema text.toList = .ok [tree] ∧ Documented tree s ∧
      ∀ b ∈ tree.children, ∀ entry, entryRule? b.rule = some entry →
        ∀ before run after, b.children.tail = before ++ run :: after → run.rule = .documentation →
          ∀ p ∈ before, p.rule ≠ .documentation → ∀ line ∈ run.children,
            p.wordsEnd.row = line.place.row ∨ lastRow p = line.place.row →
            (∀ mid d rest, after = mid ++ d :: rest → d.rule = entry →
              (line ∈ linesFor entry (before ++ run :: mid) d rest ↔ mid = [] ∧
                (run.children.head? ≠ some line ∨
                  before.getLast?.map Node.rule = some .blockAttribute))) ∧
            (run.children.head? ≠ some line → '\r' ∈ p.textTo text.toList line) := by
  obtain ⟨tree, ns, stop, hmatch, hchildren, hstop, hblocks, hdocumented⟩ := exists_documented h
  refine ⟨tree, hmatch, hdocumented, ?_⟩
  intro b hb entry hentry before run after hsplit hrun p hp hitem line hline hrow
  have hb' := mem_of_mem_children hchildren hstop hb hentry
  have hbody := Grammar.body_of_blocks hblocks hb' hentry
  rw [hsplit] at hbody
  have hle : line.place.row ≤ lastRow p := by
    rcases hrow with hrow | hrow
    · obtain ⟨a, c, rfl⟩ := List.append_of_mem hp
      rw [List.append_assoc, List.cons_append] at hbody
      exact hrow ▸ (hbody.wordsEnd_le hitem).2.2.1
    · exact hrow.symm.le
  constructor
  · rintro mid d rest rfl -
    exact hbody.mem_linesFor_iff_row hrun hp hline hle
  · exact fun hfirst => hbody.carriageReturn_before hrun hp hitem hline hfirst hle

/-- The second line of the run stands on the row of the first field. -/
def returnInRun : String :=
  "model A\x7bx Int /// a\r/// b\ny Int\x7d"

theorem line_on_ending_row_iff_return_in_run :
    ∃ s, (Schema.parse returnInRun).result = .ok s ∧
      s.models.map Documentation.ofModel
        = [("A", none, [("x", some "a"), ("y", some "b")])] ∧
      ∃ tree, matchRule .schema returnInRun.toList = .ok [tree] ∧ ∃ b ∈ tree.children,
        entryRule? b.rule = some .field ∧ ∃ prior d later, b.children.tail = prior ++ d :: later ∧
          d.rule = .field ∧ ∃ p ∈ prior, ∃ line ∈ linesFor .field prior d later,
            lastRow p = line.place.row ∧ '\r' ∈ p.textTo returnInRun.toList line := by
  have hexists : ∃ s, (Schema.parse returnInRun).result = .ok s ∧
      s.models.map Documentation.ofModel
        = [("A", none, [("x", some "a"), ("y", some "b")])] :=
    exists_of_check (by decide +kernel)
  obtain ⟨s, hparse, hmodels⟩ := hexists
  have hcheck : ∃ tree, matchRule .schema returnInRun.toList = .ok [tree] ∧ ∃ b ∈ tree.children,
      entryRule? b.rule = some .field ∧ ∃ before run after,
        b.children.tail = before ++ run :: after ∧ run.rule = .documentation ∧
          ∃ p ∈ before, p.rule ≠ .documentation ∧ ∃ d ∈ after.head?.toList, d.rule = .field ∧
            ∃ line ∈ run.children, lastRow p = line.place.row ∧
              run.children.head?.map Node.place ≠ some line.place :=
    exists_member_of_check 1 (by decide +kernel)
  obtain ⟨tree, hmatch, b, hb, hentry, before, run, after, hsplit, hdoc, p, hp, hitem, d, hd, hrule,
    line, hline, hrow, hplace⟩ := hcheck
  obtain ⟨rest, hafter⟩ := List.head?_eq_some_iff.1 (by simpa using hd)
  have hfirst : run.children.head? ≠ some line := fun heq => hplace (by simp [heq])
  obtain ⟨tree', hmatch', -, hall⟩ := line_on_ending_row_iff _ s hparse
  rw [hmatch] at hmatch'
  cases hmatch'
  obtain ⟨hiff, hreturn⟩ :=
    hall b hb .field hentry before run after hsplit hdoc p hp hitem line hline (.inr hrow)
  have htaken := (hiff [] d rest hafter hrule).2 ⟨rfl, .inl hfirst⟩
  refine ⟨s, hparse, hmodels, tree, hmatch, b, hb, hentry, before ++ [run], d, rest, ?_, hrule, p,
    by simp [hp], line, htaken, hrow, hreturn hfirst⟩
  rw [hsplit, hafter]
  simp

/-- A line on the row of a block attribute documents the field behind it. -/
theorem line_behind_blockAttribute_leads :
    ∃ tree, matchRule .schema
        "model A \x7b\n  x Int\n  @@index([x]) /// about the index\n  y Int\n\x7d".toList
        = .ok [tree] ∧
      ∃ b ∈ tree.children, entryRule? b.rule = some .field ∧ ∃ prior d later,
        b.children.tail = prior ++ d :: later ∧ d.rule = .field ∧
          ∃ p ∈ prior, p.rule = .blockAttribute ∧ ∃ line ∈ linesFor .field prior d later,
            p.wordsEnd.row = line.place.row ∧ lastRow p = line.place.row :=
  exists_member_of_check 3 (by decide +kernel)

end PrismaTypes
