import Mathlib.Data.List.Basic
import PrismaTypes.Grammar.Token
import PrismaTypes.Text.Blank
import PrismaTypes.Text.Location

/-!
# Rows of a text

On which row a text ends depends on its line feeds, and for a declaration only on those before its
last character that is not blank. `Marked` texts have no line feed after that character, and
`Level w g` says that what follows `w` and the blanks `g` stands on the row on which `w` ends.
-/

namespace PrismaTypes

/-! ## Blanks at the end -/

theorem Grammar.isSpace_cases {c : Char} (h : Grammar.isSpace c = true) :
    c = ' ' ∨ c = '\t' ∨ c = '\r' ∨ c = '\n' := by
  simpa [Grammar.isSpace, or_assoc] using h

theorem isBlank_of_isSpace {c : Char} (h : Grammar.isSpace c = true) : Text.isBlank c = true := by
  rcases Grammar.isSpace_cases h with rfl | rfl | rfl | rfl <;> decide

theorem lineFeeds_trimEnd_le (s : List Char) :
    Text.lineFeeds (Text.trimEnd s) ≤ Text.lineFeeds s := by
  have hsub : (s.reverse.dropWhile Text.isBlank).Sublist s.reverse := List.dropWhile_sublist _
  have hcount := hsub.count_le '\n'
  simpa [Text.lineFeeds, Text.trimEnd] using hcount

theorem trimEnd_append_blanks (s : List Char) {blanks : List Char}
    (h : ∀ c ∈ blanks, Text.isBlank c = true) :
    Text.trimEnd (s ++ blanks) = Text.trimEnd s := by
  have hreverse : ∀ c ∈ blanks.reverse, Text.isBlank c = true := by simpa using h
  rw [Text.trimEnd, List.reverse_append, List.dropWhile_append_of_pos hreverse, Text.trimEnd]

namespace Text

/-! ## Places -/

@[simp] theorem byteLength_append (u w : List Char) :
    byteLength (u ++ w) = byteLength u + byteLength w := by
  induction u with
  | nil =>
      simp [byteLength]
  | cons c u ih =>
      simp [byteLength, ih, Nat.add_assoc]

theorem byteLength_pos {s : List Char} (h : s ≠ []) : 0 < byteLength s := by
  cases s with
  | nil =>
      exact absurd rfl h
  | cons c s =>
      have hc := c.utf8Size_pos
      simp only [byteLength]
      omega

@[simp] theorem lineFeeds_append (u w : List Char) :
    lineFeeds (u ++ w) = lineFeeds u + lineFeeds w :=
  List.count_append

@[simp] theorem Place.advance_nil (p : Place) : p.advance [] = p := rfl

theorem Place.advance_append (p : Place) (u w : List Char) :
    p.advance (u ++ w) = (p.advance u).advance w := by
  simp [Place.advance, Nat.add_assoc]

/-- Only the empty text keeps a place. -/
theorem Place.advance_append_eq_iff {p : Place} {u w : List Char} :
    p.advance (u ++ w) = p.advance u ↔ w = [] := by
  constructor
  · intro h
    have hoffset := congrArg Place.offset h
    simp only [Place.advance, byteLength_append] at hoffset
    by_contra hne
    have hpos := byteLength_pos hne
    omega
  · rintro rfl
    rw [List.append_nil]

/-! ## The last character -/

/-- Behind the last character that is not blank there is no line feed. -/
def Marked (w : List Char) : Prop :=
  ∃ a c b, w = a ++ c :: b ∧ isBlank c = false ∧ '\n' ∉ b

namespace Marked

variable {u w : List Char}

theorem ne_nil (h : Marked w) : w ≠ [] := by
  obtain ⟨a, c, b, rfl, -, -⟩ := h
  simp

theorem cons {c : Char} (hc : isBlank c = false) (hw : '\n' ∉ w) : Marked (c :: w) :=
  ⟨[], c, w, rfl, hc, hw⟩

theorem append_left (u : List Char) (h : Marked w) : Marked (u ++ w) := by
  obtain ⟨a, c, b, rfl, hc, hb⟩ := h
  exact ⟨u ++ a, c, b, by simp, hc, hb⟩

theorem append_right (h : Marked w) (hu : '\n' ∉ u) : Marked (w ++ u) := by
  obtain ⟨a, c, b, rfl, hc, hb⟩ := h
  exact ⟨a, c, b ++ u, by simp, hc, by simp [hb, hu]⟩

end Marked

theorem trimEnd_append (w g : List Char) :
    trimEnd (w ++ g) = if trimEnd g = [] then trimEnd w else w ++ trimEnd g := by
  rw [trimEnd, List.reverse_append, List.dropWhile_append]
  simp only [List.isEmpty_iff, trimEnd, List.reverse_eq_nil_iff]
  split
  · rfl
  · simp

theorem lineFeeds_trimEnd_of_not_mem {b : List Char} (h : '\n' ∉ b) :
    lineFeeds (trimEnd b) = 0 := by
  have hle := lineFeeds_trimEnd_le b
  have hzero : lineFeeds b = 0 := List.count_eq_zero.2 h
  omega

theorem trimEnd_concat {a : List Char} {c : Char} (hc : isBlank c = false) :
    trimEnd (a ++ [c]) = a ++ [c] := by
  simp [trimEnd, hc]

theorem Marked.lineFeeds_trimEnd {w : List Char} (h : Marked w) :
    lineFeeds (trimEnd w) = lineFeeds w := by
  obtain ⟨a, c, b, rfl, hc, hb⟩ := h
  have hzero : lineFeeds b = 0 := List.count_eq_zero.2 hb
  rw [show a ++ c :: b = (a ++ [c]) ++ b by simp, trimEnd_append, lineFeeds_append _ b, hzero]
  split
  · rw [trimEnd_concat hc, Nat.add_zero]
  · rw [lineFeeds_append _ (trimEnd b), lineFeeds_trimEnd_of_not_mem hb]

/-- Of a marked text all rows count, of what follows it only those before its blanks. -/
theorem Marked.lineFeeds_trimEnd_append {w : List Char} (h : Marked w) (g : List Char) :
    lineFeeds (trimEnd (w ++ g)) = lineFeeds w + lineFeeds (trimEnd g) := by
  rw [trimEnd_append]
  split
  · rename_i hblank
    rw [h.lineFeeds_trimEnd, hblank]
    rfl
  · exact lineFeeds_append w _

/-! ## Texts on one row -/

/-- What follows `w` and the blanks `g` stands on the row on which `w` ends. -/
def Level (w g : List Char) : Prop :=
  lineFeeds (trimEnd w) = lineFeeds (w ++ g)

/-- Blanks that leave a row, or end on the row of their last character, alike. -/
structure SameRows (g g' : List Char) : Prop where
  same : lineFeeds g = 0 ↔ lineFeeds g' = 0
  ends : lineFeeds (trimEnd g) = lineFeeds g ↔ lineFeeds (trimEnd g') = lineFeeds g'

theorem SameRows.refl (g : List Char) : SameRows g g :=
  ⟨.rfl, .rfl⟩

theorem level_iff {w g : List Char} (hw : Marked w) : Level w g ↔ lineFeeds g = 0 := by
  rw [Level, hw.lineFeeds_trimEnd, lineFeeds_append]
  omega

/-- The blanks may belong to the text already. -/
theorem level_append_iff {w g : List Char} (hw : Marked w) :
    Level (w ++ g) [] ↔ lineFeeds (trimEnd g) = lineFeeds g := by
  rw [Level, hw.lineFeeds_trimEnd_append, List.append_nil, lineFeeds_append]
  omega

end Text
end PrismaTypes
