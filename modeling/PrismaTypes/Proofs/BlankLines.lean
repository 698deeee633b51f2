import PrismaTypes.Proofs.AlikeOutlines

/-!
# Blank lines and comment lines

A line of blanks, or of a comment that is no documentation, may be put between any two lines of a
text unless that breaks a string literal. What stands before the new line and what follows it keep
their words, and blanks that went over the end of a line go over the new line as well
(`insertedLine`). The main result is `parse_with_inertLine`: the schema is the same, with all its
documentation.
-/

namespace PrismaTypes

open Grammar
open Text (Place SameRows byteLength lineFeeds trimEnd)

/-! ## Lines without meaning -/

/-- A line of spaces and tabs, or a comment after some of them. Exactly three slashes would open
documentation. -/
inductive InertLine : List Char → Prop
  | blank {line : List Char} (hline : ∀ c ∈ line, c = ' ' ∨ c = '\t') : InertLine line
  | comment {indent text : List Char} (hindent : ∀ c ∈ indent, c = ' ' ∨ c = '\t')
      (htext : ∀ c ∈ text, c ≠ '\n' ∧ c ≠ '\r')
      (hslash : text.head? ≠ some '/' ∨ ∃ rest, text = '/' :: '/' :: rest) :
      InertLine (indent ++ '/' :: '/' :: text)

theorem splitBlanks_indent {indent : List Char} (h : ∀ c ∈ indent, c = ' ' ∨ c = '\t')
    (s : List Char) : (splitBlanks false (indent ++ s)).2 = (splitBlanks false s).2 := by
  have hspaces : indent.all isSpace = true := by
    refine List.all_eq_true.2 fun c hc => ?_
    rcases h c hc with rfl | rfl <;> rfl
  have hgap := gap_spaces hspaces s
  simp only [gap, Bool.false_eq_true, if_false] at hgap
  rw [hgap]

theorem splitBlanks_comment {text : List Char} (h : ∀ c ∈ text, c ≠ '\n' ∧ c ≠ '\r') :
    (splitBlanks true text).2 = [] := by
  induction text with
  | nil =>
      rfl
  | cons c text ih =>
      have hc : isLineBreak c = false := by simp [isLineBreak, h c (by simp)]
      simpa [splitBlanks, hc, Scan.push] using ih fun d hd => h d (by simp [hd])

theorem InertLine.splitBlanks {line : List Char} (h : InertLine line) :
    (splitBlanks false line).2 = [] := by
  cases h with
  | blank hline =>
      simpa [Grammar.splitBlanks] using splitBlanks_indent hline []
  | @comment indent text hindent htext hslash =>
      have hopens : opensComment ('/' :: '/' :: text) = true := by
        rw [opensComment_eq]
        rcases hslash with hslash | ⟨rest, rfl⟩
        · cases text with
          | nil =>
              rfl
          | cons c text =>
              have hc : '/' ≠ c := fun heq => hslash (congrArg some heq.symm)
              simp [afterWord?, hc]
        · rfl
      have hrest : (Grammar.splitBlanks true ('/' :: text)).2 = [] :=
        splitBlanks_comment (List.forall_mem_cons.2 ⟨by decide, htext⟩)
      rw [splitBlanks_indent hindent, Grammar.splitBlanks, if_neg (by decide), if_neg (by decide),
        if_pos hopens]
      exact hrest

/-- Blanks go over the whole line. -/
theorem InertLine.splitBlanks_append {line : List Char} (h : InertLine line) (b : List Char) :
    Grammar.splitBlanks false (line ++ '\n' :: b)
      = (line ++ '\n' :: (Grammar.splitBlanks false b).1, (Grammar.splitBlanks false b).2) := by
  rw [splitBlanks_append_feed, if_pos h.splitBlanks]

/-! ## The change of layout -/

/-- Whether blanks end on the row of their last character is decided behind the last line feed that
is known to be among them. -/
theorem lineFeeds_trimEnd_feed_iff (v g : List Char) :
    lineFeeds (trimEnd (v ++ '\n' :: g)) = lineFeeds (v ++ '\n' :: g) ↔
      trimEnd g ≠ [] ∧ lineFeeds (trimEnd g) = lineFeeds g := by
  have hsplit : v ++ '\n' :: g = v ++ ['\n'] ++ g := by simp
  have hfeeds : lineFeeds (v ++ ['\n']) = lineFeeds v + 1 := by simp [lineFeeds]
  rw [hsplit, Text.trimEnd_append, Text.lineFeeds_append, hfeeds]
  split
  · rename_i hblank
    have hfeed : trimEnd (v ++ ['\n']) = trimEnd v :=
      trimEnd_append_blanks v (List.forall_mem_singleton.2 rfl)
    have hle := lineFeeds_trimEnd_le v
    rw [hfeed]
    simp only [hblank, ne_eq, not_true_eq_false, false_and, iff_false]
    omega
  · rename_i hsolid
    rw [Text.lineFeeds_append, hfeeds]
    simp [hsolid]

theorem sameRows_feed (v v' g : List Char) : SameRows (v ++ '\n' :: g) (v' ++ '\n' :: g) := by
  constructor
  · simp [lineFeeds]
  · rw [lineFeeds_trimEnd_feed_iff, lineFeeds_trimEnd_feed_iff]

/-- The line is inserted after `size` bytes, in front of `b`; the texts before that place end in a
line feed. -/
inductive Inserted (size : Nat) (line b : List Char) (place : Place) : List Char → List Char → Prop
  | behind (s : List Char) : Inserted size line b place s s
  | before (u : List Char) (h : place.offset + byteLength u + 1 = size) :
      Inserted size line b place (u ++ '\n' :: b) (u ++ '\n' :: (line ++ '\n' :: b))

namespace Inserted

variable {size : Nat} {line b : List Char} {place : Place} {w r s s' : List Char}

theorem agree (h : Inserted size line b place s s') : Agree s s' := by
  cases h with
  | behind =>
      exact .refl s
  | before u =>
      exact ⟨u, _, _, rfl, rfl, rfl, rfl, fun _ => rfl⟩

/-- A word that is not cut by the new line stays as it is. -/
theorem past (h : Inserted size line b place (w ++ r) s')
    (hw : ∀ u v, w = u ++ '\n' :: v → place.offset + byteLength u + 1 ≠ size) :
    ∃ r', s' = w ++ r' ∧ Inserted size line b (place.advance w) r r' := by
  generalize hs : w ++ r = s at h
  cases h with
  | behind =>
      exact ⟨r, hs.symm, .behind r⟩
  | before u hsize =>
      rcases List.append_eq_append_iff.1 hs with ⟨v, rfl, rfl⟩ | ⟨v, hv, hb⟩
      · refine ⟨v ++ '\n' :: (line ++ '\n' :: b), by simp, .before v ?_⟩
        simp only [Place.advance, Text.byteLength_append] at hsize ⊢
        omega
      · -- The word would go on behind the line feed.
        cases v with
        | nil =>
            rw [List.append_nil] at hv
            subst hv
            rw [List.nil_append] at hb
            subst hb
            refine ⟨'\n' :: (line ++ '\n' :: b), rfl, .before [] ?_⟩
            simp only [Place.advance, Text.byteLength, Nat.add_zero]
            exact hsize
        | cons c v =>
            cases hb
            exact absurd hsize (hw u v hv)

theorem blanks (hline : InertLine line) (h : Inserted size line b place s s') :
    Inserted size line b (place.advance (gap false s).1) (gap false s).2 (gap false s').2 ∧
      SameRows (gap false s).1 (gap false s').1 := by
  cases h with
  | behind =>
      exact ⟨.behind _, .refl _⟩
  | before u hsize =>
      simp only [gap, Bool.false_eq_true, if_false, splitBlanks_append_feed,
        hline.splitBlanks_append]
      by_cases hnil : (Grammar.splitBlanks false u).2 = []
      · -- The blanks go over the end of the line, and so over the new line.
        simp only [hnil, if_true]
        refine ⟨.behind _, ?_⟩
        have hrows := sameRows_feed u (u ++ '\n' :: line) (Grammar.splitBlanks false b).1
        rwa [List.append_assoc] at hrows
      · simp only [hnil, if_false]
        refine ⟨.before _ ?_, .refl _⟩
        have hsplits := congrArg byteLength (gap_splits false u)
        simp only [gap, Bool.false_eq_true, if_false, Text.byteLength_append] at hsplits
        simp only [Place.advance]
        omega

theorem word (h : Inserted size line b place (w ++ r) s')
    (hw : ∀ c ∈ w, isLineBreak c = false) :
    ∃ r', s' = w ++ r' ∧ Inserted size line b (place.advance w) r r' := by
  refine h.past ?_
  rintro u v rfl
  exact absurd (hw '\n' (by simp)) (by decide)

theorem string (h : Inserted size line b place (w ++ r) s')
    (hscan : scanString (w ++ r) = some (w, r))
    (hkeeps : ¬ (place.offset < size ∧ size < place.offset + byteLength w)) :
    ∃ r', s' = w ++ r' ∧ Inserted size line b (place.advance w) r r' := by
  refine h.past ?_
  rintro u v rfl rfl
  -- A literal ends in a quote, so that there is more of it behind the line feed.
  obtain ⟨-, x, hx⟩ := scanString_append hscan r
  have hv : v ≠ [] := by
    rintro rfl
    have hlast := congrArg List.getLast? hx
    simp at hlast
  have hpos := Text.byteLength_pos hv
  refine hkeeps ⟨by omega, ?_⟩
  simp only [Text.byteLength_append, byteLength, show '\n'.utf8Size = 1 from rfl]
  omega

end Inserted

/-- A line without meaning between two others. -/
def insertedLine (size : Nat) (line b : List Char) (hline : InertLine line) : Relayout where
  holds := Inserted size line b
  keeps place w := ¬ (place.offset < size ∧ size < place.offset + byteLength w)
  whole := True
  agree := Inserted.agree
  word := Inserted.word
  string := Inserted.string
  blanks h _ := (h.blanks hline).1
  rows h _ := (h.blanks hline).2

/-! ## Schemas -/

/-- At the start of a text, or behind a line feed, the new line is passed over with the blanks. -/
theorem inserted_of_append {a : List Char} (ha : a = [] ∨ a.getLast? = some '\n') {line : List Char}
    (hline : InertLine line) (b : List Char) :
    Inserted (byteLength a) line b (({} : Place).advance (gap false (a ++ b)).1)
      (gap false (a ++ b)).2 (gap false (a ++ (line ++ '\n' :: b))).2 := by
  rcases ha with rfl | ha
  · have hgap : (gap false (line ++ '\n' :: b)).2 = (gap false b).2 := by
      simp only [gap, Bool.false_eq_true, if_false, hline.splitBlanks_append]
    rw [List.nil_append, List.nil_append, hgap]
    exact .behind _
  · obtain ⟨u, rfl⟩ := List.getLast?_eq_some_iff.1 ha
    have hinserted : Inserted (byteLength (u ++ ['\n'])) line b {} (u ++ '\n' :: b)
        (u ++ '\n' :: (line ++ '\n' :: b)) := by
      refine .before u ?_
      simp [byteLength, show '\n'.utf8Size = 1 from rfl]
    simpa using (hinserted.blanks hline).1

/-- A blank line or a comment line between any two lines of an accepted text changes nothing, unless
it breaks a string literal. -/
theorem parse_with_inertLine (a line b : String) (s : Schema)
    (ha : a = "" ∨ a.toList.getLast? = some '\n') (hline : InertLine line.toList)
    (hparse : (Schema.parse (a ++ b)).result = .ok s)
    (hliterals : ∀ n ∈ Schema.stringLiterals (a ++ b).toList,
      ¬ (n.place.offset < byteLength a.toList ∧ byteLength a.toList < n.stop)) :
    (Schema.parse (a ++ line ++ "\n" ++ b)).result = .ok s := by
  obtain ⟨ns, hblocks, hstrings⟩ := Schema.exists_blocks hparse
  have ha' : a.toList = [] ∨ a.toList.getLast? = some '\n' := ha.imp_left fun h => by rw [h]; rfl
  have htext : (a ++ line ++ "\n" ++ b).toList = a.toList ++ (line.toList ++ '\n' :: b.toList) := by
    simp
  have hinserted := inserted_of_append ha' hline b.toList
  rw [← String.toList_append, ← htext] at hinserted
  have hend : ∀ {place s'},
      (insertedLine (byteLength a.toList) _ b.toList hline).holds place [] s' → s' = [] := by
    intro place s' h
    generalize hnil : ([] : List Char) = s at h
    cases h with
    | behind =>
        rfl
    | before u =>
        simp at hnil
  obtain ⟨ns', hblocks', hsame⟩ := hblocks.relaid_topLevel
    (L := insertedLine (byteLength a.toList) _ b.toList hline) trivial hend hinserted (gap_idem _)
    (gap_idem _) (fun n hn => hliterals n (hstrings n hn))
    (({} : Place).advance (gap false (a ++ line ++ "\n" ++ b).toList).1)
  exact (hblocks.result_eq hblocks' hsame).trans hparse

/-- Four slashes between documentation and its field, in a text with a literal of two lines. -/
theorem parse_with_inertLine_commented :
    ∃ s, (Schema.parse ("model A\x7b\n n Int /// n\n /// t\n" ++
        " t String @default(\"x\ny\")\n\x7d\n")).result = .ok s ∧
      s.models.map (fun m => m.fields.map Field.documentation) = [[some "n", some "t"]] ∧
      (Schema.parse ("model A\x7b\n n Int /// n\n /// t\n" ++ "\t//// c" ++ "\n" ++
        " t String @default(\"x\ny\")\n\x7d\n")).result = .ok s := by
  have hexists : ∃ s, (Schema.parse ("model A\x7b\n n Int /// n\n /// t\n" ++
        " t String @default(\"x\ny\")\n\x7d\n")).result = .ok s ∧
      s.models.map (fun m => m.fields.map Field.documentation) = [[some "n", some "t"]] :=
    exists_of_check (by decide +kernel)
  obtain ⟨s, hparse, hdocumentation⟩ := hexists
  have hline : InertLine (['\t'] ++ '/' :: '/' :: ['/', '/', ' ', 'c']) :=
    .comment (by simp) (by simp) (.inr ⟨_, rfl⟩)
  exact ⟨s, hparse, hdocumentation, parse_with_inertLine _ _ _ s (.inr (by decide +kernel)) hline
    hparse (by decide +kernel)⟩

end PrismaTypes
