import PrismaTypes.Proofs.FirmMatches

/-!
# Scanners do not look past a blank

A scanner of words decides by the characters up to the next blank (`Local`), and the words it takes
hold no blank (`isInk`). So two texts that agree up to the next blank (`Agree`) start with the same
word. The scanners of string literals and of documentation text are the exceptions.
-/

namespace PrismaTypes
namespace Grammar

open Text (Place isBlank)

/-- Nothing, or a blank, stands in front. -/
def startsBlank (r : List Char) : Bool :=
  r.head?.all isSpace

theorem any_of_startsBlank {p : Char → Bool} (hp : ∀ c, isSpace c = true → p c = false)
    {r : List Char} (hr : startsBlank r = true) : r.head?.any p = false := by
  cases r with
  | nil =>
      rfl
  | cons c r =>
      exact hp c hr

/-- What follows a blank makes no difference. -/
def Local (scan : List Char → Option Scan) : Prop :=
  ∀ w r, startsBlank r = true → scan (w ++ r) = (scan w).map fun x => (x.1, x.2 ++ r)

/-! ## Classes of characters -/

theorem isWordPart_of_isSpace {c : Char} (h : isSpace c = true) : isWordPart c = false := by
  rcases isSpace_cases h with rfl | rfl | rfl | rfl <;> rfl

theorem isWordStart_of_isSpace {c : Char} (h : isSpace c = true) : isWordStart c = false := by
  rcases isSpace_cases h with rfl | rfl | rfl | rfl <;> rfl

theorem isDigit_of_isSpace {c : Char} (h : isSpace c = true) : isDigit c = false := by
  rcases isSpace_cases h with rfl | rfl | rfl | rfl <;> rfl

/-- Letters, digits and the underscore are not blank. -/
theorem isBlank_of_isWordPart {c : Char} (h : isWordPart c = true) : isBlank c = false := by
  simp only [isWordPart, isWordStart, isLetter, isDigit, Bool.or_eq_true, Bool.and_eq_true,
    decide_eq_true_eq] at h
  have hrange : 48 ≤ c.toNat ∧ c.toNat ≤ 122 := by
    rcases h with ((h | h) | rfl) | h
    · exact ⟨Nat.le_trans (by decide) (show 97 ≤ c.toNat from h.1), h.2⟩
    · exact ⟨Nat.le_trans (by decide) (show 65 ≤ c.toNat from h.1),
        Nat.le_trans (show c.toNat ≤ 90 from h.2) (by decide)⟩
    · decide
    · exact ⟨h.1, Nat.le_trans (show c.toNat ≤ 57 from h.2) (by decide)⟩
  simp only [isBlank, Text.inRanges, Text.blankRanges, List.any_cons, List.any_nil,
    Bool.or_false, Bool.or_eq_false_iff, Bool.and_eq_false_iff, decide_eq_false_iff_not]
  omega

/-! ## Local scanners -/

variable {r w : List Char}

theorem spanOf_append_blank {p : Char → Bool} (hp : ∀ c, isSpace c = true → p c = false)
    (hr : startsBlank r = true) :
    spanOf p (w ++ r) = ((spanOf p w).1, (spanOf p w).2 ++ r) := by
  induction w with
  | nil =>
      have hnil : spanOf p ([] ++ r) = ([], r) := spanOf_append rfl (any_of_startsBlank hp hr)
      exact hnil
  | cons c w ih =>
      simp only [spanOf, Prod.mk.injEq] at ih
      by_cases hc : p c = true
      · simp [spanOf, hc, ih.1, ih.2]
      · simp [spanOf, hc]

theorem scanWord_local {split : List Char → Scan}
    (hsplit : ∀ {w r}, startsBlank r = true → split (w ++ r) = ((split w).1, (split w).2 ++ r)) :
    Local (scanWord split) := by
  intro w r hr
  cases w with
  | nil =>
      cases r with
      | nil =>
          rfl
      | cons c r =>
          simp [scanWord, isWordStart_of_isSpace hr]
  | cons c w =>
      by_cases hc : isWordStart c = true
      · simp [scanWord, hc, hsplit hr, Scan.push]
      · simp [scanWord, hc]

theorem scanIdentifier_local : Local scanIdentifier := by
  rw [scanIdentifier_eq]
  exact scanWord_local (spanOf_append_blank fun _ => isWordPart_of_isSpace)

theorem splitDotted_append_blank (hr : startsBlank r = true) :
    splitDotted (w ++ r) = ((splitDotted w).1, (splitDotted w).2 ++ r) := by
  induction w with
  | nil =>
      cases r with
      | nil =>
          rfl
      | cons c r =>
          have hc : isSpace c = true := hr
          have hpoint : c ≠ '.' := by
            rintro rfl
            cases hc
          simp [splitDotted, isWordPart_of_isSpace hc, hpoint]
  | cons c w ih =>
      -- A point looks at the character behind it, which may be the blank.
      have hnext : (w ++ r).head?.any isWordStart = w.head?.any isWordStart := by
        cases w with
        | nil =>
            exact any_of_startsBlank (fun _ => isWordStart_of_isSpace) hr
        | cons d w =>
            rfl
      simp only [List.cons_append, splitDotted, hnext, ih]
      split <;> rfl

theorem scanPath_local : Local scanPath := by
  rw [scanPath_eq]
  exact scanWord_local splitDotted_append_blank

theorem afterWord?_append_blank {word : List Char} (hword : isInk word = true)
    (hr : startsBlank r = true) :
    afterWord? word (w ++ r) = (afterWord? word w).map (· ++ r) := by
  have hall : ∀ c ∈ word, isBlank c = false := by
    simp only [isInk, Bool.and_eq_true, List.all_eq_true, Bool.not_eq_true'] at hword
    exact hword.2
  clear hword
  fun_induction afterWord? word w with
  | case1 w =>
      rfl
  | case2 c word =>
      cases r with
      | nil =>
          rfl
      | cons d r =>
          have hne : c ≠ d := by
            rintro rfl
            exact Bool.false_ne_true ((hall c (by simp)).symm.trans (isBlank_of_isSpace hr))
          simp [afterWord?, hne]
  | case3 c word w ih =>
      simpa [afterWord?] using ih fun d hd => hall d (by simp [hd])
  | case4 c word d w hne =>
      simp [afterWord?, hne]

theorem literal_local {word : List Char} (hword : isInk word = true) :
    Local fun s => (afterWord? word s).map fun rest => (word, rest) := by
  intro w r hr
  simp only [afterWord?_append_blank hword hr, Option.map_map]
  rfl

theorem scanKeyword_local {word : List Char} (hword : isInk word = true) :
    Local (scanKeyword word) := by
  intro w r hr
  unfold scanKeyword
  rw [afterWord?_append_blank hword hr]
  cases afterWord? word w with
  | none =>
      rfl
  | some rest =>
      have hnext : (rest ++ r).head?.any isWordPart = rest.head?.any isWordPart := by
        cases rest with
        | nil =>
            exact any_of_startsBlank (fun _ => isWordPart_of_isSpace) hr
        | cons d rest =>
            rfl
      simp only [Option.map_some, hnext]
      split <;> rfl

theorem Local.or {scan scan' : List Char → Option Scan} (h : Local scan) (h' : Local scan') :
    Local fun s => (scan s).or (scan' s) := by
  intro w r hr
  simp only [h w r hr, h' w r hr]
  cases scan w <;> rfl

theorem scanBoolean_local : Local scanBoolean :=
  (scanKeyword_local rfl).or (scanKeyword_local rfl)

theorem scanBlockKeyword_local : Local scanBlockKeyword :=
  (scanKeyword_local rfl).or (scanKeyword_local rfl)

theorem splitFraction_append_blank (hr : startsBlank r = true) :
    splitFraction (w ++ r) = ((splitFraction w).1, (splitFraction w).2 ++ r) := by
  cases w with
  | nil =>
      cases r with
      | nil =>
          rfl
      | cons c r =>
          have hc : isSpace c = true := hr
          unfold splitFraction
          split
          · rename_i heq
            cases heq
            cases hc
          · rfl
  | cons c w =>
      by_cases hpoint : c = '.'
      · subst hpoint
        have hnext : (w ++ r).head?.any isDigit = w.head?.any isDigit := by
          cases w with
          | nil =>
              exact any_of_startsBlank (fun _ => isDigit_of_isSpace) hr
          | cons d w =>
              rfl
        simp only [List.cons_append, splitFraction, hnext,
          spanOf_append_blank (fun _ => isDigit_of_isSpace) hr]
        split <;> rfl
      · have hplain : ∀ s, splitFraction (c :: s) = ([], c :: s) := by
          intro s
          unfold splitFraction
          split
          · rename_i heq
            exact absurd (List.cons.inj heq).1 hpoint
          · rfl
        rw [List.cons_append, hplain, hplain]
        rfl

theorem scanUnsigned_local : Local scanUnsigned := by
  intro w r hr
  cases w with
  | nil =>
      cases r with
      | nil =>
          rfl
      | cons c r =>
          simp [scanUnsigned, isDigit_of_isSpace hr]
  | cons c w =>
      have hspan := spanOf_append_blank (w := c :: w) (fun _ => isDigit_of_isSpace) hr
      simp only [scanUnsigned, hspan, splitFraction_append_blank hr]
      have hhead : (c :: w ++ r).head? = (c :: w).head? := rfl
      rw [hhead]
      split <;> rfl

theorem scanNumber_local : Local scanNumber := by
  intro w r hr
  cases w with
  | nil =>
      cases r with
      | nil =>
          rfl
      | cons c r =>
          have hc : isSpace c = true := hr
          have hplain : scanNumber (c :: r) = scanUnsigned (c :: r) := by
            unfold scanNumber
            split
            · rename_i heq
              cases heq
              cases hc
            · rfl
          rw [List.nil_append, hplain]
          exact scanUnsigned_local [] (c :: r) hr
  | cons c w =>
      by_cases hminus : c = '-'
      · subst hminus
        simp only [List.cons_append, scanNumber, scanUnsigned_local w r hr, Option.map_map]
        rfl
      · have hplain : ∀ s, scanNumber (c :: s) = scanUnsigned (c :: s) := by
          intro s
          unfold scanNumber
          split
          · rename_i heq
            exact absurd (List.cons.inj heq).1 hminus
          · rfl
        rw [List.cons_append, hplain, hplain]
        exact scanUnsigned_local (c :: w) r hr

theorem IsWord.isLocal {e : Pattern} {scan : List Char → Option Scan} (h : IsWord e scan) :
    Local scan := by
  cases h with
  | literal hword =>
      exact literal_local hword
  | path =>
      exact scanPath_local
  | argName =>
      exact scanIdentifier_local
  | boolean =>
      exact scanBoolean_local

/-- Every token but strings and documentation text is scanned up to the next blank. -/
theorem Rule.token_local {rule : Rule} {scan : List Char → Option Scan}
    (hform : rule.form = .token scan) (hdoc : rule ≠ .docText) (hstring : rule ≠ .stringLiteral) :
    Local scan := by
  cases rule <;> simp only [Rule.form, reduceCtorEq, Form.token.injEq] at hform
  case docText =>
      exact absurd rfl hdoc
  case stringLiteral =>
      exact absurd rfl hstring
  case skippedKeyword =>
      exact hform ▸ scanBlockKeyword_local
  case typeName | identifier =>
      exact hform ▸ scanIdentifier_local
  case attributeName | path =>
      exact hform ▸ scanPath_local
  case numberLiteral =>
      exact hform ▸ scanNumber_local
  case booleanLiteral =>
      exact hform ▸ scanBoolean_local

/-! ## Words without blanks -/

theorem isInk_iff {word : List Char} :
    isInk word = true ↔ word ≠ [] ∧ ∀ c ∈ word, isBlank c = false := by
  simp [isInk]

theorem splitDotted_solid (s : List Char) : ∀ c ∈ (splitDotted s).1, isBlank c = false := by
  fun_induction splitDotted s with
  | case1 =>
      simp
  | case2 c rest hc ih =>
      have hsolid : isBlank c = false := by
        rcases Bool.or_eq_true_iff.1 hc with hc | hc
        · exact isBlank_of_isWordPart hc
        · obtain rfl := of_decide_eq_true (Bool.and_eq_true_iff.1 hc).1
          decide
      simpa [hsolid] using ih
  | case3 =>
      simp

theorem spanOf_isDigit_solid (s : List Char) : ∀ c ∈ (spanOf isDigit s).1, isBlank c = false := by
  have hall : (s.takeWhile isDigit).all isDigit = true := List.all_takeWhile
  intro c hc
  exact isBlank_of_isWordPart (isWordPart_of_isDigit (List.all_eq_true.1 hall c hc))

theorem splitFraction_solid (s : List Char) : ∀ c ∈ (splitFraction s).1, isBlank c = false := by
  unfold splitFraction
  split
  · split
    · intro c hc
      rcases List.mem_cons.1 hc with rfl | hc
      · decide
      · exact spanOf_isDigit_solid _ c hc
    · simp
  · simp

theorem scanUnsigned_solid {s : List Char} {x : Scan} (h : scanUnsigned s = some x) :
    ∀ c ∈ x.1, isBlank c = false := by
  unfold scanUnsigned at h
  split at h
  · cases h
    intro c hc
    rcases List.mem_append.1 hc with hc | hc
    · exact spanOf_isDigit_solid _ c hc
    · exact splitFraction_solid _ c hc
  · cases h

theorem scanNumber_solid {s : List Char} {x : Scan} (h : scanNumber s = some x) :
    ∀ c ∈ x.1, isBlank c = false := by
  unfold scanNumber at h
  split at h
  · obtain ⟨y, hy, rfl⟩ := Option.map_eq_some_iff.1 h
    intro c hc
    rcases List.mem_cons.1 hc with rfl | hc
    · decide
    · exact scanUnsigned_solid hy c hc
  · exact scanUnsigned_solid h

theorem scanIdentifier_solid {s : List Char} {x : Scan} (h : scanIdentifier s = some x) :
    ∀ c ∈ x.1, isBlank c = false := by
  have hall := all_isWordPart_of_isIdentifier (scanIdentifier_isIdentifier h)
  exact fun c hc => isBlank_of_isWordPart (List.all_eq_true.1 hall c hc)

theorem scanPath_solid {s : List Char} {x : Scan} (h : scanPath s = some x) :
    ∀ c ∈ x.1, isBlank c = false := by
  rw [scanPath_eq] at h
  obtain ⟨start, rest, -, hstart, rfl⟩ := exists_of_scanWord h
  intro c hc
  rcases List.mem_cons.1 hc with rfl | hc
  · exact isBlank_of_isWordPart (isWordPart_of_isWordStart hstart)
  · exact splitDotted_solid _ c hc

theorem Rule.token_ink {rule : Rule} {scan : List Char → Option Scan}
    (hform : rule.form = .token scan) (hdoc : rule ≠ .docText) (hstring : rule ≠ .stringLiteral)
    {s : List Char} {x : Scan} (h : scan s = some x) : isInk x.1 = true := by
  refine isInk_iff.2 ⟨Rule.token_takes hform hdoc h, ?_⟩
  cases rule <;> simp only [Rule.form, reduceCtorEq, Form.token.injEq] at hform
  case docText =>
      exact absurd rfl hdoc
  case stringLiteral =>
      exact absurd rfl hstring
  case skippedKeyword | booleanLiteral =>
      subst hform
      rcases Option.or_eq_some_iff.1 h with h | ⟨-, h⟩ <;>
        rw [(scanKeyword_eq_some_iff.1 h).1] <;> exact (isInk_iff.1 (by decide)).2
  case typeName | identifier =>
      subst hform
      exact scanIdentifier_solid h
  case attributeName | path =>
      subst hform
      exact scanPath_solid h
  case numberLiteral =>
      subst hform
      exact scanNumber_solid h

/-- A string literal ends with its closing quote, whatever follows it. -/
theorem splitString_append {s : List Char} {x : Scan} (h : splitString s = some x)
    (r : List Char) : splitString (x.1 ++ r) = some (x.1, r) ∧ ∃ w, x.1 = w ++ ['\"'] := by
  fun_induction splitString s generalizing x with
  | case1 | case3 =>
      cases h
  | case2 rest =>
      cases h
      exact ⟨rfl, [], rfl⟩
  | case4 c rest ih =>
      obtain ⟨y, hy, rfl⟩ := Option.map_eq_some_iff.1 h
      obtain ⟨hscan, w, hw⟩ := ih hy
      refine ⟨?_, '\\' :: c :: w, by simp [hw]⟩
      simp [splitString, hscan, Scan.push]
  | case5 c rest hquote hlast hescape ih =>
      obtain ⟨y, hy, rfl⟩ := Option.map_eq_some_iff.1 h
      obtain ⟨hscan, w, hw⟩ := ih hy
      refine ⟨?_, c :: w, by simp [hw]⟩
      -- The character is plain: a backslash would have taken the next one along.
      have hplain : c ≠ '\"' ∧ c ≠ '\\' := by
        constructor
        · rintro rfl
          exact hquote rfl
        · rintro rfl
          cases rest with
          | nil =>
              exact hlast rfl rfl
          | cons d rest =>
              exact hescape d rest rfl rfl
      rw [Scan.push_fst, List.cons_append, splitString.eq_def]
      split
      · rename_i heq
        cases heq
      · rename_i heq
        exact absurd (List.cons.inj heq).1 hplain.1
      · rename_i heq
        exact absurd (List.cons.inj heq).1 hplain.2
      · rename_i heq
        exact absurd (List.cons.inj heq).1 hplain.2
      · rename_i heq
        cases heq
        rw [hscan]
        rfl

theorem scanString_append {s : List Char} {x : Scan} (h : scanString s = some x) (r : List Char) :
    scanString (x.1 ++ r) = some (x.1, r) ∧ ∃ w, x.1 = w ++ ['\"'] := by
  unfold scanString at h
  split at h
  · obtain ⟨y, hy, rfl⟩ := Option.map_eq_some_iff.1 h
    obtain ⟨hscan, w, hw⟩ := splitString_append hy r
    refine ⟨?_, '\"' :: w, by simp [hw]⟩
    simp [scanString, hscan, Scan.push]
  · cases h

/-! ## Blanks and comments -/

theorem afterWord?_eq_none {word s : List Char} (h : ∀ rest, s = word ++ rest → False) :
    afterWord? word s = none :=
  Option.eq_none_iff_forall_ne_some.2 fun rest hrest => h rest (afterWord?_eq_some_iff.1 hrest)

/-- After two slashes a third one has to be followed by a fourth. -/
theorem opensComment_eq (s : List Char) :
    opensComment s = (afterWord? ['/', '/'] s).any fun t =>
      (afterWord? ['/'] t).all fun u => (afterWord? ['/'] u).isSome := by
  fun_cases opensComment s with
  | case1 t =>
      rfl
  | case2 t hfour =>
      have hnone : afterWord? ['/'] t = none := afterWord?_eq_none hfour
      simp [afterWord?, hnone]
  | case3 t hfour hthree =>
      have hnone : afterWord? ['/'] t = none := afterWord?_eq_none hthree
      simp [afterWord?, hnone]
  | case4 s hfour hthree htwo =>
      have hnone : afterWord? ['/', '/'] s = none := afterWord?_eq_none htwo
      simp [hnone]

theorem opensComment_append_blank (hr : startsBlank r = true) :
    opensComment (w ++ r) = opensComment w := by
  have hone : ∀ s, afterWord? ['/'] (s ++ r) = (afterWord? ['/'] s).map (· ++ r) :=
    fun s => afterWord?_append_blank rfl hr
  have htwo : afterWord? ['/', '/'] (w ++ r) = (afterWord? ['/', '/'] w).map (· ++ r) :=
    afterWord?_append_blank rfl hr
  simp only [opensComment_eq, htwo, Option.any_map, hone, Option.all_map, Option.isSome_map]

/-- Blanks and comments that reach a line feed go on behind it. -/
theorem splitBlanks_append_feed (inComment : Bool) (w x : List Char) :
    splitBlanks inComment (w ++ '\n' :: x) =
      if (splitBlanks inComment w).2 = [] then
        (w ++ '\n' :: (splitBlanks false x).1, (splitBlanks false x).2)
      else ((splitBlanks inComment w).1, (splitBlanks inComment w).2 ++ '\n' :: x) := by
  induction w generalizing inComment with
  | nil =>
      cases inComment <;> rfl
  | cons c w ih =>
      have hpush : ∀ b, (splitBlanks b (w ++ '\n' :: x)).push c =
          if ((splitBlanks b w).push c).2 = [] then
            (c :: w ++ '\n' :: (splitBlanks false x).1, (splitBlanks false x).2)
          else (((splitBlanks b w).push c).1, ((splitBlanks b w).push c).2 ++ '\n' :: x) := by
        intro b
        by_cases hnil : (splitBlanks b w).2 = [] <;> simp [ih b, Scan.push, hnil]
      have hopens : opensComment (c :: (w ++ '\n' :: x)) = opensComment (c :: w) :=
        opensComment_append_blank (w := c :: w) rfl
      rw [List.cons_append, splitBlanks, splitBlanks, hopens]
      by_cases hcomment : inComment = true
      · rw [if_pos hcomment, if_pos hcomment, hpush]
      rw [if_neg hcomment, if_neg hcomment]
      by_cases hspace : isSpace c = true
      · rw [if_pos hspace, if_pos hspace, hpush]
      rw [if_neg hspace, if_neg hspace]
      by_cases hopen : opensComment (c :: w) = true
      · rw [if_pos hopen, if_pos hopen, hpush]
      · simp [hopen]

/-! ## Texts that agree up to a blank -/

/-- Two texts with the same beginning, which ends in both of them at a blank or with the text. A
line that ends in the first text ends in the second as well. -/
def Agree (s s' : List Char) : Prop :=
  ∃ w r r', s = w ++ r ∧ s' = w ++ r' ∧ startsBlank r = true ∧ startsBlank r' = true ∧
    (r.head?.all isLineBreak = true → r'.head?.all isLineBreak = true)

namespace Agree

variable {s s' : List Char} {scan : List Char → Option Scan}

theorem refl (s : List Char) : Agree s s :=
  ⟨s, [], [], by simp, by simp, rfl, rfl, id⟩

theorem scan_none (h : Agree s s') (hscan : Local scan) (hs : scan s = none) : scan s' = none := by
  obtain ⟨w, r, r', rfl, rfl, hr, hr', -⟩ := h
  rw [hscan w r hr, Option.map_eq_none_iff] at hs
  rw [hscan w r' hr', hs]
  rfl

theorem scan_some (h : Agree s s') (hscan : Local scan) {x : Scan} (hs : scan s = some x) :
    ∃ rest, scan s' = some (x.1, rest) := by
  obtain ⟨w, r, r', rfl, rfl, hr, hr', -⟩ := h
  rw [hscan w r hr] at hs
  obtain ⟨y, hy, rfl⟩ := Option.map_eq_some_iff.1 hs
  exact ⟨y.2 ++ r', by rw [hscan w r' hr', hy]; rfl⟩

theorem head_any (h : Agree s s') {p : Char → Bool} (hp : ∀ c, isSpace c = true → p c = false)
    (hs : s.head?.any p = false) : s'.head?.any p = false := by
  obtain ⟨w, r, r', rfl, rfl, hr, hr', -⟩ := h
  cases w with
  | nil =>
      exact any_of_startsBlank hp hr'
  | cons c w =>
      exact hs

theorem ne_nil (h : Agree s s') {c : Char} {t : List Char} (hs : s = c :: t)
    (hc : isSpace c = false) : s' ≠ [] := by
  obtain ⟨w, r, r', rfl, rfl, hr, hr', -⟩ := h
  cases w with
  | nil =>
      rw [List.nil_append] at hs
      rw [hs] at hr
      exact absurd (hc.symm.trans hr) Bool.false_ne_true
  | cons d w =>
      simp

theorem opensComment (h : Agree s s') : opensComment s' = opensComment s := by
  obtain ⟨w, r, r', rfl, rfl, hr, hr', -⟩ := h
  rw [opensComment_append_blank hr, opensComment_append_blank hr']

theorem lineBreak (h : Agree s s') (hs : s.head?.all isLineBreak = true) :
    s'.head?.all isLineBreak = true := by
  obtain ⟨w, r, r', rfl, rfl, hr, hr', hbreak⟩ := h
  cases w with
  | nil =>
      exact hbreak hs
  | cons c w =>
      exact hs

end Agree

end Grammar
end PrismaTypes
