import Mathlib.Data.List.Basic
import PrismaTypes.Grammar.Pattern

/-!
# What the scanners take

Every scanner splits the text it is given: what it takes and what it leaves make up the text again
(`Scan.Splits`), and all of them but the one for documentation text take at least one character.
The two facts are collected for the tokens of the grammar in `Rule.token_splits` and
`Rule.token_takes`.

`isIdentifier` describes names without reference to a scanner; the other words of the language
follow in a module of their own.
-/

namespace PrismaTypes
namespace Grammar

/-! ## Splitting -/

/-- The two parts of a scan make up the text. -/
def Scan.Splits (x : Scan) (s : List Char) : Prop :=
  x.1 ++ x.2 = s

namespace Scan

theorem Splits.push {x : Scan} {s : List Char} (h : x.Splits s) (c : Char) :
    (x.push c).Splits (c :: s) := by
  have hs : x.1 ++ x.2 = s := h
  simp [Splits, Scan.push, hs]

@[simp] theorem push_fst (c : Char) (x : Scan) : (x.push c).1 = c :: x.1 := rfl

@[simp] theorem push_snd (c : Char) (x : Scan) : (x.push c).2 = x.2 := rfl

end Scan

theorem spanOf_splits (p : Char → Bool) (s : List Char) : (spanOf p s).Splits s :=
  List.takeWhile_append_dropWhile

theorem afterWord?_eq_some_iff {word s rest : List Char} :
    afterWord? word s = some rest ↔ s = word ++ rest := by
  fun_induction afterWord? word s with
  | case1 s =>
      simp [eq_comm]
  | case2 w word =>
      simp
  | case3 w word s ih =>
      simpa using ih
  | case4 w word c s hne =>
      have hne' : ¬ c = w := fun h => hne h.symm
      simp [hne']

@[simp] theorem afterWord?_append (word rest : List Char) :
    afterWord? word (word ++ rest) = some rest :=
  afterWord?_eq_some_iff.2 rfl

theorem afterWord?_eq_none_iff {word s : List Char} :
    afterWord? word s = none ↔ ¬ word <+: s := by
  rw [Option.eq_none_iff_forall_not_mem]
  constructor
  · rintro h ⟨rest, rfl⟩
    exact h rest (afterWord?_append word rest)
  · intro h rest hrest
    exact h ⟨rest, (afterWord?_eq_some_iff.1 hrest).symm⟩

theorem scanKeyword_eq_some_iff {word s : List Char} {x : Scan} :
    scanKeyword word s = some x ↔
      x.1 = word ∧ s = word ++ x.2 ∧ x.2.head?.any isWordPart = false := by
  unfold scanKeyword
  rcases x with ⟨taken, left⟩
  cases h : afterWord? word s with
  | none =>
      have hno : ¬ word <+: s := afterWord?_eq_none_iff.1 h
      simp only [reduceCtorEq, false_iff]
      rintro ⟨-, hs, -⟩
      exact hno ⟨left, hs.symm⟩
  | some rest =>
      have hs : s = word ++ rest := afterWord?_eq_some_iff.1 h
      -- A keyword that goes on as a longer word is none.
      by_cases hpart : rest.head?.any isWordPart = true
      · simp only [hpart, if_true, reduceCtorEq, false_iff]
        rintro ⟨-, hs', hleft⟩
        rw [hs, List.append_cancel_left_eq] at hs'
        rw [hs', hleft] at hpart
        cases hpart
      · simp only [hpart, hs, List.append_cancel_left_eq, Option.some.injEq, Prod.mk.injEq,
          Bool.false_eq_true, if_false]
        constructor
        · rintro ⟨rfl, rfl⟩
          exact ⟨rfl, rfl, by simpa using hpart⟩
        · rintro ⟨rfl, rfl, -⟩
          exact ⟨rfl, rfl⟩

theorem splitBlanks_splits (inComment : Bool) (s : List Char) :
    (splitBlanks inComment s).Splits s := by
  fun_induction splitBlanks inComment s with
  | case1 =>
      rfl
  | case2 c rest ih =>
      exact ih.push c
  | case3 inComment c rest _ _ ih =>
      exact ih.push c
  | case4 inComment c rest _ _ _ ih =>
      exact ih.push c
  | case5 =>
      rfl

theorem scanSpace_splits {s : List Char} {x : Scan} (h : scanSpace s = some x) : x.Splits s := by
  unfold scanSpace at h
  split at h
  · split at h
    · cases h
      rfl
    · cases h
  · cases h

theorem scanComment_splits {s : List Char} {x : Scan} (h : scanComment s = some x) :
    x.Splits s := by
  unfold scanComment at h
  split at h
  · cases h
    exact spanOf_splits _ s
  · cases h

/-- A letter or an underscore, and what `split` takes of the text after it. Identifiers and paths
differ in `split` only. -/
def scanWord (split : List Char → Scan) : List Char → Option Scan
  | c :: rest => if isWordStart c then some ((split rest).push c) else none
  | [] => none

theorem scanIdentifier_eq : scanIdentifier = scanWord (spanOf isWordPart) := by
  funext s
  cases s <;> rfl

theorem scanPath_eq : scanPath = scanWord splitDotted := by
  funext s
  cases s <;> rfl

theorem exists_of_scanWord {split : List Char → Scan} {s : List Char} {x : Scan}
    (h : scanWord split s = some x) :
    ∃ c rest, s = c :: rest ∧ isWordStart c = true ∧ x = (split rest).push c := by
  cases s with
  | nil =>
      cases h
  | cons c rest =>
      by_cases hc : isWordStart c = true
      · rw [scanWord, if_pos hc] at h
        exact ⟨c, rest, rfl, hc, (Option.some.inj h).symm⟩
      · rw [scanWord, if_neg hc] at h
        cases h

theorem scanWord_splits {split : List Char → Scan} (hsplit : ∀ s, (split s).Splits s)
    {s : List Char} {x : Scan} (h : scanWord split s = some x) : x.Splits s := by
  obtain ⟨c, rest, rfl, -, rfl⟩ := exists_of_scanWord h
  exact (hsplit rest).push c

theorem splitDotted_splits (s : List Char) : (splitDotted s).Splits s := by
  fun_induction splitDotted s with
  | case1 =>
      rfl
  | case2 c rest _ ih =>
      exact ih.push c
  | case3 =>
      rfl

theorem scanKeyword_splits {word s : List Char} {x : Scan} (h : scanKeyword word s = some x) :
    x.Splits s := by
  obtain ⟨htaken, hs, -⟩ := scanKeyword_eq_some_iff.1 h
  simp [Scan.Splits, htaken, hs]

theorem splitFraction_splits (s : List Char) : (splitFraction s).Splits s := by
  unfold splitFraction
  split
  · rename_i rest
    split
    · exact (spanOf_splits _ rest).push '.'
    · rfl
  · rfl

theorem scanUnsigned_splits {s : List Char} {x : Scan} (h : scanUnsigned s = some x) :
    x.Splits s := by
  unfold scanUnsigned at h
  split at h
  · cases h
    -- First the whole digits are split off, then the fraction of what they leave.
    have hwhole : (spanOf isDigit s).1 ++ (spanOf isDigit s).2 = s := spanOf_splits isDigit s
    have hfraction := splitFraction_splits (spanOf isDigit s).2
    simp only [Scan.Splits, List.append_assoc] at hfraction ⊢
    rw [hfraction, hwhole]
  · cases h

theorem scanNumber_splits {s : List Char} {x : Scan} (h : scanNumber s = some x) :
    x.Splits s := by
  unfold scanNumber at h
  split at h
  · obtain ⟨y, hy, rfl⟩ := Option.map_eq_some_iff.1 h
    exact (scanUnsigned_splits hy).push '-'
  · exact scanUnsigned_splits h

theorem splitString_splits {s : List Char} {x : Scan} (h : splitString s = some x) :
    x.Splits s := by
  fun_induction splitString s generalizing x with
  | case1 =>
      cases h
  | case2 rest =>
      cases h
      rfl
  | case3 =>
      cases h
  | case4 c rest ih =>
      obtain ⟨y, hy, rfl⟩ := Option.map_eq_some_iff.1 h
      exact ((ih hy).push c).push _
  | case5 c rest _ _ _ ih =>
      obtain ⟨y, hy, rfl⟩ := Option.map_eq_some_iff.1 h
      exact (ih hy).push c

theorem scanString_splits {s : List Char} {x : Scan} (h : scanString s = some x) :
    x.Splits s := by
  unfold scanString at h
  split at h
  · obtain ⟨y, hy, rfl⟩ := Option.map_eq_some_iff.1 h
    exact (splitString_splits hy).push _
  · cases h

/-- A token and the text after it make up the text. -/
theorem Rule.token_splits {rule : Rule} {scan : List Char → Option Scan}
    (hform : rule.form = .token scan) {s : List Char} {x : Scan} (h : scan s = some x) :
    x.Splits s := by
  -- Rules that are no tokens contradict the form.
  cases rule <;> simp only [Rule.form, reduceCtorEq, Form.token.injEq] at hform
  case docText =>
      subst hform
      cases h
      exact spanOf_splits _ s
  case skippedKeyword | booleanLiteral =>
      subst hform
      rcases Option.or_eq_some_iff.1 h with h | ⟨-, h⟩ <;> exact scanKeyword_splits h
  case typeName | identifier =>
      subst hform
      rw [scanIdentifier_eq] at h
      exact scanWord_splits (spanOf_splits isWordPart) h
  case attributeName | path =>
      subst hform
      rw [scanPath_eq] at h
      exact scanWord_splits splitDotted_splits h
  case stringLiteral =>
      subst hform
      exact scanString_splits h
  case numberLiteral =>
      subst hform
      exact scanNumber_splits h

/-- Blanks and comments taken as rules split the text, too. -/
theorem Rule.hidden_splits {rule : Rule} {scan : List Char → Option Scan}
    (hform : rule.form = .hidden scan) {s : List Char} {x : Scan} (h : scan s = some x) :
    x.Splits s := by
  cases rule <;> simp only [Rule.form, reduceCtorEq, Form.hidden.injEq] at hform
  case whitespace =>
      subst hform
      exact scanSpace_splits h
  case comment =>
      subst hform
      exact scanComment_splits h

/-! ## Taking something -/

theorem scanWord_takes {split : List Char → Scan} {s : List Char} {x : Scan}
    (h : scanWord split s = some x) : x.1 ≠ [] := by
  obtain ⟨c, rest, -, -, rfl⟩ := exists_of_scanWord h
  simp

theorem scanKeyword_takes {c : Char} {word s : List Char} {x : Scan}
    (h : scanKeyword (c :: word) s = some x) : x.1 ≠ [] := by
  simp [(scanKeyword_eq_some_iff.1 h).1]

theorem scanUnsigned_takes {s : List Char} {x : Scan} (h : scanUnsigned s = some x) :
    x.1 ≠ [] := by
  unfold scanUnsigned at h
  split at h
  · rename_i hdigit
    cases h
    -- The scan went ahead because of a digit in front, and takes at least that one.
    cases s with
    | nil =>
        simp at hdigit
    | cons c rest =>
        have hc : isDigit c = true := by simpa using hdigit
        simp [spanOf, hc]
  · cases h

theorem scanNumber_takes {s : List Char} {x : Scan} (h : scanNumber s = some x) : x.1 ≠ [] := by
  unfold scanNumber at h
  split at h
  · obtain ⟨y, -, rfl⟩ := Option.map_eq_some_iff.1 h
    simp
  · exact scanUnsigned_takes h

theorem scanString_takes {s : List Char} {x : Scan} (h : scanString s = some x) : x.1 ≠ [] := by
  unfold scanString at h
  split at h
  · obtain ⟨y, -, rfl⟩ := Option.map_eq_some_iff.1 h
    simp
  · cases h

/-- Every token takes something, except for documentation text, which may be empty. -/
theorem Rule.token_takes {rule : Rule} {scan : List Char → Option Scan}
    (hform : rule.form = .token scan) (hrule : rule ≠ .docText) {s : List Char} {x : Scan}
    (h : scan s = some x) : x.1 ≠ [] := by
  cases rule <;> simp only [Rule.form, reduceCtorEq, Form.token.injEq] at hform
  case docText =>
      exact absurd rfl hrule
  case skippedKeyword | booleanLiteral =>
      subst hform
      rcases Option.or_eq_some_iff.1 h with h | ⟨-, h⟩ <;> exact scanKeyword_takes h
  case typeName | identifier =>
      subst hform
      rw [scanIdentifier_eq] at h
      exact scanWord_takes h
  case attributeName | path =>
      subst hform
      rw [scanPath_eq] at h
      exact scanWord_takes h
  case stringLiteral =>
      subst hform
      exact scanString_takes h
  case numberLiteral =>
      subst hform
      exact scanNumber_takes h

/-! ## Identifiers -/

def isIdentifier : List Char → Bool
  | [] => false
  | c :: rest => isWordStart c && rest.all isWordPart

theorem scanIdentifier_isIdentifier {s : List Char} {x : Scan} (h : scanIdentifier s = some x) :
    isIdentifier x.1 = true := by
  rw [scanIdentifier_eq] at h
  obtain ⟨c, rest, -, hc, rfl⟩ := exists_of_scanWord h
  have hall : (rest.takeWhile isWordPart).all isWordPart = true := List.all_takeWhile
  simp [isIdentifier, spanOf, hc, hall]

end Grammar
end PrismaTypes
