import Mathlib.Algebra.Group.Int.Defs
import PrismaTypes.Outline.Reader
import PrismaTypes.Proofs.MetadataReading

/-!
# Integer default values

A number literal without a fraction is a sign and digits, and denotes an integer (`integerOf`). When
that integer fits 64 bits, signed or unsigned, it is the default value itself: it is written with
the canonical digits wherever it stands in a metadata document, and is read from there as it was. No
other literal becomes an integer, so none is ever rounded to one.
-/

namespace PrismaTypes

open Decimal (Numeral)
open Grammar (scanNumber isDigits)
open Json (Number endsNumber fitsWord)

/-! ## Canonical digits -/

namespace Decimal

theorem digitChar_eq {n : Nat} (h : n < 10) : digitChar n = Nat.digitChar n := by
  revert n
  decide

theorem digitsOf_eq_toDigits (n : Nat) : digitsOf n = Nat.toDigits 10 n := by
  induction n using digitsOf.induct with
  | case1 n h =>
      rw [digitsOf, if_pos h, Nat.toDigits_of_lt_base h, digitChar_eq h]
  | case2 n h ih =>
      calc
        digitsOf n = digitsOf (n / 10) ++ [digitChar (n % 10)] := by rw [digitsOf, if_neg h]
        _ = Nat.toDigits 10 (n / 10) ++ [Nat.digitChar (n % 10)] := by
          rw [ih, digitChar_eq (Nat.mod_lt n (by decide))]
        _ = Nat.toDigits 10 n := (Nat.toDigits_of_base_le (by decide) (by omega)).symm

/-- An integer is written as everywhere else. -/
theorem intDigits_eq (n : Int) : intDigits n = (toString n).toList := by
  have hnat : ∀ n : Nat, digitsOf n = (toString n).toList := by
    intro n
    rw [digitsOf_eq_toDigits, Nat.toString_eq_ofList_toDigits, String.toList_ofList]
  cases n with
  | ofNat n =>
      exact hnat n
  | negSucc n =>
      have hrepr : toString (Int.negSucc n) = "-" ++ toString (n + 1) := rfl
      rw [intDigits, hnat, hrepr, String.toList_append]
      rfl

end Decimal

/-! ## Literals without a fraction -/

/-- The integer that a sign and digits denote. -/
def integerOf : List Char → Int
  | '-' :: digits => -(Nat.ofDigitChars 10 digits 0 : Int)
  | digits => (Nat.ofDigitChars 10 digits 0 : Int)

theorem integerOf_digit {c : Char} (hc : Grammar.isDigit c = true) (s : List Char) :
    integerOf (c :: s) = (Nat.ofDigitChars 10 (c :: s) 0 : Int) := by
  unfold integerOf
  split
  · rename_i heq
    exact absurd (List.cons.inj heq).1 (Grammar.isDigit_ne_minus hc)
  · rfl

namespace Grammar

theorem splitFraction_cases (s : List Char) :
    (splitFraction s).1 = [] ∨ '.' ∈ (splitFraction s).1 := by
  unfold splitFraction
  split
  · split
    · exact .inr List.mem_cons_self
    · exact .inl rfl
  · exact .inl rfl

theorem isDigits_of_scanUnsigned {s word rest : List Char}
    (h : scanUnsigned s = some (word, rest)) (hword : '.' ∉ word) : isDigits word = true := by
  have htakes := scanUnsigned_takes h
  unfold scanUnsigned at h
  split at h
  · cases h
    rcases splitFraction_cases (spanOf isDigit s).2 with hnone | hpoint
    · rw [hnone, List.append_nil] at htakes ⊢
      simp only [isDigits, Bool.and_eq_true, Bool.not_eq_true', List.isEmpty_eq_false_iff]
      exact ⟨htakes, List.all_takeWhile⟩
    · exact absurd (List.mem_append_right _ hpoint) hword
  · cases h

/-- A literal without a fraction is a sign, perhaps, and digits. -/
theorem exists_digits_of_scanNumber {s literal rest : List Char}
    (h : scanNumber s = some (literal, rest)) (hwhole : '.' ∉ literal) :
    ∃ digits, isDigits digits = true ∧ (literal = '-' :: digits ∨ literal = digits) := by
  unfold scanNumber at h
  split at h
  · obtain ⟨⟨digits, left⟩, hscan, heq⟩ := Option.map_eq_some_iff.1 h
    cases heq
    have hdigits := isDigits_of_scanUnsigned hscan fun hpoint =>
      hwhole (List.mem_cons_of_mem _ hpoint)
    exact ⟨digits, hdigits, .inl rfl⟩
  · exact ⟨literal, isDigits_of_scanUnsigned h hwhole, .inr rfl⟩

end Grammar

namespace Decimal.Numeral

theorem splitSign_digit {c : Char} (hc : Grammar.isDigit c = true) (s : List Char) :
    splitSign (c :: s) = (false, c :: s) := by
  unfold splitSign
  split
  · rename_i heq
    exact absurd hc (by simp [(List.cons.inj heq).1, Grammar.isDigit])
  · rename_i heq
    exact absurd hc (by simp [(List.cons.inj heq).1, Grammar.isDigit])
  · rfl

/-- Digits behind a sign are read as they stand, with all their zeros. -/
theorem read?_of_splitSign {s digits : List Char} {negative : Bool}
    (hsign : splitSign s = (negative, digits)) (hdigits : isDigits digits = true) :
    read? s = some ⟨negative, digits, none, none⟩ := by
  obtain ⟨c, rest, heq, -, hall⟩ := Grammar.exists_of_isDigits hdigits
  have hspan : Grammar.spanOf Decimal.isDigit (digits ++ []) = (digits, []) :=
    Grammar.spanOf_append hall rfl
  rw [List.append_nil] at hspan
  obtain ⟨htake, hdrop⟩ := Prod.mk.inj hspan
  have hne : digits.isEmpty = false := by simp [heq]
  simp [read?, hsign, htake, hdrop, splitPoint, readExponent?, hne]

/-- A literal without a fraction is read as the integer that it denotes. -/
theorem exists_read?_of_scanNumber {s literal rest : List Char}
    (h : scanNumber s = some (literal, rest)) (hwhole : '.' ∉ literal) :
    ∃ n, read? literal = some n ∧ n.isWhole = true ∧ n.toInt = integerOf literal := by
  obtain ⟨digits, hdigits, rfl | rfl⟩ := Grammar.exists_digits_of_scanNumber h hwhole
  · exact ⟨_, read?_of_splitSign rfl hdigits, rfl, rfl⟩
  · obtain ⟨c, tail, rfl, hc, -⟩ := Grammar.exists_of_isDigits hdigits
    refine ⟨_, read?_of_splitSign (splitSign_digit hc tail) hdigits, rfl, ?_⟩
    exact (integerOf_digit hc tail).symm

end Decimal.Numeral

/-! ## Default values -/

theorem Json.fitsWord_iff {n : Int} : fitsWord n = true ↔ -2 ^ 63 ≤ n ∧ n ≤ 2 ^ 64 - 1 := by
  simp only [fitsWord, Bool.and_eq_true, decide_eq_true_eq]
  omega

namespace Default

/-- The default value is the integer. Wherever it stands in a document it is written with the
canonical digits, and what is read there is the same default value. -/
structure IsInteger (d : Default) (n : Int) : Prop where
  eq : d = number (.whole n)
  written : ∀ style level rest, d.toJson.render style level rest = (toString n).toList ++ rest
  reread : ∀ style level fuel rest, endsNumber rest = true →
    ∃ tree, Json.readValue (fuel + 1) (d.toJson.render style level rest) = .ok (tree, rest) ∧
      ∀ room, Default.decode room tree = some d

theorem isInteger_whole {n : Int} (h : fitsWord n = true) : IsInteger (number (.whole n)) n := by
  have hback := Number.readsBack_whole h
  constructor
  case eq => rfl
  case written =>
    intro style level rest
    rw [toJson, Json.Value.render, Number.render, Decimal.intDigits_eq]
  case reread =>
    intro style level fuel rest hrest
    obtain ⟨c, tail, heq, hblank, -⟩ :=
      (Json.Value.number (.whole n)).exists_render_eq_cons style level rest
        (by simpa [Json.Value.numbers] using hback)
    have hread : Json.readNumber (c :: tail) = .ok (.number (some (.whole n)), rest) := by
      rw [← heq, Json.Value.render]
      exact hback.readNumber_append hrest
    -- A text that reads as a number starts like one, so the reader takes that branch.
    obtain ⟨_, _, hcons, hc⟩ := Json.exists_of_readNumber hread
    cases hcons
    refine ⟨.number (some (.whole n)), ?_, fun room => rfl⟩
    rw [toJson, heq, Json.readValue_number (Json.skipBlanks_cons hblank tail) hc, hread]

/-- A literal without a fraction becomes an integer exactly when that fits. -/
theorem ofNumberLiteral_eq {literal : String} {numeral : Numeral}
    (hread : Numeral.read? literal.toList = some numeral) (hwhole : numeral.isWhole = true) :
    ofNumberLiteral literal =
      if fitsWord numeral.toInt then number (.whole numeral.toInt)
      else (numeral.toDouble?.map fun x => number (.double x)).getD (text literal) := by
  rw [ofNumberLiteral, hread, Option.bind_some, Number.ofNumeral?, hwhole, Bool.true_and]
  by_cases hfits : fitsWord numeral.toInt = true
  · rw [if_pos hfits, if_pos hfits]
  · rw [if_neg hfits, if_neg hfits]
    cases numeral.toDouble? <;> rfl

end Default

/-! ## Results -/

/-- A number literal without a fraction whose integer fits 64 bits, signed or unsigned, is that
integer as a default value, in its written form and when it is read again. Any other one is a
double, or stays the text that it is. -/
theorem integer_default_exact (input literal rest : List Char)
    (hscan : scanNumber input = some (literal, rest)) (hwhole : '.' ∉ literal)
    (place : Text.Place) :
    ∃ v, Outline.readValue (.mk .numberLiteral place literal []) = .ok v ∧
      (-2 ^ 63 ≤ integerOf literal ∧ integerOf literal ≤ 2 ^ 64 - 1 →
        (Default.ofValue v).IsInteger (integerOf literal)) ∧
      (¬ (-2 ^ 63 ≤ integerOf literal ∧ integerOf literal ≤ 2 ^ 64 - 1) →
        (∃ x, Default.ofValue v = .number (.double x)) ∨
          Default.ofValue v = .text (String.ofList literal)) := by
  refine ⟨.number (String.ofList literal), rfl, ?_⟩
  obtain ⟨numeral, hread, hinteger, hvalue⟩ :=
    Numeral.exists_read?_of_scanNumber hscan hwhole
  rw [← String.toList_ofList (l := literal)] at hread
  have hdefault := Default.ofNumberLiteral_eq hread hinteger
  rw [hvalue] at hdefault
  rw [Default.ofValue, hdefault, ← Json.fitsWord_iff]
  constructor
  · intro hfits
    rw [if_pos hfits]
    exact Default.isInteger_whole hfits
  · intro hfits
    rw [if_neg hfits]
    cases numeral.toDouble? with
    | none =>
        exact .inr rfl
    | some x =>
        exact .inl ⟨x, rfl⟩

/-- Both ends of the range, minus zero, and the first integer that is out of range. -/
theorem integer_default_exact_bounds :
    (∃ v, Outline.readValue (.mk .numberLiteral {} "-009223372036854775808".toList []) = .ok v ∧
      (Default.ofValue v).IsInteger (-2 ^ 63)) ∧
    (∃ v, Outline.readValue (.mk .numberLiteral {} "18446744073709551615".toList []) = .ok v ∧
      (Default.ofValue v).IsInteger (2 ^ 64 - 1)) ∧
    (∃ v, Outline.readValue (.mk .numberLiteral {} "-0".toList []) = .ok v ∧
      (Default.ofValue v).IsInteger 0) ∧
    ∃ v, Outline.readValue (.mk .numberLiteral {} "18446744073709551616".toList []) = .ok v ∧
      ((∃ x, Default.ofValue v = .number (.double x)) ∨
        Default.ofValue v = .text (String.ofList "18446744073709551616".toList)) := by
  have hleast : integerOf "-009223372036854775808".toList = -2 ^ 63 := by decide
  have hgreatest : integerOf "18446744073709551615".toList = 2 ^ 64 - 1 := by decide
  have hzero : integerOf "-0".toList = 0 := by decide
  have hbeyond : integerOf "18446744073709551616".toList = 2 ^ 64 := by decide
  refine ⟨?_, ?_, ?_, ?_⟩
  · obtain ⟨v, hread, hexact, -⟩ := integer_default_exact "-009223372036854775808)".toList
      "-009223372036854775808".toList [')'] (by decide) (by decide) {}
    rw [hleast] at hexact
    exact ⟨v, hread, hexact (by decide)⟩
  · obtain ⟨v, hread, hexact, -⟩ := integer_default_exact "18446744073709551615, x".toList
      "18446744073709551615".toList [',', ' ', 'x'] (by decide) (by decide) {}
    rw [hgreatest] at hexact
    exact ⟨v, hread, hexact (by decide)⟩
  · obtain ⟨v, hread, hexact, -⟩ := integer_default_exact "-0.".toList "-0".toList ['.']
      (by decide) (by decide) {}
    rw [hzero] at hexact
    exact ⟨v, hread, hexact (by decide)⟩
  · obtain ⟨v, hread, -, hother⟩ := integer_default_exact "18446744073709551616".toList
      "18446744073709551616".toList [] (by decide) (by decide) {}
    rw [hbeyond] at hother
    exact ⟨v, hread, hother (by decide)⟩

end PrismaTypes
