import Mathlib.Data.List.Basic
import PrismaTypes.Json.Printer
import PrismaTypes.Json.Reader
import PrismaTypes.Proofs.Words

/-!
# Numbers in JSON texts

Reading a number is local: it does not depend on what follows, as long as that does not continue the
number (`endsNumber`). So it is enough to know that a number reads back from its text alone
(`Number.ReadsBack`). Whole numbers of 64 bits do; a double need not, since doubles are read by
scaling.
-/

namespace PrismaTypes

/-! ## Digits -/

namespace Decimal

theorem isDigit_digitChar {n : Nat} (h : n < 10) : isDigit (digitChar n) = true := by
  revert n
  decide

theorem digitValue_digitChar {n : Nat} (h : n < 10) : digitValue (digitChar n) = n := by
  revert n
  decide

theorem digitChar_ne_zero {n : Nat} (h : n < 10) (hn : n ≠ 0) : digitChar n ≠ '0' := by
  revert n
  decide

theorem all_isDigit_digitsOf (n : Nat) : (digitsOf n).all isDigit = true := by
  induction n using digitsOf.induct with
  | case1 n h =>
      rw [digitsOf, if_pos h]
      simp [isDigit_digitChar h]
  | case2 n h ih =>
      rw [digitsOf, if_neg h, List.all_append, ih]
      simp [isDigit_digitChar (Nat.mod_lt n (by decide : 0 < 10))]

theorem valueOf_digitsOf (n : Nat) : valueOf (digitsOf n) = n := by
  induction n using digitsOf.induct with
  | case1 n h =>
      rw [digitsOf, if_pos h]
      simp [valueOf, digitValue_digitChar h]
  | case2 n h ih =>
      unfold valueOf at ih
      rw [digitsOf, if_neg h, valueOf, List.foldl_append, ih]
      simp only [List.foldl_cons, List.foldl_nil,
        digitValue_digitChar (Nat.mod_lt n (by decide : 0 < 10))]
      omega

/-- Only zero is written with a zero in front. -/
theorem exists_digitsOf_eq_cons {n : Nat} (hn : n ≠ 0) :
    ∃ c rest, digitsOf n = c :: rest ∧ isDigit c = true ∧ c ≠ '0' := by
  induction n using digitsOf.induct with
  | case1 n h =>
      exact ⟨digitChar n, [], by rw [digitsOf, if_pos h], isDigit_digitChar h,
        digitChar_ne_zero h hn⟩
  | case2 n h ih =>
      -- The leading digit is that of `n / 10`, which is not zero either.
      obtain ⟨c, rest, heq, hc, hzero⟩ := ih (by omega)
      exact ⟨c, rest ++ [digitChar (n % 10)], by rw [digitsOf, if_neg h, heq]; rfl, hc, hzero⟩

end Decimal

namespace Json

open Decimal (isDigit digitsOf valueOf Numeral)

/-! ## Reading is local -/

/-- What follows does not continue a number. -/
def endsNumber (s : List Char) : Bool :=
  s.head?.all fun c => !isDigit c && c ≠ '.' && c ≠ 'e' && c ≠ 'E'

theorem any_isDigit_of_endsNumber {s : List Char} (h : endsNumber s = true) :
    s.head?.any isDigit = false := by
  cases s with
  | nil =>
      rfl
  | cons c rest =>
      have hc : ((isDigit c = false ∧ ¬ c = '.') ∧ ¬ c = 'e') ∧ ¬ c = 'E' := by
        simpa [endsNumber] using h
      simp [hc.1.1.1]

/-- A reader that gives the same when more text follows. -/
def IsLocal {α : Type} (read : List Char → Except ReadError (α × List Char)) : Prop :=
  ∀ s a left rest, read s = .ok (a, left) → endsNumber rest = true →
    read (s ++ rest) = .ok (a, left ++ rest)

theorem readDigits_append {digits rest : List Char} (hne : digits ≠ [])
    (hall : digits.all isDigit = true) (hrest : rest.head?.any isDigit = false) :
    readDigits (digits ++ rest) = .ok (digits, rest) := by
  have hspan : Grammar.spanOf isDigit (digits ++ rest) = (digits, rest) :=
    Grammar.spanOf_append hall hrest
  have hhead : (digits ++ rest).head?.any isDigit = true := by
    cases digits with
    | nil =>
        exact absurd rfl hne
    | cons c digits =>
        have hc : isDigit c = true := (List.all_eq_true.1 hall) c (by simp)
        simpa using hc
  rw [readDigits, if_pos hhead]
  exact congrArg Except.ok hspan

/-- The digits that were read, and no digit behind them. -/
theorem readDigits_eq_ok {s digits left : List Char} (h : readDigits s = .ok (digits, left)) :
    s = digits ++ left ∧ digits ≠ [] ∧ digits.all isDigit = true ∧
      left.head?.any isDigit = false := by
  unfold readDigits at h
  split at h
  · rename_i hhead
    cases h
    refine ⟨List.takeWhile_append_dropWhile.symm, ?_, List.all_takeWhile, ?_⟩
    · cases s with
      | nil =>
          cases hhead
      | cons c s =>
          have hc : isDigit c = true := by simpa using hhead
          simp [hc]
    · have hnot := List.head?_dropWhile_not isDigit s
      cases hdrop : (s.dropWhile isDigit).head? with
      | none =>
          rfl
      | some c =>
          rw [hdrop] at hnot
          simpa using hnot
  · cases h

theorem any_isDigit_append {left rest : List Char} (hleft : left.head?.any isDigit = false)
    (hrest : endsNumber rest = true) : (left ++ rest).head?.any isDigit = false := by
  cases left with
  | nil =>
      exact any_isDigit_of_endsNumber hrest
  | cons c left =>
      exact hleft

theorem isLocal_readDigits : IsLocal readDigits := by
  intro s digits left rest h hrest
  obtain ⟨rfl, hne, hall, hleft⟩ := readDigits_eq_ok h
  rw [List.append_assoc]
  exact readDigits_append hne hall (any_isDigit_append hleft hrest)

theorem readWhole_of_ne_zero {c : Char} {s : List Char} (hc : c ≠ '0') :
    readWhole (c :: s) = readDigits (c :: s) := by
  unfold readWhole
  split
  · rename_i heq
    exact absurd (List.cons.inj heq).1 hc
  · rfl

theorem isLocal_readWhole : IsLocal readWhole := by
  intro s digits left rest h hrest
  cases s with
  | nil =>
      cases h
  | cons c s =>
      -- After a zero in front there must be no digit, which more text could bring in.
      by_cases hc : c = '0'
      · subst hc
        simp only [readWhole] at h
        split at h
        · cases h
        · rename_i hnext
          cases h
          have hmore : ¬ (left ++ rest).head?.any isDigit = true := by
            rw [any_isDigit_append (Bool.eq_false_iff.2 hnext) hrest]
            exact Bool.false_ne_true
          simp only [List.cons_append, readWhole]
          rw [if_neg hmore]
      · rw [readWhole_of_ne_zero hc] at h
        rw [List.cons_append, readWhole_of_ne_zero hc]
        exact isLocal_readDigits _ _ _ _ h hrest

theorem readFraction_of_ne_point {s : List Char} (hs : s.head? ≠ some '.') :
    readFraction s = .ok (none, s) := by
  unfold readFraction
  split
  · exact absurd rfl hs
  · rfl

theorem isLocal_readFraction : IsLocal readFraction := by
  intro s fraction left rest h hrest
  by_cases hs : s.head? = some '.'
  · obtain ⟨s, rfl⟩ := List.head?_eq_some_iff.1 hs
    simp only [readFraction] at h
    cases hdigits : readDigits s with
    | error e =>
        rw [hdigits] at h
        cases h
    | ok p =>
        obtain ⟨digits, more⟩ := p
        rw [hdigits] at h
        cases h
        simp only [List.cons_append, readFraction, isLocal_readDigits _ _ _ _ hdigits hrest]
        rfl
  · rw [readFraction_of_ne_point hs] at h
    cases h
    refine readFraction_of_ne_point ?_
    -- Without a fraction of its own, the text is over or goes on with something else.
    cases s with
    | nil =>
        intro hpoint
        simp [endsNumber, show rest.head? = some '.' from hpoint] at hrest
    | cons c s =>
        exact hs

theorem splitSign_append {s : List Char} (hs : s ≠ []) (rest : List Char) :
    Numeral.splitSign (s ++ rest)
      = ((Numeral.splitSign s).1, (Numeral.splitSign s).2 ++ rest) := by
  cases s with
  | nil =>
      exact absurd rfl hs
  | cons c s =>
      simp only [List.cons_append]
      unfold Numeral.splitSign
      split <;> simp_all

theorem readExponent_mark {c : Char} (hc : (c = 'e' || c = 'E') = true) (s : List Char) :
    readExponent (c :: s) = (readDigits (Numeral.splitSign s).2).map fun p =>
      (some (if (Numeral.splitSign s).1 then -(valueOf p.1 : Int) else valueOf p.1), p.2) := by
  simp only [readExponent, if_pos hc]
  cases readDigits (Numeral.splitSign s).2 <;> rfl

theorem readExponent_of_no_mark {s : List Char}
    (hs : s.head?.any (fun c => c = 'e' || c = 'E') = false) :
    readExponent s = .ok (none, s) := by
  cases s with
  | nil =>
      rfl
  | cons c s =>
      have hc : ¬ (c = 'e' || c = 'E') = true := by simpa using hs
      simp only [readExponent, if_neg hc]

theorem isLocal_readExponent : IsLocal readExponent := by
  intro s exponent left rest h hrest
  by_cases hs : s.head?.any (fun c => c = 'e' || c = 'E') = true
  · cases s with
    | nil =>
        cases hs
    | cons c s =>
        have hc : (c = 'e' || c = 'E') = true := by simpa using hs
        rw [readExponent_mark hc] at h
        cases hdigits : readDigits (Numeral.splitSign s).2 with
        | error e =>
            rw [hdigits] at h
            cases h
        | ok p =>
            -- The sign is looked for after the mark, so something has to stand there.
            have hne : s ≠ [] := by
              rintro rfl
              cases hdigits
            rw [hdigits] at h
            cases h
            rw [List.cons_append, readExponent_mark hc, splitSign_append hne,
              isLocal_readDigits _ _ _ _ hdigits hrest]
            rfl
  · rw [readExponent_of_no_mark (Bool.eq_false_iff.2 hs)] at h
    cases h
    refine readExponent_of_no_mark ?_
    cases s with
    | nil =>
        cases rest with
        | nil =>
            rfl
        | cons c rest =>
            have hc : ((isDigit c = false ∧ ¬ c = '.') ∧ ¬ c = 'e') ∧ ¬ c = 'E' := by
              simpa [endsNumber] using hrest
            simp [hc]
    | cons c s =>
        exact Bool.eq_false_iff.2 hs

/-! ## Numbers -/

/-- A number after its sign. -/
def readUnsigned (negative : Bool) (s : List Char) : Except ReadError (Tree × List Char) :=
  readWhole s >>= fun w => readFraction w.2 >>= fun f => readExponent f.2 >>= fun e =>
    .ok (.number (numberOf ⟨negative, w.1, f.1, e.1⟩), e.2)

theorem readNumber_minus (s : List Char) : readNumber ('-' :: s) = readUnsigned true s :=
  rfl

theorem readNumber_of_ne_minus {s : List Char} (hs : s.head? ≠ some '-') :
    readNumber s = readUnsigned false s := by
  unfold readNumber
  rw [if_neg hs]
  rfl

theorem IsLocal.andThen {α β : Type} {read : List Char → Except ReadError (α × List Char)}
    {next : α × List Char → Except ReadError (β × List Char)} (hread : IsLocal read)
    (hnext : ∀ a, IsLocal fun s => next (a, s)) : IsLocal fun s => read s >>= next := by
  intro s b left rest h hrest
  cases hs : read s with
  | error e =>
      simp only [hs] at h
      cases h
  | ok p =>
      simp only [hs] at h
      simp only [hread _ _ _ _ hs hrest]
      exact hnext p.1 _ _ _ _ h hrest

theorem isLocal_ok {α : Type} (a : α) : IsLocal fun s => .ok (a, s) := by
  intro s _ left rest h _
  cases h
  rfl

theorem isLocal_readUnsigned (negative : Bool) : IsLocal (readUnsigned negative) := by
  -- Each reader starts where the one before it stopped.
  refine isLocal_readWhole.andThen fun whole => ?_
  dsimp only
  refine isLocal_readFraction.andThen fun fraction => ?_
  dsimp only
  refine isLocal_readExponent.andThen fun exponent => ?_
  exact isLocal_ok (Tree.number (numberOf ⟨negative, whole, fraction, exponent⟩))

theorem exists_of_readUnsigned {negative : Bool} {s left : List Char} {t : Tree}
    (h : readUnsigned negative s = .ok (t, left)) :
    ∃ c rest, s = c :: rest ∧ isDigit c = true := by
  cases s with
  | nil =>
      cases h
  | cons c s =>
      refine ⟨c, s, rfl, ?_⟩
      by_cases hc : c = '0'
      · subst hc
        decide
      · cases hwhole : readWhole (c :: s) with
        | error e =>
            simp only [readUnsigned, hwhole] at h
            cases h
        | ok p =>
            rw [readWhole_of_ne_zero hc] at hwhole
            obtain ⟨heq, hne, hall, -⟩ := readDigits_eq_ok hwhole
            obtain ⟨d, digits, hdigits⟩ := List.exists_cons_of_ne_nil hne
            rw [hdigits] at heq hall
            rw [(List.cons.inj heq).1]
            exact (List.all_eq_true.1 hall) d (by simp)

theorem exists_of_readNumber {s left : List Char} {t : Tree}
    (h : readNumber s = .ok (t, left)) :
    ∃ c rest, s = c :: rest ∧ (c = '-' ∨ isDigit c = true) := by
  by_cases hs : s.head? = some '-'
  · obtain ⟨rest, rfl⟩ := List.head?_eq_some_iff.1 hs
    exact ⟨'-', rest, rfl, .inl rfl⟩
  · rw [readNumber_of_ne_minus hs] at h
    obtain ⟨c, rest, rfl, hc⟩ := exists_of_readUnsigned h
    exact ⟨c, rest, rfl, .inr hc⟩

theorem isLocal_readNumber : IsLocal readNumber := by
  intro s t left rest h hrest
  obtain ⟨c, s, rfl, -⟩ := exists_of_readNumber h
  by_cases hc : c = '-'
  · subst hc
    rw [readNumber_minus] at h
    rw [List.cons_append, readNumber_minus]
    exact isLocal_readUnsigned true _ _ _ _ h hrest
  · have hhead : ∀ tail : List Char, (c :: tail).head? ≠ some '-' := by simp [hc]
    rw [readNumber_of_ne_minus (hhead s)] at h
    rw [List.cons_append, readNumber_of_ne_minus (hhead _)]
    exact isLocal_readUnsigned false _ _ _ _ h hrest

/-- The text of the number reads as the number. -/
def Number.ReadsBack (n : Number) : Prop :=
  readNumber n.render = .ok (.number (some n), [])

deriving instance DecidableEq for Number

instance : DecidablePred Number.ReadsBack := fun n =>
  decidable_of_iff
    ((match readNumber n.render with
      | .ok (.number (some m), []) => decide (m = n)
      | _ => false) = true)
    (by
      unfold Number.ReadsBack
      split
      · rename_i m heq
        simp [heq]
      · rename_i hother
        simp only [Bool.false_eq_true, false_iff]
        exact fun heq => hother n heq)

theorem Number.ReadsBack.readNumber_append {n : Number} (h : n.ReadsBack) {rest : List Char}
    (hrest : endsNumber rest = true) :
    readNumber (n.render ++ rest) = .ok (.number (some n), rest) :=
  isLocal_readNumber _ _ _ _ h hrest

theorem readUnsigned_digitsOf (negative : Bool) (n : Nat) :
    readUnsigned negative (digitsOf n)
      = .ok (.number (numberOf ⟨negative, digitsOf n, none, none⟩), []) := by
  have hwhole : readWhole (digitsOf n) = .ok (digitsOf n, []) := by
    by_cases hn : n = 0
    · subst hn
      rw [digitsOf]
      rfl
    · obtain ⟨c, rest, heq, -, hzero⟩ := Decimal.exists_digitsOf_eq_cons hn
      have hdigits : readDigits (digitsOf n ++ []) = .ok (digitsOf n, []) :=
        readDigits_append (by simp [heq]) (Decimal.all_isDigit_digitsOf n) rfl
      rw [List.append_nil, heq] at hdigits
      rw [heq, readWhole_of_ne_zero hzero, hdigits]
  simp only [readUnsigned, hwhole]
  rfl

/-- Whole numbers that fit a word read back. -/
theorem Number.readsBack_whole {n : Int} (h : fitsWord n = true) : (Number.whole n).ReadsBack := by
  cases n with
  | ofNat n =>
      have hhead : (digitsOf n).head? ≠ some '-' := by
        intro hminus
        have hall := List.all_eq_true.1 (Decimal.all_isDigit_digitsOf n) '-'
          (List.mem_of_mem_head? hminus)
        revert hall
        decide
      have hint : (⟨false, digitsOf n, none, none⟩ : Numeral).toInt = Int.ofNat n := by
        simp [Numeral.toInt, Decimal.valueOf_digitsOf]
      have hnumber : numberOf ⟨false, digitsOf n, none, none⟩ = some (.whole (Int.ofNat n)) := by
        rw [numberOf, hint, h]
        rfl
      -- A number that is not negative is written without a sign.
      show readNumber (digitsOf n) = _
      rw [readNumber_of_ne_minus hhead, readUnsigned_digitsOf, hnumber]
  | negSucc n =>
      have hint : (⟨true, digitsOf (n + 1), none, none⟩ : Numeral).toInt = Int.negSucc n := by
        simp [Numeral.toInt, Decimal.valueOf_digitsOf, Int.negSucc_eq]
      have hnumber :
          numberOf ⟨true, digitsOf (n + 1), none, none⟩ = some (.whole (Int.negSucc n)) := by
        rw [numberOf, hint]
        simp [Numeral.isWhole, h]
      show readNumber ('-' :: digitsOf (n + 1)) = _
      rw [readNumber_minus, readUnsigned_digitsOf, hnumber]

end Json
end PrismaTypes
