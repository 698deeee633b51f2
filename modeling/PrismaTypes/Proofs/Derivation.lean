import PrismaTypes.Grammar.Match
import PrismaTypes.Proofs.Tokens

/-!
# Derivations

`Derives tight e place s o` says what the expression `e` makes of the text `s` at `place`: a match,
or a refusal. It has one clause for each way in which an expression can end and knows neither fuel
nor recorded attempts.

* `derives_of_run`: a run that does not run out of fuel ends as some derivation does.
* `Derives.unique`: no two derivations of an expression on a text differ.
* `Derives.splits`: what a match takes and leaves makes up the text.
* `run_ne_exhausted`: `fuelFor` is enough fuel for every rule on every text, so that
  `matchRule_eq_ok_iff` and `matchRule_eq_error_iff` describe `matchRule` by derivations alone.
-/

namespace PrismaTypes
namespace Grammar

open Text (Place)

/-! ## The relation -/

inductive Derives : Bool → Pattern → Place → List Char → Option Match → Prop
  | literal {tight : Bool} {place : Place} {word s rest : List Char}
      (h : afterWord? word s = some rest) :
      Derives tight (.literal word) place s (some ⟨word, [], rest⟩)
  | literalFails {tight : Bool} {place : Place} {word s : List Char}
      (h : afterWord? word s = none) : Derives tight (.literal word) place s none
  | notAhead {tight : Bool} {place : Place} {word s : List Char}
      (h : afterWord? word s = none) : Derives tight (.notAhead word) place s (some (.empty s))
  | notAheadFails {tight : Bool} {place : Place} {word s rest : List Char}
      (h : afterWord? word s = some rest) : Derives tight (.notAhead word) place s none
  | atStart {tight : Bool} {place : Place} {s : List Char} (h : place.offset = 0) :
      Derives tight .atStart place s (some (.empty s))
  | atStartFails {tight : Bool} {place : Place} {s : List Char} (h : place.offset ≠ 0) :
      Derives tight .atStart place s none
  | atEnd {tight : Bool} {place : Place} : Derives tight .atEnd place [] (some (.empty []))
  | atEndFails {tight : Bool} {place : Place} {c : Char} {s : List Char} :
      Derives tight .atEnd place (c :: s) none
  | seq {tight : Bool} {first second : Pattern} {place : Place} {s : List Char} {m₁ m₂ : Match}
      (h₁ : Derives tight first place s (some m₁))
      (h₂ : Derives tight second (place.advance (m₁.taken ++ (gap tight m₁.rest).1))
        (gap tight m₁.rest).2 (some m₂)) :
      Derives tight (.seq first second) place s (some (m₁.append (gap tight m₁.rest).1 m₂))
  | seqFirstFails {tight : Bool} {first second : Pattern} {place : Place} {s : List Char}
      (h₁ : Derives tight first place s none) : Derives tight (.seq first second) place s none
  | seqSecondFails {tight : Bool} {first second : Pattern} {place : Place} {s : List Char}
      {m₁ : Match} (h₁ : Derives tight first place s (some m₁))
      (h₂ : Derives tight second (place.advance (m₁.taken ++ (gap tight m₁.rest).1))
        (gap tight m₁.rest).2 none) :
      Derives tight (.seq first second) place s none
  | choiceFirst {tight : Bool} {first second : Pattern} {place : Place} {s : List Char} {m : Match}
      (h : Derives tight first place s (some m)) :
      Derives tight (.choice first second) place s (some m)
  | choiceSecond {tight : Bool} {first second : Pattern} {place : Place} {s : List Char}
      {o : Option Match} (h₁ : Derives tight first place s none)
      (h₂ : Derives tight second place s o) : Derives tight (.choice first second) place s o
  | optional {tight : Bool} {body : Pattern} {place : Place} {s : List Char} {m : Match}
      (h : Derives tight body place s (some m)) : Derives tight (.optional body) place s (some m)
  | optionalNone {tight : Bool} {body : Pattern} {place : Place} {s : List Char}
      (h : Derives tight body place s none) :
      Derives tight (.optional body) place s (some (.empty s))
  | manyNone {tight : Bool} {body : Pattern} {place : Place} {s : List Char}
      (h : Derives tight body place s none) : Derives tight (.many body) place s (some (.empty s))
  /-- Blanks after the last item are given back. -/
  | manyLast {tight : Bool} {body : Pattern} {place : Place} {s : List Char} {m₁ m₂ : Match}
      (h₁ : Derives tight body place s (some m₁))
      (h₂ : Derives tight (.many body) (place.advance (m₁.taken ++ (gap tight m₁.rest).1))
        (gap tight m₁.rest).2 (some m₂))
      (hlast : m₂.taken = []) : Derives tight (.many body) place s (some m₁)
  | manyMore {tight : Bool} {body : Pattern} {place : Place} {s : List Char} {m₁ m₂ : Match}
      (h₁ : Derives tight body place s (some m₁))
      (h₂ : Derives tight (.many body) (place.advance (m₁.taken ++ (gap tight m₁.rest).1))
        (gap tight m₁.rest).2 (some m₂))
      (hmore : m₂.taken ≠ []) :
      Derives tight (.many body) place s (some (m₁.append (gap tight m₁.rest).1 m₂))
  | silent {tight : Bool} {rule : Rule} {body : Pattern} {place : Place} {s : List Char}
      {o : Option Match} (hform : rule.form = .silent body) (h : Derives tight body place s o) :
      Derives tight (.call rule) place s o
  | hidden {tight : Bool} {rule : Rule} {scan : List Char → Option Scan} {place : Place}
      {s : List Char} (hform : rule.form = .hidden scan) :
      Derives tight (.call rule) place s ((scan s).map .ofScan)
  | token {tight : Bool} {rule : Rule} {scan : List Char → Option Scan} {place : Place}
      {s : List Char} (hform : rule.form = .token scan) :
      Derives tight (.call rule) place s
        ((scan s).map fun x => (Match.ofScan x).asNode rule place)
  | spaced {tight : Bool} {rule : Rule} {body : Pattern} {place : Place} {s : List Char}
      {o : Option Match} (hform : rule.form = .spaced body) (h : Derives tight body place s o) :
      Derives tight (.call rule) place s (o.map (·.asNode rule place))
  | tight {tight : Bool} {rule : Rule} {body : Pattern} {place : Place} {s : List Char}
      {o : Option Match} (hform : rule.form = .tight body) (h : Derives true body place s o) :
      Derives tight (.call rule) place s (o.map (·.asNode rule place))

/-- How an outcome ends, unless the fuel ran out. -/
def Outcome.ending? : Outcome → Option (Option Match)
  | matched m => some (some m)
  | failed => some none
  | exhausted => none

theorem Outcome.ending?_eq_matched {o : Outcome} {m : Match} (h : o.ending? = some (some m)) :
    o = .matched m := by
  cases o with
  | matched m' =>
      simpa [ending?] using h
  | failed =>
      simp [ending?] at h
  | exhausted =>
      simp [ending?] at h

@[simp] theorem Outcome.ending?_ofScan? (x : Option Scan) :
    (Outcome.ofScan? x).ending? = some (x.map .ofScan) := by
  cases x <;> rfl

/-- A rule's node is made of whatever its body ends with. -/
theorem ending?_close (rule : Rule) (place : Place) (before : Attempts) (r : Outcome × Attempts) :
    (close rule place before r).1.ending? = r.1.ending?.map (·.map (·.asNode rule place)) := by
  rcases r with ⟨o, after⟩
  cases o <;> rfl

theorem close_ne_exhausted {rule : Rule} {place : Place} {before : Attempts}
    {r : Outcome × Attempts} (h : r.1 ≠ .exhausted) :
    (close rule place before r).1 ≠ .exhausted := by
  rcases r with ⟨o, after⟩
  cases o with
  | exhausted =>
      exact absurd rfl h
  | failed | matched m =>
      simp [close]

/-- A run that does not run out of fuel ends as a derivation does. -/
theorem derives_of_run {fuel : Nat} {tight : Bool} {e : Pattern} {place : Place} {s : List Char}
    {a : Attempts} {o : Option Match} (h : (run fuel tight e place s a).1.ending? = some o) :
    Derives tight e place s o := by
  -- On the fuel: every run of a part has one less of it, whatever text is left.
  induction fuel generalizing tight e place s a o with
  | zero =>
      simp [run, Outcome.ending?] at h
  | succ fuel ih =>
      cases e with
      | literal word =>
          cases hword : afterWord? word s with
          | none =>
              simp only [run, hword, Outcome.ending?, Option.some.injEq] at h
              exact h ▸ .literalFails hword
          | some rest =>
              simp only [run, hword, Outcome.ending?, Option.some.injEq] at h
              exact h ▸ .literal hword
      | notAhead word =>
          cases hword : afterWord? word s with
          | none =>
              simp only [run, hword, Outcome.ending?, Option.some.injEq] at h
              exact h ▸ .notAhead hword
          | some rest =>
              simp only [run, hword, Outcome.ending?, Option.some.injEq] at h
              exact h ▸ .notAheadFails hword
      | atStart =>
          by_cases hplace : place.offset = 0
          · simp only [run, hplace, if_true, Outcome.ending?, Option.some.injEq] at h
            exact h ▸ .atStart hplace
          · simp only [run, hplace, if_false, Outcome.ending?, Option.some.injEq] at h
            exact h ▸ .atStartFails hplace
      | atEnd =>
          cases s with
          | nil =>
              simp only [run, List.isEmpty_nil, if_true, Outcome.ending?, Option.some.injEq] at h
              exact h ▸ .atEnd
          | cons c s =>
              simp only [run, List.isEmpty_cons, Bool.false_eq_true, if_false, Outcome.ending?,
                Option.some.injEq] at h
              exact h ▸ .atEndFails
      | seq first second =>
          cases h₁ : run fuel tight first place s a with
          | mk o₁ a₁ =>
              cases o₁ with
              | exhausted =>
                  simp [run, h₁, Outcome.ending?] at h
              | failed =>
                  simp only [run, h₁, Outcome.ending?, Option.some.injEq] at h
                  exact h ▸ .seqFirstFails (ih (by rw [h₁]; rfl))
              | matched m₁ =>
                  -- The second part starts behind the blanks that follow the first.
                  have d₁ : Derives tight first place s (some m₁) := ih (by rw [h₁]; rfl)
                  simp only [run, h₁] at h
                  split at h
                  · rename_i m₂ a₂ h₂
                    simp only [Outcome.ending?, Option.some.injEq] at h
                    exact h ▸ .seq d₁ (ih (by rw [h₂]; rfl))
                  · rename_i hno
                    -- Without a match of the second part, its ending is that of the whole.
                    cases o with
                    | none =>
                        exact .seqSecondFails d₁ (ih h)
                    | some m₂ =>
                        exact (hno m₂ _ (Prod.ext (Outcome.ending?_eq_matched h) rfl)).elim
      | choice first second =>
          cases h₁ : run fuel tight first place s a with
          | mk o₁ a₁ =>
              cases o₁ with
              | exhausted =>
                  simp [run, h₁, Outcome.ending?] at h
              | failed =>
                  simp only [run, h₁] at h
                  exact .choiceSecond (ih (by rw [h₁]; rfl)) (ih h)
              | matched m =>
                  simp only [run, h₁, Outcome.ending?, Option.some.injEq] at h
                  exact h ▸ .choiceFirst (ih (by rw [h₁]; rfl))
      | optional body =>
          cases h₁ : run fuel tight body place s a with
          | mk o₁ a₁ =>
              cases o₁ with
              | exhausted =>
                  simp [run, h₁, Outcome.ending?] at h
              | failed =>
                  simp only [run, h₁, Outcome.ending?, Option.some.injEq] at h
                  exact h ▸ .optionalNone (ih (by rw [h₁]; rfl))
              | matched m =>
                  simp only [run, h₁, Outcome.ending?, Option.some.injEq] at h
                  exact h ▸ .optional (ih (by rw [h₁]; rfl))
      | many body =>
          cases h₁ : run fuel tight body place s a with
          | mk o₁ a₁ =>
              cases o₁ with
              | exhausted =>
                  simp [run, h₁, Outcome.ending?] at h
              | failed =>
                  simp only [run, h₁, Outcome.ending?, Option.some.injEq] at h
                  exact h ▸ .manyNone (ih (by rw [h₁]; rfl))
              | matched m₁ =>
                  have d₁ : Derives tight body place s (some m₁) := ih (by rw [h₁]; rfl)
                  simp only [run, h₁] at h
                  split at h
                  · rename_i m₂ a₂ h₂
                    -- A next round that takes nothing gives the blanks before it back.
                    have d₂ := ih (congrArg (fun r => r.1.ending?) h₂)
                    split at h
                    · rename_i hlast
                      simp only [Outcome.ending?, Option.some.injEq] at h
                      exact h ▸ .manyLast d₁ d₂ (List.isEmpty_iff.1 hlast)
                    · rename_i hmore
                      simp only [Outcome.ending?, Option.some.injEq] at h
                      exact h ▸ .manyMore d₁ d₂ (fun hm => hmore (List.isEmpty_iff.2 hm))
                  · rename_i hno
                    cases o with
                    | none =>
                        -- Repetition never refuses.
                        cases ih h
                    | some m₂ =>
                        exact (hno m₂ _ (Prod.ext (Outcome.ending?_eq_matched h) rfl)).elim
      | call rule =>
          cases hform : rule.form with
          | token scan =>
              simp only [run, hform, ending?_close, Outcome.ending?_ofScan?, Option.map_some,
                Option.map_map, Option.some.injEq] at h
              exact h ▸ .token hform
          | hidden scan =>
              simp only [run, hform, Outcome.ending?_ofScan?, Option.some.injEq] at h
              exact h ▸ .hidden hform
          | silent body =>
              simp only [run, hform] at h
              exact .silent hform (ih h)
          | spaced body =>
              simp only [run, hform, ending?_close] at h
              obtain ⟨o', ho', rfl⟩ := Option.map_eq_some_iff.1 h
              exact .spaced hform (ih ho')
          | tight body =>
              simp only [run, hform, ending?_close] at h
              obtain ⟨o', ho', rfl⟩ := Option.map_eq_some_iff.1 h
              exact .tight hform (ih ho')

theorem gap_splits (tight : Bool) (s : List Char) : (gap tight s).1 ++ (gap tight s).2 = s := by
  cases tight with
  | true =>
      rfl
  | false =>
      exact splitBlanks_splits false s

theorem Match.append_splits (first second : Match) (blanks : List Char) :
    (first.append blanks second).taken ++ (first.append blanks second).rest
      = first.taken ++ (blanks ++ (second.taken ++ second.rest)) := by
  simp [Match.append]

namespace Derives

variable {tight : Bool} {e : Pattern} {place : Place} {s : List Char}

/-- An expression ends in one way only. -/
theorem unique {o o' : Option Match} (h : Derives tight e place s o)
    (h' : Derives tight e place s o') : o = o' := by
  -- The clauses for one expression exclude each other, since its parts end in one way only.
  induction h generalizing o' with
  | literal h | literalFails h | notAhead h | notAheadFails h =>
      cases h' <;> simp_all
  | atStart h =>
      cases h' with
      | atStart h' =>
          rfl
      | atStartFails h' =>
          exact absurd h h'
  | atStartFails h =>
      cases h' with
      | atStart h' =>
          exact absurd h' h
      | atStartFails h' =>
          rfl
  | atEnd | atEndFails =>
      cases h'
      rfl
  | seq h₁ h₂ ih₁ ih₂ =>
      cases h' with
      | seq h₁' h₂' =>
          cases ih₁ h₁'
          cases ih₂ h₂'
          rfl
      | seqFirstFails h₁' =>
          cases ih₁ h₁'
      | seqSecondFails h₁' h₂' =>
          cases ih₁ h₁'
          cases ih₂ h₂'
  | seqFirstFails h₁ ih₁ =>
      cases h' with
      | seq h₁' h₂' =>
          cases ih₁ h₁'
      | seqFirstFails h₁' =>
          rfl
      | seqSecondFails h₁' h₂' =>
          rfl
  | seqSecondFails h₁ h₂ ih₁ ih₂ =>
      cases h' with
      | seq h₁' h₂' =>
          cases ih₁ h₁'
          cases ih₂ h₂'
      | seqFirstFails h₁' =>
          rfl
      | seqSecondFails h₁' h₂' =>
          rfl
  | choiceFirst h ih =>
      cases h' with
      | choiceFirst h' =>
          exact ih h'
      | choiceSecond h₁' h₂' =>
          cases ih h₁'
  | choiceSecond h₁ h₂ ih₁ ih₂ =>
      cases h' with
      | choiceFirst h' =>
          cases ih₁ h'
      | choiceSecond h₁' h₂' =>
          exact ih₂ h₂'
  | optional h ih =>
      cases h' with
      | optional h' =>
          exact ih h'
      | optionalNone h' =>
          cases ih h'
  | optionalNone h ih =>
      cases h' with
      | optional h' =>
          cases ih h'
      | optionalNone h' =>
          rfl
  | manyNone h ih =>
      cases h' with
      | manyNone h' =>
          rfl
      | manyLast h₁' h₂' hlast =>
          cases ih h₁'
      | manyMore h₁' h₂' hmore =>
          cases ih h₁'
  | manyLast h₁ h₂ hlast ih₁ ih₂ =>
      cases h' with
      | manyNone h' =>
          cases ih₁ h'
      | manyLast h₁' h₂' hlast' =>
          exact ih₁ h₁'
      | manyMore h₁' h₂' hmore =>
          cases ih₁ h₁'
          cases ih₂ h₂'
          exact absurd hlast hmore
  | manyMore h₁ h₂ hmore ih₁ ih₂ =>
      cases h' with
      | manyNone h' =>
          cases ih₁ h'
      | manyLast h₁' h₂' hlast =>
          cases ih₁ h₁'
          cases ih₂ h₂'
          exact absurd hlast hmore
      | manyMore h₁' h₂' hmore' =>
          cases ih₁ h₁'
          cases ih₂ h₂'
          rfl
  -- A rule has one form, so that the clauses for the other forms do not apply.
  | silent hform h ih =>
      cases h' with
      | silent hform' h' =>
          cases hform.symm.trans hform'
          exact ih h'
      | hidden hform' | token hform' | spaced hform' | tight hform' =>
          cases hform.symm.trans hform'
  | hidden hform =>
      cases h' with
      | hidden hform' =>
          cases hform.symm.trans hform'
          rfl
      | silent hform' | token hform' | spaced hform' | tight hform' =>
          cases hform.symm.trans hform'
  | token hform =>
      cases h' with
      | token hform' =>
          cases hform.symm.trans hform'
          rfl
      | silent hform' | hidden hform' | spaced hform' | tight hform' =>
          cases hform.symm.trans hform'
  | spaced hform h ih =>
      cases h' with
      | spaced hform' h' =>
          cases hform.symm.trans hform'
          rw [ih h']
      | silent hform' | hidden hform' | token hform' | tight hform' =>
          cases hform.symm.trans hform'
  | tight hform h ih =>
      cases h' with
      | tight hform' h' =>
          cases hform.symm.trans hform'
          rw [ih h']
      | silent hform' | hidden hform' | token hform' | spaced hform' =>
          cases hform.symm.trans hform'

/-- What a match takes and what it leaves make up the text. -/
theorem splits {m : Match} (h : Derives tight e place s (some m)) : m.taken ++ m.rest = s := by
  -- Only clauses that end in a match are left once the outcome is named.
  generalize ho : some m = o at h
  induction h generalizing m with
  | literal h =>
      cases ho
      exact (afterWord?_eq_some_iff.1 h).symm
  | literalFails | notAheadFails | atStartFails | atEndFails | seqFirstFails | seqSecondFails =>
      cases ho
  | notAhead | atStart | atEnd | optionalNone | manyNone =>
      cases ho
      rfl
  | seq h₁ h₂ ih₁ ih₂ =>
      cases ho
      rw [Match.append_splits, ih₂ rfl, gap_splits, ih₁ rfl]
  | choiceFirst h ih | optional h ih =>
      exact ih ho
  | choiceSecond h₁ h₂ ih₁ ih₂ =>
      exact ih₂ ho
  | manyLast h₁ h₂ hlast ih₁ ih₂ =>
      exact ih₁ ho
  | manyMore h₁ h₂ hmore ih₁ ih₂ =>
      cases ho
      rw [Match.append_splits, ih₂ rfl, gap_splits, ih₁ rfl]
  | silent hform h ih =>
      exact ih ho
  | hidden hform =>
      obtain ⟨x, hx, rfl⟩ := Option.map_eq_some_iff.1 ho.symm
      exact Rule.hidden_splits hform hx
  | token hform =>
      obtain ⟨x, hx, rfl⟩ := Option.map_eq_some_iff.1 ho.symm
      exact Rule.token_splits hform hx
  | spaced hform h ih | tight hform h ih =>
      obtain ⟨m', hm', rfl⟩ := Option.map_eq_some_iff.1 ho.symm
      exact ih (m := m') hm'.symm

end Derives

/-! ## Enough fuel -/

/-- A match of the rule takes at least one character. -/
def Rule.takes : Rule → Bool
  | endOfInput | whitespace | comment | schema | docText => false
  | _ => true

namespace Pattern

/-- A match takes at least one character. -/
def takes : Pattern → Bool
  | literal word => !word.isEmpty
  | notAhead _ | atStart | atEnd | many _ | optional _ => false
  | call rule => rule.takes
  | seq first second => first.takes || second.takes
  | choice first second => first.takes && second.takes

end Pattern

/-- Levels of recursion below a call of the rule before a character is taken. -/
def Rule.depth : Rule → Nat
  | whitespace | comment | docText | skippedKeyword | typeName | attributeName => 0
  | stringLiteral | numberLiteral | booleanLiteral | path | identifier => 0
  | endOfInput | listMarker | optionalMarker => 1
  | docLine | configKeyword | unsupportedType | argName => 2
  | enumValue | configProperty | fieldAttribute | blockAttribute | attributeArgs => 2
  | functionCall | arrayLiteral | field | modelBlock | enumBlock => 2
  | documentation | typeModifier | skippedBlock => 4
  | fieldType | configBlock => 5
  | modelItem | enumItem | configItem | expression => 8
  | attributeArg | definition => 10
  | schema => 20

namespace Pattern

/-- Levels of recursion before a character is taken. -/
def depth : Pattern → Nat
  | literal _ | notAhead _ | atStart | atEnd => 1
  | call rule => 1 + rule.depth
  | seq first second =>
      1 + if first.takes then first.depth else max first.depth second.depth
  | choice first second => 1 + max first.depth second.depth
  | many body => 1 + body.depth
  | optional body => 1 + body.depth

/-- No part recurses deeper than 64 levels without taking a character, and repeated parts take
one. -/
def bounded : Pattern → Bool
  | literal _ | notAhead _ | atStart | atEnd | call _ => true
  | seq first second => first.bounded && second.bounded && second.depth ≤ 64
  | choice first second => first.bounded && second.bounded
  | many body => body.bounded && body.takes && body.depth < 64
  | optional body => body.bounded

end Pattern

/-- The expression that defines a rule, unless the rule is a token. -/
def Form.body? : Form → Option Pattern
  | token _ | hidden _ => none
  | spaced body | tight body | silent body => some body

theorem Rule.body_bounded {rule : Rule} {body : Pattern} (h : rule.form.body? = some body) :
    body.bounded = true ∧ body.depth ≤ rule.depth ∧ (rule.takes = true → body.takes = true) := by
  -- The tables above are checked against the grammar, rule by rule.
  cases rule <;> cases h <;> decide

theorem Rule.depth_lt (rule : Rule) : rule.depth < 64 := by
  cases rule <;> decide

/-- A match of an expression that takes something is not empty. -/
theorem Derives.taken_ne_nil {tight : Bool} {e : Pattern} {place : Place} {s : List Char}
    {m : Match} (h : Derives tight e place s (some m)) (he : e.takes = true) : m.taken ≠ [] := by
  generalize ho : some m = o at h
  induction h generalizing m with
  | literal h =>
      cases ho
      simpa [Pattern.takes] using he
  | literalFails | notAheadFails | atStartFails | atEndFails | seqFirstFails | seqSecondFails =>
      cases ho
  | notAhead | atStart | atEnd | optionalNone | manyNone | optional | manyLast | manyMore =>
      cases he
  | seq h₁ h₂ ih₁ ih₂ =>
      cases ho
      rcases Bool.or_eq_true_iff.1 he with he | he
      · simp [Match.append, ih₁ he rfl]
      · simp [Match.append, ih₂ he rfl]
  | choiceFirst h ih =>
      exact ih (Bool.and_eq_true_iff.1 he).1 ho
  | choiceSecond h₁ h₂ ih₁ ih₂ =>
      exact ih₂ (Bool.and_eq_true_iff.1 he).2 ho
  | silent hform h ih =>
      exact ih ((Rule.body_bounded (congrArg Form.body? hform)).2.2 he) ho
  | @hidden _ rule _ _ _ hform =>
      -- The hidden rules are blanks and comments, which need not take anything.
      cases rule <;> simp [Rule.form] at hform <;> cases he
  | @token _ rule _ _ _ hform =>
      obtain ⟨x, hx, rfl⟩ := Option.map_eq_some_iff.1 ho.symm
      have hrule : rule ≠ .docText := by
        rintro rfl
        cases he
      exact Rule.token_takes hform hrule hx
  | spaced hform h ih | tight hform h ih =>
      obtain ⟨m', hm', rfl⟩ := Option.map_eq_some_iff.1 ho.symm
      exact ih (m := m') ((Rule.body_bounded (congrArg Form.body? hform)).2.2 he) hm'.symm

/-- The text after a match and the blanks behind it is no longer than the text, and shorter when the
match takes something. -/
theorem Derives.length_after {tight : Bool} {e : Pattern} {place : Place} {s : List Char}
    {m : Match} (h : Derives tight e place s (some m)) :
    (gap tight m.rest).2.length + (if e.takes then 1 else 0) ≤ s.length := by
  have hs : m.taken.length + m.rest.length = s.length := by
    rw [← List.length_append, h.splits]
  have hrest : (gap tight m.rest).1.length + (gap tight m.rest).2.length = m.rest.length := by
    rw [← List.length_append, gap_splits]
  split
  · rename_i he
    have hpos : 0 < m.taken.length := List.length_pos_of_ne_nil (h.taken_ne_nil he)
    omega
  · omega

/-- Each character allows 64 levels of recursion, which is more than the grammar uses up between
two characters. -/
theorem run_ne_exhausted {fuel : Nat} {tight : Bool} {e : Pattern} {place : Place} {s : List Char}
    {a : Attempts} (he : e.bounded = true) (hfuel : 64 * s.length + e.depth ≤ fuel) :
    (run fuel tight e place s a).1 ≠ .exhausted := by
  -- On the fuel. The bound goes down with it in two ways: a part is less deep than the whole, and
  -- a text after a match is shorter by 64 levels for each character.
  induction fuel generalizing tight e place s a with
  | zero =>
      cases e <;> simp [Pattern.depth] at hfuel
  | succ fuel ih =>
      cases e with
      | literal word | notAhead word =>
          cases hword : afterWord? word s <;> simp [run, hword]
      | atStart =>
          by_cases hplace : place.offset = 0 <;> simp [run, hplace]
      | atEnd =>
          cases s <;> simp [run]
      | seq first second =>
          simp only [Pattern.bounded, Bool.and_eq_true, decide_eq_true_eq] at he
          simp only [Pattern.depth] at hfuel
          obtain ⟨⟨hfirst, hsecond⟩, hdepth⟩ := he
          have hrun₁ : (run fuel tight first place s a).1 ≠ .exhausted :=
            ih hfirst (by split at hfuel <;> omega)
          cases h₁ : run fuel tight first place s a with
          | mk o₁ a₁ =>
              cases o₁ with
              | exhausted =>
                  exact absurd (congrArg Prod.fst h₁) hrun₁
              | failed =>
                  simp [run, h₁]
              | matched m₁ =>
                  have d₁ : Derives tight first place s (some m₁) :=
                    derives_of_run (congrArg (fun r => r.1.ending?) h₁)
                  have hlength := d₁.length_after
                  -- A character that the first part takes pays for the second; otherwise the depth
                  -- counts both.
                  have hrun₂ : (run fuel tight second
                      (place.advance (m₁.taken ++ (gap tight m₁.rest).1))
                      (gap tight m₁.rest).2 a₁).1 ≠ .exhausted :=
                    ih hsecond (by split at hfuel <;> simp_all <;> omega)
                  simp only [run, h₁]
                  split
                  · simp
                  · exact hrun₂
      | choice first second =>
          simp only [Pattern.bounded, Bool.and_eq_true] at he
          simp only [Pattern.depth] at hfuel
          have hrun₁ : (run fuel tight first place s a).1 ≠ .exhausted := ih he.1 (by omega)
          cases h₁ : run fuel tight first place s a with
          | mk o₁ a₁ =>
              cases o₁ with
              | exhausted =>
                  exact absurd (congrArg Prod.fst h₁) hrun₁
              | failed =>
                  simp only [run, h₁]
                  exact ih he.2 (by omega)
              | matched m₁ =>
                  simp [run, h₁]
      | optional body =>
          simp only [Pattern.depth] at hfuel
          have hrun₁ : (run fuel tight body place s a).1 ≠ .exhausted := ih he (by omega)
          cases h₁ : run fuel tight body place s a with
          | mk o₁ a₁ =>
              cases o₁ with
              | exhausted =>
                  exact absurd (congrArg Prod.fst h₁) hrun₁
              | failed | matched m₁ =>
                  simp [run, h₁]
      | many body =>
          have hmany := he
          simp only [Pattern.bounded, Bool.and_eq_true, decide_eq_true_eq] at he
          obtain ⟨⟨hbody, htakes⟩, hdepth⟩ := he
          simp only [Pattern.depth] at hfuel
          have hrun₁ : (run fuel tight body place s a).1 ≠ .exhausted := ih hbody (by omega)
          cases h₁ : run fuel tight body place s a with
          | mk o₁ a₁ =>
              cases o₁ with
              | exhausted =>
                  exact absurd (congrArg Prod.fst h₁) hrun₁
              | failed =>
                  simp [run, h₁]
              | matched m₁ =>
                  have d₁ : Derives tight body place s (some m₁) :=
                    derives_of_run (congrArg (fun r => r.1.ending?) h₁)
                  have hlength := d₁.length_after
                  simp only [htakes, if_true] at hlength
                  -- A repeated part takes a character, which pays for the next round.
                  have hrun₂ : (run fuel tight (.many body)
                      (place.advance (m₁.taken ++ (gap tight m₁.rest).1))
                      (gap tight m₁.rest).2 a₁).1 ≠ .exhausted :=
                    ih hmany (by simp only [Pattern.depth]; omega)
                  simp only [run, h₁]
                  split
                  · split <;> simp
                  · exact hrun₂
      | call rule =>
          simp only [Pattern.depth] at hfuel
          cases hform : rule.form with
          | token scan | hidden scan =>
              cases hscan : scan s <;> simp [run, hform, hscan, Outcome.ofScan?, close]
          | silent body =>
              have hbody := Rule.body_bounded (congrArg Form.body? hform)
              simp only [run, hform]
              exact ih hbody.1 (by omega)
          | spaced body | tight body =>
              have hbody := Rule.body_bounded (congrArg Form.body? hform)
              simp only [run, hform]
              exact close_ne_exhausted (ih hbody.1 (by omega))

/-- The fuel of a match never runs out. -/
theorem run_fuelFor_ne_exhausted (rule : Rule) (s : List Char) :
    (run (fuelFor s) false (.call rule) {} s {}).1 ≠ .exhausted := by
  have hdepth := rule.depth_lt
  exact run_ne_exhausted rfl (by simp only [Pattern.depth, fuelFor]; omega)

/-- Every expression of the grammar matches a text or refuses it. -/
theorem exists_derives {e : Pattern} (he : e.bounded = true) (tight : Bool) (place : Place)
    (s : List Char) : ∃ o, Derives tight e place s o := by
  have hrun : (run (64 * s.length + e.depth) tight e place s {}).1 ≠ .exhausted :=
    run_ne_exhausted he (Nat.le_refl _)
  cases hr : (run (64 * s.length + e.depth) tight e place s {}).1 with
  | matched m =>
      exact ⟨some m, derives_of_run (by rw [hr]; rfl)⟩
  | failed =>
      exact ⟨none, derives_of_run (by rw [hr]; rfl)⟩
  | exhausted =>
      exact absurd hr hrun

/-! ## Matching a rule -/

theorem matchRule_eq_ok_iff {rule : Rule} {s : List Char} {nodes : List Node} :
    matchRule rule s = .ok nodes ↔
      ∃ m, Derives false (.call rule) {} s (some m) ∧ m.nodes = nodes := by
  have hrun := run_fuelFor_ne_exhausted rule s
  unfold matchRule
  cases h : run (fuelFor s) false (.call rule) {} s {} with
  | mk o a =>
      cases o with
      | exhausted =>
          exact absurd (congrArg Prod.fst h) hrun
      | failed =>
          have d : Derives false (.call rule) {} s none :=
            derives_of_run (congrArg (fun r => r.1.ending?) h)
          simp only [reduceCtorEq, false_iff]
          -- A text that is refused has no match.
          rintro ⟨m, dm, -⟩
          cases d.unique dm
      | matched m =>
          have d : Derives false (.call rule) {} s (some m) :=
            derives_of_run (congrArg (fun r => r.1.ending?) h)
          simp only [Except.ok.injEq]
          constructor
          · intro hnodes
            exact ⟨m, d, hnodes⟩
          · rintro ⟨m', d', hnodes⟩
            cases d.unique d'
            exact hnodes

/-- A text is refused exactly when the rule derives a refusal. -/
theorem matchRule_eq_error_iff {rule : Rule} {s : List Char} :
    (∃ f, matchRule rule s = .error f) ↔ Derives false (.call rule) {} s none := by
  have hrun := run_fuelFor_ne_exhausted rule s
  unfold matchRule
  cases h : run (fuelFor s) false (.call rule) {} s {} with
  | mk o a =>
      cases o with
      | exhausted =>
          exact absurd (congrArg Prod.fst h) hrun
      | failed =>
          have d : Derives false (.call rule) {} s none :=
            derives_of_run (congrArg (fun r => r.1.ending?) h)
          simp [d]
      | matched m =>
          have d : Derives false (.call rule) {} s (some m) :=
            derives_of_run (congrArg (fun r => r.1.ending?) h)
          simp only [reduceCtorEq, exists_false, false_iff]
          intro d'
          cases d.unique d'

end Grammar
end PrismaTypes
