import PrismaTypes.Proofs.Derivation
import PrismaTypes.Proofs.Words

/-!
# Building matches

The way from a text to its tree. `Yields e place s E P` says that the expression `e` matches at the
front of `s`, that the text after the match has the property `E`, and the nodes have the property
`P`. There is one lemma for each kind of expression.

* A match may or may not take the blanks after its last part, so `E` is often `Before r`: only
  blanks stand before `r`.
* An expression refuses a text that starts with a character with which none of its matches starts
  (`refuses`). This settles most choices.
-/

namespace PrismaTypes
namespace Grammar

open Text (Place)

/-! ## Blanks -/

/-- Starts neither a blank nor a comment. -/
def isSolid (c : Char) : Bool :=
  !isSpace c && c ≠ '/'

theorem gap_of_solid {s : List Char} (h : s.head?.all isSolid = true) (tight : Bool) :
    gap tight s = ([], s) := by
  cases tight with
  | true =>
      rfl
  | false =>
      cases s with
      | nil =>
          rfl
      | cons c rest =>
          have hc : isSpace c = false ∧ c ≠ '/' := by simpa [isSolid] using h
          have hcomment : opensComment (c :: rest) = false := by
            unfold opensComment
            split
            · rename_i heq
              exact absurd (List.cons.inj heq).1 hc.2
            · rfl
            · rename_i heq
              exact absurd (List.cons.inj heq).1 hc.2
            · rfl
          simp [gap, splitBlanks, hc.1, hcomment]

theorem gap_spaces {blanks : List Char} (h : blanks.all isSpace = true) (s : List Char) :
    gap false (blanks ++ s) = (blanks ++ (gap false s).1, (gap false s).2) := by
  induction blanks with
  | nil =>
      rfl
  | cons c blanks ih =>
      have hc : isSpace c = true ∧ blanks.all isSpace = true := by simpa using h
      have hrest : splitBlanks false (blanks ++ s) = _ := ih hc.2
      simp [gap, splitBlanks, hc.1, hrest, Scan.push]

/-- Only blanks stand before `r`. -/
def Before (r u : List Char) : Prop :=
  (gap false u).2 = r

theorem before_spaces {blanks : List Char} (h : blanks.all isSpace = true) {r u : List Char}
    (hu : Before r u) : Before r (blanks ++ u) := by
  rw [Before, gap_spaces h]
  exact hu

theorem before_of_solid {s : List Char} (h : s.head?.all isSolid = true) : Before s s := by
  rw [Before, gap_of_solid h]

theorem gap_gap (s : List Char) : gap false (gap false s).2 = ([], (gap false s).2) := by
  -- The scan passes through comments, so the induction needs both states of the flag.
  have h : ∀ inComment, splitBlanks false (splitBlanks inComment s).2
      = ([], (splitBlanks inComment s).2) := by
    intro inComment
    fun_induction splitBlanks inComment s with
    | case1 =>
        rfl
    | case2 c rest ih =>
        exact ih
    | case3 inComment c rest _ _ ih =>
        exact ih
    | case4 inComment c rest _ _ _ ih =>
        exact ih
    | case5 inComment c rest _ hspace hcomment =>
        simp [splitBlanks, hspace, hcomment]
  exact h false

theorem Before.self {r u : List Char} (h : Before r u) : Before r r := by
  have hr : (gap false u).2 = r := h
  rw [Before, ← hr, gap_gap]

theorem Before.trans {r s u : List Char} (h : Before s u) (hr : Before r s) : Before r u := by
  have hsame : s = r := h.self.symm.trans hr
  exact hsame ▸ h

/-! ## First characters -/

/-- The characters with which a value can start. -/
def opensValue (c : Char) : Bool :=
  isWordStart c || (c = '[' || (c = '\"' || ((c = '-' || isDigit c) ||
    ((c = 't' || c = 'f') || isWordStart c))))

/-- The characters with which a match of the rule can start, for rules whose matches take
something. -/
def Rule.opens : Rule → Char → Bool
  | endOfInput, _ | whitespace, _ | comment, _ | schema, _ | docText, _ => true
  | documentation, c | docLine, c => c = '/'
  | modelBlock, c => c = 'm'
  | enumBlock, c => c = 'e'
  | configBlock, c | configKeyword, c => c = 'd' || c = 'g'
  | skippedBlock, c | skippedKeyword, c => c = 't' || c = 'v'
  | definition, c => c = 'm' || (c = 'e' || ((c = 'd' || c = 'g') || (c = 't' || c = 'v')))
  | modelItem, c | enumItem, c => c = '/' || (isWordStart c || c = '@')
  | configItem, c => c = '/' || isWordStart c
  | enumValue, c | configProperty, c | field, c | argName, c | identifier, c => isWordStart c
  | typeName, c | attributeName, c | functionCall, c | path, c => isWordStart c
  | unsupportedType, c => c = 'U'
  | fieldType, c => c = 'U' || isWordStart c
  | typeModifier, c => c = '[' || c = '?'
  | listMarker, c | arrayLiteral, c => c = '['
  | optionalMarker, c => c = '?'
  | fieldAttribute, c | blockAttribute, c => c = '@'
  | attributeArgs, c => c = '('
  | stringLiteral, c => c = '\"'
  | numberLiteral, c => c = '-' || isDigit c
  | booleanLiteral, c => c = 't' || c = 'f'
  | expression, c => opensValue c
  | attributeArg, c => isWordStart c || opensValue c

/-- The characters with which a match can start, for expressions whose matches take something. -/
def Pattern.opens : Pattern → Char → Bool
  | literal word, c => word.head?.all (c = ·)
  | notAhead _, _ | atStart, _ | atEnd, _ | many _, _ | optional _, _ => true
  | call rule, c => rule.opens c
  | seq first _, c => !first.takes || first.opens c
  | choice first second, c => first.opens c || second.opens c

theorem Rule.opens_of_body {rule : Rule} {body : Pattern} (h : rule.form.body? = some body)
    {c : Char} (hc : body.opens c = true) : rule.opens c = true := by
  cases rule <;> cases h <;> exact hc

theorem scanKeyword_head {c : Char} {word s : List Char} {x : Scan}
    (h : scanKeyword (c :: word) s = some x) : s.head? = some c := by
  obtain ⟨-, rfl, -⟩ := scanKeyword_eq_some_iff.1 h
  rfl

/-- A token starts with one of its rule's characters. -/
theorem Rule.opens_of_token {rule : Rule} {scan : List Char → Option Scan}
    (hform : rule.form = .token scan) {s : List Char} {x : Scan} (h : scan s = some x)
    (hx : x.1 ≠ []) : s.head?.any rule.opens = true := by
  cases rule <;> simp only [Rule.form, reduceCtorEq, Form.token.injEq] at hform
  case docText =>
      subst hform
      cases h
      cases s with
      | nil =>
          exact absurd rfl hx
      | cons c rest =>
          rfl
  case skippedKeyword =>
      subst hform
      rcases Option.or_eq_some_iff.1 h with h | ⟨-, h⟩ <;> rw [scanKeyword_head h] <;> decide
  case booleanLiteral =>
      subst hform
      rcases Option.or_eq_some_iff.1 h with h | ⟨-, h⟩ <;> rw [scanKeyword_head h] <;> decide
  case typeName | identifier =>
      subst hform
      rw [scanIdentifier_eq] at h
      obtain ⟨c, rest, rfl, hc, -⟩ := exists_of_scanWord h
      exact hc
  case attributeName | path =>
      subst hform
      rw [scanPath_eq] at h
      obtain ⟨c, rest, rfl, hc, -⟩ := exists_of_scanWord h
      exact hc
  case stringLiteral =>
      subst hform
      unfold scanString at h
      split at h
      · rfl
      · cases h
  case numberLiteral =>
      subst hform
      unfold scanNumber at h
      split at h
      · rfl
      · unfold scanUnsigned at h
        split at h
        · rename_i hdigit
          obtain ⟨c, hc, hd⟩ := (Option.any_eq_true _ _).1 hdigit
          simp [hc, hd, Rule.opens]
        · cases h

/-- A match that takes something starts with a character of its expression. -/
theorem Derives.opened {tight : Bool} {e : Pattern} {place : Place} {s : List Char} {m : Match}
    (h : Derives tight e place s (some m)) (he : e.takes = true) :
    s.head?.any e.opens = true := by
  -- Only the clauses for expressions that take something are left to look at.
  generalize ho : some m = o at h
  induction h generalizing m with
  | @literal tight place word s rest h =>
      cases ho
      cases word with
      | nil =>
          cases he
      | cons c word =>
          rw [afterWord?_eq_some_iff.1 h]
          simp [Pattern.opens]
  | literalFails | notAheadFails | atStartFails | atEndFails | seqFirstFails | seqSecondFails =>
      cases ho
  | notAhead | atStart | atEnd | optionalNone | manyNone | optional | manyLast | manyMore =>
      cases he
  | @seq tight first second place s m₁ m₂ h₁ h₂ ih₁ ih₂ =>
      cases hfirst : first.takes with
      | true =>
          obtain ⟨c, hs, hc⟩ := (Option.any_eq_true _ _).1 (ih₁ hfirst rfl)
          simp [hs, hc, Pattern.opens]
      | false =>
          -- The character may come from the second part, and any will do.
          have d : Derives tight (.seq first second) place s _ := .seq h₁ h₂
          cases s with
          | nil =>
              exact absurd (List.append_eq_nil_iff.1 d.splits).1 (d.taken_ne_nil he)
          | cons c rest =>
              simp [Pattern.opens, hfirst]
  | choiceFirst h ih =>
      obtain ⟨c, hs, hc⟩ := (Option.any_eq_true _ _).1 (ih (Bool.and_eq_true_iff.1 he).1 ho)
      simp [hs, hc, Pattern.opens]
  | choiceSecond h₁ h₂ ih₁ ih₂ =>
      obtain ⟨c, hs, hc⟩ := (Option.any_eq_true _ _).1 (ih₂ (Bool.and_eq_true_iff.1 he).2 ho)
      simp [hs, hc, Pattern.opens]
  | silent hform h ih =>
      have hbody := congrArg Form.body? hform
      obtain ⟨c, hs, hc⟩ := (Option.any_eq_true _ _).1 (ih ((Rule.body_bounded hbody).2.2 he) ho)
      simp [hs, Pattern.opens, Rule.opens_of_body hbody hc]
  | @hidden _ rule _ _ _ hform =>
      cases rule <;> simp [Rule.form] at hform <;> cases he
  | @token _ rule _ _ _ hform =>
      obtain ⟨x, hx, rfl⟩ := Option.map_eq_some_iff.1 ho.symm
      have hrule : rule ≠ .docText := by
        rintro rfl
        cases he
      exact Rule.opens_of_token hform hx (Rule.token_takes hform hrule hx)
  | spaced hform h ih | tight hform h ih =>
      obtain ⟨m', hm', rfl⟩ := Option.map_eq_some_iff.1 ho.symm
      have hbody := congrArg Form.body? hform
      obtain ⟨c, hs, hc⟩ := (Option.any_eq_true _ _).1
        (ih (m := m') ((Rule.body_bounded hbody).2.2 he) hm'.symm)
      simp [hs, Pattern.opens, Rule.opens_of_body hbody hc]

theorem isWordStart_eq_false_of_isDigit {c : Char} (h : isDigit c = true) :
    isWordStart c = false := by
  simp only [isDigit, Bool.and_eq_true, decide_eq_true_eq] at h
  have hlow : 48 ≤ c.toNat := h.1
  have hhigh : c.toNat ≤ 57 := h.2
  -- All letters, small or big, come after the digits.
  have hletter : ∀ lo hi : Char, 57 < lo.toNat → ¬ (lo ≤ c ∧ c ≤ hi) := by
    rintro lo hi hlo ⟨hle, -⟩
    have hle' : lo.toNat ≤ c.toNat := hle
    omega
  have hunder : c ≠ '_' := by
    rintro rfl
    exact absurd hhigh (by decide)
  have hsmall := hletter 'a' 'z' (by decide)
  have hbig := hletter 'A' 'Z' (by decide)
  simp [isWordStart, isLetter, hunder]
  grind

/-- What starts like a name starts neither a list nor a string nor a number. -/
theorem opens_of_isWordStart {c : Char} (h : isWordStart c = true) :
    Rule.arrayLiteral.opens c = false ∧ Rule.stringLiteral.opens c = false ∧
      Rule.numberLiteral.opens c = false ∧ isSolid c = true := by
  have hne : ∀ d, isWordStart d = false → c ≠ d := by
    rintro d hd rfl
    rw [h] at hd
    cases hd
  have hdigit : isDigit c = false := by
    cases hd : isDigit c with
    | false =>
        rfl
    | true =>
        rw [isWordStart_eq_false_of_isDigit hd] at h
        cases h
  have hspace : isSpace c = false := by
    simp [isSpace, hne ' ' (by decide), hne '\t' (by decide), hne '\r' (by decide),
      hne '\n' (by decide)]
  simp [Rule.opens, hne '[' (by decide), hne '\"' (by decide), hne '-' (by decide), hdigit, isSolid,
    hspace, hne '/' (by decide)]

/-- A rule whose matches take something refuses a text that starts with none of its characters. -/
theorem refuses {rule : Rule} (htakes : rule.takes = true) {s : List Char}
    (h : s.head?.any rule.opens = false) (tight : Bool) (place : Place) :
    Derives tight (.call rule) place s none := by
  -- Every call has an outcome, and a match would start with one of the characters.
  obtain ⟨o, d⟩ := exists_derives (e := .call rule) rfl tight place s
  cases o with
  | none =>
      exact d
  | some m =>
      have hopens : s.head?.any rule.opens = true := d.opened htakes
      rw [h] at hopens
      cases hopens

/-- What stands at the top of a schema. -/
def topLevel : Pattern :=
  .choice (.call .documentation) (.call .definition)

/-! ## Matches -/

/-- The expression matches at the front of `s`; the text after the match has the property `E`, and
its nodes have the property `P`. -/
def Yields (e : Pattern) (place : Place) (s : List Char) (E : List Char → Prop)
    (P : List Node → Prop) : Prop :=
  ∃ m, Derives false e place s (some m) ∧ E m.rest ∧ P m.nodes

/-- Nodes with one property after nodes with another. -/
def Joined (P Q : List Node → Prop) (nodes : List Node) : Prop :=
  ∃ before after, P before ∧ Q after ∧ nodes = before ++ after

/-- One node of the rule, with children of the given property. It covers `s` up to a text with the
property `E`. -/
def IsNode (rule : Rule) (place : Place) (s : List Char) (E : List Char → Prop)
    (P : List Node → Prop) (nodes : List Node) : Prop :=
  ∃ text children, nodes = [.mk rule place text children] ∧ P children ∧
    ∃ u, text ++ u = s ∧ E u

/-- What a match takes, with the blanks after it, is all that stands before the rest. -/
theorem Derives.taken_gap {e : Pattern} {place : Place} {w r : List Char} {m : Match}
    (h : Derives false e place (w ++ r) (some m)) (hr : Before r m.rest) :
    m.taken ++ (gap false m.rest).1 = w := by
  have hsplit : m.taken ++ ((gap false m.rest).1 ++ (gap false m.rest).2) = w ++ r := by
    rw [gap_splits, h.splits]
  have hrest : (gap false m.rest).2 = r := hr
  rw [hrest, ← List.append_assoc] at hsplit
  exact List.append_cancel_right hsplit

/-- Repetition of something that is never empty takes nothing only if there is nothing. -/
theorem Derives.of_many_nil {tight : Bool} {body : Pattern} (htakes : body.takes = true)
    {place : Place} {s : List Char} {m : Match}
    (h : Derives tight (.many body) place s (some m)) (htaken : m.taken = []) :
    m = .empty s ∧ Derives tight body place s none := by
  cases h with
  | manyNone h =>
      exact ⟨rfl, h⟩
  | manyLast h₁ h₂ hlast =>
      exact absurd htaken (h₁.taken_ne_nil htakes)
  | manyMore h₁ h₂ hmore =>
      have hfirst := (List.append_eq_nil_iff.1 (List.append_eq_nil_iff.1 htaken).1).1
      exact absurd hfirst (h₁.taken_ne_nil htakes)

namespace Yields

variable {e first second body : Pattern} {place : Place} {s w r : List Char}
  {E : List Char → Prop} {P P' Q : List Node → Prop} {rule : Rule}

theorem mono (h : Yields e place s E P) (hP : ∀ ns, P ns → P' ns) : Yields e place s E P' := by
  obtain ⟨m, d, hrest, hnodes⟩ := h
  exact ⟨m, d, hrest, hP _ hnodes⟩

theorem before {t : List Char} (h : Yields e place s (· = t) P) (ht : Before r t) :
    Yields e place s (Before r) P := by
  obtain ⟨m, d, hrest, hnodes⟩ := h
  exact ⟨m, d, by rw [hrest]; exact ht, hnodes⟩

theorem literal (word rest : List Char) :
    Yields (.literal word) place (word ++ rest) (· = rest) (· = []) :=
  ⟨_, .literal (afterWord?_append word rest), rfl, rfl⟩

theorem token {scan : List Char → Option Scan} (hform : rule.form = .token scan)
    (h : scan s = some (w, r)) :
    Yields (.call rule) place s (· = r) (· = [.mk rule place w []]) := by
  have d : Derives false (.call rule) place s _ := .token hform
  rw [h] at d
  exact ⟨_, d, rfl, rfl⟩

theorem seq (h₁ : Yields first place (w ++ r) (Before r) P)
    (h₂ : Yields second (place.advance w) r E Q) :
    Yields (.seq first second) place (w ++ r) E (Joined P Q) := by
  obtain ⟨m₁, d₁, hrest, hP⟩ := h₁
  obtain ⟨m₂, d₂, hE, hQ⟩ := h₂
  have htaken := d₁.taken_gap hrest
  have hgap : (gap false m₁.rest).2 = r := hrest
  rw [← htaken, ← hgap] at d₂
  exact ⟨_, .seq d₁ d₂, hE, m₁.nodes, m₂.nodes, hP, hQ, rfl⟩

/-- The second part is the same wherever it stands. -/
theorem seq_anywhere (h₁ : Yields first place s (Before r) P)
    (h₂ : ∀ place, Yields second place r E Q) :
    Yields (.seq first second) place s E (Joined P Q) := by
  obtain ⟨m₁, d₁, hrest, hP⟩ := h₁
  obtain ⟨m₂, d₂, hE, hQ⟩ := h₂ (place.advance (m₁.taken ++ (gap false m₁.rest).1))
  rw [← show (gap false m₁.rest).2 = r from hrest] at d₂
  exact ⟨_, .seq d₁ d₂, hE, m₁.nodes, m₂.nodes, hP, hQ, rfl⟩

/-- The blanks after a part that takes none of them are passed over. -/
theorem seq_gap {t : List Char} (h₁ : Yields first place (w ++ t) (· = t) P) (ht : Before r t)
    (h₂ : Yields second (place.advance (w ++ (gap false t).1)) r E Q) :
    Yields (.seq first second) place (w ++ t) E (Joined P Q) := by
  have htext : w ++ t = (w ++ (gap false t).1) ++ r := by
    rw [List.append_assoc, ← show (gap false t).2 = r from ht, gap_splits]
  have hfirst := h₁.before ht
  rw [htext] at hfirst ⊢
  exact hfirst.seq h₂

/-- A fixed word leaves no node. -/
theorem word_seq (word blanks : List Char) (hblanks : blanks.all isSpace = true)
    (hr : Before r r) (h : Yields second (place.advance (word ++ blanks)) r E Q) :
    Yields (.seq (.literal word) second) place (word ++ (blanks ++ r)) E Q := by
  have hfirst : Yields (.literal word) place ((word ++ blanks) ++ r) (Before r) (· = []) := by
    rw [List.append_assoc]
    exact (literal word _).before (before_spaces hblanks hr)
  rw [← List.append_assoc]
  refine (hfirst.seq h).mono ?_
  rintro ns ⟨before, after, rfl, hafter, rfl⟩
  exact hafter

theorem choiceFirst (h : Yields first place s E P) :
    Yields (.choice first second) place s E P := by
  obtain ⟨m, d, hrest, hnodes⟩ := h
  exact ⟨m, .choiceFirst d, hrest, hnodes⟩

theorem choiceSecond (d : Derives false first place s none) (h : Yields second place s E P) :
    Yields (.choice first second) place s E P := by
  obtain ⟨m, d', hrest, hnodes⟩ := h
  exact ⟨m, .choiceSecond d d', hrest, hnodes⟩

theorem optional (h : Yields body place s E P) : Yields (.optional body) place s E P := by
  obtain ⟨m, d, hrest, hnodes⟩ := h
  exact ⟨m, .optional d, hrest, hnodes⟩

theorem optionalNone (d : Derives false body place s none) :
    Yields (.optional body) place s (· = s) (· = []) :=
  ⟨_, .optionalNone d, rfl, rfl⟩

theorem manyNone (d : Derives false body place s none) :
    Yields (.many body) place s (· = s) (· = []) :=
  ⟨_, .manyNone d, rfl, rfl⟩

/-- One more item in front. When it is the last one, the blanks after it are given back, which must
not matter. -/
theorem manyCons {E₁ : List Char → Prop} (h₁ : Yields body place (w ++ r) E₁ P)
    (htakes : body.takes = true) (hE : ∀ u, E₁ u → Before r u ∧ (E r → E u))
    (h₂ : Yields (.many body) (place.advance w) r E Q) :
    Yields (.many body) place (w ++ r) E (Joined P Q) := by
  obtain ⟨m₁, d₁, hrest, hP⟩ := h₁
  obtain ⟨m₂, d₂, hE₂, hQ⟩ := h₂
  obtain ⟨hbefore, hback⟩ := hE _ hrest
  have htaken := d₁.taken_gap hbefore
  have hgap : (gap false m₁.rest).2 = r := hbefore
  have d₂' := d₂
  rw [← htaken, ← hgap] at d₂'
  -- A repetition keeps the blanks after an item only if another item follows them.
  by_cases hlast : m₂.taken = []
  · obtain ⟨rfl, -⟩ := d₂.of_many_nil htakes hlast
    exact ⟨m₁, .manyLast d₁ d₂' hlast, hback hE₂, m₁.nodes, [], hP, hQ, by simp⟩
  · exact ⟨_, .manyMore d₁ d₂' hlast, hE₂, m₁.nodes, m₂.nodes, hP, hQ, rfl⟩

/-- One more item in front, in a text where only blanks stand between the items. -/
theorem manyStep {t s₁ : List Char} (h₁ : Yields body place (w ++ t) (Before s₁) P)
    (htakes : body.takes = true) (ht : Before s₁ t)
    (h₂ : Yields (.many body) (place.advance (w ++ (gap false t).1)) s₁ (Before r) Q) :
    Yields (.many body) place (w ++ t) (Before r) (Joined P Q) := by
  have htext : w ++ t = (w ++ (gap false t).1) ++ s₁ := by
    rw [List.append_assoc, ← show (gap false t).2 = s₁ from ht, gap_splits]
  rw [htext] at h₁ ⊢
  exact h₁.manyCons htakes (fun u hu => ⟨hu, hu.trans⟩) h₂

theorem silent (hform : rule.form = .silent body) (h : Yields body place s E P) :
    Yields (.call rule) place s E P := by
  obtain ⟨m, d, hrest, hnodes⟩ := h
  exact ⟨m, .silent hform d, hrest, hnodes⟩

theorem node (hform : rule.form = .spaced body) (h : Yields body place s E P) :
    Yields (.call rule) place s E (IsNode rule place s E P) := by
  obtain ⟨m, d, hrest, hnodes⟩ := h
  exact ⟨_, .spaced hform d, hrest, m.taken, m.nodes, rfl, hnodes, m.rest, d.splits, hrest⟩

end Yields

/-! ## Lists between commas -/

/-- Ends a value: a comma or a closing bracket. -/
def closes (s : List Char) : Bool :=
  s.head?.any fun c => c = ',' || c = ')' || c = ']'

theorem exists_of_closes {s : List Char} (h : closes s = true) :
    ∃ c rest, s = c :: rest ∧ (c = ',' ∨ c = ')' ∨ c = ']') := by
  obtain ⟨c, hs, hc⟩ := (Option.any_eq_true _ _).1 h
  obtain ⟨rest, rfl⟩ := List.head?_eq_some_iff.1 hs
  exact ⟨c, rest, rfl, by simpa [or_assoc] using hc⟩

theorem solid_of_closes {s : List Char} (h : closes s = true) : s.head?.all isSolid = true := by
  obtain ⟨c, rest, rfl, hc⟩ := exists_of_closes h
  rcases hc with rfl | rfl | rfl <;> rfl

theorem stops_of_closes {s : List Char} (h : closes s = true) : stops s = true := by
  obtain ⟨c, rest, rfl, hc⟩ := exists_of_closes h
  rcases hc with rfl | rfl | rfl <;> rfl

section CommaList

variable {β : Type} {item : Pattern} {write : β → List Char} {R : β → Node → Prop}

/-- The pieces after the first one, each with a comma before it. -/
def afterCommas (pieces : List (List Char)) : List Char :=
  pieces.flatMap ([',', ' '] ++ ·)

theorem joinWith_cons (piece : List Char) (pieces : List (List Char)) :
    Text.joinWith [',', ' '] (piece :: pieces) = piece ++ afterCommas pieces := by
  induction pieces generalizing piece with
  | nil =>
      simp [Text.joinWith, afterCommas]
  | cons next pieces ih =>
      simp only [Text.joinWith, ih]
      simp [afterCommas]

theorem closes_afterCommas (pieces : List (List Char)) {t : List Char} (h : closes t = true) :
    closes (afterCommas pieces ++ t) = true := by
  cases pieces with
  | nil =>
      exact h
  | cons piece pieces =>
      rfl

/-- Each item is read off in front of whatever ends a value. -/
def ReadsEach (item : Pattern) (write : β → List Char) (R : β → Node → Prop) (b : β) : Prop :=
  ∀ place t, closes t = true →
    Yields item place (write b ++ t) (· = t) (fun ns => ∃ n, ns = [n] ∧ R b n) ∧
      (write b ++ t).head?.all isSolid = true

theorem yields_afterCommas {items : List β} (hitem : ∀ b ∈ items, ReadsEach item write R b)
    {t : List Char} (ht : closes t = true) (hcomma : t.head? ≠ some ',') (place : Place) :
    Yields (.many (.seq (.word ",") item)) place (afterCommas (items.map write) ++ t) (· = t)
      (List.Forall₂ R items) := by
  induction items generalizing place with
  | nil =>
      have hfail : Derives false (.seq (.word ",") item) place t none := by
        refine .seqFirstFails (.literalFails (afterWord?_eq_none_iff.2 ?_))
        rintro ⟨rest, rfl⟩
        exact hcomma rfl
      refine (Yields.manyNone hfail).mono ?_
      rintro ns rfl
      exact .nil
  | cons b items ih =>
      have hrest : closes (afterCommas (items.map write) ++ t) = true := closes_afterCommas _ ht
      obtain ⟨hb, hsolid⟩ := hitem b (by simp) (place.advance ([','] ++ [' '])) _ hrest
      have hone : Yields (.seq (.word ",") item) place
          (([',', ' '] ++ write b) ++ (afterCommas (items.map write) ++ t))
          (· = afterCommas (items.map write) ++ t) (fun ns => ∃ n, ns = [n] ∧ R b n) := by
        rw [List.append_assoc]
        exact Yields.word_seq [','] [' '] rfl (before_of_solid hsolid) hb
      have hmore := ih (fun b' hb' => hitem b' (List.mem_cons_of_mem b hb'))
        (place.advance ([',', ' '] ++ write b))
      have htext : afterCommas ((b :: items).map write) ++ t
          = ([',', ' '] ++ write b) ++ (afterCommas (items.map write) ++ t) := by
        simp [afterCommas]
      rw [htext]
      refine (hone.manyCons rfl ?_ hmore).mono ?_
      · rintro u rfl
        exact ⟨before_of_solid (solid_of_closes hrest), id⟩
      · rintro ns ⟨before, after, ⟨n, rfl, hn⟩, hafter, rfl⟩
        exact .cons hn hafter

/-- Items between commas, in front of a closing bracket. -/
theorem yields_commaList {items : List β} (hitem : ∀ b ∈ items, ReadsEach item write R b)
    {t : List Char} (ht : closes t = true) (hcomma : t.head? ≠ some ',') {place : Place}
    (hnone : Derives false item place t none) :
    Yields (.commaList item) place (Text.joinWith [',', ' '] (items.map write) ++ t) (· = t)
      (List.Forall₂ R items) := by
  cases items with
  | nil =>
      refine (Yields.optionalNone (.seqFirstFails hnone)).mono ?_
      rintro ns rfl
      exact .nil
  | cons b items =>
      have hrest : closes (afterCommas (items.map write) ++ t) = true := closes_afterCommas _ ht
      obtain ⟨hb, -⟩ := hitem b (by simp) place _ hrest
      have hmore := yields_afterCommas (fun b' hb' => hitem b' (List.mem_cons_of_mem b hb')) ht
        hcomma (place.advance (write b))
      -- No comma stands at the end: `t` starts with none.
      have hlast : Derives false (.word ",")
          ((place.advance (write b)).advance (afterCommas (items.map write))) t none := by
        refine .literalFails (afterWord?_eq_none_iff.2 ?_)
        rintro ⟨rest, rfl⟩
        exact hcomma rfl
      rw [List.map_cons, joinWith_cons, List.append_assoc]
      have hfirst := hb.before (before_of_solid (solid_of_closes hrest))
      have hothers := hmore.before (before_of_solid (solid_of_closes ht))
      refine (hfirst.seq (hothers.seq (.optionalNone hlast))).optional.mono ?_
      rintro ns ⟨before, after, ⟨n, rfl, hn⟩, ⟨more, last, hall, rfl, rfl⟩, rfl⟩
      rw [List.append_nil]
      exact .cons hn hall

theorem solid_joinWith {items : List β} (hitem : ∀ b ∈ items, ReadsEach item write R b)
    {t : List Char} (ht : closes t = true) :
    (Text.joinWith [',', ' '] (items.map write) ++ t).head?.all isSolid = true := by
  cases items with
  | nil =>
      exact solid_of_closes ht
  | cons b items =>
      rw [List.map_cons, joinWith_cons, List.append_assoc]
      exact (hitem b (by simp) {} _ (closes_afterCommas _ ht)).2

/-- A list between commas in brackets. -/
theorem yields_bracketed {items : List β} (hitem : ∀ b ∈ items, ReadsEach item write R b)
    (opening : Char) {closing : Char} (hclosing : closing = ')' ∨ closing = ']') {t : List Char}
    (hnone : ∀ place, Derives false item place (closing :: t) none) (place : Place) :
    Yields (.sequence (.literal [opening]) [.commaList item, .literal [closing]]) place
      ([opening] ++ Text.joinWith [',', ' '] (items.map write) ++ [closing] ++ t) (· = t)
      (List.Forall₂ R items) := by
  have hcloses : closes (closing :: t) = true := by rcases hclosing with rfl | rfl <;> rfl
  have hcomma : (closing :: t).head? ≠ some ',' := by rcases hclosing with rfl | rfl <;> simp
  have hitems := yields_commaList hitem hcloses hcomma (hnone (place.advance [opening]))
  have hrest := (hitems.before (before_of_solid (solid_of_closes hcloses))).seq
    (Yields.literal [closing] t)
  have hall := Yields.word_seq [opening] [] rfl
    (before_of_solid (solid_joinWith hitem hcloses)) hrest
  simp only [List.append_assoc]
  refine hall.mono ?_
  rintro ns ⟨nodes, last, hnodes, rfl, rfl⟩
  rwa [List.append_nil]

end CommaList

end Grammar
end PrismaTypes
