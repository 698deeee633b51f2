import PrismaTypes.Proofs.FirmMatches

/-!
# Values match firmly

The grammar lets a match give up an alternative that it has read far into, as `a (` for the call of
a function, and go on with another. In a text that is accepted as a whole this never pays: what is
left after the other alternative could not follow it.

* `Repeats.firm`: repetition of a part that is firm in front of what follows it.
* `ListItem.firm_bracketed`: so are lists in brackets, whatever follows them.
* `firm_value`: in front of anything but `(`, `.` and `:`, a value is matched firmly.
-/

namespace PrismaTypes
namespace Grammar

open Text (Place)

/-! ## Repetition -/

/-- A repeated part whose matches are firm in front of texts with the property `After`, and whose
refusal is clear in front of texts with the property `Stop`. Only texts up to the length `n` are
looked at. -/
structure Repeats (body : Pattern) (n : Nat) (After Stop : List Char → Prop) : Prop where
  takes : body.takes = true
  item : ∀ {place : Place} {s : List Char} {m : Match}, s.length ≤ n →
    Derives false body place s (some m) → After (gap false m.rest).2 → Firm false body place s m
  more : ∀ {place : Place} {s : List Char} {m : Match},
    Derives false body place s (some m) → After s
  last : ∀ {s : List Char}, Stop s → After s
  stop : ∀ {place : Place} {s : List Char}, Derives false body place s none →
    (gap false s).2 = s → Stop s → Balks false body s

namespace Repeats

variable {body : Pattern} {n : Nat} {After Stop : List Char → Prop} {place : Place} {s : List Char}
  {m : Match}

theorem after (R : Repeats body n After Stop) (h : Derives false (.many body) place s (some m))
    (hs : (gap false s).2 = s) (hstop : Stop (gap false m.rest).2) : After s := by
  by_cases hm : m.taken = []
  · rw [h.rest_of_taken_nil hm, hs] at hstop
    exact R.last hstop
  · obtain ⟨m', d⟩ := h.some_of_many hm
    exact R.more d

theorem firm (R : Repeats body n After Stop) (h : Derives false (.many body) place s (some m))
    (hn : s.length ≤ n) (hs : (gap false s).2 = s) (hstop : Stop (gap false m.rest).2) :
    Firm false (.many body) place s m := by
  generalize he : Pattern.many body = e at h
  generalize ho : some m = o at h
  generalize ht : false = tight at h
  induction h generalizing m with
  | manyNone h =>
      cases he
      cases ho
      subst ht
      have hend : Stop _ := hs ▸ hstop
      exact .manyNone (R.stop h hs hend)
  | @manyLast tight _ place s m₁ m₂ h₁ h₂ hlast ih₁ ih₂ =>
      cases he
      cases ho
      subst ht
      have hnone := (h₂.of_many_nil R.takes hlast).2
      exact .manyLast (R.item hn h₁ (R.last hstop)) (R.stop hnone (gap_idem _) hstop)
  | @manyMore tight _ place s m₁ m₂ h₁ h₂ hmore ih₁ ih₂ =>
      cases he
      cases ho
      subst ht
      have hlength := h₁.length_after
      obtain ⟨m', d⟩ := h₂.some_of_many hmore
      have hrest := ih₂ (m := m₂) (by omega) (gap_idem _) hstop rfl rfl rfl
      exact .manyMore (R.item hn h₁ (R.more d)) hrest hmore
  | _ =>
      cases he

end Repeats

/-! ## Lists between commas -/

/-- Stands behind an item of a list that `closing` closes. -/
def AfterItem (closing : Char) (t : List Char) : Prop :=
  t.head? = some ',' ∨ t.head? = some closing

/-- Nothing but a comma stands in front of the end of the list. -/
def ListEnds (closing : Char) (t : List Char) : Prop :=
  t.head? = some closing ∨ ∃ r, t = ',' :: r ∧ (gap false r).2.head? = some closing

section CommaList

variable {e : Pattern} {closing : Char} {n : Nat} {place : Place} {s : List Char} {m : Match}

/-- An item in a list: it starts with a character of its own, and its match is firm in front of a
comma or the end of the list. -/
structure ListItem (e : Pattern) (closing : Char) (n : Nat) : Prop where
  telling : e.telling = true
  bracket : closing = ')' ∨ closing = ']'
  closes : e.opens closing = false
  item : ∀ {place : Place} {s : List Char} {m : Match}, s.length ≤ n →
    Derives false e place s (some m) → AfterItem closing (gap false m.rest).2 →
    Firm false e place s m

theorem balks_of_head {tight : Bool} {c : Char} (he : e.telling = true)
    (hs : s.head? = some c) (hc : e.opens c = false) : Balks tight e s :=
  .head he (by rw [hs]; exact hc)

theorem ne_nil_of_head {c : Char} (hs : s.head? = some c) : s ≠ [] := by
  rintro rfl
  cases hs

theorem ListItem.closing_ne (I : ListItem e closing n) : closing ≠ ',' := by
  rcases I.bracket with rfl | rfl <;> decide

theorem ListItem.repeats (I : ListItem e closing n) :
    Repeats (.seq (.word ",") e) n (AfterItem closing) (ListEnds closing) where
  takes := rfl
  item := by
    intro place s m hn h hafter
    obtain ⟨m₁, m₂, h₁, h₂, rfl⟩ := h.of_seq
    have hlength := h₁.length_after
    exact .seq (h₁.firm_literal rfl) (I.item (by omega) h₂ hafter)
  more := by
    intro place s m h
    obtain ⟨m₁, m₂, h₁, -, -⟩ := h.of_seq
    rw [h₁.of_literal]
    exact .inl rfl
  last := by
    rintro s (hs | ⟨r, rfl, -⟩)
    · exact .inr hs
    · exact .inl rfl
  stop := by
    rintro place s - - (hs | ⟨r, rfl, hr⟩)
    · exact .first (balks_of_head rfl hs (by simp [Pattern.opens, Pattern.word, I.closing_ne]))
    · exact .second (.literal rfl) (x := ([','], r)) rfl (fun _ => ne_nil_of_head hr)
        (balks_of_head I.telling hr I.closes)

/-- After the items there is the closing bracket, or a comma before it. -/
theorem firm_lastComma (hclosing : closing ≠ ',')
    (h : Derives false (.optional (.word ",")) place s (some m)) (hs : (gap false s).2 = s)
    (hend : (gap false m.rest).2.head? = some closing) :
    ListEnds closing s ∧ Firm false (.optional (.word ",")) place s m := by
  rcases h.of_optional with h | ⟨-, rfl⟩
  · exact ⟨.inr ⟨m.rest, h.of_literal, hend⟩, .optional (h.firm_literal rfl)⟩
  · have hhead : s.head? = some closing := by
      rw [← hs]
      exact hend
    refine ⟨.inl hhead, .optionalNone (balks_of_head rfl hhead ?_)⟩
    simp [Pattern.opens, Pattern.word, hclosing]

theorem ListItem.firm (I : ListItem e closing n)
    (h : Derives false (.commaList e) place s (some m)) (hn : s.length ≤ n)
    (hs : (gap false s).2 = s) (hend : (gap false m.rest).2.head? = some closing) :
    Firm false (.commaList e) place s m := by
  rcases h.of_optional with h | ⟨-, rfl⟩
  · obtain ⟨m₁, m', h₁, h', rfl⟩ := h.of_seq
    obtain ⟨m₂, m₃, h₂, h₃, rfl⟩ := h'.of_seq
    have hlength := h₁.length_after
    obtain ⟨hclosed, hcomma⟩ := firm_lastComma I.closing_ne h₃ (gap_idem _) hend
    have hitems := I.repeats.firm h₂ (by omega) (gap_idem _) hclosed
    have hfirst := I.item hn h₁ (I.repeats.after h₂ (gap_idem _) hclosed)
    exact .optional (.seq hfirst (.seq hitems hcomma))
  · have hhead : s.head? = some closing := by
      rw [← hs]
      exact hend
    exact .optionalNone (.first (balks_of_head I.telling hhead I.closes))

/-- A list in brackets is matched firmly whatever follows it. -/
theorem ListItem.firm_bracketed (I : ListItem e closing n) {opening : Char}
    (hopening : isInk [opening] = true)
    (h : Derives false (.sequence (.literal [opening]) [.commaList e, .literal [closing]]) place s
      (some m)) (hn : s.length ≤ n + 1) :
    Firm false (.sequence (.literal [opening]) [.commaList e, .literal [closing]]) place s m := by
  obtain ⟨m₁, m', h₁, h', rfl⟩ := h.of_seq
  obtain ⟨m₂, m₃, h₂, h₃, rfl⟩ := h'.of_seq
  have hlength : (gap false m₁.rest).2.length + 1 ≤ s.length := h₁.length_after
  have hclosing : (gap false m₂.rest).2 = [closing] ++ m₃.rest := h₃.of_literal
  have hitems := I.firm h₂ (by omega) (gap_idem _) (by rw [hclosing]; rfl)
  have hword : isInk [closing] = true := by rcases I.bracket with rfl | rfl <;> rfl
  exact .seq (h₁.firm_literal hopening) (.seq hitems (h₃.firm_literal hword))

end CommaList

/-! ## Values -/

/-- What may stand behind a value: something, but nothing that would make it the name of a function,
of an argument or of a longer path. -/
def afterValue (t : List Char) : Bool :=
  t.head?.any fun c => c ≠ '(' && c ≠ '.' && c ≠ ':'

theorem afterValue_iff {t : List Char} :
    afterValue t = true ↔
      t ≠ [] ∧ t.head? ≠ some '(' ∧ t.head? ≠ some '.' ∧ t.head? ≠ some ':' := by
  cases t <;> simp [afterValue, and_assoc]

theorem gap_of_head {s : List Char} {c : Char} (hs : s.head? = some c) (hc : isSolid c = true) :
    (gap false s).2 = s := by
  rw [gap_of_solid]
  rw [hs]
  exact hc

/-- A boolean word is a whole path unless a point follows it. -/
theorem scanPath_of_scanBoolean {s : List Char} {x : Scan} (h : scanBoolean s = some x)
    (hx : x.2.head? ≠ some '.') : scanPath s = some x := by
  have hword : ∃ b, x.1 = booleanWord b ∧ s = booleanWord b ++ x.2 ∧
      x.2.head?.any isWordPart = false := by
    rcases Option.or_eq_some_iff.1 h with h | ⟨-, h⟩
    · exact ⟨true, scanKeyword_eq_some_iff.1 h⟩
    · exact ⟨false, scanKeyword_eq_some_iff.1 h⟩
  obtain ⟨b, hx₁, rfl, hpart⟩ := hword
  have hstops : stops x.2 = true := by
    cases hx₂ : x.2 with
    | nil =>
        rfl
    | cons c rest =>
        rw [hx₂] at hx hpart
        have hc : isWordPart c = false := hpart
        have hpoint : c ≠ '.' := fun h => hx (congrArg some h)
        simp [stops, hc, hpoint]
  rw [scanPath_append (.single (isIdentifier_booleanWord b)) hstops, ← hx₁]

theorem scanPath_head {s : List Char} {x : Scan} (h : scanPath s = some x) :
    s.head?.any isWordStart = true := by
  rw [scanPath_eq] at h
  obtain ⟨c, rest, rfl, hc, -⟩ := exists_of_scanWord h
  exact hc

/-- A dotted name goes on behind a word with a point only. -/
theorem splitDotted_head {s : List Char} (h : s.head?.any isWordPart = false) :
    (splitDotted s).1 = [] ∨ (splitDotted s).1.head? = some '.' := by
  cases s with
  | nil =>
      exact .inl rfl
  | cons c rest =>
      have hc : isWordPart c = false := h
      unfold splitDotted
      split
      · rename_i hpoint
        rw [hc, Bool.false_or, Bool.and_eq_true, decide_eq_true_eq] at hpoint
        exact .inr (congrArg some hpoint.1)
      · exact .inl rfl

/-- The identifier at the start of a path ends with the path or before a point. -/
theorem scanIdentifier_of_scanPath {s : List Char} {x : Scan} (h : scanPath s = some x) :
    ∃ word more, scanIdentifier s = some (word, more ++ x.2) ∧
      (more = [] ∨ more.head? = some '.') := by
  rw [scanPath_eq] at h
  obtain ⟨c, rest, rfl, hc, rfl⟩ := exists_of_scanWord h
  have hspan : (spanOf isWordPart rest).1 ++ (spanOf isWordPart rest).2 = rest :=
    spanOf_splits isWordPart rest
  have hword : (spanOf isWordPart rest).1.all isWordPart = true := List.all_takeWhile
  have hdotted := splitDotted_word hword (spanOf isWordPart rest).2
  rw [hspan] at hdotted
  have hmore : (splitDotted (spanOf isWordPart rest).2).1 ++ (splitDotted rest).2
      = (spanOf isWordPart rest).2 := by
    rw [hdotted]
    exact splitDotted_splits _
  refine ⟨c :: (spanOf isWordPart rest).1, (splitDotted (spanOf isWordPart rest).2).1, ?_, ?_⟩
  · rw [Scan.push_snd, hmore]
    simp [scanIdentifier, hc, Scan.push]
  · exact splitDotted_head (spanOf_stops isWordPart rest)

/-- All values in texts up to the length `n` are matched firmly. -/
def ValuesFirm (n : Nat) : Prop :=
  ∀ {place : Place} {s : List Char} {m : Match}, s.length ≤ n →
    Derives false (.call .expression) place s (some m) → afterValue (gap false m.rest).2 = true →
    Firm false (.call .expression) place s m

section Values

variable {n : Nat} {place : Place} {s : List Char} {m : Match}

/-- A name is no call of a function unless a bracket follows. -/
theorem balks_functionCall {x : Scan} (hpath : scanPath s = some x)
    (hafter : afterValue (gap false x.2).2 = true) : Balks false (.call .functionCall) s := by
  obtain ⟨hne, hbracket, -, -⟩ := afterValue_iff.1 hafter
  refine .spaced rfl (.second .path hpath (fun _ => hne) (.head rfl ?_))
  cases hhead : (gap false x.2).2.head? with
  | none =>
      rfl
  | some c =>
      have hc : c ≠ '(' := fun h => hbracket (h ▸ hhead)
      simpa [Pattern.opens, Rule.opens] using hc

/-- A value that starts with a letter starts with a path, and no colon follows the path. -/
theorem exists_scanPath (h : Derives false (.call .expression) place s (some m))
    (hs : s.head?.any isWordStart = true) (hafter : afterValue (gap false m.rest).2 = true) :
    ∃ x, scanPath s = some x ∧ (gap false x.2).2 ≠ [] ∧ (gap false x.2).2.head? ≠ some ':' := by
  obtain ⟨hne, -, hpoint, hcolon⟩ := afterValue_iff.1 hafter
  obtain ⟨c, hc, hstart⟩ := (Option.any_eq_true _ _).1 hs
  obtain ⟨harray, hstring, hnumber, -⟩ := opens_of_isWordStart hstart
  -- The other values start with other characters.
  have hother : ∀ {rule : Rule} {m : Match}, Derives false (.call rule) place s (some m) →
      rule.takes = true → rule.opens c ≠ false := by
    intro rule m d htakes hclosed
    have hopened := d.opened htakes
    rw [hc] at hopened
    cases hclosed.symm.trans hopened
  rcases (h.of_silent rfl).of_choice with h | ⟨-, h⟩
  · obtain ⟨m', h', rfl⟩ := h.of_spaced_some rfl
    obtain ⟨m₁, m₂, h₁, h₂, rfl⟩ := h'.of_seq
    obtain ⟨x, hx, rfl⟩ := h₁.of_token_some rfl
    have hbracket := h₂.head_eq rfl fun _ => rfl
    refine ⟨x, hx, ne_nil_of_head hbracket, ?_⟩
    intro hcolon'
    cases hbracket.symm.trans hcolon'
  rcases h.of_choice with h | ⟨-, h⟩
  · exact absurd harray (hother h rfl)
  rcases h.of_choice with h | ⟨-, h⟩
  · exact absurd hstring (hother h rfl)
  rcases h.of_choice with h | ⟨-, h⟩
  · exact absurd hnumber (hother h rfl)
  rcases h.of_choice with h | ⟨-, h⟩
  · obtain ⟨x, hx, rfl⟩ := h.of_token_some rfl
    have hdot : x.2.head? ≠ some '.' := fun h => hpoint (gap_of_head h rfl ▸ h)
    exact ⟨x, scanPath_of_scanBoolean hx hdot, hne, hcolon⟩
  · obtain ⟨x, hx, rfl⟩ := h.of_token_some rfl
    exact ⟨x, hx, hne, hcolon⟩

theorem firm_arg (V : ValuesFirm n) (hn : s.length ≤ n)
    (h : Derives false (.call .attributeArg) place s (some m))
    (hafter : afterValue (gap false m.rest).2 = true) :
    Firm false (.call .attributeArg) place s m := by
  obtain ⟨m', h', rfl⟩ := h.of_spaced_some rfl
  refine .spaced rfl ?_
  rcases h'.of_choice with h | ⟨-, h⟩
  · -- The name, the colon and the value.
    obtain ⟨m₁, m₂, h₁, h₂, rfl⟩ := h.of_seq
    obtain ⟨m₃, m₄, h₃, h₄, rfl⟩ := h₂.of_seq
    obtain ⟨m₅, h₅, rfl⟩ := h₁.of_spaced_some rfl
    have hname := h₁.length_after
    have hcolon := h₃.length_after
    exact .choiceFirst (.seq (.spaced rfl (h₅.firm_token rfl (by decide)))
      (.seq (h₃.firm_literal rfl) (V (by omega) h₄ hafter)))
  · refine .choiceSecond ?_ (V hn h hafter)
    by_cases hs : s.head?.any isWordStart = true
    · obtain ⟨x, hx, hne, hcolon⟩ := exists_scanPath h hs hafter
      obtain ⟨word, more, hword, hmore⟩ := scanIdentifier_of_scanPath hx
      -- Behind the identifier stands what stands behind the path, or a point.
      have hnext : (gap false (more ++ x.2)).2 ≠ [] ∧
          (gap false (more ++ x.2)).2.head? ≠ some ':' := by
        rcases hmore with rfl | hmore
        · exact ⟨hne, hcolon⟩
        · have hhead : (more ++ x.2).head? = some '.' := by simp [hmore]
          rw [gap_of_head hhead rfl, hhead]
          exact ⟨ne_nil_of_head hhead, by decide⟩
      refine .second .argName hword (fun _ => hnext.1) (.head rfl ?_)
      cases hhead : (gap false (more ++ x.2)).2.head? with
      | none =>
          rfl
      | some c =>
          have hc : c ≠ ':' := fun h => hnext.2 (h ▸ hhead)
          simpa [Pattern.opens, Pattern.takes, Pattern.sequence, Pattern.word] using hc
    · exact .head rfl (Bool.eq_false_iff.2 hs)

theorem afterValue_of_afterItem {closing : Char} (hclosing : closing = ')' ∨ closing = ']')
    {t : List Char} (h : AfterItem closing t) : afterValue t = true := by
  rcases h with h | h
  · simp [afterValue, h]
  · rcases hclosing with rfl | rfl <;> simp [afterValue, h]

theorem firm_args (V : ValuesFirm n) (hn : s.length ≤ n + 1)
    (h : Derives false (.call .attributeArgs) place s (some m)) :
    Firm false (.call .attributeArgs) place s m := by
  have I : ListItem (.call .attributeArg) ')' n :=
    { telling := rfl
      bracket := .inl rfl
      closes := rfl
      item := fun hn d hafter => firm_arg V hn d (afterValue_of_afterItem (.inl rfl) hafter) }
  obtain ⟨m', h', rfl⟩ := h.of_spaced_some rfl
  exact .spaced rfl (I.firm_bracketed rfl h' hn)

theorem firm_arrayLiteral (V : ValuesFirm n) (hn : s.length ≤ n + 1)
    (h : Derives false (.call .arrayLiteral) place s (some m)) :
    Firm false (.call .arrayLiteral) place s m := by
  have I : ListItem (.call .expression) ']' n :=
    { telling := rfl
      bracket := .inr rfl
      closes := rfl
      item := fun hn d hafter => V hn d (afterValue_of_afterItem (.inr rfl) hafter) }
  obtain ⟨m', h', rfl⟩ := h.of_spaced_some rfl
  exact .spaced rfl (I.firm_bracketed rfl h' hn)

theorem firm_functionCall (V : ValuesFirm n) (hn : s.length ≤ n + 1)
    (h : Derives false (.call .functionCall) place s (some m)) :
    Firm false (.call .functionCall) place s m := by
  obtain ⟨m', h', rfl⟩ := h.of_spaced_some rfl
  obtain ⟨m₁, m₂, h₁, h₂, rfl⟩ := h'.of_seq
  have hlength := h₁.length_after
  exact .spaced rfl (.seq (h₁.firm_token rfl (by decide)) (firm_args V (by omega) h₂))

/-- A value that is a name is neither a list nor a string nor a number. -/
theorem firm_name (hs : s.head?.any isWordStart = true)
    (hcall : Balks false (.call .functionCall) s)
    (h : Firm false (.choice (.call .booleanLiteral) (.call .path)) place s m) :
    Firm false (.call .expression) place s m := by
  obtain ⟨c, hc, hstart⟩ := (Option.any_eq_true _ _).1 hs
  obtain ⟨harray, hstring, hnumber, -⟩ := opens_of_isWordStart hstart
  exact .silent rfl (.choiceSecond hcall (.choiceSecond (balks_of_head rfl hc harray)
    (.choiceSecond (balks_of_head rfl hc hstring)
      (.choiceSecond (balks_of_head rfl hc hnumber) h))))

theorem opens_of_number {c : Char} (h : Rule.numberLiteral.opens c = true) :
    isWordStart c = false ∧ c ≠ '[' ∧ c ≠ '\"' := by
  have hnumber : c = '-' ∨ isDigit c = true := by simpa [Rule.opens] using h
  rcases hnumber with rfl | hdigit
  · decide
  · refine ⟨isWordStart_eq_false_of_isDigit hdigit, ?_, ?_⟩ <;> rintro rfl <;> cases hdigit

theorem ValuesFirm.succ (V : ValuesFirm n) : ValuesFirm (n + 1) := by
  intro place s m hn h hafter
  rcases (h.of_silent rfl).of_choice with h | ⟨-, h⟩
  · exact .silent rfl (.choiceFirst (firm_functionCall V hn h))
  rcases h.of_choice with h | ⟨-, h⟩
  · have hs := h.head_eq rfl fun _ => rfl
    exact .silent rfl (.choiceSecond (balks_of_head rfl hs rfl)
      (.choiceFirst (firm_arrayLiteral V hn h)))
  rcases h.of_choice with h | ⟨-, h⟩
  · have hs := h.head_eq rfl fun _ => rfl
    exact .silent rfl (.choiceSecond (balks_of_head rfl hs rfl)
      (.choiceSecond (balks_of_head rfl hs rfl) (.choiceFirst (h.firm_token rfl (by decide)))))
  rcases h.of_choice with h | ⟨-, h⟩
  · obtain ⟨c, hs, hopens⟩ := h.exists_head rfl
    obtain ⟨hname, harray, hstring⟩ := opens_of_number hopens
    exact .silent rfl (.choiceSecond (balks_of_head rfl hs hname)
      (.choiceSecond (balks_of_head rfl hs (decide_eq_false harray))
        (.choiceSecond (balks_of_head rfl hs (decide_eq_false hstring))
          (.choiceFirst (h.firm_token rfl (by decide))))))
  -- A name: what follows it keeps it from being the name of a function.
  rcases h.of_choice with h | ⟨hno, h⟩
  · obtain ⟨x, hx, rfl⟩ := h.of_token_some rfl
    have hdot : x.2.head? ≠ some '.' := fun hdot =>
      (afterValue_iff.1 hafter).2.2.1 (gap_of_head hdot rfl ▸ hdot)
    have hpath := scanPath_of_scanBoolean hx hdot
    exact firm_name (scanPath_head hpath) (balks_functionCall hpath hafter)
      (.choiceFirst (h.firm_token rfl (by decide)))
  · obtain ⟨x, hx, rfl⟩ := h.of_token_some rfl
    have hboolean : scanBoolean s = none := Option.map_eq_none_iff.1 (hno.of_token rfl).symm
    exact firm_name (h.opened rfl) (balks_functionCall hx hafter)
      (.choiceSecond (.word .boolean hboolean) (h.firm_token rfl (by decide)))

theorem valuesFirm (n : Nat) : ValuesFirm n := by
  induction n with
  | zero =>
      intro place s m hn h hafter
      have hs : s = [] := List.length_eq_zero_iff.1 (Nat.le_zero.1 hn)
      subst hs
      exact absurd (List.append_eq_nil_iff.1 h.splits).1 (h.taken_ne_nil rfl)
  | succ n ih =>
      exact ih.succ

/-- A value is matched firmly in front of whatever may follow one. -/
theorem firm_value (h : Derives false (.call .expression) place s (some m))
    (hafter : afterValue (gap false m.rest).2 = true) : Firm false (.call .expression) place s m :=
  valuesFirm s.length (Nat.le_refl _) h hafter

end Values

end Grammar
end PrismaTypes
