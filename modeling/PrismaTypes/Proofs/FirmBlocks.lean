import PrismaTypes.Proofs.FirmValues

/-!
# Blocks match firmly

What may stand behind a member of a block is the next member or the end of the block
(`afterMember`), and in front of that every member is matched firmly. Blocks and documentation are
matched firmly whatever follows them, and so is the whole of a text that is used up
(`firm_topLevel`).
-/

namespace PrismaTypes
namespace Grammar

open Text (Place)

/-! ## Attributes -/

/-- What stands behind an item of a block: the next item or the end of the block. -/
def afterMember (t : List Char) : Bool :=
  match t with
  | '@' :: rest => rest.head? = some '@'
  | c :: _ => c = '\x7d' || c = '/' || isWordStart c
  | [] => false

theorem afterMember_cases {t : List Char} (h : afterMember t = true) :
    (∃ rest, t = '@' :: '@' :: rest) ∨
      ∃ c rest, t = c :: rest ∧ (c = '\x7d' ∨ c = '/' ∨ isWordStart c = true) := by
  unfold afterMember at h
  split at h
  · rename_i rest
    obtain ⟨tail, rfl⟩ := List.head?_eq_some_iff.1 (of_decide_eq_true h)
    exact .inl ⟨tail, rfl⟩
  · rename_i c rest hc
    exact .inr ⟨c, rest, rfl, by simpa [or_assoc] using h⟩
  · cases h

theorem afterMember_head {t : List Char} (h : afterMember t = true) {c : Char}
    (hc : c ≠ '@' ∧ c ≠ '\x7d' ∧ c ≠ '/' ∧ isWordStart c = false) : t.head? ≠ some c := by
  intro hhead
  rcases afterMember_cases h with ⟨rest, rfl⟩ | ⟨d, rest, rfl, hd⟩
  · cases hhead
    exact hc.1 rfl
  · cases hhead
    rcases hd with hd | hd | hd
    · exact hc.2.1 hd
    · exact hc.2.2.1 hd
    · exact Bool.false_ne_true (hc.2.2.2.symm.trans hd)

theorem afterValue_of_afterMember {t : List Char} (h : afterMember t = true) :
    afterValue t = true := by
  refine afterValue_iff.2 ⟨?_, afterMember_head h (by decide), afterMember_head h (by decide),
    afterMember_head h (by decide)⟩
  rintro rfl
  cases h

section Attributes

variable {place : Place} {s : List Char} {m : Match}

/-- The name and the arguments of an attribute, after its mark. -/
theorem firm_attribute {mark : List Char} (hmark : isInk mark = true)
    (h : Derives false (.sequence (.literal mark) [.call .attributeName,
      .optional (.call .attributeArgs)]) place s (some m))
    (hafter : (gap false m.rest).2.head? ≠ some '(') :
    Firm false (.sequence (.literal mark) [.call .attributeName,
      .optional (.call .attributeArgs)]) place s m := by
  obtain ⟨m₁, m', h₁, h', rfl⟩ := h.of_seq
  obtain ⟨m₂, m₃, h₂, h₃, rfl⟩ := h'.of_seq
  refine .seq (h₁.firm_literal hmark) (.seq (h₂.firm_token rfl (by decide)) ?_)
  rcases h₃.of_optional with h₃ | ⟨-, rfl⟩
  · exact .optional (firm_args (valuesFirm _) (Nat.le_succ _) h₃)
  · refine .optionalNone (.head rfl ?_)
    have hhead : (gap false m₂.rest).2.head? ≠ some '(' := by
      rw [← gap_idem]
      exact hafter
    cases hnext : (gap false m₂.rest).2.head? with
    | none =>
        rfl
    | some c =>
        have hc : c ≠ '(' := fun h => hhead (h ▸ hnext)
        simpa [Pattern.opens, Rule.opens] using hc

/-- The attributes of a field or of an enum value, in front of the next item. -/
theorem repeats_fieldAttribute (n : Nat) :
    Repeats (.call .fieldAttribute) n (fun t => t.head? ≠ some '(' ∧ t.head? ≠ some '[')
      (afterMember · = true) where
  takes := rfl
  item := by
    intro place s m _ h hafter
    obtain ⟨m', h', rfl⟩ := h.of_spaced_some rfl
    exact .spaced rfl (firm_attribute rfl h' hafter.1)
  more := by
    intro place s m h
    rw [h.head_eq rfl fun _ => rfl]
    decide
  last := fun h => ⟨afterMember_head h (by decide), afterMember_head h (by decide)⟩
  stop := by
    intro place s _ _ hstop
    rcases afterMember_cases hstop with ⟨rest, rfl⟩ | ⟨c, rest, rfl, hc⟩
    · -- Two marks start the attribute of a block.
      have hsolid : gap false ('@' :: rest) = ([], '@' :: rest) := gap_of_solid rfl false
      refine .spaced rfl (.second (.literal rfl) (x := (['@'], '@' :: rest)) rfl ?_ ?_)
      · rw [hsolid]
        simp
      · rw [hsolid]
        exact .first (.head rfl rfl)
    · refine .head rfl (decide_eq_false ?_)
      rintro rfl
      rcases hc with hc | hc | hc <;> cases hc

end Attributes

/-! ## Members of blocks -/

section Members

variable {place : Place} {s : List Char} {m : Match}

theorem firm_typeModifier (h : Derives true (.call .typeModifier) place s (some m)) :
    Firm true (.call .typeModifier) place s m := by
  rcases (h.of_silent rfl).of_choice with h | ⟨-, h⟩
  · obtain ⟨m', h', rfl⟩ := h.of_spaced_some rfl
    exact .silent rfl (.choiceFirst (.spaced rfl (h'.firm_literal rfl)))
  · obtain ⟨m', h', rfl⟩ := h.of_spaced_some rfl
    have hs : s = ['?'] ++ m'.rest := h'.of_literal
    refine .silent rfl (.choiceSecond (.head rfl ?_) (.spaced rfl (h'.firm_literal rfl)))
    rw [hs]
    rfl

/-- Without a modifier no question mark follows the type; no bracket may follow it. -/
theorem balks_typeModifier (h : Derives true (.call .typeModifier) place s none)
    (hs : s.head? ≠ some '[') : Balks true (.call .typeModifier) s := by
  refine .head rfl ?_
  cases s with
  | nil =>
      rfl
  | cons c rest =>
      have hbracket : c ≠ '[' := fun h => hs (congrArg some h)
      have hmark : c ≠ '?' := by
        rintro rfl
        have hlist : Derives true (.call .listMarker) place ('?' :: rest) none :=
          refuses rfl rfl true place
        have hoptional : Derives true (.call .optionalMarker) place ('?' :: rest) _ :=
          .spaced rfl (.literal (show afterWord? ['?'] ('?' :: rest) = some rest from rfl))
        cases h.unique (.silent rfl (.choiceSecond hlist hoptional))
      simp [Pattern.opens, Rule.opens, hbracket, hmark]

theorem firm_optionalModifier
    (h : Derives true (.optional (.call .typeModifier)) place s (some m))
    (hafter : (gap false m.rest).2.head? ≠ some '(' ∧ (gap false m.rest).2.head? ≠ some '[') :
    Firm true (.optional (.call .typeModifier)) place s m ∧ s.head? ≠ some '(' := by
  rcases h.of_optional with h | ⟨hno, rfl⟩
  · refine ⟨.optional (firm_typeModifier h), ?_⟩
    intro hhead
    have hopened := h.opened rfl
    rw [hhead] at hopened
    cases hopened
  · refine ⟨.optionalNone (balks_typeModifier hno ?_), ?_⟩
    · exact fun hhead => hafter.2 (by rw [← hhead]; exact congrArg _ (gap_of_head hhead rfl))
    · exact fun hhead => hafter.1 (by rw [← hhead]; exact congrArg _ (gap_of_head hhead rfl))

/-- The type name `Unsupported` is not taken for the other kind of type unless a bracket
follows. -/
theorem balks_unsupportedType {x : Scan} (h : scanIdentifier s = some x)
    (hx : x.2.head? ≠ some '(') : Balks true (.call .unsupportedType) s := by
  refine .tight rfl ?_
  cases hword : afterWord? "Unsupported".toList s with
  | none =>
      exact .first (.word (.literal rfl) (Option.map_eq_none_iff.2 hword))
  | some rest =>
      refine .second (.literal rfl) (Option.map_eq_some_iff.2 ⟨rest, hword, rfl⟩) nofun
        (.head rfl ?_)
      -- A bracket would end the name.
      have hs := afterWord?_eq_some_iff.1 hword
      cases rest with
      | nil =>
          rfl
      | cons c rest =>
          have hc : c ≠ '(' := by
            rintro rfl
            have hscan : scanIdentifier ("Unsupported".toList ++ '(' :: rest)
                = some ("Unsupported".toList, '(' :: rest) := scanIdentifier_append rfl rfl
            rw [← hs, h] at hscan
            cases hscan
            exact hx rfl
          simpa [gap, Pattern.opens, Pattern.takes, Pattern.word, Pattern.sequence] using hc

theorem firm_fieldType (h : Derives false (.call .fieldType) place s (some m))
    (hafter : (gap false m.rest).2.head? ≠ some '(' ∧ (gap false m.rest).2.head? ≠ some '[') :
    Firm false (.call .fieldType) place s m := by
  obtain ⟨m', h', rfl⟩ := h.of_tight_some rfl
  obtain ⟨m₁, m₂, h₁, h₂, rfl⟩ := h'.of_seq
  obtain ⟨hmodifier, hbracket⟩ := firm_optionalModifier h₂ hafter
  refine .tight rfl (.seq ?_ hmodifier)
  rcases h₁.of_choice with h₁ | ⟨-, h₁⟩
  · obtain ⟨m'', h'', rfl⟩ := h₁.of_tight_some rfl
    obtain ⟨m₃, m₄, h₃, h₄, rfl⟩ := h''.of_seq
    obtain ⟨m₅, m₆, h₅, h₆, rfl⟩ := h₄.of_seq
    obtain ⟨m₇, m₈, h₇, h₈, rfl⟩ := h₆.of_seq
    exact .choiceFirst (.tight rfl (.seq (h₃.firm_literal rfl) (.seq (h₅.firm_literal rfl)
      (.seq (h₇.firm_token rfl (by decide)) (h₈.firm_literal rfl)))))
  · obtain ⟨x, hx, rfl⟩ := h₁.of_token_some rfl
    exact .choiceSecond (balks_unsupportedType hx hbracket) (h₁.firm_token rfl (by decide))

theorem firm_field (h : Derives false (.call .field) place s (some m))
    (hafter : afterMember (gap false m.rest).2 = true) : Firm false (.call .field) place s m := by
  obtain ⟨m', h', rfl⟩ := h.of_spaced_some rfl
  obtain ⟨m₁, m₂, h₁, h₂, rfl⟩ := h'.of_seq
  obtain ⟨m₃, m₄, h₃, h₄, rfl⟩ := h₂.of_seq
  have R := repeats_fieldAttribute (gap false m₃.rest).2.length
  have hattributes := R.firm h₄ (Nat.le_refl _) (gap_idem _) hafter
  have htype := firm_fieldType h₃ (R.after h₄ (gap_idem _) hafter)
  exact .spaced rfl (.seq (h₁.firm_token rfl (by decide)) (.seq htype hattributes))

theorem firm_enumValue (h : Derives false (.call .enumValue) place s (some m))
    (hafter : afterMember (gap false m.rest).2 = true) :
    Firm false (.call .enumValue) place s m := by
  obtain ⟨m', h', rfl⟩ := h.of_spaced_some rfl
  obtain ⟨m₁, m₂, h₁, h₂, rfl⟩ := h'.of_seq
  have R := repeats_fieldAttribute (gap false m₁.rest).2.length
  have hattributes := R.firm h₂ (Nat.le_refl _) (gap_idem _) hafter
  exact .spaced rfl (.seq (h₁.firm_token rfl (by decide)) hattributes)

theorem firm_configProperty (h : Derives false (.call .configProperty) place s (some m))
    (hafter : afterMember (gap false m.rest).2 = true) :
    Firm false (.call .configProperty) place s m := by
  obtain ⟨m', h', rfl⟩ := h.of_spaced_some rfl
  obtain ⟨m₁, m₂, h₁, h₂, rfl⟩ := h'.of_seq
  obtain ⟨m₃, m₄, h₃, h₄, rfl⟩ := h₂.of_seq
  have hvalue := firm_value h₄ (afterValue_of_afterMember hafter)
  exact .spaced rfl (.seq (h₁.firm_token rfl (by decide)) (.seq (h₃.firm_literal rfl) hvalue))

theorem firm_blockAttribute (h : Derives false (.call .blockAttribute) place s (some m))
    (hafter : afterMember (gap false m.rest).2 = true) :
    Firm false (.call .blockAttribute) place s m := by
  obtain ⟨m', h', rfl⟩ := h.of_spaced_some rfl
  exact .spaced rfl (firm_attribute rfl h' (afterMember_head hafter (by decide)))

end Members

/-! ## Documentation -/

section Documentation

variable {place : Place} {s : List Char} {m : Match}

theorem firm_docLine (h : Derives false (.call .docLine) place s (some m)) :
    Firm false (.call .docLine) place s m := by
  obtain ⟨m', h', rfl⟩ := h.of_tight_some rfl
  obtain ⟨m₁, m₂, h₁, h₂, rfl⟩ := h'.of_seq
  obtain ⟨m₃, m₄, h₃, h₄, rfl⟩ := h₂.of_seq
  obtain ⟨x, hx, rfl⟩ := h₄.of_token_some rfl
  cases h₃ with
  | notAhead hslash =>
      exact .tight rfl (.seq (h₁.firm_literal rfl) (.seq (.notAhead rfl hslash)
        (.token rfl (fun _ => rfl) hx)))

/-- Where no comment starts, three slashes start documentation. -/
theorem balks_docLine (h : Derives false (.call .docLine) place s none)
    (hs : (gap false s).2 = s) : Balks false (.call .docLine) s := by
  cases hword : afterWord? "///".toList s with
  | none =>
      exact .tight rfl (.first (.word (.literal rfl) (Option.map_eq_none_iff.2 hword)))
  | some rest =>
      cases hslash : afterWord? ['/'] rest with
      | none =>
          have htoken : Rule.docText.form = .token scanDocText := rfl
          have hline : Derives false (.call .docLine) place s _ :=
            .tight rfl (.seq (.literal hword) (.seq (.notAhead hslash) (.token htoken)))
          cases h.unique hline
      | some tail =>
          -- Four slashes start a comment, which would have been passed over.
          have htext : s = '/' :: '/' :: '/' :: '/' :: tail := by
            rw [afterWord?_eq_some_iff.1 hword, afterWord?_eq_some_iff.1 hslash]
            rfl
          have hblanks := gap_fst_of_snd hs
          rw [htext] at hblanks
          cases hblanks

theorem repeats_docLine (n : Nat) :
    Repeats (.call .docLine) n (fun _ => True) (fun _ => True) where
  takes := rfl
  item := fun _ h _ => firm_docLine h
  more := fun _ => trivial
  last := fun _ => trivial
  stop := fun h hs _ => balks_docLine h hs

theorem firm_documentation (h : Derives false (.call .documentation) place s (some m)) :
    Firm false (.call .documentation) place s m := by
  obtain ⟨m', h', rfl⟩ := h.of_spaced_some rfl
  obtain ⟨m₁, m₂, h₁, h₂, rfl⟩ := h'.of_seq
  have hmore := (repeats_docLine _).firm h₂ (Nat.le_refl _) (gap_idem _) trivial
  exact .spaced rfl (.seq (firm_docLine h₁) hmore)

end Documentation

/-! ## Blocks -/

section Blocks

variable {place : Place} {s : List Char} {m : Match}

/-- A member that starts with a name: a field, an enum value or a property. -/
structure IsEntry (rule : Rule) : Prop where
  telling : (Pattern.call rule).telling = true
  takes : rule.takes = true
  opens : ∀ c, rule.opens c = isWordStart c
  firm : ∀ {place : Place} {s : List Char} {m : Match},
    Derives false (.call rule) place s (some m) → afterMember (gap false m.rest).2 = true →
    Firm false (.call rule) place s m

theorem isEntry_field : IsEntry .field :=
  ⟨rfl, rfl, fun _ => rfl, firm_field⟩

theorem isEntry_enumValue : IsEntry .enumValue :=
  ⟨rfl, rfl, fun _ => rfl, firm_enumValue⟩

theorem isEntry_configProperty : IsEntry .configProperty :=
  ⟨rfl, rfl, fun _ => rfl, firm_configProperty⟩

theorem IsEntry.head {rule : Rule} (E : IsEntry rule)
    (h : Derives false (.call rule) place s (some m)) :
    ∃ c rest, s = c :: rest ∧ isWordStart c = true := by
  obtain ⟨c, hs, hc⟩ := h.exists_head E.takes
  obtain ⟨rest, rfl⟩ := List.head?_eq_some_iff.1 hs
  exact ⟨c, rest, rfl, (E.opens c).symm.trans hc⟩

theorem afterMember_of_isWordStart {c : Char} (hc : isWordStart c = true) (rest : List Char) :
    afterMember (c :: rest) = true := by
  unfold afterMember
  split
  · rename_i heq
    cases heq
    cases hc
  · rename_i heq
    cases heq
    simp [hc]
  · rename_i heq
    cases heq

theorem balks_documentation {c : Char} (hc : isWordStart c = true) (rest : List Char) :
    Balks false (.call .documentation) (c :: rest) := by
  refine .head rfl (decide_eq_false ?_)
  rintro rfl
  cases hc

theorem afterMember_of_documentation
    (h : Derives false (.call .documentation) place s (some m)) : afterMember s = true := by
  obtain ⟨rest, rfl⟩ := List.head?_eq_some_iff.1 (h.head_eq rfl fun _ => rfl)
  rfl

theorem afterMember_of_closing (hs : s.head? = some '\x7d') : afterMember s = true := by
  obtain ⟨rest, rfl⟩ := List.head?_eq_some_iff.1 hs
  rfl

/-- Documentation starts with a slash, an entry with a letter, an attribute with two marks. -/
theorem repeats_member {item entry : Rule} (E : IsEntry entry)
    (hform : item.form
      = .silent (.oneOf (.call .documentation) [.call entry, .call .blockAttribute]))
    (htakes : item.takes = true) (hitem : (Pattern.call item).telling = true)
    (hstop : item.opens '\x7d' = false) (n : Nat) :
    Repeats (.call item) n (afterMember · = true) (·.head? = some '\x7d') where
  takes := htakes
  item := by
    intro place s m _ h hafter
    refine .silent hform ?_
    rcases (h.of_silent hform).of_choice with h | ⟨-, h⟩
    · exact .choiceFirst (firm_documentation h)
    rcases h.of_choice with h | ⟨-, h⟩
    · obtain ⟨c, rest, rfl, hc⟩ := E.head h
      exact .choiceSecond (balks_documentation hc rest) (.choiceFirst (E.firm h hafter))
    · have hs := h.head_eq rfl fun _ => rfl
      exact .choiceSecond (balks_of_head rfl hs rfl)
        (.choiceSecond (balks_of_head E.telling hs (E.opens '@')) (firm_blockAttribute h hafter))
  more := by
    intro place s m h
    rcases (h.of_silent hform).of_choice with h | ⟨-, h⟩
    · exact afterMember_of_documentation h
    rcases h.of_choice with h | ⟨-, h⟩
    · obtain ⟨c, rest, rfl, hc⟩ := E.head h
      exact afterMember_of_isWordStart hc rest
    · obtain ⟨m', h', rfl⟩ := h.of_spaced_some rfl
      obtain ⟨m₁, m₂, h₁, -, -⟩ := h'.of_seq
      have hs : s = ['@', '@'] ++ m₁.rest := h₁.of_literal
      rw [hs]
      rfl
  last := afterMember_of_closing
  stop := fun _ _ hs => balks_of_head hitem hs hstop

theorem repeats_modelItem (n : Nat) :
    Repeats (.call .modelItem) n (afterMember · = true) (·.head? = some '\x7d') :=
  repeats_member isEntry_field rfl rfl rfl rfl n

theorem repeats_enumItem (n : Nat) :
    Repeats (.call .enumItem) n (afterMember · = true) (·.head? = some '\x7d') :=
  repeats_member isEntry_enumValue rfl rfl rfl rfl n

theorem repeats_configItem (n : Nat) :
    Repeats (.call .configItem) n (afterMember · = true) (·.head? = some '\x7d') where
  takes := rfl
  item := by
    intro place s m _ h hafter
    refine .silent rfl ?_
    rcases (h.of_silent rfl).of_choice with h | ⟨-, h⟩
    · exact .choiceFirst (firm_documentation h)
    · obtain ⟨c, rest, rfl, hc⟩ := isEntry_configProperty.head h
      exact .choiceSecond (balks_documentation hc rest) (firm_configProperty h hafter)
  more := by
    intro place s m h
    rcases (h.of_silent rfl).of_choice with h | ⟨-, h⟩
    · exact afterMember_of_documentation h
    · obtain ⟨c, rest, rfl, hc⟩ := isEntry_configProperty.head h
      exact afterMember_of_isWordStart hc rest
  last := afterMember_of_closing
  stop := fun _ _ hs => balks_of_head rfl hs rfl

/-- A block is closed, and so it is matched firmly whatever follows it. -/
theorem firm_block {head item : Pattern}
    (hhead : ∀ {place : Place} {s : List Char} {m : Match}, Derives false head place s (some m) →
      Firm false head place s m)
    (hitem : ∀ n, Repeats item n (afterMember · = true) (·.head? = some '\x7d'))
    (h : Derives false (.block head item) place s (some m)) :
    Firm false (.block head item) place s m := by
  obtain ⟨m₁, t₁, h₁, r₁, rfl⟩ := h.of_seq
  obtain ⟨m₂, t₂, h₂, r₂, rfl⟩ := r₁.of_seq
  obtain ⟨m₃, t₃, h₃, r₃, rfl⟩ := r₂.of_seq
  obtain ⟨m₄, m₅, h₄, h₅, rfl⟩ := r₃.of_seq
  have hclosing : (gap false m₄.rest).2 = ['\x7d'] ++ m₅.rest := h₅.of_literal
  have hitems := (hitem _).firm h₄ (Nat.le_refl _) (gap_idem _) (by rw [hclosing]; rfl)
  exact .seq (hhead h₁) (.seq (h₂.firm_token rfl (by decide)) (.seq (h₃.firm_literal rfl)
    (.seq hitems (h₅.firm_literal rfl))))

theorem firm_configKeyword (h : Derives false (.call .configKeyword) place s (some m)) :
    Firm false (.call .configKeyword) place s m := by
  obtain ⟨m', h', rfl⟩ := h.of_spaced_some rfl
  rcases h'.of_choice with h | ⟨-, h⟩
  · exact .spaced rfl (.choiceFirst (h.firm_literal rfl))
  · have hs : s = "generator".toList ++ m'.rest := h.of_literal
    refine .spaced rfl (.choiceSecond (.head rfl ?_) (h.firm_literal rfl))
    rw [hs]
    rfl

/-- The first letter of the keyword tells which block it is. -/
theorem firm_definition (h : Derives false (.call .definition) place s (some m)) :
    Firm false (.call .definition) place s m := by
  refine .silent rfl ?_
  rcases (h.of_silent rfl).of_choice with h | ⟨-, h⟩
  · obtain ⟨m', h', rfl⟩ := h.of_spaced_some rfl
    exact .choiceFirst (.spaced rfl (firm_block (·.firm_literal rfl) repeats_modelItem h'))
  rcases h.of_choice with h | ⟨-, h⟩
  · have hs := h.head_eq rfl fun _ => rfl
    obtain ⟨m', h', rfl⟩ := h.of_spaced_some rfl
    exact .choiceSecond (balks_of_head rfl hs rfl)
      (.choiceFirst (.spaced rfl (firm_block (·.firm_literal rfl) repeats_enumItem h')))
  rcases h.of_choice with h | ⟨-, h⟩
  · obtain ⟨c, hs, hopens⟩ := h.exists_head rfl
    have hc : c = 'd' ∨ c = 'g' := by simpa [Pattern.opens, Rule.opens] using hopens
    have hother : Rule.modelBlock.opens c = false ∧ Rule.enumBlock.opens c = false := by
      rcases hc with rfl | rfl <;> decide
    obtain ⟨m', h', rfl⟩ := h.of_spaced_some rfl
    exact .choiceSecond (balks_of_head rfl hs hother.1) (.choiceSecond
      (balks_of_head rfl hs hother.2)
      (.choiceFirst (.spaced rfl (firm_block firm_configKeyword repeats_configItem h'))))
  · obtain ⟨c, hs, hopens⟩ := h.exists_head rfl
    have hc : c = 't' ∨ c = 'v' := by
      simpa [Pattern.oneOf, Pattern.opens, Rule.opens] using hopens
    have hother : Rule.modelBlock.opens c = false ∧ Rule.enumBlock.opens c = false ∧
        Rule.configBlock.opens c = false := by
      rcases hc with rfl | rfl <;> decide
    obtain ⟨m', h', rfl⟩ := h.of_spaced_some rfl
    exact .choiceSecond (balks_of_head rfl hs hother.1) (.choiceSecond
      (balks_of_head rfl hs hother.2.1) (.choiceSecond (balks_of_head rfl hs hother.2.2)
      (.spaced rfl (firm_block (·.firm_token rfl (by decide)) repeats_modelItem h'))))

theorem repeats_topLevel (n : Nat) : Repeats topLevel n (fun _ => True) (· = []) where
  takes := rfl
  item := by
    intro place s m _ h _
    rcases h.of_choice with h | ⟨-, h⟩
    · exact .choiceFirst (firm_documentation h)
    · obtain ⟨c, hs, hopens⟩ := h.exists_head rfl
      have hc : c ≠ '/' := by
        rintro rfl
        cases hopens
      exact .choiceSecond (balks_of_head rfl hs (decide_eq_false hc)) (firm_definition h)
  more := fun _ => trivial
  last := fun _ => trivial
  stop := by
    rintro place s - - rfl
    exact .head rfl rfl

/-- The blocks of a text that is used up are matched firmly. -/
theorem firm_topLevel (h : Derives false (.many topLevel) place s (some m))
    (hs : (gap false s).2 = s) (hend : (gap false m.rest).2 = []) :
    Firm false (.many topLevel) place s m :=
  (repeats_topLevel _).firm h (Nat.le_refl _) hs hend

end Blocks

end Grammar
end PrismaTypes
