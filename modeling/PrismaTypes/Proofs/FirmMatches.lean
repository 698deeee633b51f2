import PrismaTypes.Proofs.Matching
import PrismaTypes.Proofs.Rows

/-!
# Firm matches

An ordered choice may read far into an alternative before it gives the alternative up. What it read
until then depends on the layout of the text, on strings and comments in it, and yet leaves no trace
in the tree. A *firm* match gives nothing up that late: every refusal on its way is clear from the
next words.

* `Balks`: the expression refuses a text for its first character, for its first word, or for the
  word after that.
* `Firm`: a match all of whose refusals are of this kind. It has no clause for the start and the end
  of the input, which are left to the schema itself.

The last part takes derivations apart, one lemma for each kind of expression.
-/

namespace PrismaTypes
namespace Grammar

open Text (Place)

/-! ## Words -/

/-- The fixed words of the grammar hold something, and nothing blank. -/
def isInk (word : List Char) : Bool :=
  !word.isEmpty && word.all fun c => !Text.isBlank c

/-- Expressions that stand for one word, with their scanners. -/
inductive IsWord : Pattern → (List Char → Option Scan) → Prop
  | literal {word : List Char} (h : isInk word = true) :
      IsWord (.literal word) fun s => (afterWord? word s).map fun rest => (word, rest)
  | path : IsWord (.call .path) scanPath
  | argName : IsWord (.call .argName) scanIdentifier
  | boolean : IsWord (.call .booleanLiteral) scanBoolean

namespace IsWord

variable {e : Pattern} {scan : List Char → Option Scan} {s : List Char}

theorem derives_none (h : IsWord e scan) (hscan : scan s = none) (tight : Bool) (place : Place) :
    Derives tight e place s none := by
  cases h with
  | literal =>
      exact .literalFails (Option.map_eq_none_iff.1 hscan)
  | path =>
      have d : Derives tight (.call .path) place s _ := .token rfl
      rwa [hscan] at d
  | boolean =>
      have d : Derives tight (.call .booleanLiteral) place s _ := .token rfl
      rwa [hscan] at d
  | argName =>
      have d : Derives tight (.call .identifier) place s _ := .token rfl
      rw [hscan] at d
      exact .spaced rfl d

theorem exists_derives (h : IsWord e scan) {x : Scan} (hscan : scan s = some x) (tight : Bool)
    (place : Place) : ∃ m, Derives tight e place s (some m) ∧ m.rest = x.2 := by
  cases h with
  | literal =>
      obtain ⟨rest, hrest, rfl⟩ := Option.map_eq_some_iff.1 hscan
      exact ⟨_, .literal hrest, rfl⟩
  | path =>
      have d : Derives tight (.call .path) place s _ := .token rfl
      rw [hscan] at d
      exact ⟨_, d, rfl⟩
  | boolean =>
      have d : Derives tight (.call .booleanLiteral) place s _ := .token rfl
      rw [hscan] at d
      exact ⟨_, d, rfl⟩
  | argName =>
      have d : Derives tight (.call .identifier) place s _ := .token rfl
      rw [hscan] at d
      exact ⟨_, .spaced rfl d, rfl⟩

end IsWord

/-! ## Refusals -/

/-- The first character tells whether a match is possible at all, and a blank tells that it is
not. -/
def Pattern.telling (e : Pattern) : Bool :=
  e.bounded && e.takes && [' ', '\t', '\r', '\n'].all (!e.opens ·)

theorem Pattern.opens_space {e : Pattern} (he : e.telling = true) {c : Char}
    (hc : isSpace c = true) : e.opens c = false := by
  simp only [telling, List.all_cons, List.all_nil, Bool.and_true, Bool.and_eq_true,
    Bool.not_eq_true'] at he
  rcases isSpace_cases hc with rfl | rfl | rfl | rfl
  · exact he.2.1
  · exact he.2.2.1
  · exact he.2.2.2.1
  · exact he.2.2.2.2

/-- A text that starts with no character of the expression is refused. -/
theorem Pattern.refuses {e : Pattern} (he : e.telling = true) {s : List Char}
    (h : s.head?.any e.opens = false) (tight : Bool) (place : Place) :
    Derives tight e place s none := by
  simp only [telling, Bool.and_eq_true] at he
  obtain ⟨o, d⟩ := Grammar.exists_derives he.1.1 tight place s
  cases o with
  | none =>
      exact d
  | some m =>
      rw [d.opened he.1.2] at h
      cases h

/-- The expression refuses the text, and the next words show it. Behind a word there has to be
something to look at. -/
inductive Balks : Bool → Pattern → List Char → Prop
  | head {tight : Bool} {e : Pattern} {s : List Char} (he : e.telling = true)
      (h : s.head?.any e.opens = false) : Balks tight e s
  | word {tight : Bool} {e : Pattern} {scan : List Char → Option Scan} {s : List Char}
      (hword : IsWord e scan) (h : scan s = none) : Balks tight e s
  | first {tight : Bool} {e e' : Pattern} {s : List Char} (h : Balks tight e s) :
      Balks tight (.seq e e') s
  | second {tight : Bool} {e e' : Pattern} {scan : List Char → Option Scan} {s : List Char}
      {x : Scan} (hword : IsWord e scan) (hscan : scan s = some x)
      (hnext : tight = false → (gap false x.2).2 ≠ []) (h : Balks tight e' (gap tight x.2).2) :
      Balks tight (.seq e e') s
  | spaced {tight : Bool} {rule : Rule} {body : Pattern} {s : List Char}
      (hform : rule.form = .spaced body) (h : Balks tight body s) : Balks tight (.call rule) s
  | tight {tight : Bool} {rule : Rule} {body : Pattern} {s : List Char}
      (hform : rule.form = .tight body) (h : Balks true body s) : Balks tight (.call rule) s

theorem Balks.derives {tight : Bool} {e : Pattern} {s : List Char} (h : Balks tight e s)
    (place : Place) : Derives tight e place s none := by
  induction h generalizing place with
  | head he h =>
      exact Pattern.refuses he h _ place
  | word hword h =>
      exact hword.derives_none h _ place
  | first h ih =>
      exact .seqFirstFails (ih place)
  | second hword hscan hnext h ih =>
      obtain ⟨m, d, hrest⟩ := hword.exists_derives hscan _ place
      rw [← hrest] at ih
      exact .seqSecondFails d (ih _)
  | spaced hform h ih =>
      exact .spaced hform (ih place)
  | tight hform h ih =>
      exact .tight hform (ih place)

/-! ## Matches -/

/-- A match in which every refusal is clear from the next words. -/
inductive Firm : Bool → Pattern → Place → List Char → Match → Prop
  | literal {tight : Bool} {place : Place} {word s rest : List Char} (hword : isInk word = true)
      (h : afterWord? word s = some rest) : Firm tight (.literal word) place s ⟨word, [], rest⟩
  | notAhead {tight : Bool} {place : Place} {word s : List Char} (hword : isInk word = true)
      (h : afterWord? word s = none) : Firm tight (.notAhead word) place s (.empty s)
  | seq {tight : Bool} {first second : Pattern} {place : Place} {s : List Char} {m₁ m₂ : Match}
      (h₁ : Firm tight first place s m₁)
      (h₂ : Firm tight second (place.advance (m₁.taken ++ (gap tight m₁.rest).1))
        (gap tight m₁.rest).2 m₂) :
      Firm tight (.seq first second) place s (m₁.append (gap tight m₁.rest).1 m₂)
  | choiceFirst {tight : Bool} {first second : Pattern} {place : Place} {s : List Char} {m : Match}
      (h : Firm tight first place s m) : Firm tight (.choice first second) place s m
  | choiceSecond {tight : Bool} {first second : Pattern} {place : Place} {s : List Char} {m : Match}
      (h₁ : Balks tight first s) (h₂ : Firm tight second place s m) :
      Firm tight (.choice first second) place s m
  | optional {tight : Bool} {body : Pattern} {place : Place} {s : List Char} {m : Match}
      (h : Firm tight body place s m) : Firm tight (.optional body) place s m
  | optionalNone {tight : Bool} {body : Pattern} {place : Place} {s : List Char}
      (h : Balks tight body s) : Firm tight (.optional body) place s (.empty s)
  /-- What is repeated stands in spaced rules. -/
  | manyNone {body : Pattern} {place : Place} {s : List Char} (h : Balks false body s) :
      Firm false (.many body) place s (.empty s)
  | manyLast {body : Pattern} {place : Place} {s : List Char} {m : Match}
      (h₁ : Firm false body place s m) (h₂ : Balks false body (gap false m.rest).2) :
      Firm false (.many body) place s m
  | manyMore {body : Pattern} {place : Place} {s : List Char} {m₁ m₂ : Match}
      (h₁ : Firm false body place s m₁)
      (h₂ : Firm false (.many body) (place.advance (m₁.taken ++ (gap false m₁.rest).1))
        (gap false m₁.rest).2 m₂)
      (hmore : m₂.taken ≠ []) :
      Firm false (.many body) place s (m₁.append (gap false m₁.rest).1 m₂)
  | silent {tight : Bool} {rule : Rule} {body : Pattern} {place : Place} {s : List Char} {m : Match}
      (hform : rule.form = .silent body) (h : Firm tight body place s m) :
      Firm tight (.call rule) place s m
  /-- The text of a documentation line may be blank, but it stands in a tight rule. -/
  | token {tight : Bool} {rule : Rule} {scan : List Char → Option Scan} {place : Place}
      {s : List Char} {x : Scan} (hform : rule.form = .token scan)
      (hdoc : rule = .docText → tight = true) (h : scan s = some x) :
      Firm tight (.call rule) place s ((Match.ofScan x).asNode rule place)
  | spaced {tight : Bool} {rule : Rule} {body : Pattern} {place : Place} {s : List Char} {m : Match}
      (hform : rule.form = .spaced body) (h : Firm tight body place s m) :
      Firm tight (.call rule) place s (m.asNode rule place)
  | tight {tight : Bool} {rule : Rule} {body : Pattern} {place : Place} {s : List Char} {m : Match}
      (hform : rule.form = .tight body) (h : Firm true body place s m) :
      Firm tight (.call rule) place s (m.asNode rule place)

theorem Firm.derives {tight : Bool} {e : Pattern} {place : Place} {s : List Char} {m : Match}
    (h : Firm tight e place s m) : Derives tight e place s (some m) := by
  induction h with
  | literal _ h =>
      exact .literal h
  | notAhead _ h =>
      exact .notAhead h
  | seq _ _ ih₁ ih₂ =>
      exact .seq ih₁ ih₂
  | choiceFirst _ ih =>
      exact .choiceFirst ih
  | choiceSecond h₁ _ ih =>
      exact .choiceSecond (h₁.derives _) ih
  | optional _ ih =>
      exact .optional ih
  | optionalNone h =>
      exact .optionalNone (h.derives _)
  | manyNone h =>
      exact .manyNone (h.derives _)
  | manyLast _ h₂ ih =>
      exact .manyLast ih (.manyNone (h₂.derives _)) rfl
  | manyMore _ _ hmore ih₁ ih₂ =>
      exact .manyMore ih₁ ih₂ hmore
  | silent hform _ ih =>
      exact .silent hform ih
  | @token tight rule scan place s x hform _ h =>
      have d : Derives tight (.call rule) place s _ := .token hform
      rwa [h] at d
  | spaced hform _ ih =>
      exact .spaced hform ih
  | tight hform _ ih =>
      exact .tight hform ih

/-! ## Parts of a derivation -/

namespace Derives

variable {tight : Bool} {first second body : Pattern} {rule : Rule} {place : Place} {s : List Char}
  {o : Option Match} {m : Match}

theorem of_seq (h : Derives tight (.seq first second) place s (some m)) :
    ∃ m₁ m₂, Derives tight first place s (some m₁) ∧
      Derives tight second (place.advance (m₁.taken ++ (gap tight m₁.rest).1))
        (gap tight m₁.rest).2 (some m₂) ∧ m = m₁.append (gap tight m₁.rest).1 m₂ := by
  cases h with
  | seq h₁ h₂ =>
      exact ⟨_, _, h₁, h₂, rfl⟩

theorem of_choice (h : Derives tight (.choice first second) place s (some m)) :
    Derives tight first place s (some m) ∨
      Derives tight first place s none ∧ Derives tight second place s (some m) := by
  cases h with
  | choiceFirst h =>
      exact .inl h
  | choiceSecond h₁ h₂ =>
      exact .inr ⟨h₁, h₂⟩

theorem of_optional (h : Derives tight (.optional body) place s (some m)) :
    Derives tight body place s (some m) ∨ Derives tight body place s none ∧ m = .empty s := by
  cases h with
  | optional h =>
      exact .inl h
  | optionalNone h =>
      exact .inr ⟨h, rfl⟩

theorem of_literal {word : List Char} (h : Derives tight (.literal word) place s (some m)) :
    s = word ++ m.rest := by
  cases h with
  | literal h =>
      exact afterWord?_eq_some_iff.1 h

theorem firm_literal {word : List Char} (h : Derives tight (.literal word) place s (some m))
    (hword : isInk word = true) : Firm tight (.literal word) place s m := by
  cases h with
  | literal h =>
      exact .literal hword h

/-- A rule ends as its form says, whatever the outcome. -/
theorem of_silent (hform : rule.form = .silent body) (h : Derives tight (.call rule) place s o) :
    Derives tight body place s o := by
  obtain ⟨o', d⟩ := Grammar.exists_derives
    (Rule.body_bounded (congrArg Form.body? hform)).1 tight place s
  exact h.unique (.silent hform d) ▸ d

theorem of_token {scan : List Char → Option Scan} (hform : rule.form = .token scan)
    (h : Derives tight (.call rule) place s o) :
    o = (scan s).map fun x => (Match.ofScan x).asNode rule place :=
  h.unique (.token hform)

theorem of_token_some {scan : List Char → Option Scan} (hform : rule.form = .token scan)
    (h : Derives tight (.call rule) place s (some m)) :
    ∃ x, scan s = some x ∧ m = (Match.ofScan x).asNode rule place := by
  obtain ⟨x, hx, rfl⟩ := Option.map_eq_some_iff.1 (h.of_token hform).symm
  exact ⟨x, hx, rfl⟩

theorem firm_token {scan : List Char → Option Scan} (hform : rule.form = .token scan)
    (hrule : rule ≠ .docText) (h : Derives tight (.call rule) place s (some m)) :
    Firm tight (.call rule) place s m := by
  obtain ⟨x, hx, rfl⟩ := h.of_token_some hform
  exact .token hform (absurd · hrule) hx

/-- A match that is made a node is one of the body, with or without blanks between its parts. -/
theorem of_call_some {inner : Bool} (hbody : rule.form.body? = some body)
    (hcall : ∀ {o}, Derives inner body place s o →
      Derives tight (.call rule) place s (o.map (·.asNode rule place)))
    (h : Derives tight (.call rule) place s (some m)) :
    ∃ m', Derives inner body place s (some m') ∧ m = m'.asNode rule place := by
  obtain ⟨o, d⟩ := Grammar.exists_derives (Rule.body_bounded hbody).1 inner place s
  obtain ⟨m', rfl, rfl⟩ := Option.map_eq_some_iff.1 (h.unique (hcall d)).symm
  exact ⟨m', d, rfl⟩

theorem of_spaced_some (hform : rule.form = .spaced body)
    (h : Derives tight (.call rule) place s (some m)) :
    ∃ m', Derives tight body place s (some m') ∧ m = m'.asNode rule place :=
  of_call_some (congrArg Form.body? hform) (.spaced hform) h

theorem of_tight_some (hform : rule.form = .tight body)
    (h : Derives tight (.call rule) place s (some m)) :
    ∃ m', Derives true body place s (some m') ∧ m = m'.asNode rule place :=
  of_call_some (congrArg Form.body? hform) (.tight hform) h

theorem exists_head {e : Pattern} (h : Derives tight e place s (some m)) (he : e.takes = true) :
    ∃ c, s.head? = some c ∧ e.opens c = true :=
  (Option.any_eq_true _ _).1 (h.opened he)

/-- A match starts with the only character that opens it. -/
theorem head_eq {e : Pattern} {c : Char} (h : Derives tight e place s (some m))
    (he : e.takes = true) (hopens : ∀ d, e.opens d = decide (d = c)) : s.head? = some c := by
  obtain ⟨d, hs, hd⟩ := h.exists_head he
  rw [hopens, decide_eq_true_eq] at hd
  rw [hs, hd]

theorem some_of_many (h : Derives tight (.many body) place s (some m)) (hm : m.taken ≠ []) :
    ∃ m', Derives tight body place s (some m') := by
  cases h with
  | manyNone h =>
      exact absurd rfl hm
  | manyLast h₁ h₂ hlast =>
      exact ⟨_, h₁⟩
  | manyMore h₁ h₂ hmore =>
      exact ⟨_, h₁⟩

theorem rest_of_taken_nil {e : Pattern} (h : Derives tight e place s (some m))
    (hm : m.taken = []) : m.rest = s := by
  have hs := h.splits
  rwa [hm] at hs

end Derives

theorem gap_idem (s : List Char) : (gap false (gap false s).2).2 = (gap false s).2 := by
  rw [gap_gap]

theorem gap_fst_of_snd {s : List Char} (h : (gap false s).2 = s) : (gap false s).1 = [] := by
  have hsplit := gap_splits false s
  rw [h] at hsplit
  exact List.append_left_eq_self.1 hsplit

end Grammar
end PrismaTypes
