import PrismaTypes.Proofs.Derivation

/-!
# The shape of trees

`Fits e nodes` says that an expression may leave the given nodes, whatever the text: it follows the
definition of `e` and of the rules it calls, and forgets which alternatives were refused before.
Every match fits (`Derives.fits`). The rest of the file spells out what that means for the rules of
the grammar, one shape after another: how many children a node has, of which rules, and in which
order.
-/

namespace PrismaTypes
namespace Grammar

open Text (Place)

namespace Node

variable (r : Rule) (p : Place) (t : List Char) (ns : List Node)

@[simp] theorem rule_mk : (mk r p t ns).rule = r := rfl

@[simp] theorem place_mk : (mk r p t ns).place = p := rfl

@[simp] theorem text_mk : (mk r p t ns).text = t := rfl

@[simp] theorem children_mk : (mk r p t ns).children = ns := rfl

end Node

inductive Fits : Pattern → List Node → Prop
  | literal {word : List Char} : Fits (.literal word) []
  | notAhead {word : List Char} : Fits (.notAhead word) []
  | atStart : Fits .atStart []
  | atEnd : Fits .atEnd []
  | seq {first second : Pattern} {ns₁ ns₂ : List Node} (h₁ : Fits first ns₁)
      (h₂ : Fits second ns₂) : Fits (.seq first second) (ns₁ ++ ns₂)
  | choiceFirst {first second : Pattern} {ns : List Node} (h : Fits first ns) :
      Fits (.choice first second) ns
  | choiceSecond {first second : Pattern} {ns : List Node} (h : Fits second ns) :
      Fits (.choice first second) ns
  | optionalNone {body : Pattern} : Fits (.optional body) []
  | optional {body : Pattern} {ns : List Node} (h : Fits body ns) : Fits (.optional body) ns
  | manyNone {body : Pattern} : Fits (.many body) []
  | manyMore {body : Pattern} {ns₁ ns₂ : List Node} (h₁ : Fits body ns₁)
      (h₂ : Fits (.many body) ns₂) : Fits (.many body) (ns₁ ++ ns₂)
  | silent {rule : Rule} {body : Pattern} {ns : List Node} (hform : rule.form = .silent body)
      (h : Fits body ns) : Fits (.call rule) ns
  | hidden {rule : Rule} {scan : List Char → Option Scan} (hform : rule.form = .hidden scan) :
      Fits (.call rule) []
  | token {rule : Rule} {scan : List Char → Option Scan} {place : Place}
      {text s rest : List Char} (hform : rule.form = .token scan)
      (hscan : scan s = some (text, rest)) : Fits (.call rule) [.mk rule place text []]
  | node {rule : Rule} {body : Pattern} {place : Place} {text : List Char} {ns : List Node}
      (hform : rule.form = .spaced body ∨ rule.form = .tight body) (h : Fits body ns) :
      Fits (.call rule) [.mk rule place text ns]

/-- The nodes of a match fit its expression. -/
theorem Derives.fits {tight : Bool} {e : Pattern} {place : Place} {s : List Char} {m : Match}
    (h : Derives tight e place s (some m)) : Fits e m.nodes := by
  generalize ho : some m = o at h
  induction h generalizing m with
  | literal h =>
      cases ho
      exact .literal
  | literalFails | notAheadFails | atStartFails | atEndFails | seqFirstFails | seqSecondFails =>
      cases ho
  | notAhead =>
      cases ho
      exact .notAhead
  | atStart =>
      cases ho
      exact .atStart
  | atEnd =>
      cases ho
      exact .atEnd
  | seq h₁ h₂ ih₁ ih₂ =>
      cases ho
      exact .seq (ih₁ rfl) (ih₂ rfl)
  | choiceFirst h ih =>
      exact .choiceFirst (ih ho)
  | choiceSecond h₁ h₂ ih₁ ih₂ =>
      exact .choiceSecond (ih₂ ho)
  | optional h ih =>
      exact .optional (ih ho)
  | optionalNone =>
      cases ho
      exact .optionalNone
  | manyNone =>
      cases ho
      exact .manyNone
  | @manyLast _ _ _ _ m₁ m₂ h₁ h₂ hlast ih₁ ih₂ =>
      cases ho
      -- The last round of a repetition took nothing and so left no nodes either.
      have hfits : Fits (.many _) (m₁.nodes ++ []) := .manyMore (ih₁ rfl) .manyNone
      simpa using hfits
  | manyMore h₁ h₂ hmore ih₁ ih₂ =>
      cases ho
      exact .manyMore (ih₁ rfl) (ih₂ rfl)
  | silent hform h ih =>
      exact .silent hform (ih ho)
  | hidden hform =>
      obtain ⟨x, hx, rfl⟩ := Option.map_eq_some_iff.1 ho.symm
      exact .hidden hform
  | token hform =>
      obtain ⟨x, hx, rfl⟩ := Option.map_eq_some_iff.1 ho.symm
      exact .token hform hx
  | spaced hform h ih =>
      obtain ⟨m', hm', rfl⟩ := Option.map_eq_some_iff.1 ho.symm
      exact .node (.inl hform) (ih hm'.symm)
  | tight hform h ih =>
      obtain ⟨m', hm', rfl⟩ := Option.map_eq_some_iff.1 ho.symm
      exact .node (.inr hform) (ih hm'.symm)

/-! ## Inversion -/

namespace Fits

variable {first second body : Pattern} {ns : List Node}

@[simp] theorem literal_iff {word : List Char} : Fits (.literal word) ns ↔ ns = [] :=
  ⟨fun h => by cases h; rfl, fun h => h ▸ .literal⟩

@[simp] theorem word_iff {word : String} : Fits (Pattern.word word) ns ↔ ns = [] :=
  literal_iff

@[simp] theorem notAhead_iff {word : List Char} : Fits (.notAhead word) ns ↔ ns = [] :=
  ⟨fun h => by cases h; rfl, fun h => h ▸ .notAhead⟩

@[simp] theorem atStart_iff : Fits .atStart ns ↔ ns = [] :=
  ⟨fun h => by cases h; rfl, fun h => h ▸ .atStart⟩

@[simp] theorem atEnd_iff : Fits .atEnd ns ↔ ns = [] :=
  ⟨fun h => by cases h; rfl, fun h => h ▸ .atEnd⟩

theorem seq_iff :
    Fits (.seq first second) ns ↔
      ∃ ns₁ ns₂, Fits first ns₁ ∧ Fits second ns₂ ∧ ns = ns₁ ++ ns₂ := by
  constructor
  · intro h
    cases h with
    | seq h₁ h₂ =>
        exact ⟨_, _, h₁, h₂, rfl⟩
  · rintro ⟨ns₁, ns₂, h₁, h₂, rfl⟩
    exact .seq h₁ h₂

theorem choice_iff : Fits (.choice first second) ns ↔ Fits first ns ∨ Fits second ns := by
  constructor
  · intro h
    cases h with
    | choiceFirst h =>
        exact .inl h
    | choiceSecond h =>
        exact .inr h
  · rintro (h | h)
    · exact .choiceFirst h
    · exact .choiceSecond h

theorem optional_iff : Fits (.optional body) ns ↔ ns = [] ∨ Fits body ns := by
  constructor
  · intro h
    cases h with
    | optionalNone =>
        exact .inl rfl
    | optional h =>
        exact .inr h
  · rintro (rfl | h)
    · exact .optionalNone
    · exact .optional h

theorem silent_iff {rule : Rule} (hform : rule.form = .silent body) :
    Fits (.call rule) ns ↔ Fits body ns := by
  constructor
  · intro h
    -- A rule has one form, which leaves one of the four clauses for calls.
    cases h with
    | silent hform' h =>
        cases hform.symm.trans hform'
        exact h
    | hidden hform' | token hform' =>
        cases hform.symm.trans hform'
    | node hform' =>
        rcases hform' with hform' | hform' <;> cases hform.symm.trans hform'
  · exact .silent hform

theorem token_iff {rule : Rule} {scan : List Char → Option Scan} (hform : rule.form = .token scan) :
    Fits (.call rule) ns ↔
      ∃ place text s rest, scan s = some (text, rest) ∧ ns = [.mk rule place text []] := by
  constructor
  · intro h
    cases h with
    | token hform' hscan =>
        cases hform.symm.trans hform'
        exact ⟨_, _, _, _, hscan, rfl⟩
    | hidden hform' | silent hform' =>
        cases hform.symm.trans hform'
    | node hform' =>
        rcases hform' with hform' | hform' <;> cases hform.symm.trans hform'
  · rintro ⟨place, text, s, rest, hscan, rfl⟩
    exact .token hform hscan

theorem node_iff {rule : Rule} (hform : rule.form = .spaced body ∨ rule.form = .tight body) :
    Fits (.call rule) ns ↔ ∃ place text cs, Fits body cs ∧ ns = [.mk rule place text cs] := by
  constructor
  · intro h
    cases h with
    | node hform' h =>
        rcases hform with hform | hform <;> rcases hform' with hform' | hform' <;>
          cases hform.symm.trans hform'
        all_goals exact ⟨_, _, _, h, rfl⟩
    | hidden hform' | silent hform' | token hform' =>
        rcases hform with hform | hform <;> cases hform.symm.trans hform'
  · rintro ⟨place, text, cs, h, rfl⟩
    exact .node hform h

theorem rule_of_token {rule : Rule} {scan : List Char → Option Scan} {n : Node}
    (h : Fits (.call rule) [n]) (hform : rule.form = .token scan) : n.rule = rule := by
  obtain ⟨place, text, s, rest, -, hn⟩ := (token_iff hform).1 h
  cases hn
  rfl

theorem rule_of_node {rule : Rule} {n : Node} (h : Fits (.call rule) [n])
    (hform : rule.form = .spaced body ∨ rule.form = .tight body) : n.rule = rule := by
  obtain ⟨place, text, cs, -, hn⟩ := (node_iff hform).1 h
  cases hn
  rfl

/-! ## Repetition -/

/-- The expression leaves exactly one node. -/
def Single (e : Pattern) : Prop :=
  ∀ ns, Fits e ns → ∃ n, ns = [n]

theorem Single.token {rule : Rule} {scan : List Char → Option Scan}
    (hform : rule.form = .token scan) : Single (.call rule) := by
  intro ns h
  obtain ⟨place, text, s, rest, -, rfl⟩ := (token_iff hform).1 h
  exact ⟨_, rfl⟩

theorem Single.node {rule : Rule} (hform : rule.form = .spaced body ∨ rule.form = .tight body) :
    Single (.call rule) := by
  intro ns h
  obtain ⟨place, text, cs, -, rfl⟩ := (node_iff hform).1 h
  exact ⟨_, rfl⟩

theorem Single.choice (h₁ : Single first) (h₂ : Single second) : Single (.choice first second) := by
  intro ns h
  rcases choice_iff.1 h with h | h
  · exact h₁ ns h
  · exact h₂ ns h

theorem Single.silent {rule : Rule} (hform : rule.form = .silent body) (h : Single body) :
    Single (.call rule) :=
  fun ns hns => h ns ((silent_iff hform).1 hns)

/-- Repeated parts that leave one node each leave a list of such nodes. -/
theorem many_iff (hsingle : Single body) :
    Fits (.many body) ns ↔ ∀ n ∈ ns, Fits body [n] := by
  constructor
  · intro h
    -- The derivation may nest other repetitions; the equation keeps to this one.
    generalize he : Pattern.many body = e at h
    induction h with
    | manyNone =>
        simp
    | manyMore h₁ h₂ ih₁ ih₂ =>
        cases he
        obtain ⟨n, rfl⟩ := hsingle _ h₁
        intro n' hn'
        rcases List.mem_cons.1 hn' with rfl | hn'
        · exact h₁
        · exact ih₂ rfl n' hn'
    | _ =>
        cases he
  · intro h
    induction ns with
    | nil =>
        exact .manyNone
    | cons n ns ih =>
        exact .manyMore (h n (by simp)) (ih fun n' hn' => h n' (by simp [hn']))

theorem of_commaList (hsingle : Single body) (h : Fits (Pattern.commaList body) ns) :
    ∀ n ∈ ns, Fits body [n] := by
  have hmore : ∀ {ms : List Node}, Fits (.many (.seq (Pattern.word ",") body)) ms →
      ∀ n ∈ ms, Fits body [n] := by
    intro ms hms
    -- A comma leaves no node.
    have hcomma : ∀ {ks : List Node}, Fits (.seq (Pattern.word ",") body) ks ↔ Fits body ks := by
      intro ks
      simp [seq_iff]
    have hitems := (many_iff fun ks hks => hsingle ks (hcomma.1 hks)).1 hms
    exact fun n hn => hcomma.1 (hitems n hn)
  simp only [Pattern.commaList, Pattern.sequence, optional_iff, seq_iff, word_iff] at h
  -- No items at all, or a first one, more of them and perhaps a comma at the end.
  rcases h with rfl | ⟨ns₁, ns₂, h₁, ⟨ns₃, ns₄, h₃, h₄, rfl⟩, rfl⟩
  · simp
  · have hlast : ns₄ = [] := by simpa using h₄
    obtain ⟨n, rfl⟩ := hsingle ns₁ h₁
    intro n' hn'
    simp only [hlast, List.append_nil, List.singleton_append, List.mem_cons] at hn'
    rcases hn' with rfl | hn'
    · exact h₁
    · exact hmore h₃ n' hn'

/-! ## Expressions -/

theorem expression_iff :
    Fits (.call .expression) ns ↔ Fits (.call .functionCall) ns ∨ Fits (.call .arrayLiteral) ns ∨
      Fits (.call .stringLiteral) ns ∨ Fits (.call .numberLiteral) ns ∨
      Fits (.call .booleanLiteral) ns ∨ Fits (.call .path) ns := by
  simp only [silent_iff (show Rule.expression.form = .silent _ from rfl), Pattern.oneOf, choice_iff]

theorem single_expression : Single (.call .expression) :=
  .silent rfl (.choice (.node (.inl rfl)) (.choice (.node (.inl rfl)) (.choice (.token rfl)
    (.choice (.token rfl) (.choice (.token rfl) (.token rfl))))))

theorem arrayLiteral {n : Node} (h : Fits (.call .arrayLiteral) [n]) :
    n.rule = .arrayLiteral ∧ ∀ item ∈ n.children, Fits (.call .expression) [item] := by
  obtain ⟨place, text, cs, hcs, hn⟩ := (node_iff (.inl rfl)).1 h
  cases hn
  refine ⟨rfl, ?_⟩
  simp only [Pattern.sequence, seq_iff, word_iff] at hcs
  obtain ⟨_, _, rfl, ⟨items, _, hitems, rfl, rfl⟩, rfl⟩ := hcs
  simpa using of_commaList single_expression hitems

/-- A value is never taken for the name of an argument. -/
theorem rule_ne_argName {n : Node} (h : Fits (.call .expression) [n]) : n.rule ≠ .argName := by
  rcases expression_iff.1 h with h | h | h | h | h | h
  · obtain ⟨place, text, cs, -, hn⟩ := (node_iff (.inl rfl)).1 h
    cases hn
    simp
  · simp [h.arrayLiteral.1]
  -- The four kinds of literals and names are tokens.
  all_goals
    obtain ⟨place, text, s, rest, -, hn⟩ := (token_iff rfl).1 h
    cases hn
    simp

/-! ## Attributes -/

theorem attributeArg {n : Node} (h : Fits (.call .attributeArg) [n]) :
    (∃ name value, n.children = [name, value] ∧ name.rule = .argName ∧
      Fits (.call .expression) [value]) ∨
    (∃ value, n.children = [value] ∧ Fits (.call .expression) [value]) := by
  obtain ⟨place, text, cs, hcs, hn⟩ := (node_iff (.inl rfl)).1 h
  cases hn
  simp only [Pattern.sequence, choice_iff, seq_iff, word_iff] at hcs
  -- With a name and a colon in front of the value, or without.
  rcases hcs with ⟨ns₁, ns₂, h₁, ⟨_, _, rfl, h₂, rfl⟩, rfl⟩ | hcs
  · obtain ⟨namePlace, nameText, _, -, rfl⟩ := (node_iff (.inl rfl)).1 h₁
    obtain ⟨value, rfl⟩ := single_expression ns₂ h₂
    exact .inl ⟨_, value, rfl, rfl, h₂⟩
  · obtain ⟨value, rfl⟩ := single_expression cs hcs
    exact .inr ⟨value, rfl, hcs⟩

theorem attributeArgs {n : Node} (h : Fits (.call .attributeArgs) [n]) :
    ∀ arg ∈ n.children, Fits (.call .attributeArg) [arg] := by
  obtain ⟨place, text, cs, hcs, hn⟩ := (node_iff (.inl rfl)).1 h
  cases hn
  simp only [Pattern.sequence, seq_iff, word_iff] at hcs
  obtain ⟨_, _, rfl, ⟨args, _, hargs, rfl, rfl⟩, rfl⟩ := hcs
  simpa using of_commaList (.node (.inl rfl)) hargs

theorem functionCall {n : Node} (h : Fits (.call .functionCall) [n]) :
    n.rule = .functionCall ∧
      ∃ name args, n.children = [name, args] ∧ Fits (.call .path) [name] ∧
        Fits (.call .attributeArgs) [args] := by
  obtain ⟨place, text, cs, hcs, hn⟩ := (node_iff (.inl rfl)).1 h
  cases hn
  obtain ⟨ns₁, ns₂, h₁, h₂, rfl⟩ := seq_iff.1 hcs
  obtain ⟨name, rfl⟩ := Single.token rfl ns₁ h₁
  obtain ⟨args, rfl⟩ := Single.node (.inl rfl) ns₂ h₂
  exact ⟨rfl, name, args, rfl, h₁, h₂⟩

/-- Both kinds of attributes have a name and perhaps arguments. -/
theorem attributeParts {rule : Rule} {mark : String} {n : Node}
    (hform : rule.form = .spaced (.sequence (.word mark)
      [.call .attributeName, .optional (.call .attributeArgs)]))
    (h : Fits (.call rule) [n]) :
    ∃ name rest, n.children = name :: rest ∧ Fits (.call .attributeName) [name] ∧
      (rest = [] ∨ ∃ args, rest = [args] ∧ Fits (.call .attributeArgs) [args]) := by
  obtain ⟨place, text, cs, hcs, hn⟩ := (node_iff (.inl hform)).1 h
  cases hn
  simp only [Pattern.sequence, seq_iff, word_iff, optional_iff] at hcs
  obtain ⟨_, _, rfl, ⟨ns₁, ns₂, h₁, h₂, rfl⟩, rfl⟩ := hcs
  obtain ⟨name, rfl⟩ := Single.token rfl ns₁ h₁
  refine ⟨name, ns₂, rfl, h₁, ?_⟩
  rcases h₂ with rfl | h₂
  · exact .inl rfl
  · obtain ⟨args, rfl⟩ := Single.node (.inl rfl) ns₂ h₂
    exact .inr ⟨args, rfl, h₂⟩

/-! ## Declarations -/

/-- A field type is a name or an unsupported type, and perhaps a mark. -/
theorem fieldType {n : Node} (h : Fits (.call .fieldType) [n]) :
    ∃ base marks, n.children = base :: marks ∧
      (base.rule = .unsupportedType ∨ Fits (.call .typeName) [base]) ∧ marks.length ≤ 1 ∧
      ∀ mark ∈ marks, mark.rule = .listMarker ∨ mark.rule = .optionalMarker := by
  obtain ⟨place, text, cs, hcs, hn⟩ := (node_iff (.inr rfl)).1 h
  cases hn
  simp only [seq_iff, choice_iff, optional_iff,
    silent_iff (show Rule.typeModifier.form = .silent _ from rfl)] at hcs
  obtain ⟨ns₁, ns₂, h₁, h₂, rfl⟩ := hcs
  -- There is one mark at most, a list mark or an optional one.
  have hmarks : ns₂.length ≤ 1 ∧
      ∀ mark ∈ ns₂, mark.rule = .listMarker ∨ mark.rule = .optionalMarker := by
    rcases h₂ with rfl | h₂ | h₂
    · simp
    · obtain ⟨markPlace, markText, _, -, rfl⟩ := (node_iff (.inl rfl)).1 h₂
      simp
    · obtain ⟨markPlace, markText, _, -, rfl⟩ := (node_iff (.inl rfl)).1 h₂
      simp
  rcases h₁ with h₁ | h₁
  · obtain ⟨basePlace, baseText, _, -, rfl⟩ := (node_iff (.inr rfl)).1 h₁
    exact ⟨_, ns₂, rfl, .inl rfl, hmarks⟩
  · obtain ⟨base, rfl⟩ := Single.token rfl ns₁ h₁
    exact ⟨base, ns₂, rfl, .inr h₁, hmarks⟩

theorem field {n : Node} (h : Fits (.call .field) [n]) :
    n.rule = .field ∧ ∃ name fieldType attributes, n.children = name :: fieldType :: attributes ∧
      Fits (.call .identifier) [name] ∧ Fits (.call .fieldType) [fieldType] ∧
      ∀ a ∈ attributes, Fits (.call .fieldAttribute) [a] := by
  obtain ⟨place, text, cs, hcs, hn⟩ := (node_iff (.inl rfl)).1 h
  cases hn
  simp only [Pattern.sequence, seq_iff] at hcs
  obtain ⟨ns₁, _, h₁, ⟨ns₂, ns₃, h₂, h₃, rfl⟩, rfl⟩ := hcs
  obtain ⟨name, rfl⟩ := Single.token rfl ns₁ h₁
  obtain ⟨fieldType, rfl⟩ := Single.node (.inr rfl) ns₂ h₂
  exact ⟨rfl, name, fieldType, ns₃, rfl, h₁, h₂, (many_iff (.node (.inl rfl))).1 h₃⟩

theorem enumValue {n : Node} (h : Fits (.call .enumValue) [n]) :
    n.rule = .enumValue ∧ ∃ name attributes, n.children = name :: attributes ∧
      Fits (.call .identifier) [name] ∧ ∀ a ∈ attributes, Fits (.call .fieldAttribute) [a] := by
  obtain ⟨place, text, cs, hcs, hn⟩ := (node_iff (.inl rfl)).1 h
  cases hn
  obtain ⟨ns₁, ns₂, h₁, h₂, rfl⟩ := seq_iff.1 hcs
  obtain ⟨name, rfl⟩ := Single.token rfl ns₁ h₁
  exact ⟨rfl, name, ns₂, rfl, h₁, (many_iff (.node (.inl rfl))).1 h₂⟩

/-! ## Documentation -/

theorem documentation {n : Node} (h : Fits (.call .documentation) [n]) :
    ∀ line ∈ n.children, Fits (.call .docLine) [line] := by
  obtain ⟨place, text, cs, hcs, hn⟩ := (node_iff (.inl rfl)).1 h
  cases hn
  obtain ⟨ns₁, ns₂, h₁, h₂, rfl⟩ := seq_iff.1 hcs
  obtain ⟨line, rfl⟩ := Single.node (.inr rfl) ns₁ h₁
  intro l hl
  rcases List.mem_append.1 hl with hl | hl
  · rwa [List.mem_singleton.1 hl]
  · exact (many_iff (.node (.inr rfl))).1 h₂ l hl

theorem docLine {n : Node} (h : Fits (.call .docLine) [n]) :
    ∃ text, n.children = [text] ∧ Fits (.call .docText) [text] := by
  obtain ⟨place, text, cs, hcs, hn⟩ := (node_iff (.inr rfl)).1 h
  cases hn
  obtain ⟨_, ns₁, hword, h₁, rfl⟩ := seq_iff.1 hcs
  obtain ⟨_, ns₂, hahead, h₂, rfl⟩ := seq_iff.1 h₁
  cases hahead
  obtain rfl := word_iff.1 hword
  obtain ⟨text, rfl⟩ := Single.token rfl ns₂ h₂
  exact ⟨text, rfl, h₂⟩

end Fits

/-! ## Items -/

/-- The rules of the items and of the declarations in the braces of a block. -/
inductive BodyRules : Rule → Rule → Prop
  | model : BodyRules .modelItem .field
  | enum : BodyRules .enumItem .enumValue

namespace BodyRules

variable {item entry : Rule} {n name : Node} {members : List Node}

theorem items (R : BodyRules item entry) :
    item.form = .silent (.oneOf (.call .documentation) [.call entry, .call .blockAttribute]) := by
  cases R <;> rfl

theorem entries (R : BodyRules item entry) : ∃ body, entry.form = .spaced body := by
  cases R <;> exact ⟨_, rfl⟩

theorem takes (R : BodyRules item entry) : item.takes = true ∧ entry.takes = true := by
  cases R <;> decide

theorem other (R : BodyRules item entry) : entry ≠ .documentation ∧ entry ≠ .blockAttribute := by
  cases R <;> decide

theorem ne_identifier (R : BodyRules item entry) : entry ≠ .identifier := by
  cases R <;> decide

theorem single (R : BodyRules item entry) : Fits.Single (.call item) := by
  obtain ⟨body, hbody⟩ := R.entries
  exact .silent R.items
    (.choice (.node (.inl rfl)) (.choice (.node (.inl hbody)) (.node (.inl rfl))))

/-- An item of a block is of one of three rules. -/
theorem fits_rule (R : BodyRules item entry) (h : Fits (.call item) [n]) :
    Fits (.call n.rule) [n] ∧
      (n.rule = .documentation ∨ n.rule = entry ∨ n.rule = .blockAttribute) := by
  obtain ⟨body, hbody⟩ := R.entries
  rcases Fits.choice_iff.1 ((Fits.silent_iff R.items).1 h) with h | h
  · have hrule := h.rule_of_node (.inl rfl)
    exact ⟨hrule ▸ h, .inl hrule⟩
  rcases Fits.choice_iff.1 h with h | h
  · have hrule := h.rule_of_node (.inl hbody)
    exact ⟨hrule ▸ h, .inr (.inl hrule)⟩
  · have hrule := h.rule_of_node (.inl rfl)
    exact ⟨hrule ▸ h, .inr (.inr hrule)⟩

theorem fits_entry (R : BodyRules item entry) (h : Fits (.call item) [n]) (hrule : n.rule = entry) :
    Fits (.call entry) [n] :=
  hrule ▸ (R.fits_rule h).1

/-- The name of a block is a child as well, but none of its declarations. -/
theorem filter_children (R : BodyRules item entry) (hchildren : n.children = name :: members)
    (hname : Fits (.call .identifier) [name]) :
    n.children.filter (·.rule = entry) = members.filter (·.rule = entry) := by
  have hother : name.rule ≠ entry := by
    rw [hname.rule_of_token rfl]
    exact R.ne_identifier.symm
  rw [hchildren, List.filter_cons_of_neg (by simpa using hother)]

end BodyRules

/-! ## Blocks -/

namespace Fits

variable {ns : List Node}

/-- A block has what its head leaves, a name, and items. -/
theorem blockParts {rule : Rule} {head item : Pattern} {n : Node}
    (hform : rule.form = .spaced (.block head item)) (hitem : Single item)
    (h : Fits (.call rule) [n]) :
    n.rule = rule ∧ ∃ heads name items, n.children = heads ++ name :: items ∧ Fits head heads ∧
      Fits (.call .identifier) [name] ∧ ∀ i ∈ items, Fits item [i] := by
  obtain ⟨place, text, cs, hcs, hn⟩ := (node_iff (.inl hform)).1 h
  cases hn
  simp only [Pattern.block, Pattern.sequence, seq_iff, word_iff] at hcs
  obtain ⟨heads, _, hheads, ⟨ns₁, _, h₁, ⟨_, _, rfl, ⟨items, _, hitems, rfl, rfl⟩, rfl⟩, rfl⟩,
    rfl⟩ := hcs
  obtain ⟨name, rfl⟩ := Single.token rfl ns₁ h₁
  exact ⟨rfl, heads, name, items, by simp, hheads, h₁, (many_iff hitem).1 hitems⟩

/-- A keyword leaves no node in front of the name. -/
theorem bodyBlock {rule item entry : Rule} {word : String} {n : Node}
    (hform : rule.form = .spaced (.block (.word word) (.call item))) (R : BodyRules item entry)
    (h : Fits (.call rule) [n]) :
    n.rule = rule ∧ ∃ name items, n.children = name :: items ∧
      Fits (.call .identifier) [name] ∧ ∀ i ∈ items, Fits (.call item) [i] := by
  obtain ⟨hrule, heads, name, items, hchildren, hheads, hname, hitems⟩ :=
    blockParts hform R.single h
  rw [word_iff.1 hheads] at hchildren
  exact ⟨hrule, name, items, hchildren, hname, hitems⟩

theorem modelBlock {n : Node} (h : Fits (.call .modelBlock) [n]) :
    n.rule = .modelBlock ∧ ∃ name items, n.children = name :: items ∧
      Fits (.call .identifier) [name] ∧ ∀ i ∈ items, Fits (.call .modelItem) [i] :=
  bodyBlock rfl .model h

theorem enumBlock {n : Node} (h : Fits (.call .enumBlock) [n]) :
    n.rule = .enumBlock ∧ ∃ name items, n.children = name :: items ∧
      Fits (.call .identifier) [name] ∧ ∀ i ∈ items, Fits (.call .enumItem) [i] :=
  bodyBlock rfl .enum h

theorem skippedBlock {n : Node} (h : Fits (.call .skippedBlock) [n]) :
    n.rule = .skippedBlock ∧ ∃ keyword name items, n.children = keyword :: name :: items ∧
      Fits (.call .skippedKeyword) [keyword] ∧ Fits (.call .identifier) [name] := by
  obtain ⟨hrule, heads, name, items, hchildren, hheads, hname, -⟩ :=
    blockParts rfl BodyRules.model.single h
  obtain ⟨keyword, rfl⟩ := Single.token rfl heads hheads
  exact ⟨hrule, keyword, name, items, hchildren, hheads, hname⟩

/-- What stands on the top level of a schema. -/
theorem topLevel_iff :
    Fits (.choice (.call .documentation) (.call .definition)) ns ↔
      Fits (.call .documentation) ns ∨ Fits (.call .modelBlock) ns ∨ Fits (.call .enumBlock) ns ∨
        Fits (.call .configBlock) ns ∨ Fits (.call .skippedBlock) ns := by
  simp only [silent_iff (show Rule.definition.form = .silent _ from rfl), Pattern.oneOf, choice_iff]

theorem single_topLevel : Single (.choice (.call .documentation) (.call .definition)) :=
  .choice (.node (.inl rfl)) (.silent rfl (.choice (.node (.inl rfl)) (.choice (.node (.inl rfl))
    (.choice (.node (.inl rfl)) (.node (.inl rfl))))))

/-- A schema is one node; its children are blocks and the end of the input. -/
theorem schema (h : Fits (.call .schema) ns) :
    ∃ n blocks stop, ns = [n] ∧ n.children = blocks ++ [stop] ∧ stop.rule = .endOfInput ∧
      ∀ b ∈ blocks, Fits (.choice (.call .documentation) (.call .definition)) [b] := by
  obtain ⟨place, text, cs, hcs, rfl⟩ := (node_iff (.inl rfl)).1 h
  simp only [Pattern.sequence, seq_iff, atStart_iff] at hcs
  -- The start of the input leaves no node, its end leaves one.
  obtain ⟨_, _, rfl, ⟨blocks, ns₂, hblocks, h₂, rfl⟩, rfl⟩ := hcs
  obtain ⟨stopPlace, stopText, _, -, rfl⟩ := (node_iff (.inl rfl)).1 h₂
  exact ⟨_, blocks, _, rfl, rfl, rfl, (many_iff single_topLevel).1 hblocks⟩

end Fits

end Grammar
end PrismaTypes
