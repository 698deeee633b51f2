import PrismaTypes.Proofs.Assembly
import PrismaTypes.Proofs.FirmMatches
import PrismaTypes.Proofs.ValueText

/-!
# Quoted texts as string literals

A value shows its texts between quotes (`Text.quote`), and the grammar has string literals. Both
have escapes, but not the same ones. Whatever the text, its quoted form is a string literal
(`scanString_quote`). The literal stands for the text if every character of it is visible, a line
feed or a tab. Any other character is quoted with an escape that literals do not have, and is read
as that escape without its backslash (`unquote_quote`).
-/

namespace PrismaTypes
namespace Grammar

open Outline (Value readValue unquote)
open Text (isHidden quoteChar)

/-! ## Quoted characters -/

/-- The characters that have a meaning behind a backslash both in quoted texts and in literals. -/
def sharedEscapes : List Char :=
  ['n', 't', '\"', '\\']

/-- Quoting the character and reading the literal gives it back. -/
def isKept (c : Char) : Bool :=
  !isHidden c || c = '\n' || c = '\t'

/-- The ways in which a character is quoted. -/
inductive Quoting (c : Char) : Prop
  | raw (hkept : isKept c = true) (hform : quoteChar c = [c]) (hc : needsEscape c = false)
  | shared {d : Char} (hkept : isKept c = true) (hform : quoteChar c = ['\\', d])
      (hd : d ∈ sharedEscapes) (hvalue : pairValue d = c)
  /-- A literal has no such escape, and what follows the pair has no escapes at all. -/
  | foreign {d : Char} {more : List Char} (hkept : isKept c = false)
      (hform : quoteChar c = '\\' :: d :: more) (hd : d ∉ sharedEscapes)
      (hmore : ∀ e ∈ more, needsEscape e = false) (hne : d ≠ c)

theorem needsEscape_of_mem_hexDigits (n : Nat) :
    ∀ c ∈ Text.hexDigits n, needsEscape c = false := by
  have hdigit : ∀ d < 16, needsEscape d.digitChar = false := by decide
  -- On the number: its last digit, and the digits of the rest.
  induction n using Nat.strongRecOn with
  | _ n ih =>
      rw [Text.hexDigits, Nat.toDigits_eq_if (by decide)]
      split
      · rename_i hlt
        simpa using hdigit n hlt
      · rename_i hge
        intro c hc
        rcases List.mem_append.1 hc with hc | hc
        · exact ih (n / 16) (Nat.div_lt_self (by omega) (by decide)) c hc
        · rw [List.mem_singleton.1 hc]
          exact hdigit _ (Nat.mod_lt n (by decide))

theorem quoting (c : Char) : Quoting c := by
  by_cases hnul : c = '\x00'
  · subst hnul
    have hform : quoteChar '\x00' = ['\\', '0'] := rfl
    exact .foreign rfl hform (by decide) (by simp) (by decide)
  by_cases htab : c = '\t'
  · subst htab
    exact .shared (d := 't') rfl rfl (by decide) rfl
  by_cases hreturn : c = '\r'
  · subst hreturn
    have hform : quoteChar '\r' = ['\\', 'r'] := rfl
    exact .foreign rfl hform (by decide) (by simp) (by decide)
  by_cases hfeed : c = '\n'
  · subst hfeed
    exact .shared (d := 'n') rfl rfl (by decide) rfl
  by_cases hquote : c = '\"'
  · subst hquote
    exact .shared (d := '\"') rfl rfl (by decide) rfl
  by_cases hbackslash : c = '\\'
  · subst hbackslash
    exact .shared (d := '\\') rfl rfl (by decide) rfl
  -- What is left is shown by its code point if it is hidden, and as it is otherwise.
  by_cases hhidden : isHidden c = true
  · have hform : quoteChar c = '\\' :: 'u' :: '\x7b' :: (Text.hexDigits c.toNat ++ ['\x7d']) := by
      simp [quoteChar, hnul, htab, hreturn, hfeed, hquote, hbackslash, hhidden]
    refine .foreign (by simp [isKept, hhidden, hfeed, htab]) hform (by decide) ?_ ?_
    · intro e he
      rcases List.mem_cons.1 he with rfl | he
      · rfl
      rcases List.mem_append.1 he with he | he
      · exact needsEscape_of_mem_hexDigits _ e he
      · rw [List.mem_singleton.1 he]
        rfl
    · rintro rfl
      cases hhidden
  · have hform : quoteChar c = [c] := by
      simp [quoteChar, hnul, htab, hreturn, hfeed, hquote, hbackslash, hhidden]
    exact .raw (by simp [isKept, hhidden]) hform (by simp [needsEscape, hquote, hbackslash])

/-- A character is kept exactly if it is quoted as it is or with an escape that literals have. -/
theorem isKept_iff_quoteChar {c : Char} :
    isKept c = true ↔ quoteChar c = [c] ∨ ∃ d ∈ sharedEscapes, quoteChar c = ['\\', d] := by
  cases quoting c with
  | raw hkept hform hc =>
      exact iff_of_true hkept (.inl hform)
  | shared hkept hform hd hvalue =>
      exact iff_of_true hkept (.inr ⟨_, hd, hform⟩)
  | @foreign d more hkept hform hd hmore hne =>
      rw [hkept, hform]
      refine iff_of_false (by decide) ?_
      rintro (heq | ⟨e, he, heq⟩)
      · cases heq
      · cases heq
        exact hd he

/-- What is read of a quoted character: itself, or its escape without the backslash. -/
def rereadChar (c : Char) : List Char :=
  if isKept c then [c] else (quoteChar c).tail

theorem denotes_quoteChar (c : Char) : Denotes (quoteChar c) (rereadChar c) := by
  cases quoting c with
  | raw hkept hform hc =>
      rw [rereadChar, if_pos hkept, hform]
      exact .plain hc .nil
  | shared hkept hform hd hvalue =>
      rw [rereadChar, if_pos hkept, hform]
      exact hvalue ▸ .pair _ .nil
  | @foreign d more hkept hform hd hmore hne =>
      have hvalue : pairValue d = d := by
        have hother : d ≠ 'n' ∧ d ≠ 't' := by
          constructor <;> exact fun heq => hd (heq ▸ by decide)
        simp [pairValue, hother]
      have hpair := Denotes.pair d (.of_plain hmore)
      rw [hvalue] at hpair
      rw [rereadChar, hkept, hform]
      exact hpair

/-! ## Quoted texts -/

theorem denotes_flatMap_quoteChar (s : List Char) :
    Denotes (s.flatMap quoteChar) (s.flatMap rereadChar) := by
  induction s with
  | nil =>
      exact .nil
  | cons c s ih =>
      exact (denotes_quoteChar c).append ih

/-- The quoted form of any text is a string literal, whatever follows it. -/
theorem scanString_quote (s rest : List Char) :
    scanString (Text.quote s ++ rest) = some (Text.quote s, rest) :=
  (denotes_flatMap_quoteChar s).scanString_eq rest

theorem unquote_quote (s : List Char) : unquote (Text.quote s) = s.flatMap rereadChar :=
  (denotes_flatMap_quoteChar s).unquote_eq

theorem flatMap_rereadChar_eq_iff {s : List Char} :
    s.flatMap rereadChar = s ↔ ∀ c ∈ s, isKept c = true := by
  induction s with
  | nil =>
      simp
  | cons c s ih =>
      rw [List.flatMap_cons, List.forall_mem_cons]
      by_cases hc : isKept c = true
      · simp [rereadChar, hc, ih]
      · -- The escape of the first character that is not kept starts with another character.
        cases quoting c with
        | raw hkept | shared hkept =>
            exact absurd hkept hc
        | foreign hkept hform hd hmore hne =>
            simp [rereadChar, hkept, hform, hne]

/-! ## Results -/

theorem matchRule_token_iff {rule : Rule} {scan : List Char → Option Scan}
    (hform : rule.form = .token scan) {s : List Char} {n : Node} :
    matchRule rule s = .ok [n] ↔ ∃ x, scan s = some x ∧ n = .mk rule {} x.1 [] := by
  rw [matchRule_eq_ok_iff]
  constructor
  · rintro ⟨m, h, hnodes⟩
    obtain ⟨x, hx, rfl⟩ := h.of_token_some hform
    cases hnodes
    exact ⟨x, hx, rfl⟩
  · rintro ⟨x, hx, rfl⟩
    have d : Derives false (.call rule) {} s _ := .token hform
    rw [hx] at d
    exact ⟨_, d, rfl⟩

/-- The text of a string literal, shown as an attribute value shows it, is a string literal again.
That one stands for the same text exactly if every character is visible, a line feed or a tab;
otherwise it stands for the text with the other characters replaced by their escapes without a
backslash. -/
theorem shown_literal_rereads_iff (literal : List Char) (n : Node)
    (hmatch : matchRule .stringLiteral literal = .ok [n]) (hwhole : n.text = literal) :
    ∃ s shown, readValue n = .ok (.text s) ∧ s.toList = unquote literal ∧
      matchRule .stringLiteral (Value.text s).render = .ok [shown] ∧
      shown.text = (Value.text s).render ∧
      readValue shown = .ok (.text (String.ofList (s.toList.flatMap rereadChar))) ∧
      (readValue shown = .ok (.text s) ↔
        ∀ c ∈ s.toList, isHidden c = false ∨ c = '\n' ∨ c = '\t') := by
  obtain ⟨x, -, rfl⟩ := (matchRule_token_iff rfl).1 hmatch
  cases hwhole
  have hscan := scanString_quote (unquote x.1) []
  rw [List.append_nil] at hscan
  have hread : readValue (.mk .stringLiteral {} (Text.quote (unquote x.1)) [])
      = .ok (.text (String.ofList ((unquote x.1).flatMap rereadChar))) := by
    rw [readValue, unquote_quote]
  refine ⟨String.ofList (unquote x.1), .mk .stringLiteral {} (Text.quote (unquote x.1)) [], ?_⟩
  simp only [Value.render, String.toList_ofList]
  refine ⟨by simp [readValue], rfl, (matchRule_token_iff rfl).2 ⟨_, hscan, rfl⟩, rfl,
    hread, ?_⟩
  rw [hread, Except.ok.injEq, Value.text.injEq, String.ofList_inj, flatMap_rereadChar_eq_iff]
  simp [isKept, or_assoc]

/-- A quote, a needless backslash, a combining accent and a line feed. -/
def accentedLiteral : List Char :=
  "\"e\\\"\\q\u0301\\n\"".toList

theorem shown_literal_rereads_iff_accented :
    ∃ n s shown, matchRule .stringLiteral accentedLiteral = .ok [n] ∧ n.text = accentedLiteral ∧
      readValue n = .ok (.text s) ∧ s.toList = "e\"q\u0301\n".toList ∧
      matchRule .stringLiteral (Value.text s).render = .ok [shown] ∧
      readValue shown ≠ .ok (.text s) := by
  have hmatch : matchRule .stringLiteral accentedLiteral
      = .ok [.mk .stringLiteral {} accentedLiteral []] :=
    (matchRule_token_iff rfl).2 ⟨(accentedLiteral, []), by decide, rfl⟩
  obtain ⟨s, shown, hread, hvalue, hshown, -, -, hiff⟩ :=
    shown_literal_rereads_iff accentedLiteral _ hmatch rfl
  have htext : unquote accentedLiteral = "e\"q\u0301\n".toList := by decide
  rw [htext] at hvalue
  refine ⟨_, s, shown, hmatch, rfl, hread, hvalue, hshown, fun hsame => ?_⟩
  -- The accent is hidden, and it is neither a line feed nor a tab.
  have haccent := hiff.1 hsame '\u0301' (by rw [hvalue]; decide)
  revert haccent
  decide

/-- A text with a combining accent in a native type is shown as a literal for another text. -/
theorem accented_text_not_reread :
    ∃ n, matchRule .stringLiteral "\"cafe\u0301\"".toList = .ok [n] ∧
      n.text = "\"cafe\u0301\"".toList ∧
      unquote (Value.text (String.ofList (unquote n.text))).render
        = "cafeu\x7b301\x7d".toList ∧
      unquote (Value.text (String.ofList (unquote n.text))).render ≠ unquote n.text ∧
      ∃ s, (Schema.parse
          "model A \x7b\n  x String @db.X([\"cafe\u0301\"])\n\x7d").result = .ok s ∧
        s.models.map (·.fields.map (·.nativeType))
          = [[some ⟨"X", ["[\"cafe\\u\x7b301\x7d\"]"]⟩]] := by
  refine ⟨.mk .stringLiteral {} "\"cafe\u0301\"".toList [], ?_, rfl, by decide, by decide,
    exists_of_check (by decide +kernel)⟩
  exact (matchRule_token_iff rfl).2 ⟨(_, []), by decide, rfl⟩

end Grammar
end PrismaTypes
