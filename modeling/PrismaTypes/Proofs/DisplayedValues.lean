import PrismaTypes.Proofs.QuotedTexts
import PrismaTypes.Proofs.RelaidBlocks

/-!
# Displayed values

The display of a value is the value in the notation of the language, with its texts quoted. If the
names and numbers in it can be spelled and quoting keeps every character of its texts, the display
is matched as an expression, wherever a value may end behind it, and is read back as the value
(`display_rereads`).

Reading written values is settled for any way of writing string literals, so all that is left is
that the display is such a writing (`render_eq_write`) and that its quotes are right
(`quotes_quote`).
-/

namespace PrismaTypes

open Grammar
open Outline (Value Argument readValue)
open Text (quoteChar)

/-! ## The display as a writing -/

mutual

theorem render_eq_write (v : Value) : v.render = v.write Text.quote := by
  cases v with
  | text s =>
      rw [Value.render, Value.write]
  | number literal =>
      rw [Value.render, Value.write]
  | boolean b =>
      cases b with
      | true =>
          rw [Value.render, Value.write]
          rfl
      | false =>
          rw [Value.render, Value.write]
          rfl
  | path name =>
      rw [Value.render, Value.write]
  | call name args =>
      rw [Value.render, Value.write, renderArgs_eq_writeArgs args]
  | list items =>
      rw [Value.render, Value.write, renderItems_eq_writeItems items]

theorem renderItems_eq_writeItems (items : List Value) :
    Value.renderItems items = Value.writeItems Text.quote items := by
  cases items with
  | nil =>
      rw [Value.renderItems, Value.writeItems]
  | cons item items =>
      rw [Value.renderItems, Value.writeItems, render_eq_write item,
        renderItems_eq_writeItems items]

theorem renderArgs_eq_writeArgs (args : List Argument) :
    Value.renderArgs args = Value.writeArgs Text.quote args := by
  cases args with
  | nil =>
      rw [Value.renderArgs, Value.writeArgs]
  | cons arg args =>
      rcases arg with ⟨_ | name, value⟩
      · rw [Value.renderArgs, Value.writeArgs, render_eq_write value, renderArgs_eq_writeArgs args]
      · rw [Value.renderArgs, Value.writeArgs, render_eq_write value, renderArgs_eq_writeArgs args]

end

/-- Quotes are right for a text that they keep. -/
theorem quotes_quote {s : String} (h : ∀ c ∈ s.toList, isKept c = true) : Quotes Text.quote s where
  scan := scanString_quote s.toList
  value := by rw [unquote_quote, flatMap_rereadChar_eq_iff.2 h]

/-! ## Matches of an expression -/

namespace Grammar

theorem Leaves.token {rule : Rule} {scan : List Char → Option Scan}
    (hform : rule.form = .token scan) (hrule : rule ≠ .documentation) : Leaves (.call rule) := by
  intro tight place s m h
  obtain ⟨x, -, rfl⟩ := h.of_token_some hform
  exact ⟨rule, [], rfl, fun heq => absurd heq hrule⟩

/-- Every expression is a node of its own that covers all that is taken. -/
theorem Leaves.expression : Leaves (.call .expression) := by
  apply Leaves.silent rfl
  apply Leaves.choice (.spaced rfl (by decide))
  apply Leaves.choice (.spaced rfl (by decide))
  apply Leaves.choice (.token rfl (by decide))
  apply Leaves.choice (.token rfl (by decide))
  apply Leaves.choice (.token rfl (by decide))
  exact .token rfl (by decide)

/-- A derivation of a match is what the run comes to. -/
theorem exists_run_of_derives {rule : Rule} {s : List Char} {m : Match}
    (h : Derives false (.call rule) {} s (some m)) :
    ∃ a, run (fuelFor s) false (.call rule) {} s {} = (.matched m, a) := by
  have hfuel := run_fuelFor_ne_exhausted rule s
  cases hrun : run (fuelFor s) false (.call rule) {} s {} with
  | mk o a =>
      cases o with
      | matched m' =>
          have d : Derives false (.call rule) {} s (some m') :=
            derives_of_run (congrArg (fun r => r.1.ending?) hrun)
          cases h.unique d
          exact ⟨a, rfl⟩
      | failed =>
          have d : Derives false (.call rule) {} s none :=
            derives_of_run (congrArg (fun r => r.1.ending?) hrun)
          cases h.unique d
      | exhausted =>
          exact absurd (congrArg Prod.fst hrun) hfuel

end Grammar

/-! ## Results -/

/-- The display of a well-spelled value whose texts are quoted without foreign escapes is matched as
an expression in front of anything that ends a value. The match takes the display and nothing else,
and the value is read from its only node. -/
theorem display_rereads (v : Value) (rest : List Char) (hv : v.WellSpelled)
    (htexts : ∀ s ∈ v.texts, ∀ c ∈ s.toList,
      quoteChar c = [c] ∨ ∃ d ∈ sharedEscapes, quoteChar c = ['\\', d])
    (hrest : closes rest = true) :
    ∃ n a, run (fuelFor (v.display.toList ++ rest)) false (.call .expression) {}
        (v.display.toList ++ rest) {} = (.matched ⟨v.display.toList, [n], rest⟩, a) ∧
      matchRule .expression (v.display.toList ++ rest) = .ok [n] ∧ n.place = {} ∧
      n.text = v.display.toList ∧ readValue n = .ok v := by
  have hdisplay : v.display.toList = v.write Text.quote := by
    rw [Value.display, String.toList_ofList, render_eq_write]
  rw [hdisplay]
  have hquotes : ∀ s ∈ v.texts, Quotes Text.quote s := by
    intro s hs
    apply quotes_quote
    intro c hc
    exact isKept_iff_quoteChar.2 (htexts s hs c hc)
  obtain ⟨⟨m, hm, hleft, n, hnodes, -, hread⟩, -⟩ := readsValue v hv hquotes {} rest hrest
  have htaken : m.taken = v.write Text.quote := by
    have hsplits := hm.splits
    rw [hleft] at hsplits
    exact List.append_cancel_right hsplits
  -- The node is the whole match.
  obtain ⟨rule, children, hleaf, -⟩ := Leaves.expression false {} _ m hm
  have hn : n = .mk rule {} (v.write Text.quote) children := by
    rw [hnodes, htaken] at hleaf
    exact (List.cons.inj hleaf).1
  obtain ⟨a, hrun⟩ := exists_run_of_derives hm
  have hmatch : m = ⟨v.write Text.quote, [n], rest⟩ := by
    rw [← htaken, ← hnodes, ← hleft]
  rw [hmatch] at hrun
  exact ⟨n, a, hrun, matchRule_eq_ok_iff.2 ⟨m, hm, hnodes⟩, by rw [hn]; rfl, by rw [hn]; rfl, hread⟩

/-- A call in a list, with a name that is a boolean elsewhere and a text with all four escapes. -/
def nestedValue : Value :=
  .list [.call "true" [(none, .list []), (some "false", .text "a\n\t\"\\é"),
    (none, .boolean true)], .number "-1.50", .path "a.NEWS"]

theorem display_rereads_nested :
    nestedValue.display = "[true([], false: \"a\\n\\t\\\"\\\\é\", true), -1.50, a.NEWS]" ∧
      ∃ n a, run (fuelFor (nestedValue.display.toList ++ ", x".toList)) false (.call .expression) {}
          (nestedValue.display.toList ++ ", x".toList) {}
            = (.matched ⟨nestedValue.display.toList, [n], ", x".toList⟩, a) ∧
        readValue n = .ok nestedValue := by
  have hpath : IsDottedName (['a'] ++ '.' :: ['N', 'E', 'W', 'S']) :=
    .dotted (by decide) (.single (by decide))
  have hboolean : NoBoolean "a.NEWS".toList := by
    intro b
    cases b <;> decide
  have hnumber : IsNumberLiteral ('-' :: (['1'] ++ '.' :: ['5', '0'])) :=
    .negative (.fraction (by decide) (by decide))
  have hv : nestedValue.WellSpelled := by
    simp only [nestedValue, Value.WellSpelled, Value.ItemsWellSpelled, Value.ArgsWellSpelled]
    exact ⟨⟨.single (by decide), by simp, trivial, by simp; decide, trivial, by simp, trivial,
      trivial⟩, hnumber, ⟨hpath, hboolean⟩, trivial⟩
  have htexts : nestedValue.texts = ["a\n\t\"\\é"] := by
    simp [nestedValue, Value.texts, Value.itemTexts, Value.argTexts]
  have hquoted : ∀ c ∈ ['a', '\n', '\t', '"', '\\', 'é'],
      quoteChar c = [c] ∨ ∃ d ∈ sharedEscapes, quoteChar c = ['\\', d] := by
    simp only [List.forall_mem_cons]
    exact ⟨.inl (by decide), .inr ⟨'n', by decide, by decide⟩, .inr ⟨'t', by decide, by decide⟩,
      .inr ⟨'"', by decide, by decide⟩, .inr ⟨'\\', by decide, by decide⟩, .inl (by decide),
      by simp⟩
  obtain ⟨n, a, hrun, -, -, -, hread⟩ := display_rereads nestedValue ", x".toList hv
    (by simpa [htexts] using hquoted) rfl
  exact ⟨by decide +kernel, n, a, hrun, hread⟩

end PrismaTypes
