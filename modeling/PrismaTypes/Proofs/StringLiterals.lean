import PrismaTypes.Proofs.QuotedTexts

/-!
# String literals and what they stand for

Where a string literal ends is decided by the grammar (`scanString`), and what it stands for by
reading the text between its quotes once more (`Outline.unquote`). Both group backslashes with the
characters behind them, each on its own. This file shows that the groups are the same.

* `scanString_eq_some_iff`: a literal is a quote, plain characters and whole pairs of a backslash
  and a character, and a quote.
* `inside?` and `pieces` follow the reading of a literal and, unlike the reading itself, tell where
  it falls back: on a text without quotes around it, and on a backslash with nothing behind it.
  `unquote_eq` says that they follow it on every text.
* `string_literals_decode`: every text has a literal that stands for it, and no literal of the
  grammar makes the reading fall back.
-/

namespace PrismaTypes
namespace Grammar

open Outline (inside unescape unquote)
open Text (Place)

/-! ## What the grammar takes -/

theorem exists_denotes_of_splitString {s : List Char} {x : Scan} (h : splitString s = some x) :
    ∃ w v, Denotes w v ∧ x.1 = w ++ ['\"'] := by
  fun_induction splitString s generalizing x with
  | case1 =>
      cases h
  | case2 rest =>
      cases h
      exact ⟨[], [], .nil, rfl⟩
  | case3 =>
      cases h
  | case4 c rest ih =>
      obtain ⟨y, hy, rfl⟩ := Option.map_eq_some_iff.1 h
      obtain ⟨w, v, hw, hx⟩ := ih hy
      exact ⟨'\\' :: c :: w, pairValue c :: v, .pair c hw, by simp [Scan.push, hx]⟩
  | case5 c rest hquote hlast hpair ih =>
      obtain ⟨y, hy, rfl⟩ := Option.map_eq_some_iff.1 h
      obtain ⟨w, v, hw, hx⟩ := ih hy
      -- The cases before this one took every quote and every backslash.
      have hbackslash : c ≠ '\\' := by
        intro heq
        cases rest with
        | nil =>
            exact hlast heq rfl
        | cons d rest =>
            exact hpair d rest heq rfl
      have hc : needsEscape c = false := by simpa [needsEscape] using ⟨hquote, hbackslash⟩
      exact ⟨c :: w, c :: v, .plain hc hw, by simp [Scan.push, hx]⟩

/-- The string literals of the grammar, described without a scanner. -/
theorem scanString_eq_some_iff {s : List Char} {x : Scan} :
    scanString s = some x ↔
      ∃ w v, Denotes w v ∧ x.1 = ['\"'] ++ w ++ ['\"'] ∧ s = x.1 ++ x.2 := by
  constructor
  · intro h
    have hsplits : x.1 ++ x.2 = s := scanString_splits h
    unfold scanString at h
    split at h
    · obtain ⟨y, hy, rfl⟩ := Option.map_eq_some_iff.1 h
      obtain ⟨w, v, hw, hy⟩ := exists_denotes_of_splitString hy
      exact ⟨w, v, hw, by simp [Scan.push, hy], hsplits.symm⟩
    · cases h
  · rintro ⟨w, v, hw, hx, rfl⟩
    rcases x with ⟨taken, rest⟩
    cases hx
    exact hw.scanString_eq rest

/-! ## How a literal is read -/

/-- The inside of a literal, if there are quotes at both of its ends. -/
def inside? : List Char → Option (List Char)
  | '\"' :: rest => if rest.getLast? = some '\"' then some rest.dropLast else none
  | _ => none

/-- What is read in one step of the inside of a literal. -/
inductive Piece
  | plain (c : Char)
  /-- A backslash and the character behind it. -/
  | pair (c : Char)
  /-- A backslash with nothing behind it. -/
  | dangling
  deriving DecidableEq, Repr

namespace Piece

def written : Piece → List Char
  | plain c => [c]
  | pair c => ['\\', c]
  | dangling => ['\\']

def value : Piece → Char
  | plain c => c
  | pair c => pairValue c
  | dangling => '\\'

/-- A pair, or a character that is neither a quote nor a backslash. -/
def isWhole : Piece → Bool
  | plain c => !needsEscape c
  | pair _ => true
  | dangling => false

end Piece

/-- The steps in which a text is unescaped. -/
def pieces : List Char → List Piece
  | [] => []
  | c :: rest =>
      if c = '\\' then
        match rest with
        | [] => [.dangling]
        | d :: rest => .pair d :: pieces rest
      else .plain c :: pieces rest

theorem inside_eq_getD (literal : List Char) : inside literal = (inside? literal).getD literal := by
  fun_cases inside? literal with
  | case1 rest hlast =>
      simp [inside, hlast]
  | case2 rest hlast =>
      simp [inside, hlast]
  | case3 literal hopen =>
      simp [inside]

theorem flatMap_written_pieces (s : List Char) : (pieces s).flatMap Piece.written = s := by
  fun_induction pieces s with
  | case1 =>
      rfl
  | case2 =>
      rfl
  | case3 d rest ih =>
      simp [Piece.written, ih]
  | case4 c rest hc ih =>
      simp [Piece.written, ih]

theorem map_value_pieces (s : List Char) : (pieces s).map Piece.value = unescape s := by
  fun_induction pieces s with
  | case1 =>
      rfl
  | case2 =>
      rfl
  | case3 d rest ih =>
      simp [Piece.value, unescape, pairValue, ih]
  | case4 c rest hc ih =>
      simp [Piece.value, unescape, hc, ih]

/-- The reading of any text, with both places where it falls back. -/
theorem unquote_eq (literal : List Char) :
    unquote literal = (pieces ((inside? literal).getD literal)).map Piece.value := by
  rw [unquote, inside_eq_getD, map_value_pieces]

example : inside? ['a', '\\'] = none ∧ pieces ['a', '\\'] = [.plain 'a', .dangling] ∧
    unquote ['a', '\\'] = ['a', '\\'] := by decide

/-! ## The reading of what the grammar takes -/

theorem Denotes.isWhole_of_mem_pieces {w v : List Char} (h : Denotes w v) :
    ∀ p ∈ pieces w, p.isWhole = true := by
  induction h with
  | nil =>
      simp [pieces]
  | @plain c w v hc h ih =>
      have hbackslash : c ≠ '\\' := by
        rintro rfl
        cases hc
      have hcons : pieces (c :: w) = .plain c :: pieces w := by
        rw [pieces.eq_def]
        exact if_neg hbackslash
      rw [hcons, List.forall_mem_cons]
      exact ⟨by simp [Piece.isWhole, hc], ih⟩
  | @pair w v c h ih =>
      have hcons : pieces ('\\' :: c :: w) = .pair c :: pieces w := rfl
      rw [hcons, List.forall_mem_cons]
      exact ⟨rfl, ih⟩

theorem inside?_eq_some (w : List Char) : inside? (['\"'] ++ w ++ ['\"']) = some w := by
  simp [inside?]

/-- A call of a token's rule ends as its scanner does, wherever it is made. -/
theorem run_token {rule : Rule} {scan : List Char → Option Scan} (hform : rule.form = .token scan)
    {s : List Char} {x : Scan} (hscan : scan s = some x) (fuel : Nat) (tight : Bool)
    (place : Place) (a : Attempts) :
    run (fuel + 1) tight (.call rule) place s a
      = (.matched ((Match.ofScan x).asNode rule place), a) := by
  simp only [run, hform, hscan]
  rfl

/-! ## Result -/

/-- Any text between quotes, with a backslash before each of its quotes and backslashes, is matched
as a string literal wherever it stands and whatever follows it, and that literal stands for the
text. Conversely, a literal that is matched anywhere has its quotes taken off, and its inside is
read in pairs and in characters that are neither quotes nor backslashes: the reading never falls
back. -/
theorem string_literals_decode :
    (∀ s r : List Char,
      (∀ fuel tight place a, run (fuel + 1) tight (.call .stringLiteral) place (quoted s ++ r) a
        = (.matched ⟨quoted s, [.mk .stringLiteral place (quoted s) []], r⟩, a)) ∧
      matchRule .stringLiteral (quoted s ++ r) = .ok [.mk .stringLiteral {} (quoted s) []] ∧
      unquote (quoted s) = s) ∧
    (∀ fuel tight place t a m a',
      run fuel tight (.call .stringLiteral) place t a = (.matched m, a') →
      ∃ body, m.taken = ['\"'] ++ body ++ ['\"'] ∧ t = m.taken ++ m.rest ∧
        m.nodes = [.mk .stringLiteral place m.taken []] ∧
        inside? m.taken = some body ∧
        (∀ p ∈ pieces body, p.isWhole = true) ∧
        (pieces body).flatMap Piece.written = body ∧
        (pieces body).map Piece.value = unquote m.taken) := by
  constructor
  · intro s r
    have hscan := scanString_quoted s r
    exact ⟨run_token rfl hscan, (matchRule_token_iff rfl).2 ⟨_, hscan, rfl⟩, unquote_quoted s⟩
  · intro fuel tight place t a m a' hrun
    have d : Derives tight (.call .stringLiteral) place t (some m) :=
      derives_of_run (congrArg (fun r => r.1.ending?) hrun)
    obtain ⟨x, hx, rfl⟩ := d.of_token_some rfl
    obtain ⟨w, v, hw, htaken, ht⟩ := scanString_eq_some_iff.1 hx
    have hinside : inside? x.1 = some w := by rw [htaken, inside?_eq_some]
    have hvalue : (pieces w).map Piece.value = unquote x.1 := by
      rw [unquote_eq, hinside, Option.getD_some]
    exact ⟨w, htaken, ht, rfl, hinside, hw.isWhole_of_mem_pieces, flatMap_written_pieces w, hvalue⟩

/-- An escaped backslash before an escaped quote, and another one before the quote that ends the
literal. -/
def backslashRuns : List Char :=
  "\"\\\\\\\"\\\\\"x\"".toList

theorem string_literals_decode_backslashRuns :
    ∃ m body, run 1 true (.call .stringLiteral) {} backslashRuns {} = (.matched m, {}) ∧
      m.rest = ['x', '\"'] ∧ m.taken = ['\"'] ++ body ++ ['\"'] ∧ inside? m.taken = some body ∧
      pieces body = [.pair '\\', .pair '\"', .pair '\\'] ∧
      unquote m.taken = ['\\', '\"', '\\'] := by
  have hscan : scanString backslashRuns
      = some (['\"', '\\', '\\', '\\', '\"', '\\', '\\', '\"'], ['x', '\"']) := by decide
  have hrun : run 1 true (.call .stringLiteral) {} backslashRuns {} = _ :=
    run_token rfl hscan 0 true {} {}
  obtain ⟨body, htaken, -, -, hinside, -, -, hvalue⟩ :=
    string_literals_decode.2 1 true {} backslashRuns {} _ {} hrun
  obtain rfl : ['\\', '\\', '\\', '\"', '\\', '\\'] = body := Option.some.inj hinside
  exact ⟨_, _, hrun, rfl, htaken, hinside, rfl, hvalue.symm⟩

end Grammar
end PrismaTypes
