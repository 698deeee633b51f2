import PrismaTypes.Grammar.Pattern
import PrismaTypes.Grammar.Node
import PrismaTypes.Grammar.Attempts

/-!
# Matching

`run` matches an expression at the front of a text. Choice is ordered, repetition takes as much as
it can, and what a finished part matched is never reconsidered. The fuel bounds the depth of the
recursion; `matchRule` supplies enough of it for the given text.
-/

namespace PrismaTypes
namespace Grammar

/-- What an expression took, the nodes it left, and the text after it. -/
structure Match where
  taken : List Char
  nodes : List Node
  rest : List Char

inductive Outcome
  | matched (m : Match)
  | failed
  /-- The fuel ran out. -/
  | exhausted

namespace Match

/-- Takes nothing. -/
def empty (s : List Char) : Match :=
  ⟨[], [], s⟩

def ofScan (s : Scan) : Match :=
  ⟨s.1, [], s.2⟩

/-- One match after another, with blanks between them. -/
def append (first : Match) (blanks : List Char) (second : Match) : Match :=
  ⟨first.taken ++ blanks ++ second.taken, first.nodes ++ second.nodes, second.rest⟩

/-- The match as a single node. -/
def asNode (m : Match) (rule : Rule) (place : Text.Place) : Match :=
  { m with nodes := [Node.mk rule place m.taken m.nodes] }

end Match

def Outcome.ofScan? : Option Scan → Outcome
  | some s => .matched (.ofScan s)
  | none => .failed

/-- Blanks between two parts: none inside a tight rule. -/
def gap (tight : Bool) (s : List Char) : Scan :=
  if tight then ([], s) else splitBlanks false s

/-- Turns the outcome of a rule's body into that of the rule: a node, or a recorded attempt. -/
def close (rule : Rule) (place : Text.Place) (before : Attempts) :
    Outcome × Attempts → Outcome × Attempts
  | (.matched m, after) => (.matched (m.asNode rule place), after)
  | (.failed, after) => (.failed, before.record after place.offset rule)
  | (.exhausted, after) => (.exhausted, after)

/-- Matches `e` at the front of `s`, which stands at `place`. -/
def run : Nat → Bool → Pattern → Text.Place → List Char → Attempts → Outcome × Attempts
  | 0, _, _, _, _, a => (.exhausted, a)
  | fuel + 1, tight, e, place, s, a =>
      match e with
      | .literal word =>
          match afterWord? word s with
          | some rest => (.matched ⟨word, [], rest⟩, a)
          | none => (.failed, a)
      | .notAhead word =>
          match afterWord? word s with
          | some _ => (.failed, a)
          | none => (.matched (.empty s), a)
      | .atStart => if place.offset = 0 then (.matched (.empty s), a) else (.failed, a)
      | .atEnd => if s.isEmpty then (.matched (.empty s), a) else (.failed, a)
      | .seq first second =>
          match run fuel tight first place s a with
          | (.matched m₁, a₁) =>
              let between := gap tight m₁.rest
              let next := place.advance (m₁.taken ++ between.1)
              match run fuel tight second next between.2 a₁ with
              | (.matched m₂, a₂) => (.matched (m₁.append between.1 m₂), a₂)
              | other => other
          | other => other
      | .choice first second =>
          match run fuel tight first place s a with
          | (.failed, a₁) => run fuel tight second place s a₁
          | other => other
      | .optional body =>
          match run fuel tight body place s a with
          | (.failed, a₁) => (.matched (.empty s), a₁)
          | other => other
      | .many body =>
          match run fuel tight body place s a with
          | (.matched m₁, a₁) =>
              let between := gap tight m₁.rest
              let next := place.advance (m₁.taken ++ between.1)
              match run fuel tight (.many body) next between.2 a₁ with
              | (.matched m₂, a₂) =>
                  -- Blanks with nothing after them are given back.
                  if m₂.taken.isEmpty then (.matched m₁, a₂)
                  else (.matched (m₁.append between.1 m₂), a₂)
              | other => other
          | (.failed, a₁) => (.matched (.empty s), a₁)
          | other => other
      | .call rule =>
          match rule.form with
          | .silent body => run fuel tight body place s a
          | .hidden scan => (.ofScan? (scan s), a)
          | .token scan => close rule place a (.ofScan? (scan s), a)
          | .spaced body => close rule place a (run fuel tight body place s a)
          | .tight body => close rule place a (run fuel true body place s a)

/-- Depth of recursion that any rule needs on `s`: each character is taken within a bounded number
of steps. -/
def fuelFor (s : List Char) : Nat :=
  64 * (s.length + 1)

/-- A refused text: where the furthest attempts failed, and what was wanted there. -/
structure Failure where
  offset : Nat
  expected : List Rule
  deriving DecidableEq, Repr

/-- Matches a rule at the front of a text. -/
def matchRule (rule : Rule) (s : List Char) : Except Failure (List Node) :=
  match run (fuelFor s) false (.call rule) {} s {} with
  | (.matched m, _) => .ok m.nodes
  | (_, a) => .error { offset := a.offset, expected := a.expected }

end Grammar
end PrismaTypes
