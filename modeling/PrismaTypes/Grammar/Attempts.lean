import PrismaTypes.Grammar.Rule

/-!
# Failed attempts

While a text is matched, `Attempts` remembers the furthest offset at which a rule failed and which
rules were wanted there. Nothing that succeeds later takes an attempt back.
-/

namespace PrismaTypes
namespace Grammar

structure Attempts where
  offset : Nat := 0
  wanted : List Rule := []
  deriving DecidableEq, Repr

namespace Attempts

/-- Number of rules wanted at an offset. -/
def countAt (a : Attempts) (offset : Nat) : Nat :=
  if offset = a.offset then a.wanted.length else 0

/-- Records that `rule` failed at `offset`, where `before` is what was known when the rule was
entered and `after` what its parts added. When exactly one part was wanted at the same offset, that
part says more than the rule and stays; otherwise the rule stands for its parts. -/
def record (before after : Attempts) (offset : Nat) (rule : Rule) : Attempts :=
  let known := before.countAt offset
  if after.countAt offset = known + 1 then after
  else if offset = after.offset then { after with wanted := after.wanted.take known ++ [rule] }
  else if after.offset < offset then { offset, wanted := [rule] }
  else after

/-- The wanted rules, each once, in the order of the grammar. -/
def expected (a : Attempts) : List Rule :=
  Rule.all.filter (a.wanted.contains ·)

end Attempts

end Grammar
end PrismaTypes
