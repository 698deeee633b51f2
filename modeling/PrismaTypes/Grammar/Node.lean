import PrismaTypes.Grammar.Rule
import PrismaTypes.Text.Location

/-!
# Trees of matched rules

A node records which rule matched, where, the text it covers and the nodes of the rules matched
inside it, in order.
-/

namespace PrismaTypes
namespace Grammar

inductive Node
  | mk (rule : Rule) (place : Text.Place) (text : List Char) (children : List Node)

namespace Node

def rule : Node → Rule
  | mk r _ _ _ => r

def place : Node → Text.Place
  | mk _ p _ _ => p

def text : Node → List Char
  | mk _ _ t _ => t

def children : Node → List Node
  | mk _ _ _ ns => ns

/-- Offset right after the covered text. -/
def stop (n : Node) : Nat :=
  n.place.offset + Text.byteLength n.text

end Node

end Grammar
end PrismaTypes
