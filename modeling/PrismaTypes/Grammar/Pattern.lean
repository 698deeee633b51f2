import PrismaTypes.Grammar.Rule
import PrismaTypes.Grammar.Token

/-!
# The schema grammar

Rules are defined by parsing expressions with ordered choice. Each rule has a form that says how its
parts may be set apart and whether it leaves a node in the tree:

- a *token* is one word, scanned as a whole;
- *spaced* rules allow blanks and comments between their parts, except inside a tight one;
- *tight* rules allow none;
- *silent* rules are spaced and leave no node, and a *hidden* one is a token that leaves none.
-/

namespace PrismaTypes
namespace Grammar

inductive Pattern
  /-- The given characters. -/
  | literal (word : List Char)
  /-- Takes nothing, and refuses when the given characters follow. -/
  | notAhead (word : List Char)
  | atStart
  | atEnd
  | call (rule : Rule)
  | seq (first second : Pattern)
  | choice (first second : Pattern)
  | many (body : Pattern)
  | optional (body : Pattern)
  deriving DecidableEq, Repr

inductive Form
  | token (scan : List Char → Option Scan)
  | hidden (scan : List Char → Option Scan)
  | spaced (body : Pattern)
  | tight (body : Pattern)
  | silent (body : Pattern)

namespace Pattern

def word (s : String) : Pattern :=
  literal s.toList

/-- One expression after the other; the last one stands alone. -/
def sequence : Pattern → List Pattern → Pattern
  | e, [] => e
  | e, next :: rest => seq e (sequence next rest)

/-- The first expression that matches. -/
def oneOf : Pattern → List Pattern → Pattern
  | e, [] => e
  | e, next :: rest => choice e (oneOf next rest)

/-- At least one. -/
def some (e : Pattern) : Pattern :=
  seq e (many e)

/-- Items between commas; a comma may follow the last one, and there may be no item at all. -/
def commaList (e : Pattern) : Pattern :=
  optional (sequence e [many (seq (word ",") e), optional (word ",")])

/-- A keyword-like head, a name, and items in braces. -/
def block (head item : Pattern) : Pattern :=
  sequence head [call .identifier, word "\x7b", many item, word "\x7d"]

end Pattern

open Pattern in
/-- The definition of every rule. -/
def Rule.form : Rule → Form
  | .endOfInput => .spaced atEnd
  | .whitespace => .hidden scanSpace
  | .comment => .hidden scanComment
  | .schema =>
      .spaced (sequence atStart
        [many (choice (call .documentation) (call .definition)), call .endOfInput])
  | .definition =>
      .silent (oneOf (call .modelBlock) [call .enumBlock, call .configBlock, call .skippedBlock])
  | .documentation => .spaced (some (call .docLine))
  | .docLine => .tight (sequence (word "///") [notAhead ['/'], call .docText])
  | .docText => .token scanDocText
  | .modelBlock => .spaced (block (word "model") (call .modelItem))
  | .modelItem => .silent (oneOf (call .documentation) [call .field, call .blockAttribute])
  | .enumBlock => .spaced (block (word "enum") (call .enumItem))
  | .enumItem => .silent (oneOf (call .documentation) [call .enumValue, call .blockAttribute])
  | .enumValue => .spaced (seq (call .identifier) (many (call .fieldAttribute)))
  | .configBlock => .spaced (block (call .configKeyword) (call .configItem))
  | .configKeyword => .spaced (choice (word "datasource") (word "generator"))
  | .configItem => .silent (choice (call .documentation) (call .configProperty))
  | .configProperty => .spaced (sequence (call .identifier) [word "=", call .expression])
  | .skippedBlock => .spaced (block (call .skippedKeyword) (call .modelItem))
  | .skippedKeyword => .token scanBlockKeyword
  | .field =>
      .spaced (sequence (call .identifier) [call .fieldType, many (call .fieldAttribute)])
  | .fieldType =>
      .tight (seq (choice (call .unsupportedType) (call .typeName)) (optional (call .typeModifier)))
  | .unsupportedType =>
      .tight (sequence (word "Unsupported") [word "(", call .stringLiteral, word ")"])
  | .typeName => .token scanIdentifier
  | .typeModifier => .silent (choice (call .listMarker) (call .optionalMarker))
  | .listMarker => .spaced (word "[]")
  | .optionalMarker => .spaced (word "?")
  | .fieldAttribute =>
      .spaced (sequence (word "@") [call .attributeName, optional (call .attributeArgs)])
  | .blockAttribute =>
      .spaced (sequence (word "@@") [call .attributeName, optional (call .attributeArgs)])
  | .attributeName => .token scanPath
  | .attributeArgs => .spaced (sequence (word "(") [commaList (call .attributeArg), word ")"])
  | .attributeArg =>
      .spaced (choice (sequence (call .argName) [word ":", call .expression]) (call .expression))
  | .argName => .spaced (call .identifier)
  | .expression =>
      .silent (oneOf (call .functionCall) [call .arrayLiteral, call .stringLiteral,
        call .numberLiteral, call .booleanLiteral, call .path])
  | .functionCall => .spaced (seq (call .path) (call .attributeArgs))
  | .arrayLiteral => .spaced (sequence (word "[") [commaList (call .expression), word "]"])
  | .stringLiteral => .token scanString
  | .numberLiteral => .token scanNumber
  | .booleanLiteral => .token scanBoolean
  | .path => .token scanPath
  | .identifier => .token scanIdentifier

end Grammar
end PrismaTypes
