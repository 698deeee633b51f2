/-!
# Grammar rules

The rules of the schema language. Reports list expected rules by the names given here and in the
order of `Rule.all`: the end of the input first, then the rules from the whole schema down to the
single word.
-/

namespace PrismaTypes
namespace Grammar

inductive Rule
  | endOfInput
  | whitespace
  | comment
  | schema
  | definition
  | documentation
  | docLine
  | docText
  | modelBlock
  | modelItem
  | enumBlock
  | enumItem
  | enumValue
  | configBlock
  | configKeyword
  | configItem
  | configProperty
  | skippedBlock
  | skippedKeyword
  | field
  | fieldType
  | unsupportedType
  | typeName
  | typeModifier
  | listMarker
  | optionalMarker
  | fieldAttribute
  | blockAttribute
  | attributeName
  | attributeArgs
  | attributeArg
  | argName
  | expression
  | functionCall
  | arrayLiteral
  | stringLiteral
  | numberLiteral
  | booleanLiteral
  | path
  | identifier
  deriving DecidableEq, Repr

namespace Rule

/-- All rules, in the order in which reports list them. -/
def all : List Rule :=
  [endOfInput, whitespace, comment, schema, definition, documentation, docLine, docText,
   modelBlock, modelItem, enumBlock, enumItem, enumValue, configBlock, configKeyword, configItem,
   configProperty, skippedBlock, skippedKeyword, field, fieldType, unsupportedType, typeName,
   typeModifier, listMarker, optionalMarker, fieldAttribute, blockAttribute, attributeName,
   attributeArgs, attributeArg, argName, expression, functionCall, arrayLiteral, stringLiteral,
   numberLiteral, booleanLiteral, path, identifier]

/-- The name under which a rule is reported. -/
def name : Rule → String
  | endOfInput => "EOI"
  | whitespace => "WHITESPACE"
  | comment => "COMMENT"
  | schema => "schema"
  | definition => "definition"
  | documentation => "documentation"
  | docLine => "doc_line"
  | docText => "doc_text"
  | modelBlock => "model_def"
  | modelItem => "model_item"
  | enumBlock => "enum_def"
  | enumItem => "enum_item"
  | enumValue => "enum_value"
  | configBlock => "config_block"
  | configKeyword => "config_keyword"
  | configItem => "config_item"
  | configProperty => "config_property"
  | skippedBlock => "skipped_block"
  | skippedKeyword => "skipped_keyword"
  | field => "field_def"
  | fieldType => "field_type"
  | unsupportedType => "unsupported_type"
  | typeName => "type_name"
  | typeModifier => "type_modifier"
  | listMarker => "list_marker"
  | optionalMarker => "optional_marker"
  | fieldAttribute => "field_attribute"
  | blockAttribute => "block_attribute"
  | attributeName => "attribute_name"
  | attributeArgs => "attribute_args"
  | attributeArg => "attribute_arg"
  | argName => "arg_name"
  | expression => "expression"
  | functionCall => "function_call"
  | arrayLiteral => "array_literal"
  | stringLiteral => "string_literal"
  | numberLiteral => "number_literal"
  | booleanLiteral => "boolean_literal"
  | path => "path"
  | identifier => "identifier"

def ofName? (name : String) : Option Rule :=
  all.find? (·.name == name)

end Rule

end Grammar
end PrismaTypes
