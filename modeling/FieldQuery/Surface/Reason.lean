/-!
# Why a text is no query

A text that is no query is refused with a `SyntaxError`: one reason, and the byte offset in the
UTF-8 form of the text at which the reason holds.
-/

namespace FieldQuery

/-- What the text lacks, or has too much of, at the place where reading it stopped. -/
inductive SyntaxReason where
  /-- A quoted value has no closing quote. -/
  | unterminatedQuote
  /-- A closing parenthesis stands where none is due, or one is due at the end of the text. -/
  | unbalancedParenthesis
  /-- A range is not two bounds with a semicolon between them and brackets around them. -/
  | malformedRange
  /-- Two expressions have no keyword between them. -/
  | missingOperator
  /-- A comparison starts with its operator. -/
  | missingField
  /-- A field name has no operator after it. -/
  | missingAtomOperator
  /-- An operator has no value after it. -/
  | missingValue
  /-- Something that starts no expression stands where one is due. -/
  | expectedExpression (found : Char)
  /-- Something stands directly after an expression. -/
  | unexpectedInput (found : Char)
  /-- The text ends where more is due. -/
  | unexpectedEnd
  /-- One more group is opened than the limit allows. -/
  | nestingTooDeep (limit : Nat)
deriving DecidableEq, Repr

/-- The wording of a reason. -/
def SyntaxReason.message : SyntaxReason → String
  | unterminatedQuote => "unterminated quoted string"
  | unbalancedParenthesis => "unbalanced parenthesis"
  | malformedRange => "malformed range, expected [left;right]"
  | missingOperator => "missing boolean operator between expressions"
  | missingField => "missing field name"
  | missingAtomOperator => "missing ':', ':>' or ':<' after field name"
  | missingValue => "missing value"
  | expectedExpression found => s!"expected an expression, found '{found}'"
  | unexpectedInput found => s!"unexpected input '{found}'"
  | unexpectedEnd => "unexpected end of input"
  | nestingTooDeep limit => s!"parentheses nested deeper than {limit} levels"

/-- The refusal of a text: a reason at a byte offset. -/
structure SyntaxError where
  /-- Byte offset in the UTF-8 form of the text. -/
  position : Nat
  reason : SyntaxReason
deriving DecidableEq, Repr

/-- The wording of a refusal. -/
def SyntaxError.message (e : SyntaxError) : String :=
  s!"Syntax error at position {e.position}: {e.reason.message}"

end FieldQuery
