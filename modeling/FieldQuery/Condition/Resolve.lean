import FieldQuery.Text.CharClass
import FieldQuery.Text.Backslash
import FieldQuery.Surface.Tree
import FieldQuery.Condition.Basic

/-!
# Resolving surface trees

A surface tree becomes a canonical sequence: keywords become connectives, operators become
comparators, values lose their quotes and backslashes, and a range becomes the comparison that it
stands for. The sequence has the shape of the tree.

Three things can be wrong with a tree, and the first of them in the order of the text is
reported. Only the last, a range without any bound, can be written as a query text.
-/

namespace FieldQuery

open Text

/-- What makes a surface tree meaningless, and the byte offset of the part to blame. -/
inductive SemanticError where
  /-- A keyword that stands for no connective. -/
  | unknownOperator (keyword : String) (position : Nat)
  /-- An operator that stands for no comparator. -/
  | unknownAtomOperator (operator : String) (position : Nat)
  /-- A range that is open on both sides. -/
  | wildcardRange (field : String) (position : Nat)
deriving DecidableEq, Repr

/-- The byte offset that an error points at. -/
def SemanticError.position : SemanticError → Nat
  | unknownOperator _ position => position
  | unknownAtomOperator _ position => position
  | wildcardRange _ position => position

/-- The wording of an error. -/
def SemanticError.message : SemanticError → String
  | unknownOperator keyword position =>
    s!"Semantic error: unknown operator '{keyword}' at position {position}"
  | unknownAtomOperator operator position =>
    s!"Semantic error: unknown atom operator '{operator}' at position {position}"
  | wildcardRange field position =>
    s!"Semantic error: both sides of the range on field '{field}' cannot be wildcard " ++
      s!"(position {position})"

/-- The bound that leaves its side of a range open. -/
def wildcard : String :=
  "*"

/-- The connective that a keyword stands for, whatever the case of its letters. -/
def Connective.ofKeyword? (word : String) : Option Connective :=
  [and, or, andNot, not].find? fun c => c.keyword = lower word

/-- The comparator that an operator stands for. -/
def Comparator.ofOperator? (operator : String) : Option Comparator :=
  if operator = ":" then some .equal
  else if operator = ":>" then some .greater
  else if operator = ":<" then some .less
  else none

/-- The condition that a range stands for, with the backslashes of its bounds already resolved.
`none` if both sides are open. -/
def Condition.ofRange? (field left right : String) : Option Condition :=
  if left = wildcard then
    if right = wildcard then none else some (lessThan field right)
  else if right = wildcard then some (greaterThan field left)
  else some (between field left right)

/-- Resolves a keyword. -/
def Keyword.resolve (k : Keyword) : Except SemanticError Connective :=
  match Connective.ofKeyword? k.word with
  | some c => .ok c
  | none => .error (.unknownOperator k.word k.position)

/-- Resolves a comparison. A range replaces the operator in front of it, which must be one that
is known all the same. -/
def PlacedComparison.resolve (c : PlacedComparison) : Except SemanticError Condition :=
  match Comparator.ofOperator? c.operator with
  | none => .error (.unknownAtomOperator c.operator c.position)
  | some comparator =>
    match c.value with
    | .quoted text =>
      .ok ⟨c.field, comparator, [String.ofList (unescape (stripQuotes text.toList))]⟩
    | .unquoted text => .ok ⟨c.field, comparator, [unescapeText text]⟩
    | .number text => .ok ⟨c.field, comparator, [text]⟩
    | .range left right =>
      match Condition.ofRange? c.field (unescapeText left) (unescapeText right) with
      | some condition => .ok condition
      | none => .error (.wildcardRange c.field c.position)

mutual

/-- Resolves an expression to a single node. -/
def Expr.resolve : Expr → Except SemanticError Node
  | .comparison c => do
    let condition ← c.resolve
    return .condition condition
  | .group q => do
    let nodes ← q.resolve
    return .group nodes

/-- Resolves a query to the sequence of its expressions and connectives. -/
def Query.resolve : Query → Except SemanticError (List Node)
  | .single e => do
    let node ← e.resolve
    return [node]
  | .chain e k rest => do
    let node ← e.resolve
    let connective ← k.resolve
    let nodes ← rest.resolve
    return node :: .connective connective :: nodes

end

end FieldQuery
