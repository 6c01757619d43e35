import FieldQuery.Condition.Basic
import FieldQuery.Sql.Literal
import FieldQuery.Sql.Identifier

/-!
# Fragments

A canonical sequence is written as the condition part of an SQL statement: its nodes with single
spaces between them, groups in parentheses, and every value as a literal. Parentheses are written
where the sequence has a group and nowhere else.

A sequence can be written unless one of its conditions has a number of values that its comparator
does not take; the walk stops at the first such condition. The walk is the same whatever else is
done at a condition, so it is written for any monad.
-/

namespace FieldQuery.Sql

/-- How field names and values are written. -/
structure Style where
  escaper : Escaper
  quoting : Quoting := .none

/-- A condition whose number of values is not the one that its comparator takes. -/
structure ArityError where
  field : String
  comparator : Comparator
  count : Nat
deriving DecidableEq, Repr

/-- The wording of the error. -/
def ArityError.message (e : ArityError) : String :=
  s!"Internal invariant violated: atom on field '{e.field}' has operator {e.comparator.symbol} " ++
    s!"with {e.count} value(s)"

/-- Writes a condition. -/
def renderCondition (style : Style) (c : Condition) : Except ArityError String :=
  let field := style.quoting.identifier c.field
  match c.comparator, c.values with
  | .between, [lower, upper] =>
    .ok (field ++ " BETWEEN " ++ literal style.escaper lower ++ " AND " ++
      literal style.escaper upper)
  | .equal, [value] => .ok (field ++ " = " ++ literal style.escaper value)
  | .greater, [value] => .ok (field ++ " > " ++ literal style.escaper value)
  | .less, [value] => .ok (field ++ " < " ++ literal style.escaper value)
  | comparator, values => .error ⟨c.field, comparator, values.length⟩

section
variable {m : Type → Type} [Monad m]

mutual

/-- Writes a node, if it is known how a condition is written. -/
def writeNode (condition : Condition → m String) : Node → m String
  | .condition c => condition c
  | .connective c => pure c.symbol
  | .group nodes => do
    let parts ← writeParts condition nodes
    return "(" ++ " ".intercalate parts ++ ")"

/-- Writes each node of a sequence, from left to right. -/
def writeParts (condition : Condition → m String) : List Node → m (List String)
  | [] => pure []
  | node :: nodes => do
    let part ← writeNode condition node
    let parts ← writeParts condition nodes
    return part :: parts

end

/-- Writes a sequence, if it is known how a condition is written. -/
def write (condition : Condition → m String) (nodes : List Node) : m String := do
  let parts ← writeParts condition nodes
  return " ".intercalate parts

end

/-- Writes a node. -/
def renderNode (style : Style) : Node → Except ArityError String :=
  writeNode (renderCondition style)

/-- Writes each node of a sequence. -/
def renderParts (style : Style) : List Node → Except ArityError (List String) :=
  writeParts (renderCondition style)

/-- Writes a sequence. -/
def render (style : Style) : List Node → Except ArityError String :=
  write (renderCondition style)

theorem renderNode_group (style : Style) (nodes : List Node) :
    renderNode style (.group nodes) = do
      let parts ← renderParts style nodes
      return "(" ++ " ".intercalate parts ++ ")" :=
  rfl

theorem renderParts_cons (style : Style) (node : Node) (nodes : List Node) :
    renderParts style (node :: nodes) = do
      let part ← renderNode style node
      let parts ← renderParts style nodes
      return part :: parts :=
  rfl

theorem render_eq (style : Style) (nodes : List Node) :
    render style nodes = do
      let parts ← renderParts style nodes
      return " ".intercalate parts :=
  rfl

end FieldQuery.Sql
