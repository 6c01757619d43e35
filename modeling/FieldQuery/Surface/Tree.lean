/-!
# Surface trees

A query as it is written: comparisons, keywords and groups in the order of the text, with every
text kept as it stands there (quotes, backslashes and the case of keywords included) and with the
byte offset of every comparison and keyword.

A surface tree need not come from a text. Its operators, keywords and values are plain texts, and
what they mean, if anything, is decided when the tree is resolved.
-/

namespace FieldQuery

/-- The value of a comparison, as written. -/
inductive Value where
  /-- `[left;right]`, without the brackets and the semicolon. -/
  | range (left right : String)
  /-- A value in double quotes, which are part of the text. -/
  | quoted (text : String)
  /-- A bare run that is no number. -/
  | unquoted (text : String)
  /-- A bare run that is a number. -/
  | number (text : String)
deriving DecidableEq, Repr

/-- The text that a value is written as. -/
def Value.text : Value → String
  | range left right => "[" ++ left ++ ";" ++ right ++ "]"
  | quoted text => text
  | unquoted text => text
  | number text => text

/-- A field, an operator and a value, with nothing between them. -/
structure Comparison where
  field : String
  operator : String
  value : Value
deriving DecidableEq, Repr

/-- The text that a comparison is written as. -/
def Comparison.text (c : Comparison) : String :=
  c.field ++ c.operator ++ c.value.text

/-- A comparison at its byte offset. -/
structure PlacedComparison extends Comparison where
  position : Nat
deriving DecidableEq, Repr

/-- A keyword, in the case in which it is written, at its byte offset. -/
structure Keyword where
  word : String
  position : Nat
deriving DecidableEq, Repr

mutual

/-- What a keyword joins: a comparison, or a query in parentheses. -/
inductive Expr where
  | comparison (c : PlacedComparison)
  | group (q : Query)

/-- One or more expressions with a keyword between each two. -/
inductive Query where
  | single (e : Expr)
  | chain (e : Expr) (k : Keyword) (rest : Query)

end

deriving instance DecidableEq, Repr for Expr, Query

/-- The first expression of a query. -/
def Query.head : Query → Expr
  | .single e => e
  | .chain e _ _ => e

/-- The keywords of a query, each with the expression after it. -/
def Query.tail : Query → List (Keyword × Expr)
  | .single _ => []
  | .chain _ k rest => (k, rest.head) :: rest.tail

/-- The query with a given first expression and tail. -/
def Query.ofTail (e : Expr) : List (Keyword × Expr) → Query
  | [] => .single e
  | (k, e') :: tail => .chain e k (ofTail e' tail)

/-- A query that is followed by a keyword and a second query. -/
def Query.append : Query → Keyword → Query → Query
  | .single e, k, q => .chain e k q
  | .chain e k' rest, k, q => .chain e k' (rest.append k q)

@[simp] theorem Query.ofTail_head_tail : (q : Query) → ofTail q.head q.tail = q
  | .single _ => rfl
  | .chain e k rest => congrArg (Query.chain e k) (ofTail_head_tail rest)

mutual

/-- How many groups of an expression lie inside each other. -/
def Expr.depth : Expr → Nat
  | .comparison _ => 0
  | .group q => q.depth + 1

/-- How many groups of a query lie inside each other. -/
def Query.depth : Query → Nat
  | .single e => e.depth
  | .chain e _ rest => max e.depth rest.depth

end

end FieldQuery
