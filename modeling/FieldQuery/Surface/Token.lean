import FieldQuery.Surface.Lexeme

/-!
# Token streams

A query has two kinds of places. At an operand an expression is due: a comparison, or a
parenthesis that opens a group. At a joint an expression has just ended: a parenthesis may close a
group, a link may lead to the next operand, or the text may end. The stream of tokens of a text is
indexed by the kind of its first place, so that only tokens that can stand there do.

Scanning knows nothing of groups and their nesting, and nothing of offsets. It goes on until the
text ends or a reader fails, and a reader's fault is the last token of the stream.
-/

namespace FieldQuery

/-- The kinds of places in a query. -/
inductive Place where
  /-- An expression is due. -/
  | operand
  /-- An expression has just ended. -/
  | joint
deriving DecidableEq, Repr

/-- What a text holds from a place of a given kind on. -/
inductive Tokens : Place → Type where
  /-- A parenthesis opens a group. -/
  | opening (rest : Tokens .operand) : Tokens .operand
  | comparison (c : Comparison) (rest : Tokens .joint) : Tokens .operand
  /-- A parenthesis closes a group. -/
  | closing (rest : Tokens .joint) : Tokens .joint
  | link (l : Link) (rest : Tokens .operand) : Tokens .joint
  /-- The text ends. -/
  | done : Tokens .joint
  /-- Nothing that may stand at this place can be read. -/
  | fault {p : Place} (f : Fault) : Tokens p
deriving Repr

namespace Tokens

/-- Cuts a text into tokens, from a place of the given kind on. -/
def scan (p : Place) (s : List Char) : Tokens p :=
  match p, s with
  | .operand, [] => .fault (.noExpression [])
  | .operand, c :: s =>
    if c = '(' then .opening (scan .operand s)
    else
      match h : Comparison.lex (c :: s) with
      | .error f => .fault f
      | .ok (found, rest) =>
        have := Comparison.length_lt_of_lex h
        .comparison found (scan .joint rest)
  | .joint, [] => .done
  | .joint, c :: s =>
    if c = ')' then .closing (scan .joint s)
    else
      match h : Link.lex (c :: s) with
      | none => .fault (.trailing (c :: s))
      | some (found, rest) =>
        have := Link.length_lt_of_lex h
        .link found (scan .operand rest)
termination_by s.length
decreasing_by all_goals simp only [List.length_cons] at *; omega

end Tokens

end FieldQuery
