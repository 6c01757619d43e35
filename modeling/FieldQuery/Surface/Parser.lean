import FieldQuery.Surface.Token

/-!
# From tokens to trees

A query is put together from its tokens in one pass. What has been read so far around the current
place is a stack of frames: one for the query being read and one for each group that is still
open. The number of open groups is the height of the stack, which is all that the nesting limit
looks at.

The pass also keeps the byte offset at which it stands. Offsets are only added to, by the size of
each token's text, so a query's offsets shift with the offset at which it starts.
-/

namespace FieldQuery

/-- The part of a query before the current place: expressions, each with the keyword after it,
from the last one back to the first. -/
abbrev Frame := List (Expr × Keyword)

/-- The query that a frame becomes when its last expression has been read. -/
def Frame.close (frame : Frame) (last : Expr) : Query :=
  frame.foldl (fun q (e, k) => .chain e k q) (.single last)

/-- What has been read around a place: the frame of the query being read, and the frames of the
queries around it, from the inside out. At a joint there is also the expression that has just
ended. -/
inductive Reading : Place → Type where
  | due (frame : Frame) (outer : List Frame) : Reading .operand
  | ended (last : Expr) (frame : Frame) (outer : List Frame) : Reading .joint

/-- Puts together a query from the tokens that are still to come, the byte offset at which they
start and what has been read before them, with a limit on the number of open groups. -/
def Tokens.parse (limit : Nat) : {p : Place} → Tokens p → Nat → Reading p → Except SyntaxError Query
  | _, .opening rest, pos, .due frame outer =>
    if outer.length < limit then rest.parse limit (pos + 1) (.due [] (frame :: outer))
    else .error ⟨pos, .nestingTooDeep limit⟩
  | _, .comparison c rest, pos, .due frame outer =>
    rest.parse limit (pos + c.text.utf8ByteSize) (.ended (.comparison ⟨c, pos⟩) frame outer)
  | _, .closing rest, pos, .ended last frame outer =>
    match outer with
    | [] => .error ⟨pos, .unbalancedParenthesis⟩
    | around :: outer =>
      rest.parse limit (pos + 1) (.ended (.group (frame.close last)) around outer)
  | _, .link l rest, pos, .ended last frame outer =>
    let keyword := ⟨l.word, pos + l.before.utf8ByteSize⟩
    rest.parse limit (pos + l.text.utf8ByteSize) (.due ((last, keyword) :: frame) outer)
  | _, .done, pos, .ended last frame outer =>
    match outer with
    | [] => .ok (frame.close last)
    | _ :: _ => .error ⟨pos, .unbalancedParenthesis⟩
  | _, .fault f, pos, _ => .error ⟨pos + f.skipped.utf8ByteSize, f.reason⟩

/-- Reads a text as a query whose groups nest at most `limit` deep. -/
def Query.parse (limit : Nat) (s : String) : Except SyntaxError Query :=
  (Tokens.scan .operand s.toList).parse limit 0 (.due [] [])

end FieldQuery
