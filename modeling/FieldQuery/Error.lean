import FieldQuery.Surface.Reason
import FieldQuery.Condition.Resolve
import FieldQuery.Sql.Render
import FieldQuery.Config.Error

/-!
# Errors

Everything that can go wrong between a query text and its fragment, in one type. A query text is
to blame for the first two kinds and for no other.
-/

namespace FieldQuery

/-- Why a conversion has no result. -/
inductive Error where
  /-- The text is no query. -/
  | malformed (e : SyntaxError)
  /-- The query has no meaning. -/
  | meaningless (e : SemanticError)
  /-- A condition cannot be written. -/
  | unwritable (e : Sql.ArityError)
  /-- The settings cannot be used. -/
  | misconfigured (e : ConfigError)
deriving DecidableEq, Repr

namespace Error

/-- The wording of an error. -/
def message : Error → String
  | malformed e => e.message
  | meaningless e => e.message
  | unwritable e => e.message
  | misconfigured e => e.message

/-- The byte offset in the query text that an error points at. -/
def position? : Error → Option Nat
  | malformed e => some e.position
  | meaningless e => some e.position
  | unwritable _ => none
  | misconfigured _ => none

/-- Whether the query text is to blame, and not the settings or the library. -/
def isUserError : Error → Bool
  | malformed _ => true
  | meaningless _ => true
  | unwritable _ => false
  | misconfigured _ => false

end Error

end FieldQuery
