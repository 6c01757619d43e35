import FieldQuery.Sql.Identifier

/-!
# Settings
-/

namespace FieldQuery

/-- What can be chosen about a conversion, apart from the escaper. -/
structure Config where
  /-- How deep groups may nest. -/
  maxDepth : Nat := 64
  /-- How field names that are reserved words are quoted. -/
  quoting : Sql.Quoting := .none
deriving DecidableEq, Repr, Inhabited

end FieldQuery
