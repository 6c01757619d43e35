import FieldQuery.Text.CharClass
import FieldQuery.Sql.Literal

/-!
# Field names as identifiers

A field name is written as it is, unless it is a reserved word of SQL and a style of quoting has
been chosen.
-/

namespace FieldQuery.Sql

/-- How field names that are reserved words are quoted. -/
inductive Quoting where
  /-- Not at all. -/
  | none
  /-- In double quotes. -/
  | ansi
  /-- In backticks. -/
  | backtick
deriving DecidableEq, Repr, Inhabited

/-- The name of a style. -/
def Quoting.name : Quoting → String
  | none => "none"
  | ansi => "ansi"
  | backtick => "backtick"

/-- The style of a given name. -/
def Quoting.ofName? (s : String) : Option Quoting :=
  [none, ansi, backtick].find? fun q => q.name = s

@[simp] theorem Quoting.ofName?_name (q : Quoting) : ofName? q.name = some q := by
  cases q <;> decide

/-- The words that need quotes when they are used as identifiers. -/
def reservedWords : List String :=
  ["all", "alter", "and", "as", "asc", "between", "by", "case", "check", "column",
    "constraint", "create", "default", "delete", "desc", "distinct", "drop", "else",
    "end", "exists", "false", "foreign", "from", "group", "having", "in", "index",
    "inner", "insert", "is", "join", "key", "left", "like", "limit", "not", "null",
    "offset", "on", "or", "order", "outer", "primary", "references", "right", "select",
    "table", "then", "to", "true", "union", "update", "user", "values", "when", "where"]

/-- Whether a name is a reserved word, whatever the case of its letters. -/
def isReserved (name : String) : Bool :=
  reservedWords.contains (Text.lower name)

/-- A name between quotes, each quote inside it written twice. -/
def quoted (quote : Char) (name : String) : String :=
  String.ofList (quote :: doubleChars quote name.toList ++ [quote])

/-- The identifier of a field name. -/
def Quoting.identifier (q : Quoting) (name : String) : String :=
  if isReserved name then
    match q with
    | none => name
    | ansi => quoted '"' name
    | backtick => quoted '\x60' name
  else name

end FieldQuery.Sql
