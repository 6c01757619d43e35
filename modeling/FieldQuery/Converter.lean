import FieldQuery.Surface.Parser
import FieldQuery.Config.Basic
import FieldQuery.Log

/-!
# Converters

A converter takes a query text to its canonical sequence and to its fragment. It holds the escaper
and the settings and no trace of earlier conversions, so its answers do not depend on their order.

The empty text is no query, but it converts: to the empty sequence and the empty fragment, without
any event.
-/

namespace FieldQuery

/-- An escaper and settings. -/
structure Converter where
  escaper : Sql.Escaper
  config : Config := {}

/-- Reads a query text and resolves it, without any event. -/
def readNodes (config : Config) (query : String) : Except Error (List Node) :=
  match Query.parse config.maxDepth query with
  | .error e => .error (.malformed e)
  | .ok tree =>
    match tree.resolve with
    | .error e => .error (.meaningless e)
    | .ok nodes => .ok nodes

/-- Writing as a run. What cannot be written is reported. -/
def Run.ofWriting {α : Type} : Except Sql.ArityError α → Run α
  | .ok a => ⟨[], .ok a⟩
  | .error e => ⟨[.unwritable e], .error (.unwritable e)⟩

/-- Writes a sequence. A condition that cannot be written is reported where the walk meets it. -/
def renderNodes (style : Sql.Style) (nodes : List Node) : Run String :=
  Sql.write (fun c => Run.ofWriting (Sql.renderCondition style c)) nodes

namespace Converter

/-- How a converter writes field names and values. -/
def style (c : Converter) : Sql.Style :=
  ⟨c.escaper, c.config.quoting⟩

/-- The canonical sequence of a query text. A text that has none is reported. -/
def ast (c : Converter) (query : String) : Run (List Node) :=
  if query = "" then .silent (.ok [])
  else
    match readNodes c.config query with
    | .ok nodes => ⟨[], .ok nodes⟩
    | .error e => ⟨[.rejected e], .error e⟩

/-- The fragment of a query text. The start of the conversion and its end are reported. -/
def convert (c : Converter) (query : String) : Run String :=
  if query = "" then .silent (.ok "")
  else do
    Run.emit (.converting query.utf8ByteSize)
    let nodes ← c.ast query
    let sql ← renderNodes c.style nodes
    Run.emit (.converted sql)
    return sql

end Converter

/-- The fragment of a query text with the default settings. -/
def toSql (escaper : Sql.Escaper) (query : String) : Run String :=
  (Converter.mk escaper {}).convert query

end FieldQuery
