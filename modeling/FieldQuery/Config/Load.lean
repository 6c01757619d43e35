import FieldQuery.Config.Basic
import FieldQuery.Config.Error
import FieldQuery.Toml.Document

/-!
# Loading settings

Settings are loaded from the outermost table of a settings file, in any order. A setting that the
table does not hold keeps its default. The style of quoting is chosen by its name, either as a text
or as the only key of a table in which it stands for nothing: an empty array or an empty table.
-/

namespace FieldQuery

namespace Config

/-- The name that a value gives to one of several choices. -/
def choice? : Toml.Value → Option String
  | .text name => some name
  | .table _ [(name, value)] => if value.isEmpty then some name else none
  | _ => none

/-- Changes the setting of a given name. -/
def set (config : Config) (key : String) (value : Toml.Value) : Except ConfigError Config :=
  if key = "max_depth" then
    match value with
    | .integer n =>
      if 0 ≤ n then .ok { config with maxDepth := n.toNat } else .error (.negativeDepth n)
    | _ => .error (.wrongType key)
  else if key = "field_quoting" then
    match choice? value with
    | some name =>
      match Sql.Quoting.ofName? name with
      | some quoting => .ok { config with quoting }
      | none => .error (.unknownQuoting name)
    | none => .error (.wrongType key)
  else .error (.unknownKey key)

/-- Changes the settings that a table holds. -/
def setAll (config : Config) : Toml.Entries → Except ConfigError Config
  | [] => .ok config
  | (key, value) :: entries =>
    match config.set key value with
    | .ok config => config.setAll entries
    | .error e => .error e

/-- Loads settings from the text of a settings file. -/
def load (s : String) : Except ConfigError Config :=
  match Toml.statements? s with
  | none => .error .malformed
  | some statements =>
    match Toml.execute [] [] statements with
    | .error path => .error (.redefined path)
    | .ok entries => setAll {} entries

end Config

end FieldQuery
