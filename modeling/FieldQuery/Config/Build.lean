import FieldQuery.Config.Basic

/-!
# Choosing settings

Settings can be chosen one by one. What is not chosen keeps its default.
-/

namespace FieldQuery

/-- A setting that is chosen. -/
inductive Setting where
  | maxDepth (depth : Nat)
  | quoting (quoting : Sql.Quoting)
deriving DecidableEq, Repr

namespace Config

/-- The settings with one of them chosen. -/
def choose (config : Config) : Setting → Config
  | .maxDepth depth => { config with maxDepth := depth }
  | .quoting quoting => { config with quoting }

/-- The settings that choices make, one after the other. -/
def build (settings : List Setting) : Config :=
  settings.foldl choose {}

end Config

end FieldQuery
