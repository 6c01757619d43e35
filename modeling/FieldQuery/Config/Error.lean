/-!
# What can be wrong with settings
-/

namespace FieldQuery

/-- Why a text gives no settings. -/
inductive ConfigError where
  /-- The text is no list of statements. -/
  | malformed
  /-- What a path of keys names is already something else. -/
  | redefined (path : List String)
  /-- There is no setting of this name. -/
  | unknownKey (key : String)
  /-- The value of a setting is not of its type. -/
  | wrongType (key : String)
  /-- The nesting limit is negative. -/
  | negativeDepth (depth : Int)
  /-- There is no style of quoting of this name. -/
  | unknownQuoting (name : String)
deriving DecidableEq, Repr

/-- The wording of an error. -/
def ConfigError.message : ConfigError → String
  | malformed => "Configuration error: malformed document"
  | redefined path =>
    let key := ".".intercalate path
    s!"Configuration error: key '{key}' is already defined"
  | unknownKey key => s!"Configuration error: unknown key '{key}'"
  | wrongType key => s!"Configuration error: wrong type of value for '{key}'"
  | negativeDepth depth => s!"Configuration error: negative nesting limit {depth}"
  | unknownQuoting name => s!"Configuration error: unknown quoting style '{name}'"

end FieldQuery
