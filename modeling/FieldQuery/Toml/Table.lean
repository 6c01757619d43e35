/-!
# Tables of settings files

The values that a settings file assigns, and how tables grow. A table is a list of entries in the
order of their definition. It keeps how it came to be, because that decides what may still be added
to it: nothing to a table in braces, entries by dotted keys to a table that such keys have made, and
further tables by headers to all but the first.

No value is ever replaced, so that each operation either adds to a table or refuses.
-/

namespace FieldQuery.Toml

/-- How a table came to be. -/
inductive Origin where
  /-- It is written in braces. -/
  | braces
  /-- A header opens it. -/
  | header
  /-- It is on the way to a table that a header opens. -/
  | implied
  /-- It is on the way to a value that a dotted key names. -/
  | dotted
deriving DecidableEq, Repr

/-- A value that can be assigned. -/
inductive Value where
  | integer (n : Int)
  | text (s : String)
  | array (items : List Value)
  | table (origin : Origin) (entries : List (String × Value))
deriving Repr

/-- The entries of a table. -/
abbrev Entries := List (String × Value)

/-- Whether a value is an array or a table with nothing in it. -/
def Value.isEmpty : Value → Bool
  | array [] => true
  | table _ [] => true
  | _ => false

namespace Entries

/-- Changes what a key stands for, which may be nothing so far, unless the change is refused. -/
def alter? (change : Option Value → Option Value) (key : String) : Entries → Option Entries
  | [] => (change none).map fun value => [(key, value)]
  | (k, value) :: entries =>
    if k = key then (change (some value)).map fun value => (k, value) :: entries
    else (alter? change key entries).map ((k, value) :: ·)

/-- Assigns a value to a dotted key. -/
def assign? (value : Value) : List String → Entries → Option Entries
  | [], _ => none
  | [key], entries =>
    let change : Option Value → Option Value
      | none => some value
      | some _ => none
    entries.alter? change key
  | key :: path, entries =>
    let change : Option Value → Option Value
      | none => (assign? value path []).map (.table .dotted)
      | some (.table .dotted entries) => (assign? value path entries).map (.table .dotted)
      | some _ => none
    entries.alter? change key

/-- Opens the table that a header names. -/
def open? : List String → Entries → Option Entries
  | [], _ => none
  | [key], entries =>
    let change : Option Value → Option Value
      | none => some (.table .header [])
      | some (.table .implied entries) => some (.table .header entries)
      | some _ => none
    entries.alter? change key
  | key :: path, entries =>
    let change : Option Value → Option Value
      | none => (open? path []).map (.table .implied)
      | some (.table .braces _) => none
      | some (.table origin entries) => (open? path entries).map (.table origin)
      | some _ => none
    entries.alter? change key

/-- Changes the entries of the table that a header has opened. -/
def within? (change : Entries → Option Entries) : List String → Entries → Option Entries
  | [], entries => change entries
  | key :: path, entries =>
    let change : Option Value → Option Value
      | some (.table origin entries) => (within? change path entries).map (.table origin)
      | _ => none
    entries.alter? change key

/-- The entries that assignments make, one after the other. -/
def ofAssignments? (assignments : List (List String × Value)) : Option Entries :=
  assignments.foldlM (fun entries (path, value) => entries.assign? value path) []

end Entries

end FieldQuery.Toml
