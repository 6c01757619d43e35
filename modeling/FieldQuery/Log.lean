import FieldQuery.Error

/-!
# Events and runs

A conversion reports what it does as a list of events. A `Run` is an outcome together with the
events on the way to it; runs are put one after the other with `do`, and the events of a run that
fails are kept.
-/

namespace FieldQuery

/-- How much an event matters. -/
inductive Level where
  | debug
  | error
deriving DecidableEq, Repr

/-- The name of a level. -/
def Level.name : Level → String
  | debug => "DEBUG"
  | error => "ERROR"

/-- What is reported on the way. -/
inductive Event where
  /-- A conversion starts on a text of so many bytes. -/
  | converting (bytes : Nat)
  /-- A conversion has ended with a fragment. -/
  | converted (sql : String)
  /-- A query text has been refused. -/
  | rejected (e : Error)
  /-- A condition cannot be written. -/
  | unwritable (e : Sql.ArityError)
deriving DecidableEq, Repr

namespace Event

/-- Only a condition that cannot be written is an error of the library itself. -/
def level : Event → Level
  | converting _ => .debug
  | converted _ => .debug
  | rejected _ => .debug
  | unwritable _ => .error

/-- The wording of an event. -/
def message : Event → String
  | converting bytes => s!"Converting query ({bytes} bytes)"
  | converted sql => s!"Converted to SQL: {sql}"
  | rejected e => s!"Rejected query: {e.message}"
  | unwritable e =>
    s!"Cannot render atom on field '{e.field}': operator {e.comparator.symbol} expects " ++
      s!"{e.comparator.arity} value(s), got {e.count}"

end Event

/-- An outcome and the events on the way to it. -/
structure Run (α : Type) where
  log : List Event
  outcome : Except Error α

namespace Run

/-- A run that reports nothing. -/
def silent {α : Type} (outcome : Except Error α) : Run α :=
  ⟨[], outcome⟩

/-- A run that reports one event and does nothing else. -/
def emit (e : Event) : Run Unit :=
  ⟨[e], .ok ()⟩

/-- Goes on with the result of a run, if it has one. -/
def bind {α β : Type} (r : Run α) (f : α → Run β) : Run β :=
  match r.outcome with
  | .error e => ⟨r.log, .error e⟩
  | .ok a => ⟨r.log ++ (f a).log, (f a).outcome⟩

instance : Monad Run where
  pure a := silent (.ok a)
  bind := bind

end Run

end FieldQuery
