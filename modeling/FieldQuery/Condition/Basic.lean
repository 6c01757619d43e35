/-!
# Conditions

The canonical form of a query: a sequence of nodes, each a condition on one field, a connective or
a group, which is again such a sequence. The order of the nodes is the order of evaluation; no
connective binds tighter than another.

The type holds more sequences than queries give rise to. Nothing in it makes conditions and
connectives alternate, and a condition may carry any number of values.
-/

namespace FieldQuery

/-- How a condition compares its field. -/
inductive Comparator where
  | equal
  | greater
  | less
  | between
deriving DecidableEq, Repr

/-- How a comparator is written. -/
def Comparator.symbol : Comparator → String
  | equal => "="
  | greater => ">"
  | less => "<"
  | between => "BETWEEN"

/-- How many values a comparator needs. -/
def Comparator.arity : Comparator → Nat
  | equal => 1
  | greater => 1
  | less => 1
  | between => 2

/-- The comparator that is written in a given way. -/
def Comparator.ofSymbol? (s : String) : Option Comparator :=
  [equal, greater, less, between].find? fun c => c.symbol = s

/-- A comparison of a field with one value, or with the two ends of an interval. -/
structure Condition where
  field : String
  comparator : Comparator
  values : List String
deriving DecidableEq, Repr

namespace Condition

/-- The field has the given value. -/
def equalTo (field value : String) : Condition :=
  ⟨field, .equal, [value]⟩

/-- The field lies above the given value. -/
def greaterThan (field value : String) : Condition :=
  ⟨field, .greater, [value]⟩

/-- The field lies below the given value. -/
def lessThan (field value : String) : Condition :=
  ⟨field, .less, [value]⟩

/-- The field lies between two values, which keep their order. -/
def between (field lower upper : String) : Condition :=
  ⟨field, .between, [lower, upper]⟩

end Condition

/-- What joins two conditions. -/
inductive Connective where
  | and
  | or
  | andNot
  /-- No keyword of a query text stands for this one. -/
  | not
deriving DecidableEq, Repr

/-- How a connective is written. -/
def Connective.symbol : Connective → String
  | and => "AND"
  | or => "OR"
  | andNot => "AND NOT"
  | not => "NOT"

/-- The connective that is written in a given way. -/
def Connective.ofSymbol? (s : String) : Option Connective :=
  [and, or, andNot, not].find? fun c => c.symbol = s

/-- The keyword of a connective, in small letters. -/
def Connective.keyword : Connective → String
  | and => "and"
  | or => "or"
  | andNot => "andnot"
  | not => "not"

/-- An element of a canonical sequence. -/
inductive Node where
  | condition (c : Condition)
  | connective (c : Connective)
  | group (nodes : List Node)
deriving Repr

/-! ## Symbols are unambiguous -/

@[simp] theorem Comparator.ofSymbol?_symbol (c : Comparator) : ofSymbol? c.symbol = some c := by
  cases c <;> decide

@[simp] theorem Connective.ofSymbol?_symbol (c : Connective) : ofSymbol? c.symbol = some c := by
  cases c <;> decide

end FieldQuery
