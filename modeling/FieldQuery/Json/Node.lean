import FieldQuery.Condition.Basic
import FieldQuery.Json.Value

/-!
# Canonical sequences as JSON

A node is written as an object with a `type` and its `data`, and a condition as an object with its
`field`, `operator` and `value`. Reading takes these objects with any other members beside, and two
shorter forms. An array may stand for an object: it holds the members that count, in the order
above. An object with a single member that says nothing may stand for the string that is the key of
that member, where the string names one of several choices.

An array gives the type of a node before its data. In an object the data may come first, so it is
set aside until the type is known. What has been set aside is read leniently, at every depth: an
empty object says nothing there, as `null` does everywhere, and the first element of an array may
give the type by its number.
-/

namespace FieldQuery

/-- The kinds of nodes. -/
inductive Kind where
  | condition
  | connective
  | group
deriving DecidableEq, Repr

namespace Kind

/-- The name of a kind. -/
def name : Kind → String
  | condition => "atom"
  | connective => "operator"
  | group => "group"

/-- The kinds in the order of their numbers. -/
def all : List Kind :=
  [condition, connective, group]

/-- The kind of a given name. -/
def ofName? (s : String) : Option Kind :=
  all.find? fun k => k.name = s

@[simp] theorem ofName?_name (k : Kind) : ofName? k.name = some k := by
  cases k <;> decide

end Kind

/-! ## Writing -/

/-- A condition as an object. -/
def Condition.toJson (c : Condition) : Json :=
  .obj [("field", .str c.field), ("operator", .str c.comparator.symbol),
    ("value", .arr (c.values.map .str))]

mutual

/-- A node as an object with its type and data. -/
def Node.toJson : Node → Json
  | .condition c => .obj [("type", .str Kind.condition.name), ("data", c.toJson)]
  | .connective c => .obj [("type", .str Kind.connective.name), ("data", .str c.symbol)]
  | .group nodes => .obj [("type", .str Kind.group.name), ("data", .arr (nodesToJson nodes))]

/-- The nodes of a sequence as the elements of an array. -/
def nodesToJson : List Node → List Json
  | [] => []
  | node :: nodes => node.toJson :: nodesToJson nodes

end

/-- A canonical sequence as an array. -/
def sequenceToJson (nodes : List Node) : Json :=
  .arr (nodesToJson nodes)

/-! ## Choices -/

/-- How a value is read: at sight, or after it has been set aside. -/
inductive Strictness where
  | strict
  | lenient
deriving DecidableEq, Repr

/-- Whether a value says nothing. -/
def Json.isNothing (strictness : Strictness) : Json → Bool
  | .null => true
  | .obj [] => strictness = .lenient
  | _ => false

/-- The name that a value gives to one of several choices: a string, or the key of a single member
that says nothing. -/
def Json.choice? (strictness : Strictness) : Json → Option String
  | .str s => some s
  | .obj [(name, value)] => if value.isNothing strictness then some name else none
  | _ => none

/-- Reads a comparator. -/
def Comparator.ofJson? (strictness : Strictness) (j : Json) : Option Comparator :=
  (j.choice? strictness).bind ofSymbol?

/-- Reads a connective. -/
def Connective.ofJson? (strictness : Strictness) (j : Json) : Option Connective :=
  (j.choice? strictness).bind ofSymbol?

/-- Reads the type of a node that is an object. -/
def Kind.ofMember? (strictness : Strictness) (j : Json) : Option Kind :=
  (j.choice? strictness).bind ofName?

/-- Reads the type of a node that is an array. -/
def Kind.ofElement? (strictness : Strictness) : Json → Option Kind
  | .str s => ofName? s
  | j => if strictness = .lenient then j.nat?.bind fun n => all[n]? else none

/-! ## Reading -/

/-- Reads a condition from its three parts. -/
def Condition.ofParts? (strictness : Strictness) (field operator value : Json) :
    Option Condition := do
  return ⟨← field.str?, ← Comparator.ofJson? strictness operator, ← value.strs?⟩

/-- Reads a condition. -/
def Condition.ofJson? (strictness : Strictness) : Json → Option Condition
  | .obj members => do
    ofParts? strictness (← members.lookup "field") (← members.lookup "operator")
      (← members.lookup "value")
  | .arr [field, operator, value] => ofParts? strictness field operator value
  | _ => none

/-- Reads a node of a kind from its data, of which `nodes` is the reading as a sequence. -/
def Node.ofData? (strictness : Strictness) (kind : Kind) (data : Json)
    (nodes : Option (List Node)) : Option Node :=
  match kind with
  | .condition => (Condition.ofJson? strictness data).map .condition
  | .connective => (Connective.ofJson? strictness data).map .connective
  | .group => nodes.map .group

mutual

/-- Reads a node. -/
def Node.ofJson? (strictness : Strictness) : Json → Option Node
  | .obj members => do
    let kind ← Kind.ofMember? strictness (← members.lookup "type")
    Node.ofMembers? kind members
  | .arr [type, data] => do
    let kind ← Kind.ofElement? strictness type
    Node.ofData? strictness kind data (sequenceOfJson? strictness data)
  | _ => none

/-- Reads a node of a kind from the members of an object, among which its data has been set
aside. -/
def Node.ofMembers? (kind : Kind) : List (String × Json) → Option Node
  | [] => none
  | (key, data) :: members =>
    if key = "data" then Node.ofData? .lenient kind data (sequenceOfJson? .lenient data)
    else Node.ofMembers? kind members

/-- Reads a canonical sequence from an array. -/
def sequenceOfJson? (strictness : Strictness) : Json → Option (List Node)
  | .arr items => nodesOfJson? strictness items
  | _ => none

/-- Reads each element of an array as a node. -/
def nodesOfJson? (strictness : Strictness) : List Json → Option (List Node)
  | [] => some []
  | item :: items => do
    let node ← Node.ofJson? strictness item
    let nodes ← nodesOfJson? strictness items
    return node :: nodes

end

end FieldQuery
