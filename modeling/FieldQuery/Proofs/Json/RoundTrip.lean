import Mathlib.Data.List.Forall2
import FieldQuery.Json.Node

/-!
# Sequences are read back from their JSON

What is written for a canonical sequence is read as that sequence, and so is every value that it
extends to: one with further members in any of its objects, at any depth and of any value, as long
as their keys are not among those that reading looks for (`sequenceOfJson?_of_extendsTo`). Members
of an object have no order, so an extension may also bring them into another one.

An extension is read as what it extends since it answers the same look-ups
(`Json.MembersExtend.lookup`). The induction is on the sequence. It goes through for both ways of
reading at once, as it has to: the data of a node is always read leniently.
-/

namespace FieldQuery

/-! ## Extensions -/

/-- The keys that reading looks for. -/
def Json.readKeys : List String :=
  ["type", "data", "field", "operator", "value"]

/-- The members of an object and those of an object with further members, in any order. Members that
correspond to each other have the same key and related values. -/
inductive Json.MembersExtend (Related : Json → Json → Prop) :
    List (String × Json) → List (String × Json) → Prop
  | nil : MembersExtend Related [] []
  | own {key : String} {j j' : Json} {members : List (String × Json)}
      (front back : List (String × Json)) (hj : Related j j')
      (h : MembersExtend Related members (front ++ back)) :
      MembersExtend Related ((key, j) :: members) (front ++ (key, j') :: back)
  | further {key : String} {members : List (String × Json)} (front back : List (String × Json))
      (j : Json) (hkey : key ∉ readKeys) (h : MembersExtend Related members (front ++ back)) :
      MembersExtend Related members (front ++ (key, j) :: back)

/-- A value and one that has further members in its objects, at any depth. -/
inductive Json.ExtendsTo : Json → Json → Prop
  | null : ExtendsTo .null .null
  | bool {b : Bool} : ExtendsTo (.bool b) (.bool b)
  | number {mantissa : Int} {exponent : Nat} :
      ExtendsTo (.number mantissa exponent) (.number mantissa exponent)
  | str {s : String} : ExtendsTo (.str s) (.str s)
  | arr {items items' : List Json} (h : List.Forall₂ ExtendsTo items items') :
      ExtendsTo (.arr items) (.arr items')
  | obj {members members' : List (String × Json)} (h : MembersExtend ExtendsTo members members') :
      ExtendsTo (.obj members) (.obj members')

mutual

/-- A value extends to itself. -/
theorem Json.ExtendsTo.refl : (j : Json) → j.ExtendsTo j
  | .null => .null
  | .bool _ => .bool
  | .number _ _ => .number
  | .str _ => .str
  | .arr items => .arr (Json.forall₂_extendsTo_refl items)
  | .obj members => .obj (Json.MembersExtend.refl members)

/-- The elements of an array extend to themselves. -/
theorem Json.forall₂_extendsTo_refl : (items : List Json) → List.Forall₂ ExtendsTo items items
  | [] => .nil
  | j :: items => .cons (Json.ExtendsTo.refl j) (Json.forall₂_extendsTo_refl items)

/-- The members of an object extend to themselves. -/
theorem Json.MembersExtend.refl :
    (members : List (String × Json)) → MembersExtend ExtendsTo members members
  | [] => .nil
  | (_, j) :: members => .own [] members (Json.ExtendsTo.refl j) (Json.MembersExtend.refl members)

end

section
variable {Related : Json → Json → Prop} {members members' : List (String × Json)} {key : String}

/-- A key that reading looks for is neither added nor lost. -/
theorem Json.MembersExtend.mem_keys_iff (h : MembersExtend Related members members')
    (hkey : key ∈ readKeys) : key ∈ members'.map Prod.fst ↔ key ∈ members.map Prod.fst := by
  induction h with
  | nil => rfl
  | own front back _ _ ih =>
    simp only [List.map_append, List.map_cons, List.mem_append, List.mem_cons] at ih ⊢
    rw [← ih]
    exact or_left_comm
  | further front back _ hfurther _ ih =>
    have hne := ne_of_mem_of_not_mem hkey hfurther
    simp only [List.map_append, List.map_cons, List.mem_append, List.mem_cons, hne, false_or]
      at ih ⊢
    exact ih

/-- A member with another key does not change what is looked up. -/
theorem Json.lookup_insert_of_ne {key' : String} (hne : key ≠ key') (j : Json)
    (front back : List (String × Json)) :
    (front ++ (key', j) :: back).lookup key = (front ++ back).lookup key := by
  simp [List.lookup_append, List.lookup_cons, beq_false_of_ne hne]

/-- A key that no other member has finds its own member. -/
theorem Json.lookup_insert_self (j : Json) {front : List (String × Json)}
    (hfront : key ∉ front.map Prod.fst) (back : List (String × Json)) :
    (front ++ (key, j) :: back).lookup key = some j := by
  have hnone : front.lookup key = none := by
    rw [List.lookup_eq_none_iff]
    rintro ⟨key', value⟩ hmem
    exact bne_iff_ne.mpr (ne_of_mem_of_not_mem (List.mem_map_of_mem hmem) hfront).symm
  simp [List.lookup_append, hnone]

/-- An extension answers the look-ups of reading as the object does, up to extension. -/
theorem Json.MembersExtend.lookup (h : MembersExtend Related members members')
    (hnodup : (members.map Prod.fst).Nodup) (hkey : key ∈ readKeys) {j : Json}
    (hj : members.lookup key = some j) : ∃ j', members'.lookup key = some j' ∧ Related j j' := by
  induction h with
  | nil => cases hj
  | @own key' j₀ j' members front back hrelated h ih =>
    obtain ⟨hnew, hnodup⟩ := List.nodup_cons.mp hnodup
    by_cases heq : key = key'
    · subst heq
      obtain rfl : j₀ = j := by simpa using hj
      have hfront : key ∉ front.map Prod.fst := fun hmem =>
        hnew ((h.mem_keys_iff hkey).mp (by simp [List.map_append, hmem]))
      exact ⟨j', lookup_insert_self j' hfront back, hrelated⟩
    · rw [lookup_insert_of_ne heq]
      exact ih hnodup (by simpa [List.lookup_cons, beq_false_of_ne heq] using hj)
  | @further key' members front back j₀ hfurther h ih =>
    rw [lookup_insert_of_ne (ne_of_mem_of_not_mem hkey hfurther)]
    exact ih hnodup hj

end

section
variable {j : Json}

/-- Nothing can be added to a string. -/
theorem Json.ExtendsTo.eq_of_str {s : String} (h : (Json.str s).ExtendsTo j) : j = .str s := by
  cases h
  rfl

/-- Nothing can be added to the elements of an array of strings. -/
theorem Json.eq_of_forall₂_extendsTo_strs {values : List String} {items : List Json}
    (h : List.Forall₂ ExtendsTo (values.map .str) items) : items = values.map .str := by
  induction values generalizing items with
  | nil =>
    cases h
    rfl
  | cons value values ih =>
    cases h with
    | cons hitem hitems => rw [hitem.eq_of_str, ih hitems, List.map_cons]

/-- Nothing can be added to an array of strings. -/
theorem Json.ExtendsTo.eq_of_strs {values : List String}
    (h : (Json.arr (values.map .str)).ExtendsTo j) : j = .arr (values.map .str) := by
  cases h with
  | arr h => rw [Json.eq_of_forall₂_extendsTo_strs h]

/-- What extends an object is an object, which answers the look-ups of reading. -/
theorem Json.ExtendsTo.exists_members {members : List (String × Json)}
    (h : (Json.obj members).ExtendsTo j) (hnodup : (members.map Prod.fst).Nodup) :
    ∃ members', j = .obj members' ∧ ∀ key ∈ readKeys, ∀ value, members.lookup key = some value →
      ∃ value', members'.lookup key = some value' ∧ value.ExtendsTo value' := by
  cases h with
  | obj h => exact ⟨_, rfl, fun _ hkey _ hvalue => h.lookup hnodup hkey hvalue⟩

end

/-! ## Choices and texts -/

section
variable (strictness : Strictness)

@[simp] theorem Kind.ofMember?_str_name (k : Kind) : ofMember? strictness (.str k.name) = some k :=
  ofName?_name k

@[simp] theorem Comparator.ofJson?_str_symbol (c : Comparator) :
    ofJson? strictness (.str c.symbol) = some c :=
  ofSymbol?_symbol c

@[simp] theorem Connective.ofJson?_str_symbol (c : Connective) :
    ofJson? strictness (.str c.symbol) = some c :=
  ofSymbol?_symbol c

@[simp] theorem Json.strs?_arr_map_str (values : List String) :
    (Json.arr (values.map .str)).strs? = some values := by
  induction values with
  | nil => rfl
  | cons value values ih =>
    simp only [strs?] at ih
    simp [strs?, str?, ih]

/-! ## Conditions -/

/-- What a condition is written as, with further members, is read as the condition. -/
theorem Condition.ofJson?_of_extendsTo {c : Condition} {j : Json} (h : c.toJson.ExtendsTo j) :
    Condition.ofJson? strictness j = some c := by
  obtain ⟨members, rfl, hmembers⟩ := h.exists_members (by simp)
  obtain ⟨field, hfield, hext⟩ := hmembers "field" (by decide) (.str c.field) rfl
  obtain rfl := hext.eq_of_str
  obtain ⟨operator, hoperator, hext⟩ :=
    hmembers "operator" (by decide) (.str c.comparator.symbol) rfl
  obtain rfl := hext.eq_of_str
  obtain ⟨value, hvalue, hext⟩ := hmembers "value" (by decide) (.arr (c.values.map .str)) rfl
  obtain rfl := hext.eq_of_strs
  simp [Condition.ofJson?, hfield, hoperator, hvalue, ofParts?, Json.str?]

/-! ## Nodes -/

/-- What stands for the data of a node is what its key finds. -/
theorem Node.ofMembers?_of_lookup {kind : Kind} {members : List (String × Json)} {data : Json}
    (h : members.lookup "data" = some data) :
    Node.ofMembers? kind members =
      Node.ofData? .lenient kind data (sequenceOfJson? .lenient data) := by
  induction members with
  | nil => cases h
  | cons member members ih =>
    obtain ⟨key, value⟩ := member
    by_cases hkey : key = "data"
    · subst hkey
      obtain rfl : value = data := by simpa using h
      rw [Node.ofMembers?, if_pos rfl]
    · rw [Node.ofMembers?, if_neg hkey]
      exact ih (by simpa [List.lookup_cons, beq_false_of_ne (Ne.symm hkey)] using h)

/-- A node object with further members is read by its kind from its data, which may have further
members too. -/
theorem Node.exists_data_of_extendsTo (kind : Kind) {data j : Json}
    (h : (Json.obj [("type", .str kind.name), ("data", data)]).ExtendsTo j) :
    ∃ data', data.ExtendsTo data' ∧ Node.ofJson? strictness j =
      Node.ofData? .lenient kind data' (sequenceOfJson? .lenient data') := by
  obtain ⟨members, rfl, hmembers⟩ := h.exists_members (by simp)
  obtain ⟨type, htype, hext⟩ := hmembers "type" (by decide) (.str kind.name) rfl
  obtain rfl := hext.eq_of_str
  obtain ⟨data', hdata', hext⟩ := hmembers "data" (by decide) data rfl
  refine ⟨data', hext, ?_⟩
  simp [Node.ofJson?, htype, Node.ofMembers?_of_lookup hdata']

end

mutual

/-- What a node is written as, with further members, is read as the node. -/
theorem Node.ofJson?_of_extendsTo (strictness : Strictness) :
    (node : Node) → {j : Json} → node.toJson.ExtendsTo j → Node.ofJson? strictness j = some node
  | .condition c, j, h => by
    obtain ⟨data, hdata, heq⟩ := Node.exists_data_of_extendsTo strictness .condition h
    rw [heq, Node.ofData?, Condition.ofJson?_of_extendsTo .lenient hdata, Option.map_some]
  | .connective c, j, h => by
    obtain ⟨data, hdata, heq⟩ := Node.exists_data_of_extendsTo strictness .connective h
    rw [heq, Node.ofData?, hdata.eq_of_str, Connective.ofJson?_str_symbol, Option.map_some]
  | .group nodes, j, h => by
    obtain ⟨data, hdata, heq⟩ := Node.exists_data_of_extendsTo strictness .group h
    cases hdata with
    | arr hitems =>
      rw [heq, Node.ofData?, sequenceOfJson?, nodesOfJson?_of_extendsTo .lenient nodes hitems,
        Option.map_some]

/-- The elements that a sequence is written as, with further members, are read as its nodes. -/
theorem nodesOfJson?_of_extendsTo (strictness : Strictness) :
    (nodes : List Node) → {items : List Json} →
      List.Forall₂ Json.ExtendsTo (nodesToJson nodes) items →
      nodesOfJson? strictness items = some nodes
  | [], _, .nil => rfl
  | node :: nodes, _, .cons hitem hitems => by
    rw [nodesOfJson?, Node.ofJson?_of_extendsTo strictness node hitem,
      nodesOfJson?_of_extendsTo strictness nodes hitems]
    rfl

end

/-! ## Sequences -/

/-- **A sequence is read back from its JSON**, and from its JSON with any further members in the
objects of its nodes and conditions, at any depth. -/
theorem sequenceOfJson?_of_extendsTo (strictness : Strictness) (nodes : List Node) :
    sequenceOfJson? strictness (sequenceToJson nodes) = some nodes ∧
      ∀ j, (sequenceToJson nodes).ExtendsTo j → sequenceOfJson? strictness j = some nodes := by
  have hread : ∀ j, (sequenceToJson nodes).ExtendsTo j →
      sequenceOfJson? strictness j = some nodes := by
    intro j h
    cases h with
    | arr hitems => exact nodesOfJson?_of_extendsTo strictness nodes hitems
  exact ⟨hread _ (Json.ExtendsTo.refl _), hread⟩

/-- Members may be added to a node and to a condition in a group, and the data of a node may stand
before its type. -/
theorem sequenceOfJson?_of_extendsTo_group :
    sequenceOfJson? .strict (.arr
      [.obj [("note", .null), ("type", .str "operator"), ("data", .str "AND NOT")],
        .obj [("data", .arr [.obj [("type", .str "atom"),
            ("data", .obj [("field", .str "name"), ("unit", .obj []), ("operator", .str "="),
              ("value", .arr [.str "bob"])])]]),
          ("type", .str "group"), ("note", .arr [.bool true])]]) =
      some [.connective .andNot, .group [.condition (.equalTo "name" "bob")]] :=
  (sequenceOfJson?_of_extendsTo .strict _).2 _ <| .arr <|
    .cons (.obj <| .further [] [_, _] .null (by decide) <|
      .own [] [_] .str <| .own [] [] .str .nil) <|
    .cons (.obj <| .further [_, _] [] (.arr [.bool true]) (by decide) <|
      .own [_] [] .str <| .own [] []
        (.arr <| .cons (.obj <| .own [] [_] .str <| .own [] []
          (.obj <| .further [_] [_, _] (.obj []) (by decide) <|
            .own [] [_, _] .str <| .own [] [_] .str <| .own [] [] (Json.ExtendsTo.refl _) .nil)
          .nil) .nil) .nil) .nil

end FieldQuery
