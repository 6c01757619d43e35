/-!
# JSON values

A JSON text after it has been read: what the members of its objects and the elements of its arrays
are, and no more. Members keep their order, and a key may occur twice; looking up a key finds its
first member.
-/

namespace FieldQuery

/-- A JSON value. A number is `mantissa / 10 ^ exponent`. -/
inductive Json where
  | null
  | bool (b : Bool)
  | number (mantissa : Int) (exponent : Nat)
  | str (s : String)
  | arr (items : List Json)
  | obj (members : List (String × Json))
deriving Repr, Inhabited

namespace Json

/-- The text of a string. -/
def str? : Json → Option String
  | str s => some s
  | _ => none

/-- The texts of an array of strings. -/
def strs? : Json → Option (List String)
  | arr items => items.mapM str?
  | _ => none

/-- The number of a natural number that is written without a point. -/
def nat? : Json → Option Nat
  | number (.ofNat n) 0 => some n
  | _ => none

end Json

end FieldQuery
