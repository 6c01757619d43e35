import FieldQuery.Toml.Text

/-!
# Integers in settings files

An integer is written in decimal with an optional sign, or without a sign in base sixteen, eight or
two behind `0x`, `0o` or `0b`. Single underscores may stand between digits. A decimal has no
leading zero. Integers are those of 64 bits with a sign.
-/

namespace FieldQuery.Toml

/-- Reads digits with single underscores between them, of which there must be at least one. -/
def digits? (base : Nat) : List Char → Option (List Nat)
  | [] => none
  | [c] => (digit? base c).map fun d => [d]
  | c :: '_' :: d :: s => do
    let first ← digit? base c
    let others ← digits? base (d :: s)
    return first :: others
  | c :: d :: s => do
    let first ← digit? base c
    let others ← digits? base (d :: s)
    return first :: others

/-- The number that digits stand for, the most significant first. -/
def ofDigits (base : Nat) (digits : List Nat) : Nat :=
  digits.foldl (fun n d => n * base + d) 0

/-- Reads a number in a base. -/
def natural? (base : Nat) (s : List Char) : Option Nat :=
  (digits? base s).map (ofDigits base)

/-- Reads a decimal number without a leading zero. -/
def decimal? (s : List Char) : Option Nat :=
  if s.head? = some '0' ∧ s.length ≠ 1 then none else natural? 10 s

/-- Whether an integer has 64 bits with a sign. -/
def fits (n : Int) : Bool :=
  -9223372036854775808 ≤ n && n ≤ 9223372036854775807

/-- Reads an integer from all of a word. -/
def integer? (word : List Char) : Option Int :=
  let value : Option Int :=
    match word with
    | '+' :: s => (decimal? s).map fun n => (n : Int)
    | '-' :: s => (decimal? s).map fun n => -(n : Int)
    | '0' :: 'x' :: s => (natural? 16 s).map fun n => (n : Int)
    | '0' :: 'o' :: s => (natural? 8 s).map fun n => (n : Int)
    | '0' :: 'b' :: s => (natural? 2 s).map fun n => (n : Int)
    | s => (decimal? s).map fun n => (n : Int)
  value.filter fits

end FieldQuery.Toml
