import Mathlib.Data.List.Basic
import FieldQuery.Condition.Basic
import FieldQuery.Sql.Literal
import FieldQuery.Text.CharClass

/-!
# Reading fragments

A reader for the condition part of an SQL statement, as far as fragments go: comparisons of a field
with literals, joined by connectives, in parentheses at will, with single spaces between the parts.
It gives the sequence that a fragment stands for, or nothing if the text is no fragment.

The reader knows what a database knows. Where a quoted text ends is up to the dialect, and a name
may be plain, in double quotes or in backticks. A plain name may be spelled like a word of the
language: `AND NOT` is a connective unless `NOT` is the field of a comparison there
(`Dialect.readConnective`), and the `AND` between two bounds belongs to their comparison.
-/

namespace FieldQuery.Sql

open Text

/-- The two ways in which databases read a literal. -/
inductive Dialect where
  /-- A backslash and the character after it stand for one character. -/
  | mysql
  /-- Only a doubled quote is special. -/
  | ansi
deriving DecidableEq, Repr

/-- The escaper for literals of a dialect. -/
def Dialect.escaper : Dialect → Escaper
  | mysql => Sql.mysql
  | ansi => Sql.ansi

/-! ## Quoted texts -/

/-- The character that a backslash and the given character stand for. -/
def unescapeChar (c : Char) : Char :=
  if c = '0' then '\x00'
  else if c = 'n' then '\n'
  else if c = 'r' then '\r'
  else if c = 'Z' then '\x1a'
  else c

/-- Reads a quoted text from behind its opening quote: what it stands for, and what follows its
closing quote. A doubled quote stands for one. Backslashes are special if `escapes` says so. -/
def readQuoted (escapes : Bool) (quote : Char) : List Char → Option (List Char × List Char)
  | [] => none
  | [c] => if c = quote then some ([], []) else none
  | c :: d :: s =>
    if c = quote then
      if d = quote then (readQuoted escapes quote s).map fun (text, rest) => (quote :: text, rest)
      else some ([], d :: s)
    else if escapes ∧ c = '\\' then
      (readQuoted escapes quote s).map fun (text, rest) => (unescapeChar d :: text, rest)
    else (readQuoted escapes quote (d :: s)).map fun (text, rest) => (c :: text, rest)

/-- Reads a literal. -/
def Dialect.readLiteral (d : Dialect) : List Char → Option (String × List Char)
  | [] => none
  | c :: s =>
    if c = '\x27' then
      (readQuoted (d = .mysql) '\x27' s).map fun (text, rest) => (.ofList text, rest)
    else none

/-- Reads a name. -/
def readName : List Char → Option (String × List Char)
  | [] => none
  | c :: s =>
    if c = '"' ∨ c = '\x60' then
      (readQuoted false c s).map fun (name, rest) => (.ofList name, rest)
    else if isFieldStart c then
      some (.ofList ((c :: s).takeWhile isFieldChar), (c :: s).dropWhile isFieldChar)
    else none

/-! ## Comparisons and connectives -/

/-- Reads a comparator with a space on either side. -/
def readComparator (s : List Char) : Option (Comparator × List Char) :=
  [Comparator.equal, .greater, .less, .between].findSome? fun c =>
    (s.dropPrefix? (' ' :: c.symbol.toList ++ [' '])).map fun rest => (c, rest)

/-- Reads a comparison. -/
def Dialect.readCondition (d : Dialect) (s : List Char) : Option (Condition × List Char) := do
  let (field, s) ← readName s
  let (comparator, s) ← readComparator s
  let (value, s) ← d.readLiteral s
  match comparator with
  | .between =>
    let s ← s.dropPrefix? " AND ".toList
    let (upper, s) ← d.readLiteral s
    return (.between field value upper, s)
  | comparator => return (⟨field, comparator, [value]⟩, s)

/-- Reads a connective with a space on either side. `NOT` after `AND` is part of the connective,
unless a comparison starts with it. -/
def Dialect.readConnective (d : Dialect) (s : List Char) : Option (Connective × List Char) :=
  match s.dropPrefix? " OR ".toList with
  | some s => some (.or, s)
  | none =>
    match s.dropPrefix? " AND ".toList with
    | none => none
    | some s =>
      match s.dropPrefix? "NOT ".toList with
      | none => some (.and, s)
      | some s' => if (d.readCondition s).isSome then some (.and, s) else some (.andNot, s')

/-! ## What is left gets shorter -/

theorem length_lt_of_readQuoted {escapes : Bool} {quote : Char} {s text rest : List Char}
    (h : readQuoted escapes quote s = some (text, rest)) : rest.length < s.length := by
  fun_induction readQuoted escapes quote s generalizing text rest with
  | case1 | case3 => cases h
  | case2 | case5 => cases h; simp
  | case4 _ ih | case6 _ _ _ _ _ ih | case7 _ _ _ _ _ ih =>
    obtain ⟨⟨t, r⟩, hr, he⟩ := Option.map_eq_some_iff.1 h
    cases he
    have := ih hr
    simp only [List.length_cons] at this ⊢
    omega

theorem Dialect.length_lt_of_readLiteral {d : Dialect} {s rest : List Char} {value : String}
    (h : d.readLiteral s = some (value, rest)) : rest.length < s.length := by
  unfold readLiteral at h
  split at h
  · cases h
  · split at h
    · obtain ⟨⟨t, r⟩, hr, he⟩ := Option.map_eq_some_iff.1 h
      cases he
      exact Nat.lt_succ_of_lt (length_lt_of_readQuoted hr)
    · cases h

theorem length_le_of_readName {s rest : List Char} {name : String}
    (h : readName s = some (name, rest)) : rest.length ≤ s.length := by
  unfold readName at h
  split at h
  · cases h
  · split at h
    · obtain ⟨⟨t, r⟩, hr, he⟩ := Option.map_eq_some_iff.1 h
      cases he
      exact Nat.le_succ_of_le (Nat.le_of_lt (length_lt_of_readQuoted hr))
    · split at h
      · cases h
        exact length_dropWhile_le _ _
      · cases h

theorem length_of_dropPrefix? {s word rest : List Char} (h : s.dropPrefix? word = some rest) :
    s.length = word.length + rest.length := by
  obtain ⟨word', rfl, hw⟩ := List.dropPrefix?_eq_some_iff.1 h
  rw [eq_of_beq hw, List.length_append]

theorem length_le_of_readComparator {s rest : List Char} {c : Comparator}
    (h : readComparator s = some (c, rest)) : rest.length ≤ s.length := by
  obtain ⟨c', -, hc⟩ := List.exists_of_findSome?_eq_some h
  obtain ⟨r, hr, he⟩ := Option.map_eq_some_iff.1 hc
  cases he
  rw [length_of_dropPrefix? hr]
  exact Nat.le_add_left _ _

theorem Dialect.length_lt_of_readCondition {d : Dialect} {s rest : List Char} {c : Condition}
    (h : d.readCondition s = some (c, rest)) : rest.length < s.length := by
  simp only [readCondition, Option.bind_eq_bind, Option.bind_eq_some_iff] at h
  obtain ⟨⟨field, s₁⟩, hn, ⟨comparator, s₂⟩, hc, ⟨value, s₃⟩, hl, h⟩ := h
  have hn : s₁.length ≤ s.length := length_le_of_readName hn
  have hc : s₂.length ≤ s₁.length := length_le_of_readComparator hc
  have hl : s₃.length < s₂.length := length_lt_of_readLiteral hl
  cases comparator with
  | equal | greater | less =>
    obtain rfl : s₃ = rest := by cases h; rfl
    omega
  | between =>
    simp only [Option.bind_eq_some_iff] at h
    obtain ⟨s₄, hand, ⟨upper, s₅⟩, hu, h⟩ := h
    have hand : s₃.length = _ + s₄.length := length_of_dropPrefix? hand
    have hu : s₅.length < s₄.length := length_lt_of_readLiteral hu
    obtain rfl : s₅ = rest := by cases h; rfl
    omega

theorem Dialect.length_lt_of_readConnective {d : Dialect} {s rest : List Char} {c : Connective}
    (h : d.readConnective s = some (c, rest)) : rest.length < s.length := by
  have hOR : " OR ".toList.length = 4 := rfl
  have hAND : " AND ".toList.length = 5 := rfl
  unfold readConnective at h
  split at h
  · next hor =>
    have := length_of_dropPrefix? hor
    cases h
    omega
  · split at h
    · cases h
    · next s' hand =>
      have := length_of_dropPrefix? hand
      split at h
      · cases h; omega
      · next hnot =>
        have := length_of_dropPrefix? hnot
        split at h <;> cases h <;> omega

/-! ## Sequences -/

mutual

/-- Reads on where an operand is due, with the nodes of the innermost open group and of those
around it, the last node first. -/
def Dialect.readOperand (d : Dialect) (s : List Char) (nodes : List Node)
    (outer : List (List Node)) : Option (List Node) :=
  match s with
  | [] => none
  | c :: s =>
    if c = '(' then d.readOperand s [] (nodes :: outer)
    else
      match h : d.readCondition (c :: s) with
      | none => none
      | some (condition, rest) =>
        have := Dialect.length_lt_of_readCondition h
        d.readJoint rest (.condition condition :: nodes) outer
termination_by s.length
decreasing_by all_goals simp only [List.length_cons] at *; omega

/-- Reads on behind an operand. -/
def Dialect.readJoint (d : Dialect) (s : List Char) (nodes : List Node)
    (outer : List (List Node)) : Option (List Node) :=
  match s, outer with
  | [], [] => some nodes.reverse
  | [], _ :: _ => none
  | c :: s, outer =>
    if c = ')' then
      match outer with
      | [] => none
      | around :: outer => d.readJoint s (.group nodes.reverse :: around) outer
    else
      match h : d.readConnective (c :: s) with
      | none => none
      | some (connective, rest) =>
        have := Dialect.length_lt_of_readConnective h
        d.readOperand rest (.connective connective :: nodes) outer
termination_by s.length
decreasing_by all_goals simp only [List.length_cons] at *; omega

end

/-- The sequence that a fragment stands for. The empty fragment stands for the empty sequence. -/
def Dialect.read (d : Dialect) (sql : String) : Option (List Node) :=
  if sql = "" then some [] else d.readOperand sql.toList [] []

end FieldQuery.Sql
