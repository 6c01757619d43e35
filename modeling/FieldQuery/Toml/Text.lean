import FieldQuery.Text.CharClass
import FieldQuery.Text.Backslash

/-!
# Texts in settings files

The four ways to write a text: between single or double quotes, on one line or, with the quotes
tripled, on several. Between double quotes a backslash starts an escape; between single quotes
every character stands for itself.

A text is read in two steps. First the closing quotes are found, for which an escape matters only
as a character that is not looked at; then what stands before them is decoded. All readers expect
line ends to be single line feeds.
-/

namespace FieldQuery.Toml

open Text

/-- What may stand in a comment and in a text: tab, and everything but control characters. -/
def isTextChar (c : Char) : Bool :=
  c == '\t' || (' ' ≤ c && c != '\x7f')

/-- A text on several lines may also hold line feeds. -/
def isMultilineChar (c : Char) : Bool :=
  isTextChar c || c == '\n'

/-- Space and tab separate what stands on a line. -/
def isBlank (c : Char) : Bool :=
  c == ' ' || c == '\t'

/-- The value of a digit in a base up to sixteen. -/
def digit? (base : Nat) (c : Char) : Option Nat :=
  let value :=
    if c.isDigit then some (c.toNat - '0'.toNat)
    else if 'a' ≤ c ∧ c ≤ 'f' then some (c.toNat - 'a'.toNat + 10)
    else if 'A' ≤ c ∧ c ≤ 'F' then some (c.toNat - 'A'.toNat + 10)
    else none
  value.filter (· < base)

/-! ## Escapes -/

/-- What the decoder has seen of an escape. -/
inductive EscapeState where
  /-- No escape is open. -/
  | plain
  /-- A backslash has been seen. -/
  | backslash
  /-- The code of a character is being read: the digits still to come, and the value so far. -/
  | code (digits : Nat) (value : Nat)
  /-- A backslash at the end of a line takes away blanks and line ends, of which it needs one. -/
  | fold (lineEnd : Bool)
deriving DecidableEq, Repr

/-- The character that a one-letter escape stands for. -/
def escaped? (c : Char) : Option Char :=
  if c = 'b' then some '\x08'
  else if c = 't' then some '\t'
  else if c = 'n' then some '\n'
  else if c = 'f' then some '\x0c'
  else if c = 'r' then some '\r'
  else if c = '"' ∨ c = '\\' then some c
  else none

/-- The character with a given code, unless the code is a surrogate or too large. -/
def ofCode? (value : Nat) : Option Char :=
  if value.isValidChar then some (Char.ofNat value) else none

/-- Decodes a text between double quotes. Characters outside the class `p` are refused, and a
backslash can only take away a line end if `p` holds line feeds. -/
def decode (p : Char → Bool) : EscapeState → List Char → Option (List Char)
  | .plain, [] => some []
  | .backslash, [] => none
  | .code _ _, [] => none
  | .fold lineEnd, [] => if lineEnd then some [] else none
  | .plain, c :: s =>
    if c = '\\' then decode p .backslash s
    else if p c then (decode p .plain s).map (c :: ·)
    else none
  | .backslash, c :: s =>
    if c = 'u' then decode p (.code 4 0) s
    else if c = 'U' then decode p (.code 8 0) s
    else if p '\n' ∧ c = '\n' then decode p (.fold true) s
    else if p '\n' ∧ isBlank c then decode p (.fold false) s
    else
      match escaped? c with
      | some d => (decode p .plain s).map (d :: ·)
      | none => none
  | .code digits value, c :: s =>
    match digit? 16 c with
    | none => none
    | some d =>
      if digits = 1 then
        match ofCode? (value * 16 + d) with
        | some e => (decode p .plain s).map (e :: ·)
        | none => none
      else decode p (.code (digits - 1) (value * 16 + d)) s
  | .fold lineEnd, c :: s =>
    if c = '\n' then decode p (.fold true) s
    else if isBlank c then decode p (.fold lineEnd) s
    else if ¬lineEnd then none
    else if c = '\\' then decode p .backslash s
    else if p c then (decode p .plain s).map (c :: ·)
    else none

/-! ## Closing quotes -/

/-- Splits a text at the first character `quote`. -/
def closeLiteral (quote : Char) (s : List Char) : Option (List Char × List Char) :=
  match s.dropWhile (· != quote) with
  | [] => none
  | _ :: rest => some (s.takeWhile (· != quote), rest)

/-- Splits a text at its first three `quote`s in a row, none of them behind a backslash if
backslashes protect. Up to two more quotes directly after them are still part of the text. -/
def closeTriple (protect : Bool) (quote : Char) : List Char → Option (List Char × List Char)
  | a :: b :: c :: s =>
    if a = quote ∧ b = quote ∧ c = quote then
      let extra := (s.take 2).takeWhile (· == quote)
      some (extra, s.drop extra.length)
    else if protect ∧ a = '\\' then
      (closeTriple protect quote (c :: s)).map fun (body, rest) => (a :: b :: body, rest)
    else (closeTriple protect quote (b :: c :: s)).map fun (body, rest) => (a :: body, rest)
  | _ => none

/-- A line end directly after the opening quotes of a text on several lines is not part of it. -/
def dropLineEnd : List Char → List Char
  | [] => []
  | c :: s => if c = '\n' then s else c :: s

/-- Reads a text between double quotes on one line, behind its opening quote. -/
def basic? (s : List Char) : Option (String × List Char) := do
  let (body, rest) ← closeQuote s
  let text ← decode isTextChar .plain body
  return (String.ofList text, rest)

/-- Reads a text between single quotes on one line, behind its opening quote. -/
def literal? (s : List Char) : Option (String × List Char) := do
  let (body, rest) ← closeLiteral '\x27' s
  if body.all isTextChar then return (String.ofList body, rest) else none

/-- Reads a text between double quotes on several lines, behind its opening quotes. -/
def multilineBasic? (s : List Char) : Option (String × List Char) := do
  let (body, rest) ← closeTriple true '"' (dropLineEnd s)
  let text ← decode isMultilineChar .plain body
  return (String.ofList text, rest)

/-- Reads a text between single quotes on several lines, behind its opening quotes. -/
def multilineLiteral? (s : List Char) : Option (String × List Char) := do
  let (body, rest) ← closeTriple false '\x27' (dropLineEnd s)
  if body.all isMultilineChar then return (String.ofList body, rest) else none

/-! ## Readers make progress -/

theorem length_lt_of_closeLiteral {quote : Char} {s body rest : List Char}
    (h : closeLiteral quote s = some (body, rest)) : rest.length < s.length := by
  unfold closeLiteral at h
  split at h
  · cases h
  · next hd =>
    cases h
    have := length_dropWhile_le (· != quote) s
    rw [hd, List.length_cons] at this
    omega

theorem length_lt_of_closeTriple {protect : Bool} {quote : Char} {s body rest : List Char}
    (h : closeTriple protect quote s = some (body, rest)) : rest.length < s.length := by
  fun_induction closeTriple protect quote s generalizing body rest with
  | case1 =>
    cases h
    simp only [List.length_cons, List.length_drop]
    omega
  | case2 _ _ _ _ _ _ ih | case3 _ _ _ _ _ _ ih =>
    obtain ⟨⟨b, r⟩, hb, he⟩ := Option.map_eq_some_iff.1 h
    cases he
    have := ih hb
    simp only [List.length_cons] at this ⊢
    omega
  | case4 => cases h

theorem length_dropLineEnd_le (s : List Char) : (dropLineEnd s).length ≤ s.length := by
  unfold dropLineEnd
  split
  · simp
  · split <;> simp

theorem length_lt_of_basic? {s rest : List Char} {text : String}
    (h : basic? s = some (text, rest)) : rest.length < s.length := by
  simp only [basic?, Option.bind_eq_bind, Option.bind_eq_some_iff] at h
  obtain ⟨⟨body, rest'⟩, hc, _, _, h⟩ := h
  cases h
  exact length_lt_of_closeQuote hc

theorem length_lt_of_literal? {s rest : List Char} {text : String}
    (h : literal? s = some (text, rest)) : rest.length < s.length := by
  simp only [literal?, Option.bind_eq_bind, Option.bind_eq_some_iff] at h
  obtain ⟨⟨body, rest'⟩, hc, h⟩ := h
  dsimp only at h
  split at h
  · cases h; exact length_lt_of_closeLiteral hc
  · cases h

theorem length_lt_of_multilineBasic? {s rest : List Char} {text : String}
    (h : multilineBasic? s = some (text, rest)) : rest.length < s.length := by
  simp only [multilineBasic?, Option.bind_eq_bind, Option.bind_eq_some_iff] at h
  obtain ⟨⟨body, rest'⟩, hc, _, _, h⟩ := h
  cases h
  exact Nat.lt_of_lt_of_le (length_lt_of_closeTriple hc) (length_dropLineEnd_le s)

theorem length_lt_of_multilineLiteral? {s rest : List Char} {text : String}
    (h : multilineLiteral? s = some (text, rest)) : rest.length < s.length := by
  simp only [multilineLiteral?, Option.bind_eq_bind, Option.bind_eq_some_iff] at h
  obtain ⟨⟨body, rest'⟩, hc, h⟩ := h
  dsimp only at h
  split at h
  · cases h
    exact Nat.lt_of_lt_of_le (length_lt_of_closeTriple hc) (length_dropLineEnd_le s)
  · cases h

end FieldQuery.Toml
