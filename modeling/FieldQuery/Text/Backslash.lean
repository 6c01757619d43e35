/-!
# Backslashes and quotes

Inside a value a backslash protects the character after it. Two functions read this convention:
`closeQuote` finds the double quote that ends a quoted value, and `unescape` turns the text of a
value into the characters it stands for. `stripQuotes` is the step between them.

All three work on lists of characters; `unescapeText` is `unescape` on texts.
-/

namespace FieldQuery.Text

/-- Splits a text at its first unprotected double quote: what stands before the quote, with its
backslashes, and what follows it. `none` if the text ends first. -/
def closeQuote : List Char → Option (List Char × List Char)
  | [] => none
  | c :: s =>
    if c = '"' then some ([], s)
    else if c = '\\' then
      match s with
      | [] => none
      | d :: s => (closeQuote s).map fun (body, rest) => (c :: d :: body, rest)
    else (closeQuote s).map fun (body, rest) => (c :: body, rest)

/-- The text before the closing quote, the quote and the text after it are the whole text. -/
theorem append_of_closeQuote {s body rest : List Char}
    (h : closeQuote s = some (body, rest)) : body ++ '"' :: rest = s := by
  fun_induction closeQuote s generalizing body rest with
  | case1 => cases h
  | case2 => cases h; rfl
  | case3 => cases h
  | case4 _ _ _ ih =>
    obtain ⟨⟨b, r⟩, hb, he⟩ := Option.map_eq_some_iff.1 h
    cases he
    simp [ih hb]
  | case5 _ _ _ _ ih =>
    obtain ⟨⟨b, r⟩, hb, he⟩ := Option.map_eq_some_iff.1 h
    cases he
    simp [ih hb]

/-- What follows the closing quote is shorter than the text. -/
theorem length_lt_of_closeQuote {s body rest : List Char} (h : closeQuote s = some (body, rest)) :
    rest.length < s.length := by
  rw [← append_of_closeQuote h, List.length_append, List.length_cons]
  omega

/-- Replaces every backslash and the character after it by that character. A backslash with
nothing after it stands for itself. -/
def unescape : List Char → List Char
  | [] => []
  | [c] => [c]
  | c :: d :: s => if c = '\\' then d :: unescape s else c :: unescape (d :: s)

/-- The characters that the text of a value stands for. -/
def unescapeText (s : String) : String :=
  String.ofList (unescape s.toList)

/-- Removes a double quote at both ends. A text that lacks either of the two, such as a single
quote alone, stays as it is. -/
def stripQuotes (s : List Char) : List Char :=
  match s with
  | [] => []
  | c :: body =>
    if c = '"' ∧ body.getLast? = some '"' then body.dropLast else s

end FieldQuery.Text
