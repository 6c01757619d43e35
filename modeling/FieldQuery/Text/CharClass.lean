/-!
# Character classes

The classes of characters that a query is cut along. A query is a sequence of lexemes, and where
each lexeme ends is decided by one of these predicates alone, so two neighbouring lexemes never
compete for a character. All classes are ASCII: a character above U+007F is never a separator and
never part of a field name, but it may stand in every kind of value.
-/

namespace FieldQuery.Text

/-- Separators between expressions and keywords: space, tab, line feed, vertical tab, form feed
and carriage return. -/
def isSpace (c : Char) : Bool :=
  c == ' ' || c == '\t' || c == '\n' || c == '\x0b' || c == '\x0c' || c == '\r'

/-- A field name starts with a letter or an underscore. -/
def isFieldStart (c : Char) : Bool :=
  c.isAlpha || c == '_'

/-- A field name goes on with letters, digits and underscores. -/
def isFieldChar (c : Char) : Bool :=
  c.isAlphanum || c == '_'

/-- Brackets and parentheses end every value that is not quoted. -/
def isBracket (c : Char) : Bool :=
  c == '(' || c == ')' || c == '[' || c == ']'

/-- A bare value is a run of characters that are neither separators nor brackets. -/
def isBareChar (c : Char) : Bool :=
  !isSpace c && !isBracket c

/-- A bound of a range is a bare run that also stops at the semicolon between the bounds. -/
def isBoundChar (c : Char) : Bool :=
  isBareChar c && c != ';'

/-- A number is one or more digits, optionally followed by a point and any number of digits. -/
def isNumber (s : List Char) : Bool :=
  !(s.takeWhile Char.isDigit).isEmpty &&
    match s.dropWhile Char.isDigit with
    | [] => true
    | c :: fraction => c == '.' && fraction.all Char.isDigit

/-- A text with its ASCII capitals replaced by small letters. -/
def lower (s : String) : String :=
  String.ofList (s.toList.map Char.toLower)

/-- What may start a field name may also go on with it. -/
theorem isFieldChar_of_isFieldStart {c : Char} (h : isFieldStart c = true) :
    isFieldChar c = true := by
  simp only [isFieldStart, isFieldChar, Char.isAlphanum, Bool.or_eq_true] at h ⊢
  exact h.imp_left Or.inl

/-! ## Runs of a class -/

/-- What is left after a run is no longer than the text. -/
theorem length_dropWhile_le (p : Char → Bool) (s : List Char) :
    (s.dropWhile p).length ≤ s.length :=
  (List.dropWhile_sublist p).length_le

/-- What is left after a run that is not empty is shorter than the text. -/
theorem length_dropWhile_lt {p : Char → Bool} {s : List Char} (h : s.takeWhile p ≠ []) :
    (s.dropWhile p).length < s.length := by
  have hs : (s.takeWhile p).length + (s.dropWhile p).length = s.length := by
    rw [← List.length_append, List.takeWhile_append_dropWhile]
  have := List.length_pos_iff.2 h
  omega

end FieldQuery.Text
