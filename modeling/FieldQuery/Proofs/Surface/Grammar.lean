import FieldQuery.Surface.Tree

/-!
# The grammar of queries

The language of queries as rules, without any order in which the rules are tried. A rule relates
a tree to the text that it is written as and to the text that follows: `q.Derives text rest` says
that `text`, where `rest` stands behind it, is written for `q`. The text behind matters at one place
only, the end of a bare run.

The rules say nothing of offsets, so a tree is derived with any offsets or with none, and nothing
of nesting, which `Query.depth` measures. Character classes are sets here, and the texts of a
class are runs of such a set.
-/

namespace FieldQuery

namespace Grammar

/-! ## Character classes -/

/-- Space, tab, line feed, carriage return, form feed and vertical tab. -/
def Blank (c : Char) : Prop :=
  c ∈ [' ', '\t', '\n', '\r', '\x0c', '\x0b']

/-- What a bare value is made of: all but blanks, parentheses and square brackets. -/
def Bare (c : Char) : Prop :=
  ¬ Blank c ∧ c ∉ ['(', ')', '[', ']']

/-- What a bound of a range is made of: all but blanks, parentheses, square brackets and the
semicolon. -/
def Bound (c : Char) : Prop :=
  ¬ Blank c ∧ c ∉ ['[', ']', '(', ')', ';']

/-- A text of one or more characters of a class. -/
def IsRun (p : Char → Prop) (s : List Char) : Prop :=
  s ≠ [] ∧ ∀ c ∈ s, p c

/-- A text that does not start with a character of a class, so that a run before it is maximal. -/
def Stops (p : Char → Prop) (s : List Char) : Prop :=
  ∀ c ∈ s.head?, ¬ p c

theorem stops_nil {p : Char → Prop} : Stops p [] :=
  nofun

theorem stops_cons {p : Char → Prop} {c : Char} {s : List Char} : Stops p (c :: s) ↔ ¬ p c := by
  simp [Stops]

/-! ## Lexemes -/

/-- `[A-Za-z_][A-Za-z0-9_]*`. -/
def IsField (s : List Char) : Prop :=
  ∃ c body, s = c :: body ∧ (c.isAlpha = true ∨ c = '_') ∧
    ∀ d ∈ body, d.isAlphanum = true ∨ d = '_'

/-- `digits ("." digits?)?`. -/
def IsNumber (s : List Char) : Prop :=
  ∃ whole, IsRun (fun c => c.isDigit = true) whole ∧
    (s = whole ∨ ∃ fraction, (∀ c ∈ fraction, c.isDigit = true) ∧ s = whole ++ '.' :: fraction)

/-- `OR`, `ANDNOT` or `AND`, each letter in either case. -/
def IsKeyword (s : List Char) : Prop :=
  s.map Char.toUpper ∈ ["OR".toList, "ANDNOT".toList, "AND".toList]

instance : DecidablePred IsKeyword :=
  fun s => inferInstanceAs (Decidable (s.map Char.toUpper ∈ _))

/-- `:>` and `:<` always are operators, `:` only where it does not start one of them. -/
def IsOperator (operator : String) (rest : List Char) : Prop :=
  operator = ":>" ∨ operator = ":<" ∨
    operator = ":" ∧ rest.head? ≠ some '>' ∧ rest.head? ≠ some '<'

/-- What stands between the quotes of a quoted value is a sequence of items: a backslash with any
character after it, or a character that is neither a backslash nor a double quote. -/
inductive QuoteItem where
  | escaped (c : Char)
  | plain (c : Char) (h : c ≠ '\\' ∧ c ≠ '"')

/-- The text that an item is written as. -/
def QuoteItem.text : QuoteItem → List Char
  | escaped c => ['\\', c]
  | plain c _ => [c]

/-- The character that an item stands for. -/
def QuoteItem.char : QuoteItem → Char
  | escaped c => c
  | plain c _ => c

/-- The text of the items between two quotes. -/
def quoteBody (items : List QuoteItem) : List Char :=
  items.flatMap QuoteItem.text

/-- A maximal run of bare characters. It starts with a double quote only if it starts with two. -/
structure IsBareRun (text rest : List Char) : Prop where
  run : IsRun Bare text
  maximal : Stops Bare rest
  quotes : text.head? = some '"' → ['"', '"'] <+: text

end Grammar

open Grammar

/-! ## Rules -/

/-- `value := range | quoted | number | unquoted`. -/
inductive Value.Derives : Value → List Char → List Char → Prop
  | range {left right rest : List Char} (hl : IsRun Bound left) (hr : IsRun Bound right) :
      Derives (.range (.ofList left) (.ofList right)) ('[' :: left ++ ';' :: right ++ [']']) rest
  | quoted {items : List QuoteItem} {rest : List Char} (h : items ≠ []) :
      Derives (.quoted (.ofList ('"' :: quoteBody items ++ ['"'])))
        ('"' :: quoteBody items ++ ['"']) rest
  | number {text rest : List Char} (h : IsBareRun text rest) (hn : IsNumber text) :
      Derives (.number (.ofList text)) text rest
  | unquoted {text rest : List Char} (h : IsBareRun text rest) (hn : ¬ IsNumber text) :
      Derives (.unquoted (.ofList text)) text rest

/-- `atom := field op value`. -/
inductive Comparison.Derives : Comparison → List Char → List Char → Prop
  | intro {c : Comparison} {value rest : List Char} (hf : IsField c.field.toList)
      (ho : IsOperator c.operator (value ++ rest)) (hv : c.value.Derives value rest) :
      Derives c (c.field.toList ++ c.operator.toList ++ value) rest

mutual

/-- `expr := atom | "(" query ")"`. -/
inductive Expr.Derives : Expr → List Char → List Char → Prop
  | comparison {c : PlacedComparison} {text rest : List Char}
      (h : c.toComparison.Derives text rest) : Expr.Derives (.comparison c) text rest
  | group {q : Query} {text rest : List Char} (h : Query.Derives q text (')' :: rest)) :
      Expr.Derives (.group q) ('(' :: text ++ [')']) rest

/-- `query := expr (WS boolOp WS expr)*`. -/
inductive Query.Derives : Query → List Char → List Char → Prop
  | single {e : Expr} {text rest : List Char} (h : Expr.Derives e text rest) :
      Query.Derives (.single e) text rest
  | chain {e : Expr} {k : Keyword} {q : Query} {text before after text' rest : List Char}
      (he : Expr.Derives e text (before ++ k.word.toList ++ after ++ text' ++ rest))
      (hb : IsRun Blank before) (hk : IsKeyword k.word.toList) (ha : IsRun Blank after)
      (hq : Query.Derives q text' rest) :
      Query.Derives (.chain e k q) (text ++ before ++ k.word.toList ++ after ++ text') rest

end

/-! ## Trees without offsets -/

mutual

/-- An expression with all offsets forgotten. -/
def Expr.unplaced : Expr → Expr
  | .comparison c => .comparison { c with position := 0 }
  | .group q => .group q.unplaced

/-- A query with all offsets forgotten. -/
def Query.unplaced : Query → Query
  | .single e => .single e.unplaced
  | .chain e k rest => .chain e.unplaced { k with position := 0 } rest.unplaced

end

end FieldQuery
