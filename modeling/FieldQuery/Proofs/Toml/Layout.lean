/-!
# How settings are written

Settings files that say one thing on a line, apart from any way of reading them. A line may assign a
value to a key; blanks and a comment may stand on every line. Keys are bare or in quotes, and values
are words, such as integers, or texts between double quotes.

All parts are correct by their types, and each has a text. What a document says is the list of its
assignments (`Document.assignments`), in which layout, quotes and escapes are gone.
-/

namespace FieldQuery.Toml

/-! ## Parts of a line -/

-- Other instances would decide this for all characters there are.
instance (priority := 2000) decidableForallMem (p : Char → Prop) [DecidablePred p]
    (run : List Char) : Decidable (∀ c ∈ run, p c) :=
  List.decidableBAll p run

/-- Spaces and tabs. -/
structure Blanks where
  text : List Char := []
  blank : ∀ c ∈ text, c = ' ' ∨ c = '\t' := by decide

/-- Tab, and everything but control characters. -/
def Printable (c : Char) : Prop :=
  c = '\t' ∨ ' ' ≤ c ∧ c ≠ '\x7f'

instance : DecidablePred Printable :=
  fun c => inferInstanceAs (Decidable (c = '\t' ∨ ' ' ≤ c ∧ c ≠ '\x7f'))

/-- What stands behind the `#` of a comment. -/
structure Comment where
  body : List Char := []
  printable : ∀ c ∈ body, Printable c := by decide

/-- The text of a comment. -/
def Comment.text (c : Comment) : List Char :=
  '#' :: c.body

/-- A digit in base sixteen. -/
structure HexDigit where
  value : Fin 16
  capital : Bool := false

/-- How a digit is written. -/
def HexDigit.char (d : HexDigit) : Char :=
  if d.capital then (Nat.digitChar d.value).toUpper else Nat.digitChar d.value

/-- The number that digits stand for, the most significant first. -/
def HexDigit.number (digits : List HexDigit) : Nat :=
  digits.foldl (fun n d => n * 16 + d.value.val) 0

/-- The letters that stand for a character behind a backslash. -/
def letters : List (Char × Char) :=
  [('b', '\x08'), ('t', '\t'), ('n', '\n'), ('f', '\x0c'), ('r', '\r'), ('"', '"'), ('\\', '\\')]

/-- What stands between double quotes is a sequence of items. -/
inductive BasicItem where
  /-- A character that stands for itself. -/
  | plain (c : Char) (h : Printable c ∧ c ≠ '"' ∧ c ≠ '\\')
  /-- A backslash and a letter. -/
  | letter (mark c : Char) (h : (mark, c) ∈ letters)
  /-- A backslash, `u` or `U`, and the code of a character in four or in eight digits. -/
  | code (long : Bool) (digits : List HexDigit) (c : Char)
    (h : digits.length = (if long then 8 else 4) ∧ HexDigit.number digits = c.toNat)

/-- The text that an item is written as. -/
def BasicItem.text : BasicItem → List Char
  | plain c _ => [c]
  | letter mark _ _ => ['\\', mark]
  | code long digits _ _ => '\\' :: (if long then 'U' else 'u') :: digits.map HexDigit.char

/-- The character that an item stands for. -/
def BasicItem.char : BasicItem → Char
  | plain c _ => c
  | letter _ c _ => c
  | code _ _ c _ => c

/-- The text of the items between double quotes. -/
def basicBody (items : List BasicItem) : List Char :=
  items.flatMap BasicItem.text

/-- What the items between double quotes stand for. -/
def basicValue (items : List BasicItem) : String :=
  .ofList (items.map BasicItem.char)

/-! ## Keys and values -/

/-- What bare keys are made of. -/
def BareChar (c : Char) : Prop :=
  c.isAlphanum = true ∨ c = '_' ∨ c = '-'

/-- What words are made of. -/
def WordChar (c : Char) : Prop :=
  BareChar c ∨ c = '+'

instance : DecidablePred BareChar :=
  fun c => inferInstanceAs (Decidable (c.isAlphanum = true ∨ c = '_' ∨ c = '-'))

instance : DecidablePred WordChar :=
  fun c => inferInstanceAs (Decidable (BareChar c ∨ c = '+'))

/-- A key as it is written. -/
inductive WrittenKey where
  /-- Letters, digits, underscores and hyphens. -/
  | bare (name : List Char) (h : name ≠ [] ∧ ∀ c ∈ name, BareChar c)
  /-- A key between double quotes. -/
  | basic (items : List BasicItem)
  /-- A key between single quotes. -/
  | literal (name : List Char) (h : ∀ c ∈ name, Printable c ∧ c ≠ '\x27')

/-- The text of a key. -/
def WrittenKey.text : WrittenKey → List Char
  | bare name _ => name
  | basic items => '"' :: (basicBody items ++ ['"'])
  | literal name _ => '\x27' :: (name ++ ['\x27'])

/-- The name that a key stands for. -/
def WrittenKey.name : WrittenKey → String
  | bare name _ => .ofList name
  | basic items => basicValue items
  | literal name _ => .ofList name

/-- A value, with all that is free in its writing gone. -/
inductive Scalar where
  /-- A word, which may be an integer in any of its forms. -/
  | word (w : List Char)
  /-- A text. -/
  | text (s : String)
deriving DecidableEq, Repr

/-- A value as it is written. -/
inductive WrittenValue where
  /-- Letters, digits, underscores and signs. -/
  | word (w : List Char) (h : w ≠ [] ∧ ∀ c ∈ w, WordChar c)
  /-- A text between double quotes. -/
  | basic (items : List BasicItem)

/-- The text of a value. -/
def WrittenValue.text : WrittenValue → List Char
  | word w _ => w
  | basic items => '"' :: (basicBody items ++ ['"'])

/-- The value that is written. -/
def WrittenValue.scalar : WrittenValue → Scalar
  | word w _ => .word w
  | basic items => .text (basicValue items)

/-! ## Lines and documents -/

/-- An assignment as it is written. -/
structure Assignment where
  key : WrittenKey
  before : Blanks := {}
  after : Blanks := {}
  value : WrittenValue

/-- The text of an assignment. -/
def Assignment.text (a : Assignment) : List Char :=
  a.key.text ++ (a.before.text ++ '=' :: (a.after.text ++ a.value.text))

/-- What an assignment says. -/
def Assignment.said (a : Assignment) : String × Scalar :=
  (a.key.name, a.value.scalar)

/-- The two ways to end a line. -/
inductive LineEnd where
  | lf
  | crlf

/-- The text of the end of a line. -/
def LineEnd.text : LineEnd → List Char
  | lf => ['\n']
  | crlf => ['\r', '\n']

/-- A line of a document. -/
structure Line where
  indent : Blanks := {}
  assignment? : Option Assignment := none
  trailing : Blanks := {}
  comment? : Option Comment := none
  lineEnd : LineEnd := .lf

/-- The text of a line without its end. -/
def Line.text (l : Line) : List Char :=
  l.indent.text ++ (l.assignment?.elim [] Assignment.text ++
    (l.trailing.text ++ l.comment?.elim [] Comment.text))

/-- What a line says, if it has an assignment. -/
def Line.said? (l : Line) : Option (String × Scalar) :=
  l.assignment?.map Assignment.said

/-- A document. Its last line need not have an end. -/
structure Document where
  lines : List Line
  closed : Bool := false

/-- The texts of lines with their ends, of which the last can be left out. -/
def joinLines (closed : Bool) (lineEnd : Line → List Char) : List Line → List Char
  | [] => []
  | [l] => l.text ++ if closed then lineEnd l else []
  | l :: ls => l.text ++ (lineEnd l ++ joinLines closed lineEnd ls)

/-- The text of a document. -/
def Document.text (d : Document) : String :=
  .ofList (joinLines d.closed (fun l => l.lineEnd.text) d.lines)

/-- The document with a line added in front of the line with a given number, or at the end if there
is none. -/
def Document.insert (d : Document) (i : Nat) (line : Line) : Document :=
  { d with lines := d.lines.take i ++ line :: d.lines.drop i }

/-- What a document says: keys and values in their order. -/
def Document.assignments (d : Document) : List (String × Scalar) :=
  d.lines.filterMap Line.said?

/-- Wherever a line is added, the document says what the line says, and what it said before. -/
theorem Document.assignments_insert_perm (d : Document) (i : Nat) {line : Line} {a : Assignment}
    (h : line.assignment? = some a) :
    (d.insert i line).assignments.Perm (a.said :: d.assignments) := by
  have hline : line.said? = some a.said := by
    rw [Line.said?, h]
    rfl
  have hsplit : d.assignments =
      (d.lines.take i).filterMap Line.said? ++ (d.lines.drop i).filterMap Line.said? := by
    rw [← List.filterMap_append, List.take_append_drop, assignments]
  rw [hsplit, insert, assignments, List.filterMap_append, List.filterMap_cons_some hline]
  exact List.perm_middle

end FieldQuery.Toml
