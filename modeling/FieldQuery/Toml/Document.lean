import FieldQuery.Toml.Value

/-!
# Settings files

A settings file is a list of statements, at most one on a line, with blank lines and comments
between them. An assignment `key = value` adds to the table that the last header has opened, or to
the outermost table if there is none; a header `[key]` opens another one. Headers in doubled
brackets, which add a table to an array, are refused: no setting has a use for them.

Reading gives the statements, and carrying them out one after the other gives the outermost table.
Each line is read from a text that is not empty and leaves a shorter one (`length_lt_of_line`), so
the lines come to an end.
-/

namespace FieldQuery.Toml

open Text

/-- What a line can say. -/
inductive Statement where
  | header (path : List String)
  | assignment (path : List String) (value : Value)
deriving Repr

/-! ## Lines -/

/-- Replaces every carriage return and line feed by a line feed. A carriage return on its own is
refused. -/
def lineEnds? : List Char → Option (List Char)
  | [] => some []
  | c :: s =>
    if c = '\r' then
      match s with
      | '\n' :: rest => (lineEnds? rest).map ('\n' :: ·)
      | _ => none
    else (lineEnds? s).map (c :: ·)

/-- Reads the rest of a line after its statement: blanks, an optional comment, and the end of the
line or of the text. -/
def lineEnd? (s : List Char) : Option (List Char) :=
  let s := s.dropWhile isBlank
  let s := if s.head? = some '#' then s.dropWhile isTextChar else s
  match s with
  | [] => some []
  | c :: rest => if c = '\n' then some rest else none

/-- Reads a statement up to and without the end of its line. -/
def statement? (s : List Char) : Option (Statement × List Char) :=
  match s with
  | '[' :: s => do
    let (path, s) ← path? s
    match s with
    | ']' :: s => return (.header path, s)
    | _ => none
  | s => do
    let (path, s) ← path? s
    match s with
    | '=' :: s => do
      let (value, s) ← value? (s.dropWhile isBlank)
      return (.assignment path value, s)
    | _ => none

/-- Reads a line, which need not say anything. -/
def line? (s : List Char) : Option (Option Statement × List Char) :=
  match s.dropWhile isBlank with
  | [] => some (none, [])
  | c :: rest =>
    if c = '\n' ∨ c = '#' then (lineEnd? (c :: rest)).map fun s => (none, s)
    else do
      let (statement, s) ← statement? (c :: rest)
      let s ← lineEnd? s
      return (some statement, s)

/-! ## Readers make progress -/

theorem length_lt_of_statement? {s rest : List Char} {statement : Statement}
    (h : statement? s = some (statement, rest)) : rest.length < s.length := by
  unfold statement? at h
  split at h
  · obtain ⟨⟨path, s₁⟩, hp, h⟩ := Option.bind_eq_some_iff.1 h
    have hp := length_lt_of_path? hp
    dsimp only at h
    split at h
    · cases h
      simp only [List.length_cons] at hp ⊢
      omega
    · cases h
  · obtain ⟨⟨path, s₁⟩, hp, h⟩ := Option.bind_eq_some_iff.1 h
    have hp := length_lt_of_path? hp
    dsimp only at h
    split at h
    · next s₂ _ =>
      obtain ⟨⟨value, s₃⟩, hv, h⟩ := Option.bind_eq_some_iff.1 h
      cases h
      have hd := length_dropWhile_le isBlank s₂
      have hv := length_le_of_value? hv
      simp only [List.length_cons] at hp ⊢
      omega
    · cases h

theorem length_of_lineEnd? {s rest : List Char} (h : lineEnd? s = some rest) :
    rest = [] ∨ rest.length < s.length := by
  unfold lineEnd? at h
  dsimp only at h
  split at h
  · cases h; exact .inl rfl
  · next hs =>
    split at h
    · cases h
      right
      have h₁ := length_dropWhile_le isBlank s
      have h₂ := length_dropWhile_le isTextChar (s.dropWhile isBlank)
      have := congrArg List.length hs
      split at this <;> simp only [List.length_cons] at this <;> omega
    · cases h

/-- What follows a line is shorter than the text from the line on. -/
theorem length_lt_of_line {s rest : List Char} {statement : Option Statement} (hs : s ≠ [])
    (h : line? s = some (statement, rest)) : rest.length < s.length := by
  have hpos := List.length_pos_iff.2 hs
  have hd := length_dropWhile_le isBlank s
  unfold line? at h
  split at h
  · cases h; simpa using hpos
  · next he =>
    rw [he] at hd
    split at h
    · obtain ⟨_, hl, he⟩ := Option.map_eq_some_iff.1 h
      cases he
      rcases length_of_lineEnd? hl with rfl | hl
      · simpa using hpos
      · omega
    · obtain ⟨⟨statement, s₁⟩, hst, h⟩ := Option.bind_eq_some_iff.1 h
      obtain ⟨s₂, hl, h⟩ := Option.bind_eq_some_iff.1 h
      cases h
      have := length_lt_of_statement? hst
      rcases length_of_lineEnd? hl with rfl | hl
      · simpa using hpos
      · omega

/-! ## Documents -/

/-- Reads the statements of a text, line by line. -/
def lines? : List Char → Option (List Statement)
  | [] => some []
  | c :: s =>
    match h : line? (c :: s) with
    | none => none
    | some (statement, rest) =>
      have := length_lt_of_line (List.cons_ne_nil c s) h
      (lines? rest).map (statement.toList ++ ·)
termination_by s => s.length
decreasing_by exact this

/-- A byte order mark at the start of a text is not part of it. -/
def dropMark : List Char → List Char
  | [] => []
  | c :: s => if c = '\ufeff' then s else c :: s

/-- Reads the statements of a settings file in their order. -/
def statements? (s : String) : Option (List Statement) := do
  lines? (← lineEnds? (dropMark s.toList))

/-- Carries out statements on the outermost table, in which a header has opened the table at a path.
The first statement that is refused ends it, with the path that this statement names. -/
def execute (header : List String) (entries : Entries) :
    List Statement → Except (List String) Entries
  | [] => .ok entries
  | .header path :: statements =>
    match entries.open? path with
    | some entries => execute path entries statements
    | none => .error path
  | .assignment path value :: statements =>
    match entries.within? (Entries.assign? value path) header with
    | some entries => execute header entries statements
    | none => .error (header ++ path)

end FieldQuery.Toml
