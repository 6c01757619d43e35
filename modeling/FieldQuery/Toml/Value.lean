import FieldQuery.Toml.Integer
import FieldQuery.Toml.Table

/-!
# Keys and values in settings files

A key is a word or a text on one line, and keys are joined by dots. A value is an integer, a text,
an array in brackets or a table in braces. Truth values, numbers with a point and dates are refused:
no setting has a use for them.

Blanks may stand around every key, dot, comma and bracket. Between brackets so may line ends and
comments, while a table in braces stays on one line, apart from what its values span, and does not
end in a comma.

A reader gives back what follows what it has read, which is never longer than what it was given.
Values hold values, so their reader runs on fuel. Every two of its steps take a character away, so
twice the length of a text is fuel enough.
-/

namespace FieldQuery.Toml

open Text

/-! ## Keys -/

/-- What may stand in a key without quotes. -/
def isKeyChar (c : Char) : Bool :=
  c.isAlphanum || c == '_' || c == '-'

/-- Reads a key: a run of letters, digits, underscores and hyphens, or a text on one line. -/
def key? (s : List Char) : Option (String × List Char) :=
  match s with
  | [] => none
  | c :: rest =>
    if c = '"' then basic? rest
    else if c = '\x27' then literal? rest
    else if isKeyChar c then
      some (String.ofList (s.takeWhile isKeyChar), s.dropWhile isKeyChar)
    else none

theorem length_lt_of_key? {s rest : List Char} {key : String}
    (h : key? s = some (key, rest)) : rest.length < s.length := by
  unfold key? at h
  split at h
  · cases h
  · split at h
    · exact Nat.lt_succ_of_lt (length_lt_of_basic? h)
    · split at h
      · exact Nat.lt_succ_of_lt (length_lt_of_literal? h)
      · split at h
        · next hk =>
          cases h
          exact length_dropWhile_lt (by simp [hk])
        · cases h

/-- Reads keys joined by dots, and the blanks around them. -/
def path? (s : List Char) : Option (List String × List Char) :=
  match h : key? (s.dropWhile isBlank) with
  | none => none
  | some (key, rest) =>
    match hr : rest.dropWhile isBlank with
    | [] => some ([key], [])
    | c :: next =>
      have : next.length < s.length := by
        have h₁ := length_dropWhile_le isBlank s
        have h₂ := length_lt_of_key? h
        have h₃ := length_dropWhile_le isBlank rest
        rw [hr, List.length_cons] at h₃
        omega
      if c = '.' then (path? next).map fun (keys, rest) => (key :: keys, rest)
      else some ([key], c :: next)
termination_by s.length
decreasing_by exact this

theorem length_lt_of_path? {s rest : List Char} {path : List String}
    (h : path? s = some (path, rest)) : rest.length < s.length := by
  fun_induction path? s generalizing path rest with
  | case1 => cases h
  | case2 s key rest' hk hr =>
    cases h
    have h₁ := length_dropWhile_le isBlank s
    have h₂ := length_lt_of_key? hk
    simp only [List.length_nil]
    omega
  | case3 s key rest' hk next hr _ ih =>
    obtain ⟨⟨keys, rest''⟩, hp, he⟩ := Option.map_eq_some_iff.1 h
    cases he
    have h₁ := length_dropWhile_le isBlank s
    have h₂ := length_lt_of_key? hk
    have h₃ := length_dropWhile_le isBlank rest'
    have h₄ := ih hp
    rw [hr, List.length_cons] at h₃
    omega
  | case4 s key rest' hk c next hr _ hc =>
    cases h
    have h₁ := length_dropWhile_le isBlank s
    have h₂ := length_lt_of_key? hk
    have h₃ := length_dropWhile_le isBlank rest'
    rw [hr] at h₃
    omega

/-! ## Integers and texts -/

/-- What ends a value without quotes. -/
def endsWord (c : Char) : Bool :=
  isBlank c || c == '\n' || c == '#' || c == ',' || c == ']' || c == '}'

/-- Reads an integer or a text. -/
def scalar? (s : List Char) : Option (Value × List Char) :=
  let text (result : Option (String × List Char)) : Option (Value × List Char) :=
    result.map fun (t, rest) => (.text t, rest)
  match s with
  | '"' :: '"' :: '"' :: rest => text (multilineBasic? rest)
  | '"' :: rest => text (basic? rest)
  | '\x27' :: '\x27' :: '\x27' :: rest => text (multilineLiteral? rest)
  | '\x27' :: rest => text (literal? rest)
  | s => do
    let n ← integer? (s.takeWhile fun c => !endsWord c)
    return (.integer n, s.dropWhile fun c => !endsWord c)

theorem length_le_of_scalar? {s rest : List Char} {value : Value}
    (h : scalar? s = some (value, rest)) : rest.length ≤ s.length := by
  unfold scalar? at h
  dsimp only at h
  split at h
  · obtain ⟨⟨_, _⟩, ht, he⟩ := Option.map_eq_some_iff.1 h
    cases he
    have := length_lt_of_multilineBasic? ht
    simp only [List.length_cons]
    omega
  · obtain ⟨⟨_, _⟩, ht, he⟩ := Option.map_eq_some_iff.1 h
    cases he
    have := length_lt_of_basic? ht
    simp only [List.length_cons]
    omega
  · obtain ⟨⟨_, _⟩, ht, he⟩ := Option.map_eq_some_iff.1 h
    cases he
    have := length_lt_of_multilineLiteral? ht
    simp only [List.length_cons]
    omega
  · obtain ⟨⟨_, _⟩, ht, he⟩ := Option.map_eq_some_iff.1 h
    cases he
    have := length_lt_of_literal? ht
    simp only [List.length_cons]
    omega
  · obtain ⟨n, _, h⟩ := Option.bind_eq_some_iff.1 h
    cases h
    exact length_dropWhile_le _ _

/-! ## Arrays and tables -/

/-- Skips blanks, line ends and comments; `comment` says whether one has begun. -/
def skipFiller (comment : Bool) : List Char → List Char
  | [] => []
  | c :: s =>
    if c = '\n' then skipFiller false s
    else if comment then if isTextChar c then skipFiller true s else c :: s
    else if isBlank c then skipFiller false s
    else if c = '#' then skipFiller true s
    else c :: s

theorem length_skipFiller_le (comment : Bool) (s : List Char) :
    (skipFiller comment s).length ≤ s.length := by
  fun_induction skipFiller comment s
  case case1 | case4 | case7 => exact Nat.le_refl _
  case case2 ih | case3 ih | case5 ih | case6 ih => exact Nat.le_succ_of_le ih

mutual

/-- Reads a value. -/
def readValue : Nat → List Char → Option (Value × List Char)
  | 0, _ => none
  | fuel + 1, s =>
    match s with
    | '[' :: s => (readItems fuel s).map fun (items, s) => (.array items, s)
    | '{' :: s =>
      match s.dropWhile isBlank with
      | '}' :: s => some (.table .braces [], s)
      | s => do
        let (assignments, s) ← readAssignments fuel s
        let entries ← Entries.ofAssignments? assignments
        return (.table .braces entries, s)
    | s => scalar? s

/-- Reads the elements of an array and its closing bracket. -/
def readItems : Nat → List Char → Option (List Value × List Char)
  | 0, _ => none
  | fuel + 1, s =>
    match skipFiller false s with
    | ']' :: s => some ([], s)
    | s => do
      let (item, s) ← readValue fuel s
      match skipFiller false s with
      | ']' :: s => return ([item], s)
      | ',' :: s => do
        let (items, s) ← readItems fuel s
        return (item :: items, s)
      | _ => none

/-- Reads the assignments of a table in braces, of which there is at least one, and its closing
brace. -/
def readAssignments : Nat → List Char → Option (List (List String × Value) × List Char)
  | 0, _ => none
  | fuel + 1, s => do
    let (path, s) ← path? s
    match s with
    | '=' :: s => do
      let (value, s) ← readValue fuel (s.dropWhile isBlank)
      match s.dropWhile isBlank with
      | '}' :: s => return ([(path, value)], s)
      | ',' :: s => do
        let (assignments, s) ← readAssignments fuel s
        return ((path, value) :: assignments, s)
      | _ => none
    | _ => none

end

/-- No step of the reader of values lengthens the text. -/
theorem length_le_of_read (fuel : Nat) (s rest : List Char) :
    (∀ value, readValue fuel s = some (value, rest) → rest.length ≤ s.length) ∧
    (∀ items, readItems fuel s = some (items, rest) → rest.length ≤ s.length) ∧
    (∀ assignments, readAssignments fuel s = some (assignments, rest) →
      rest.length ≤ s.length) := by
  induction fuel generalizing s rest with
  | zero => simp [readValue, readItems, readAssignments]
  | succ fuel ih =>
    refine ⟨fun value h => ?_, fun items h => ?_, fun assignments h => ?_⟩
    · unfold readValue at h
      split at h
      · next s =>
        obtain ⟨⟨items, s₁⟩, hi, he⟩ := Option.map_eq_some_iff.1 h
        cases he
        exact Nat.le_succ_of_le ((ih s _).2.1 items hi)
      · next s =>
        have hd := length_dropWhile_le isBlank s
        split at h
        · next hs =>
          cases h
          rw [hs, List.length_cons] at hd
          simp only [List.length_cons]
          omega
        · obtain ⟨⟨assignments, s₁⟩, ha, h⟩ := Option.bind_eq_some_iff.1 h
          obtain ⟨entries, _, h⟩ := Option.bind_eq_some_iff.1 h
          cases h
          have := (ih _ _).2.2 assignments ha
          simp only [List.length_cons]
          omega
      · exact length_le_of_scalar? h
    · unfold readItems at h
      have hf := length_skipFiller_le false s
      split at h
      · next hs =>
        cases h
        rw [hs, List.length_cons] at hf
        omega
      · obtain ⟨⟨item, s₁⟩, hv, h⟩ := Option.bind_eq_some_iff.1 h
        have hv := (ih _ s₁).1 item hv
        have hf₁ := length_skipFiller_le false s₁
        dsimp only at h
        split at h
        · next hs =>
          cases h
          rw [hs, List.length_cons] at hf₁
          omega
        · next s₂ hs =>
          obtain ⟨⟨items, s₃⟩, hi, h⟩ := Option.bind_eq_some_iff.1 h
          cases h
          have := (ih s₂ s₃).2.1 items hi
          rw [hs, List.length_cons] at hf₁
          dsimp only
          omega
        · cases h
    · unfold readAssignments at h
      obtain ⟨⟨path, s₁⟩, hp, h⟩ := Option.bind_eq_some_iff.1 h
      have hp := length_lt_of_path? hp
      dsimp only at h
      split at h
      · next s₂ hs =>
        obtain ⟨⟨value, s₃⟩, hv, h⟩ := Option.bind_eq_some_iff.1 h
        have hv := (ih _ s₃).1 value hv
        have hd := length_dropWhile_le isBlank s₂
        have hd₁ := length_dropWhile_le isBlank s₃
        simp only [List.length_cons] at hp
        dsimp only at h
        split at h
        · next hs =>
          cases h
          rw [hs, List.length_cons] at hd₁
          omega
        · next s₄ hs =>
          obtain ⟨⟨assignments, s₅⟩, ha, h⟩ := Option.bind_eq_some_iff.1 h
          cases h
          have := (ih s₄ s₅).2.2 assignments ha
          rw [hs, List.length_cons] at hd₁
          dsimp only
          omega
        · cases h
      · cases h

/-- Reads a value from a text. -/
def value? (s : List Char) : Option (Value × List Char) :=
  readValue (2 * s.length + 1) s

theorem length_le_of_value? {s rest : List Char} {value : Value}
    (h : value? s = some (value, rest)) : rest.length ≤ s.length :=
  (length_le_of_read _ s rest).1 value h

end FieldQuery.Toml
