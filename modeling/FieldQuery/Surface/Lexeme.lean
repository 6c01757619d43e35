import FieldQuery.Text.CharClass
import FieldQuery.Text.Backslash
import FieldQuery.Surface.Reason
import FieldQuery.Surface.Tree

/-!
# Lexemes

One reader per kind of lexeme. A reader takes the text from its place on and gives back what it
read together with the text after it, or a `Fault`: what it had passed over when it could not go
on, and why. No reader knows at which offset it stands, so a reader gives the same answer wherever
its text occurs.

Every reader that succeeds has read exactly the text of what it gives back
(`Comparison.text_append_of_lex`, `Link.text_append_of_lex`).
-/

namespace FieldQuery

open Text

/-- What a reader had passed over when it could not go on, and why it could not. -/
structure Fault where
  skipped : String
  reason : SyntaxReason
deriving DecidableEq, Repr

/-- The fault of a reader that started behind some text, seen from before that text. -/
def Fault.after (text : String) (f : Fault) : Fault :=
  { f with skipped := text ++ f.skipped }

/-! ## Values -/

/-- Reads a bound of a range and the character that has to stand directly after it. -/
def lexBound (stop : Char) (s : List Char) : Except Fault (String × List Char) :=
  let bound := s.takeWhile isBoundChar
  match s.dropWhile isBoundChar with
  | [] => .error ⟨String.ofList bound, .malformedRange⟩
  | c :: rest =>
    if bound ≠ [] ∧ c = stop then .ok (String.ofList bound, rest)
    else .error ⟨String.ofList bound, .malformedRange⟩

/-- Reads a range behind its opening bracket. -/
def Value.lexRange (s : List Char) : Except Fault (Value × List Char) :=
  match lexBound ';' s with
  | .error f => .error f
  | .ok (left, s) =>
    match lexBound ']' s with
    | .error f => .error (f.after (left ++ ";"))
    | .ok (right, s) => .ok (.range left right, s)

/-- Reads a quoted value behind its opening quote. -/
def Value.lexQuoted (s : List Char) : Except Fault (Value × List Char) :=
  match closeQuote s with
  | none => .error ⟨"\"" ++ String.ofList s, .unterminatedQuote⟩
  | some (body, rest) => .ok (.quoted ("\"" ++ String.ofList body ++ "\""), rest)

/-- Reads the longest bare run, which must not be empty. -/
def Value.lexBare (s : List Char) : Except Fault (Value × List Char) :=
  let run := s.takeWhile isBareChar
  if run = [] then .error ⟨"", .missingValue⟩
  else
    let text := String.ofList run
    .ok (if isNumber run then .number text else .unquoted text, s.dropWhile isBareChar)

/-- Reads a value. An opening bracket starts a range and a double quote a quoted value; two double
quotes start a bare run, since a quoted value is never empty. -/
def Value.lex (s : List Char) : Except Fault (Value × List Char) :=
  match s with
  | [] => .error ⟨"", .missingValue⟩
  | c :: rest =>
    if c = '[' then
      match lexRange rest with
      | .error f => .error (f.after "[")
      | .ok result => .ok result
    else if c = '"' ∧ rest.head? ≠ some '"' then lexQuoted rest
    else lexBare s

/-! ## Comparisons -/

/-- Reads the operator of a comparison, the longest that fits. -/
def lexOperator : List Char → Option (String × List Char)
  | [] => none
  | c :: s =>
    if c = ':' then
      match s with
      | [] => some (":", [])
      | d :: rest =>
        if d = '>' then some (":>", rest)
        else if d = '<' then some (":<", rest)
        else some (":", s)
    else none

/-- The fault of a text that starts no expression where one is due. -/
def Fault.noExpression : List Char → Fault
  | [] => ⟨"", .unexpectedEnd⟩
  | c :: _ => ⟨"", if c = ':' then .missingField else .expectedExpression c⟩

/-- Reads a comparison: a field name, an operator and a value. -/
def Comparison.lex (s : List Char) : Except Fault (Comparison × List Char) :=
  match s with
  | [] => .error (.noExpression s)
  | c :: _ =>
    if isFieldStart c then
      let field := String.ofList (s.takeWhile isFieldChar)
      match lexOperator (s.dropWhile isFieldChar) with
      | none => .error ⟨field, .missingAtomOperator⟩
      | some (operator, s) =>
        match Value.lex s with
        | .error f => .error (f.after (field ++ operator))
        | .ok (value, s) => .ok (⟨field, operator, value⟩, s)
    else .error (.noExpression s)

/-! ## Keywords -/

/-- The keywords in capitals. A keyword stands before every keyword that it extends. -/
def Keyword.words : List String :=
  ["OR", "ANDNOT", "AND"]

/-- Reads the first of the keywords, in any case, that the text starts with. -/
def Keyword.lex (s : List Char) : Option (String × List Char) :=
  words.findSome? fun word =>
    if (s.take word.length).map Char.toUpper = word.toList then
      some (String.ofList (s.take word.length), s.drop word.length)
    else none

/-- A keyword together with the separators on its two sides. -/
structure Link where
  before : String
  word : String
  after : String
deriving DecidableEq, Repr

/-- The text that a link is written as. -/
def Link.text (l : Link) : String :=
  l.before ++ l.word ++ l.after

/-- Reads a link: separators, a keyword and separators, none of them empty. -/
def Link.lex (s : List Char) : Option (Link × List Char) :=
  let before := s.takeWhile isSpace
  match Keyword.lex (s.dropWhile isSpace) with
  | none => none
  | some (word, s) =>
    let after := s.takeWhile isSpace
    if before ≠ [] ∧ after ≠ [] then
      some (⟨String.ofList before, word, String.ofList after⟩, s.dropWhile isSpace)
    else none

/-- The fault of a text that follows an expression and neither closes a group nor starts with a
link. -/
def Fault.trailing (s : List Char) : Fault :=
  let before := s.takeWhile isSpace
  match s.dropWhile isSpace with
  | [] => ⟨String.ofList s, .unexpectedEnd⟩
  | c :: rest =>
    if c = ')' then ⟨String.ofList before, .unbalancedParenthesis⟩
    else if before = [] then ⟨"", .unexpectedInput c⟩
    else
      match Keyword.lex (c :: rest) with
      | some (_, []) => ⟨String.ofList s, .unexpectedEnd⟩
      | _ => ⟨String.ofList before, .missingOperator⟩

/-! ## Readers lose nothing -/

theorem text_append_of_lexBound {stop : Char} {s rest : List Char} {bound : String}
    (h : lexBound stop s = .ok (bound, rest)) : bound.toList ++ stop :: rest = s := by
  unfold lexBound at h
  dsimp only at h
  split at h
  · cases h
  · next c rest' hd =>
    split at h
    · next hc =>
      cases h
      rw [String.toList_ofList, ← hc.2, ← hd, List.takeWhile_append_dropWhile]
    · cases h

theorem Value.text_append_of_lexRange {s rest : List Char} {v : Value}
    (h : lexRange s = .ok (v, rest)) : v.text.toList ++ rest = '[' :: s := by
  unfold lexRange at h
  split at h
  · cases h
  · next hl =>
    split at h
    · cases h
    · next hr =>
      cases h
      rw [← text_append_of_lexBound hl, ← text_append_of_lexBound hr]
      simp [Value.text]

theorem Value.text_append_of_lexQuoted {s rest : List Char} {v : Value}
    (h : lexQuoted s = .ok (v, rest)) : v.text.toList ++ rest = '"' :: s := by
  unfold lexQuoted at h
  split at h
  · cases h
  · next hq =>
    cases h
    rw [← append_of_closeQuote hq]
    simp [Value.text]

theorem Value.text_append_of_lexBare {s rest : List Char} {v : Value}
    (h : lexBare s = .ok (v, rest)) : v.text.toList ++ rest = s := by
  unfold lexBare at h
  dsimp only at h
  split at h
  · cases h
  · cases h
    split <;> simp [Value.text]

/-- A value is read from exactly its own text. -/
theorem Value.text_append_of_lex {s rest : List Char} {v : Value}
    (h : lex s = .ok (v, rest)) : v.text.toList ++ rest = s := by
  unfold lex at h
  split at h
  · cases h
  · next c s =>
    split at h
    · next hc =>
      subst hc
      split at h
      · cases h
      · next hr => cases h; exact text_append_of_lexRange hr
    · split at h
      · next hc =>
        rw [hc.1]
        exact text_append_of_lexQuoted h
      · exact text_append_of_lexBare h

theorem text_append_of_lexOperator {s rest : List Char} {op : String}
    (h : lexOperator s = some (op, rest)) : op.toList ++ rest = s := by
  unfold lexOperator at h
  split at h
  · cases h
  · split at h
    · next hc =>
      subst hc
      split at h
      · cases h; rfl
      · split at h
        · next hd => cases h; subst hd; rfl
        · split at h
          · next hd => cases h; subst hd; rfl
          · cases h; rfl
    · cases h

/-- A comparison is read from exactly its own text. -/
theorem Comparison.text_append_of_lex {s rest : List Char} {c : Comparison}
    (h : lex s = .ok (c, rest)) : c.text.toList ++ rest = s := by
  unfold lex at h
  split at h
  · cases h
  · split at h
    · dsimp only at h
      split at h
      · cases h
      · next ho =>
        split at h
        · cases h
        · next hv =>
          cases h
          have ho := text_append_of_lexOperator ho
          rw [← Value.text_append_of_lex hv] at ho
          simp [Comparison.text, ho]
    · cases h

theorem Keyword.text_append_of_lex {s rest : List Char} {word : String}
    (h : lex s = some (word, rest)) : word.toList ++ rest = s := by
  obtain ⟨w, -, hw⟩ := List.exists_of_findSome?_eq_some h
  split at hw
  · cases hw; simp
  · cases hw

/-- A link is read from exactly its own text. -/
theorem Link.text_append_of_lex {s rest : List Char} {l : Link}
    (h : lex s = some (l, rest)) : l.text.toList ++ rest = s := by
  unfold lex at h
  dsimp only at h
  split at h
  · cases h
  · next hk =>
    split at h
    · cases h
      have hk := Keyword.text_append_of_lex hk
      simp [Link.text, hk]
    · cases h

/-! ## Readers make progress -/

/-- The text after a comparison is shorter than the text from the comparison on. -/
theorem Comparison.length_lt_of_lex {s rest : List Char} {c : Comparison}
    (h : lex s = .ok (c, rest)) : rest.length < s.length := by
  have ht := congrArg List.length (text_append_of_lex h)
  have hf : 0 < c.field.toList.length := by
    unfold lex at h
    split at h
    · cases h
    · split at h
      · next hc =>
        dsimp only at h
        split at h
        · cases h
        · split at h
          · cases h
          · cases h
            have : isFieldChar _ = true := isFieldChar_of_isFieldStart hc
            simp [this]
      · cases h
  simp only [Comparison.text, String.toList_append, List.length_append] at ht
  omega

/-- The text after a link is shorter than the text from the link on. -/
theorem Link.length_lt_of_lex {s rest : List Char} {l : Link}
    (h : lex s = some (l, rest)) : rest.length < s.length := by
  have ht := congrArg List.length (text_append_of_lex h)
  have hb : 0 < l.before.toList.length := by
    unfold lex at h
    dsimp only at h
    split at h
    · cases h
    · split at h
      · next hb =>
        cases h
        simpa [List.length_pos_iff] using hb.1
      · cases h
  simp only [Link.text, String.toList_append, List.length_append] at ht
  omega

end FieldQuery
