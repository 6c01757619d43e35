import FieldQuery.Proofs.Sql.RoundTrip

/-!
# Where a literal ends

The rules of a literal, apart from any way of reading it. Between two quotes stands a sequence of
items: characters that are not special, doubled quotes and, where backslashes are special,
backslashes with the characters after them. A literal is over at a quote that no quote follows.

`Dialect.readLiteral_eq_some_iff` says that the reader follows these rules. So a text starts with a
literal in one way at most, and the literal of a value starts no text in any other way than the one
in which it was written (`Dialect.literal_reads_only_as_value`): no value ends its literal early,
and none takes in what stands behind it.
-/

namespace FieldQuery.Sql

variable {d : Dialect}

/-! ## Rules -/

/-- What stands between the quotes of a literal is a sequence of items. -/
inductive LiteralItem (d : Dialect) where
  /-- A character that is not special. -/
  | plain (c : Char) (h : c ≠ '\x27' ∧ (d = .mysql → c ≠ '\\'))
  /-- Two quotes stand for one. -/
  | doubled
  /-- A backslash with any character after it. -/
  | escaped (c : Char) (h : d = .mysql)

/-- The text that an item is written as. -/
def LiteralItem.text : LiteralItem d → List Char
  | plain c _ => [c]
  | doubled => ['\x27', '\x27']
  | escaped c _ => ['\\', c]

/-- The character that an item stands for. -/
def LiteralItem.char : LiteralItem d → Char
  | plain c _ => c
  | doubled => '\x27'
  | escaped c _ => unescapeChar c

/-- A literal and the value that it stands for. -/
def Dialect.IsLiteral (d : Dialect) (text : List Char) (value : String) : Prop :=
  ∃ items : List (LiteralItem d),
    text = '\x27' :: (items.flatMap LiteralItem.text ++ ['\x27']) ∧
      value.toList = items.map LiteralItem.char

/-! ## The reader follows the rules -/

/-- An item is read as its character, whatever follows. -/
theorem readQuoted_item (item : LiteralItem d) (s : List Char) :
    readQuoted (d = .mysql) '\x27' (item.text ++ s) =
      (readQuoted (d = .mysql) '\x27' s).map fun (text, rest) => (item.char :: text, rest) := by
  cases item with
  | plain c h => exact readQuoted_plain h.1 (fun hb => h.2 (of_decide_eq_true hb.1) hb.2) s
  | doubled => simp [LiteralItem.text, LiteralItem.char, readQuoted]
  | escaped c h =>
    have hq : '\\' ≠ '\x27' := by decide
    simp [LiteralItem.text, LiteralItem.char, readQuoted, hq, h]

/-- Items are read up to the quote behind them. -/
theorem readQuoted_items (items : List (LiteralItem d)) {rest : List Char}
    (h : rest.head? ≠ some '\x27') :
    readQuoted (d = .mysql) '\x27' (items.flatMap LiteralItem.text ++ '\x27' :: rest) =
      some (items.map LiteralItem.char, rest) := by
  induction items with
  | nil => exact readQuoted_quote h
  | cons item items ih =>
    rw [List.flatMap_cons, List.append_assoc, readQuoted_item, ih]
    rfl

/-- The text behind the opening quote of a literal: items, a quote, and a text that does not start
with one. -/
def Dialect.Closes (d : Dialect) (s value rest : List Char) : Prop :=
  ∃ items : List (LiteralItem d), s = items.flatMap LiteralItem.text ++ '\x27' :: rest ∧
    value = items.map LiteralItem.char ∧ rest.head? ≠ some '\x27'

/-- An item in front of the others is read first. -/
theorem Dialect.Closes.of_item (item : LiteralItem d) {s value rest : List Char}
    (ih : ∀ {value rest}, readQuoted (d = .mysql) '\x27' s = some (value, rest) →
      d.Closes s value rest)
    (h : (readQuoted (d = .mysql) '\x27' s).map (fun (text, rest) => (item.char :: text, rest)) =
      some (value, rest)) : d.Closes (item.text ++ s) value rest := by
  obtain ⟨⟨value', rest'⟩, hread, he⟩ := Option.map_eq_some_iff.1 h
  cases he
  obtain ⟨items, rfl, rfl, hrest⟩ := ih hread
  exact ⟨item :: items, by simp, rfl, hrest⟩

/-- What is read is a sequence of items up to a quote that no quote follows. -/
theorem closes_of_readQuoted {s value rest : List Char}
    (h : readQuoted (d = .mysql) '\x27' s = some (value, rest)) : d.Closes s value rest := by
  fun_induction readQuoted (d = .mysql) '\x27' s generalizing value rest with
  | case1 | case3 => cases h
  | case2 =>
    cases h
    exact ⟨[], rfl, rfl, by simp⟩
  | case4 s ih => exact .of_item .doubled ih h
  | case5 e s he =>
    cases h
    exact ⟨[], rfl, rfl, by simpa using he⟩
  | case6 c e s _ hb ih =>
    obtain ⟨hd, rfl⟩ := hb
    exact .of_item (.escaped e (of_decide_eq_true hd)) ih h
  | case7 c e s hq hb ih =>
    exact .of_item (.plain c ⟨hq, fun hd hc => hb ⟨decide_eq_true hd, hc⟩⟩) ih h

/-- **The reader follows the rules of literals.** It reads a literal that no quote follows, whole
and with its value, and nothing else. -/
theorem Dialect.readLiteral_eq_some_iff {s rest : List Char} {value : String} :
    d.readLiteral s = some (value, rest) ↔
      ∃ text, d.IsLiteral text value ∧ s = text ++ rest ∧ rest.head? ≠ some '\x27' := by
  refine ⟨?_, ?_⟩
  · intro h
    cases s with
    | nil => cases h
    | cons c s =>
      rw [readLiteral] at h
      split at h
      · next hc =>
        subst hc
        obtain ⟨⟨text, rest'⟩, hread, he⟩ := Option.map_eq_some_iff.1 h
        cases he
        obtain ⟨items, rfl, rfl, hrest⟩ := closes_of_readQuoted hread
        exact ⟨_, ⟨items, rfl, String.toList_ofList⟩, by simp, hrest⟩
      · cases h
  · rintro ⟨_, ⟨items, rfl, hvalue⟩, rfl, hrest⟩
    have ht : '\x27' :: (items.flatMap LiteralItem.text ++ ['\x27']) ++ rest =
        '\x27' :: (items.flatMap LiteralItem.text ++ '\x27' :: rest) := by simp
    rw [ht, readLiteral, if_pos rfl, readQuoted_items items hrest, ← hvalue]
    simp

/-- A text starts with a literal in one way at most. -/
theorem Dialect.IsLiteral.unique {text text' rest rest' : List Char} {value value' : String}
    (h : d.IsLiteral text value) (h' : d.IsLiteral text' value')
    (hs : text ++ rest = text' ++ rest') (hrest : rest.head? ≠ some '\x27')
    (hrest' : rest'.head? ≠ some '\x27') : text = text' ∧ value = value' ∧ rest = rest' := by
  have hread : d.readLiteral (text ++ rest) = some (value, rest) :=
    readLiteral_eq_some_iff.2 ⟨text, h, rfl, hrest⟩
  have hread' : d.readLiteral (text ++ rest) = some (value', rest') :=
    readLiteral_eq_some_iff.2 ⟨text', h', hs, hrest'⟩
  obtain ⟨rfl, rfl⟩ : value = value' ∧ rest = rest' := by simpa using hread.symm.trans hread'
  exact ⟨List.append_cancel_right hs, rfl, rfl⟩

/-! ## What escapers write -/

/-- The literal of a value is a literal that stands for the value. -/
theorem Dialect.isLiteral_literal (d : Dialect) (value : String) :
    d.IsLiteral (literal d.escaper value).toList value := by
  have hend : ([] : List Char).head? ≠ some '\x27' := nofun
  obtain ⟨text, htext, hs, -⟩ := readLiteral_eq_some_iff.1 (d.readLiteral_literal value hend)
  rwa [List.append_cancel_right hs]

/-- **The literal of a value is read as the value and in no other way.** In front of a text that
does not start with a quote, the reader stops where the literal ends and gives the value back. By
the rules of literals there is no other place at which a literal could end there, and no other
value. -/
theorem Dialect.literal_reads_only_as_value (d : Dialect) (value : String) {rest : List Char}
    (h : rest.head? ≠ some '\x27') :
    d.readLiteral ((literal d.escaper value).toList ++ rest) = some (value, rest) ∧
    d.IsLiteral (literal d.escaper value).toList value ∧
    ∀ text value' rest', d.IsLiteral text value' →
      (literal d.escaper value).toList ++ rest = text ++ rest' → rest'.head? ≠ some '\x27' →
      text = (literal d.escaper value).toList ∧ value' = value ∧ rest' = rest := by
  refine ⟨d.readLiteral_literal value h, d.isLiteral_literal value, ?_⟩
  intro text value' rest' htext hs hrest'
  exact htext.unique (d.isLiteral_literal value) hs.symm hrest' h

/-- A backslash and a quote, in front of a word, in both dialects. -/
theorem Dialect.literal_reads_only_as_value_backslash :
    [' ', 'O', 'R'].head? ≠ some '\x27' ∧
    mysql.readLiteral "'\\\\\\'' OR".toList = some ("\\'", [' ', 'O', 'R']) ∧
    ansi.readLiteral "'\\''' OR".toList = some ("\\'", [' ', 'O', 'R']) := by
  have h : [' ', 'O', 'R'].head? ≠ some '\x27' := by decide
  exact ⟨h, (mysql.literal_reads_only_as_value "\\'" h).1,
    (ansi.literal_reads_only_as_value "\\'" h).1⟩

end FieldQuery.Sql
