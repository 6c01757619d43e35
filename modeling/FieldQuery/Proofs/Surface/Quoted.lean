import FieldQuery.Proofs.Surface.Lexeme
import FieldQuery.Proofs.Text.Backslash
import FieldQuery.Proofs.Text.Escape

/-!
# Quoted values are read as they are unescaped

Two functions pass over the text of a quoted value: one looks for the quote that ends it, the other
resolves its backslashes. Both see the same items. The text between the quotes is a sequence of
items in one way only (`quoteBody_injective`), it does not end inside an escape
(`endsInEscape_quoteBody`), and what is read as a quoted value is such a sequence, not empty,
between two quotes (`Value.lex_eq_quoted_iff`).
-/

namespace FieldQuery

open Text Grammar

/-! ## Sequences of items -/

/-- Where two texts agree, so do the items that they start with. -/
theorem Grammar.QuoteItem.text_append_inj {item item' : QuoteItem} {s s' : List Char}
    (h : item.text ++ s = item'.text ++ s') : item = item' ∧ s = s' := by
  cases item with
  | escaped c =>
    cases item' with
    | escaped c' => simpa [QuoteItem.text] using h
    | plain c' hc' => exact absurd (List.cons.inj h).1.symm hc'.1
  | plain c hc =>
    cases item' with
    | escaped c' => exact absurd (List.cons.inj h).1 hc.1
    | plain c' hc' => simpa [QuoteItem.text] using h

/-- A text is a sequence of items in one way only. -/
theorem quoteBody_injective : Function.Injective quoteBody := by
  intro items
  induction items with
  | nil =>
    rintro (_ | ⟨item', items'⟩) h
    · rfl
    · cases item' <;> cases h
  | cons item items ih =>
    rintro (_ | ⟨item', items'⟩) h
    · cases item <;> cases h
    · obtain ⟨rfl, hs⟩ := QuoteItem.text_append_inj h
      rw [ih hs]

/-- Behind a sequence of items no escape is open. -/
theorem endsInEscape_quoteBody (items : List QuoteItem) :
    endsInEscape (quoteBody items) = false := by
  induction items with
  | nil => rfl
  | cons item items ih =>
    cases item with
    | escaped c => exact ih
    | plain c h => exact (endsInEscape_plain h.1 _).trans ih

/-! ## Quoted values -/

/-- A quoted value is read from two quotes with items between them, whatever follows. -/
theorem Value.lex_eq_quoted_iff {s rest : List Char} {text : String} :
    lex s = .ok (.quoted text, rest) ↔
      ∃ items, items ≠ [] ∧ text.toList = '"' :: (quoteBody items ++ ['"']) ∧
        s = text.toList ++ rest := by
  rw [lex_eq_ok_iff]
  refine ⟨?_, ?_⟩
  · rintro ⟨written, rfl, hv⟩
    cases hv with
    | quoted hitems => exact ⟨_, hitems, by simp, by simp⟩
  · rintro ⟨items, hitems, htext, rfl⟩
    have hv : Derives _ _ rest := .quoted hitems
    rw [List.cons_append, ← htext, String.ofList_toList] at hv
    exact ⟨text.toList, rfl, hv⟩

/-- **A quoted value is read as it is unescaped.** What is read as a quoted value is a quote, a body
and a quote. The body is what is left without the quotes. It is a sequence of items in one way, of
which there is one at least, and stands for the characters of the items; so it stands for a text
that is not empty, and the rule for a backslash that nothing follows has no say in it. Conversely,
wherever one or more items stand between quotes, just that is read as a quoted value. -/
theorem Value.lex_quoted_as_unescaped (s rest : List Char) (text : String) :
    (lex s = .ok (.quoted text, rest) →
      s = text.toList ++ rest ∧
      ∃ body, text.toList = '"' :: (body ++ ['"']) ∧ stripQuotes text.toList = body ∧
        (∃! items, quoteBody items = body) ∧
        ∀ items, quoteBody items = body →
          items ≠ [] ∧ unescape body = items.map QuoteItem.char ∧ unescape body ≠ [] ∧
            ∀ lone, unescapeWith lone body = unescape body) ∧
    ∀ items, items ≠ [] →
      lex ('"' :: (quoteBody items ++ '"' :: rest)) =
        .ok (.quoted (.ofList ('"' :: (quoteBody items ++ ['"']))), rest) := by
  refine ⟨fun h => ?_, fun items hitems => ?_⟩
  · obtain ⟨items, hitems, htext, hs⟩ := lex_eq_quoted_iff.1 h
    have hunique : ∀ items', quoteBody items' = quoteBody items → items' = items :=
      fun _ he => quoteBody_injective he
    refine ⟨hs, quoteBody items, htext, ?_, ⟨items, rfl, hunique⟩, fun items' he => ?_⟩
    · rw [htext, stripQuotes_quoted]
    · obtain rfl := hunique items' he
      have hchars := unescape_quoteBody items'
      refine ⟨hitems, hchars, ?_, fun lone => unescapeWith_eq lone (endsInEscape_quoteBody items')⟩
      rw [hchars]
      exact mt List.map_eq_nil_iff.1 hitems
  · exact lex_eq_quoted_iff.2 ⟨items, hitems, by simp, by simp⟩

/-- A protected quote, and two backslashes in front of the quote that ends the value. -/
theorem Value.lex_quoted_as_unescaped_backslashes :
    lex "\"é\\\"\\\\\" x".toList = .ok (.quoted "\"é\\\"\\\\\"", [' ', 'x']) ∧
    unescape (stripQuotes "\"é\\\"\\\\\"".toList) = ['é', '"', '\\'] := by
  have h : lex "\"é\\\"\\\\\" x".toList = .ok (.quoted "\"é\\\"\\\\\"", [' ', 'x']) := by cbv
  have hé : 'é' ≠ '\\' ∧ 'é' ≠ '"' := by decide
  let items : List QuoteItem := [.plain 'é' hé, .escaped '"', .escaped '\\']
  obtain ⟨-, body, -, hbody, -, hitems⟩ := (lex_quoted_as_unescaped _ _ _).1 h
  have hread : quoteBody items = stripQuotes "\"é\\\"\\\\\"".toList := by cbv
  obtain ⟨-, hchars, -⟩ := hitems items (hread.trans hbody)
  rw [hbody]
  exact ⟨h, hchars⟩

end FieldQuery
