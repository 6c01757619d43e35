import FieldQuery.Text.Backslash
import FieldQuery.Proofs.Surface.Grammar

/-!
# What a protected text stands for

The backslashes of a value, seen from its items. Between two quotes, `unescape` takes each item to
the character that it stands for (`unescape_quoteBody`), and in any text it only leaves out
characters, never all of them.
-/

namespace FieldQuery.Text

open Grammar

/-- An item stands for its character, whatever follows. -/
theorem unescape_item (item : QuoteItem) (s : List Char) :
    unescape (item.text ++ s) = item.char :: unescape s := by
  cases item with
  | escaped c => simp [QuoteItem.text, QuoteItem.char, unescape]
  | plain c h =>
    cases s with
    | nil => rfl
    | cons d s => simp [QuoteItem.text, QuoteItem.char, unescape, h.1]

/-- A sequence of items stands for the characters of the items. -/
theorem unescape_quoteBody (items : List QuoteItem) :
    unescape (quoteBody items) = items.map QuoteItem.char := by
  induction items with
  | nil => rfl
  | cons item items ih =>
    rw [quoteBody, List.flatMap_cons, unescape_item, List.map_cons, ← ih]
    rfl

/-- The text with a backslash before each of its characters. -/
def protect (s : List Char) : List Char :=
  quoteBody (s.map .escaped)

/-- A protected text stands for the text. -/
@[simp] theorem unescape_protect (s : List Char) : unescape (protect s) = s := by
  rw [protect, unescape_quoteBody, List.map_map]
  exact List.map_id s

/-- Protecting a text adds no character but the backslash. -/
theorem mem_of_mem_protect {c : Char} {s : List Char} (h : c ∈ protect s) : c = '\\' ∨ c ∈ s := by
  simp only [protect, quoteBody, List.mem_flatMap, List.mem_map] at h
  obtain ⟨_, ⟨d, hd, rfl⟩, hc⟩ := h
  rcases List.mem_cons.1 hc with rfl | hc
  · exact .inl rfl
  · rw [List.mem_singleton.1 hc]
    exact .inr hd

/-- The characters that a text stands for occur in it. -/
theorem mem_of_mem_unescape {c : Char} {s : List Char} (h : c ∈ unescape s) : c ∈ s := by
  fun_induction unescape s with
  | case1 => exact h
  | case2 => exact h
  | case3 d s ih =>
    rcases List.mem_cons.1 h with rfl | h
    · simp
    · exact .tail _ (.tail _ (ih h))
  | case4 b d s _ ih =>
    rcases List.mem_cons.1 h with rfl | h
    · exact .head _
    · exact .tail _ (ih h)

/-- A text that is not empty stands for one that is not empty. -/
theorem unescape_ne_nil {s : List Char} (h : s ≠ []) : unescape s ≠ [] := by
  fun_cases unescape s with
  | case1 => exact absurd rfl h
  | case2 | case3 | case4 => exact List.cons_ne_nil _ _

/-- A text with a quote at both ends loses them. -/
@[simp] theorem stripQuotes_quoted (body : List Char) :
    stripQuotes ('"' :: (body ++ ['"'])) = body := by
  simp [stripQuotes]

end FieldQuery.Text
