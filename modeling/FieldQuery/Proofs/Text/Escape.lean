import Mathlib.Algebra.Ring.Parity
import Mathlib.Data.Finset.Basic
import Mathlib.Data.List.DropRight
import FieldQuery.Text.Backslash

/-!
# Where escapes start

A backslash starts an escape unless the backslash before it has done so. What a text stands for
therefore depends on a bit of state: whether what has been read ends inside an escape
(`endsInEscape`). The bit is the parity of the backslashes at the end (`endsInEscape_iff`).

Behind a text that does not end inside an escape, reading starts afresh (`unescapeWith_append`), so
texts can be read piece by piece there, and nowhere else. The rule for a backslash that nothing
follows matters only to texts that end inside an escape; to say so, `unescapeWith` leaves the rule
open.
-/

namespace FieldQuery.Text

/-- Whether a text ends inside an escape, with a backslash that waits for its character. -/
def endsInEscape (s : List Char) : Bool :=
  s.foldl (fun inside c => !inside && c == '\\') false

@[simp] theorem endsInEscape_nil : endsInEscape [] = false :=
  rfl

@[simp] theorem endsInEscape_escaped (c : Char) (s : List Char) :
    endsInEscape ('\\' :: c :: s) = endsInEscape s :=
  rfl

theorem endsInEscape_plain {c : Char} (h : c ≠ '\\') (s : List Char) :
    endsInEscape (c :: s) = endsInEscape s := by
  have hc : (c == '\\') = false := beq_false_of_ne h
  simp [endsInEscape, hc]

theorem endsInEscape_concat (s : List Char) (c : Char) :
    endsInEscape (s ++ [c]) = (!endsInEscape s && c == '\\') := by
  simp [endsInEscape]

/-- A text ends inside an escape if the backslashes at its end are odd in number. -/
theorem endsInEscape_iff (s : List Char) :
    endsInEscape s = true ↔ Odd (s.rtakeWhile (· == '\\')).length := by
  induction s using List.reverseRecOn with
  | nil => simp
  | append_singleton s c ih =>
    rw [endsInEscape_concat, List.rtakeWhile_concat]
    by_cases hc : c = '\\'
    · simp [hc, Nat.odd_add_one, ← ih]
    · simp [hc]

/-! ## Reading piece by piece -/

/-- What a text stands for, where a backslash that nothing follows stands for `lone`. -/
def unescapeWith (lone : List Char) : List Char → List Char
  | [] => []
  | [c] => if c = '\\' then lone else [c]
  | c :: d :: s => if c = '\\' then d :: unescapeWith lone s else c :: unescapeWith lone (d :: s)

/-- A backslash that nothing follows stands for itself. -/
theorem unescapeWith_backslash (s : List Char) : unescapeWith ['\\'] s = unescape s := by
  fun_induction unescape s with
  | case1 => rfl
  | case2 c => simp +contextual [unescapeWith]
  | case3 d s ih => simp [unescapeWith, ih]
  | case4 c d s hc ih => simp [unescapeWith, hc, ih]

/-- Behind a text that does not end inside an escape, reading starts afresh. The rule for a
backslash that nothing follows has no say in what the text itself stands for. -/
theorem unescapeWith_append (lone : List Char) {a : List Char} (h : endsInEscape a = false)
    (b : List Char) : unescapeWith lone (a ++ b) = unescape a ++ unescapeWith lone b := by
  fun_induction unescape a with
  | case1 => rfl
  | case2 c =>
    have hc : c ≠ '\\' := by rintro rfl; cases h
    cases b with
    | nil => simp [unescapeWith, hc]
    | cons d b => simp [unescapeWith, hc]
  | case3 d a ih =>
    rw [endsInEscape_escaped] at h
    simp [unescapeWith, ih h]
  | case4 c d a hc ih =>
    rw [endsInEscape_plain hc] at h
    have := ih h
    simp_all [unescapeWith]

theorem unescape_append {a : List Char} (h : endsInEscape a = false) (b : List Char) :
    unescape (a ++ b) = unescape a ++ unescape b := by
  rw [← unescapeWith_backslash, ← unescapeWith_backslash b, unescapeWith_append _ h]

/-- The rule for a backslash that nothing follows does not matter to a text that does not end inside
an escape. -/
theorem unescapeWith_eq (lone : List Char) {s : List Char} (h : endsInEscape s = false) :
    unescapeWith lone s = unescape s := by
  have := unescapeWith_append lone h []
  simpa [unescapeWith] using this

/-- A text that ends inside an escape cannot be read apart from the character behind it. -/
theorem exists_unescape_append_ne {a : List Char} (h : endsInEscape a = true) :
    ∃ b, unescape (a ++ b) ≠ unescape a ++ unescape b := by
  obtain rfl | ⟨s, c, rfl⟩ := List.eq_nil_or_concat' a
  · cases h
  obtain ⟨hs, rfl⟩ : endsInEscape s = false ∧ c = '\\' := by
    simpa [endsInEscape_concat] using h
  refine ⟨['*'], fun he => ?_⟩
  rw [List.append_assoc, unescape_append hs, unescape_append hs, List.append_assoc] at he
  exact absurd (List.append_cancel_left he) (by decide)

/-! ## Backslashes inserted at will -/

/-- A text, whose first character stands at `start`, with a backslash before each of its characters
that stand at one of the positions. -/
def escapeFrom (positions : Finset Nat) (start : Nat) : List Char → List Char
  | [] => []
  | c :: s =>
    if start ∈ positions then '\\' :: c :: escapeFrom positions (start + 1) s
    else c :: escapeFrom positions (start + 1) s

/-- A text with a backslash before each of its characters that stand at one of the positions. -/
def escapeAt (positions : Finset Nat) (s : String) : String :=
  .ofList (escapeFrom positions 0 s.toList)

theorem unescape_escaped (c : Char) (s : List Char) :
    unescape ('\\' :: c :: s) = c :: unescape s := by
  simp [unescape]

theorem unescape_plain {c : Char} (h : c ≠ '\\') (s : List Char) :
    unescape (c :: s) = c :: unescape s := by
  cases s with
  | nil => rfl
  | cons d s => simp [unescape, h]

/-- Where each backslash has another before it, whatever else has one, the text is restored. -/
theorem unescape_escapeFrom {positions : Finset Nat} {start : Nat} {s : List Char}
    (h : ∀ i, s[i]? = some '\\' → start + i ∈ positions) :
    unescape (escapeFrom positions start s) = s := by
  induction s generalizing start with
  | nil => rfl
  | cons c s ih =>
    have hs : ∀ i, s[i]? = some '\\' → start + 1 + i ∈ positions := fun i hi => by
      rw [Nat.add_assoc, Nat.add_comm 1 i]
      exact h (i + 1) hi
    by_cases hstart : start ∈ positions
    · rw [escapeFrom, if_pos hstart, unescape_escaped, ih hs]
    · have hc : c ≠ '\\' := by
        rintro rfl
        exact hstart (h 0 rfl)
      rw [escapeFrom, if_neg hstart, unescape_plain hc, ih hs]

/-- **Unescaping undoes every escaping, and is local.** A text is restored from itself with
backslashes inserted before some of its characters, if its own backslashes are among these. And what
a text stands for can be read apart from what follows it, whatever that is, exactly if the
backslashes at its end are even in number. -/
theorem unescapeText_restores_and_splits (positions : Finset Nat) (text front : String) :
    ((∀ i, text.toList[i]? = some '\\' → i ∈ positions) →
      unescapeText (escapeAt positions text) = text) ∧
    (Even (front.toList.rtakeWhile (· == '\\')).length ↔
      ∀ back, unescapeText (front ++ back) = unescapeText front ++ unescapeText back) := by
  refine ⟨fun h => ?_, ?_⟩
  · have hpos : ∀ i, text.toList[i]? = some '\\' → 0 + i ∈ positions := by simpa using h
    rw [unescapeText, escapeAt, String.toList_ofList, unescape_escapeFrom hpos,
      String.ofList_toList]
  · rw [← Nat.not_odd_iff_even, ← endsInEscape_iff, Bool.not_eq_true]
    refine ⟨fun h back => ?_, fun h => ?_⟩
    · rw [unescapeText, String.toList_append, unescape_append h, String.ofList_append]
      rfl
    · by_contra hfront
      obtain ⟨back, hback⟩ := exists_unescape_append_ne (Bool.not_eq_false _ ▸ hfront)
      have := h (.ofList back)
      rw [← String.toList_inj] at this
      simp [unescapeText, hback] at this

/-- A backslash of the text's own and a letter behind it, and a cut behind two backslashes and in
front of a third. -/
theorem unescapeText_restores_and_splits_backslash :
    (∀ i, "a\\b".toList[i]? = some '\\' → i ∈ ({1, 2} : Finset Nat)) ∧
    unescapeText "a\\\\\\b" = "a\\b" ∧
    unescapeText ("x\\\\" ++ "\\y") = unescapeText "x\\\\" ++ unescapeText "\\y" := by
  have h : ∀ i, "a\\b".toList[i]? = some '\\' → i ∈ ({1, 2} : Finset Nat) := by
    rintro (_ | _ | _ | i) hi
    · simp at hi
    · decide
    · simp at hi
    · simp at hi
  obtain ⟨hrestores, hsplits⟩ := unescapeText_restores_and_splits {1, 2} "a\\b" "x\\\\"
  have heven : Even ("x\\\\".toList.rtakeWhile (· == '\\')).length := by decide
  exact ⟨h, hrestores h, hsplits.1 heven "\\y"⟩

end FieldQuery.Text
