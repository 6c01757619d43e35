import FieldQuery.Surface.Lexeme
import FieldQuery.Proofs.Surface.Grammar

/-!
# Readers and rules agree on lexemes

For each reader of a lexeme, the texts on which it succeeds are those that its rule derives, and
what it gives back is what the rule relates the text to: `Value.lex_eq_ok_iff`,
`Comparison.lex_eq_ok_iff` and `Link.lex_eq_some_iff`. The readers decide where a lexeme ends by
taking the longest run of a class, the rules by naming a run and what stops it; `run_iff` passes
from one to the other.
-/

namespace FieldQuery

open Text Grammar

/-! ## Classes -/

theorem isSpace_iff (c : Char) : isSpace c = true ↔ Blank c := by
  simp only [isSpace, Blank, Bool.or_eq_true, beq_iff_eq, List.mem_cons, List.not_mem_nil, or_false]
  grind

theorem isBareChar_iff (c : Char) : isBareChar c = true ↔ Bare c := by
  simp only [isBareChar, isBracket, Bare, ← isSpace_iff, Bool.and_eq_true, Bool.not_eq_true',
    Bool.or_eq_false_iff, beq_eq_false_iff_ne, List.mem_cons, List.not_mem_nil, or_false, not_or]
  grind

theorem isBoundChar_iff (c : Char) : isBoundChar c = true ↔ Bound c := by
  simp only [isBoundChar, isBareChar_iff, Bare, Bound, Bool.and_eq_true, bne_iff_ne, ne_eq,
    List.mem_cons, List.not_mem_nil, or_false, not_or]
  grind

/-- A text is cut in two by a class in one way only: a run of the class, and a rest that does not
go on with it. -/
theorem run_iff {p : Char → Bool} {P : Char → Prop} (hp : ∀ c, p c = true ↔ P c)
    {s run rest : List Char} :
    s.takeWhile p = run ∧ s.dropWhile p = rest ↔
      s = run ++ rest ∧ (∀ c ∈ run, P c) ∧ Stops P rest := by
  refine ⟨?_, ?_⟩
  · rintro ⟨rfl, rfl⟩
    refine ⟨List.takeWhile_append_dropWhile.symm, fun c hc => ?_, fun c hc h => ?_⟩
    · exact (hp c).1 (List.all_eq_true.1 List.all_takeWhile c hc)
    · have hd := List.head?_dropWhile_not p s
      rw [hc] at hd
      exact absurd ((hp c).2 h) (Bool.eq_false_iff.1 hd)
  · rintro ⟨rfl, hrun, hrest⟩
    have hr : ∀ c ∈ run, p c = true := fun c hc => (hp c).2 (hrun c hc)
    rw [List.takeWhile_append_of_pos hr, List.dropWhile_append_of_pos hr]
    cases rest with
    | nil => simp
    | cons c rest =>
      have : ¬ p c = true := fun h => hrest c rfl ((hp c).1 h)
      simp [this]

/-! ## Values -/

/-- A bound is read up to the character that has to end it, if that is no part of a bound. -/
theorem lexBound_eq_ok_iff {stop : Char} (hstop : ¬ Bound stop) {s rest : List Char}
    {bound : String} :
    lexBound stop s = .ok (bound, rest) ↔
      IsRun Bound bound.toList ∧ s = bound.toList ++ stop :: rest := by
  refine ⟨?_, ?_⟩
  · intro h
    have hs := text_append_of_lexBound h
    unfold lexBound at h
    dsimp only at h
    split at h
    · cases h
    · split at h
      · next hb =>
        cases h
        have hc := ((run_iff (s := s) isBoundChar_iff).1 ⟨rfl, rfl⟩).2.1
        exact ⟨⟨by simpa using hb.1, by simpa using hc⟩, hs.symm⟩
      · cases h
  · rintro ⟨⟨hne, hb⟩, rfl⟩
    obtain ⟨ht, hd⟩ := (run_iff isBoundChar_iff).2
      ⟨rfl, hb, (by rintro c ⟨⟩; exact hstop : Stops Bound (stop :: rest))⟩
    simp only [lexBound, ht, hd]
    rw [if_pos ⟨hne, trivial⟩, String.ofList_toList]

theorem Value.lexRange_eq_ok_iff {s rest : List Char} {v : Value} :
    lexRange s = .ok (v, rest) ↔
      ∃ left right : List Char, v = .range (.ofList left) (.ofList right) ∧
        IsRun Bound left ∧ IsRun Bound right ∧ s = left ++ ';' :: right ++ ']' :: rest := by
  refine ⟨?_, ?_⟩
  · intro h
    unfold lexRange at h
    split at h
    · cases h
    · next left s hl =>
      split at h
      · cases h
      · next right s hr =>
        cases h
        obtain ⟨hl', rfl⟩ := (lexBound_eq_ok_iff (by simp [Bound])).1 hl
        obtain ⟨hr', rfl⟩ := (lexBound_eq_ok_iff (by simp [Bound])).1 hr
        exact ⟨left.toList, right.toList, by simp, hl', hr', by simp⟩
  · rintro ⟨left, right, rfl, hl, hr, rfl⟩
    have hl' : lexBound ';' (left ++ ';' :: right ++ ']' :: rest) =
        .ok (.ofList left, right ++ ']' :: rest) :=
      (lexBound_eq_ok_iff (by simp [Bound])).2 (by simpa using hl)
    have hr' : lexBound ']' (right ++ ']' :: rest) = .ok (.ofList right, rest) :=
      (lexBound_eq_ok_iff (by simp [Bound])).2 (by simpa using hr)
    simp only [lexRange, hl', hr']

@[simp] theorem closeQuote_quote (s : List Char) : closeQuote ('"' :: s) = some ([], s) := by
  rw [closeQuote.eq_def]; rfl

/-- A quote is closed behind an item as it is behind the text after the item. -/
@[simp] theorem closeQuote_item (item : QuoteItem) (s : List Char) :
    closeQuote (item.text ++ s) =
      (closeQuote s).map fun (body, rest) => (item.text ++ body, rest) := by
  rw [closeQuote.eq_def]
  cases item with
  | escaped c => simp [QuoteItem.text]
  | plain c h => simp [QuoteItem.text, h.1, h.2]

/-- The first unprotected quote ends a sequence of items. -/
theorem closeQuote_eq_some_iff {s body rest : List Char} :
    closeQuote s = some (body, rest) ↔
      ∃ items, body = quoteBody items ∧ s = quoteBody items ++ '"' :: rest := by
  refine ⟨?_, ?_⟩
  · intro h
    fun_induction closeQuote s generalizing body rest with
    | case1 | case3 => cases h
    | case2 => cases h; exact ⟨[], rfl, rfl⟩
    | case4 d s _ ih =>
      obtain ⟨⟨b, r⟩, hb, he⟩ := Option.map_eq_some_iff.1 h
      cases he
      obtain ⟨items, rfl, rfl⟩ := ih hb
      exact ⟨.escaped d :: items, rfl, rfl⟩
    | case5 c s hq hb ih =>
      obtain ⟨⟨b, r⟩, hbr, he⟩ := Option.map_eq_some_iff.1 h
      cases he
      obtain ⟨items, rfl, rfl⟩ := ih hbr
      exact ⟨.plain c ⟨hb, hq⟩ :: items, rfl, rfl⟩
  · rintro ⟨items, rfl, rfl⟩
    induction items with
    | nil => exact closeQuote_quote rest
    | cons item items ih =>
      simp only [quoteBody, List.flatMap_cons, List.append_assoc] at ih ⊢
      rw [closeQuote_item, ih]
      rfl

theorem Value.lexQuoted_eq_ok_iff {s rest : List Char} {v : Value} :
    lexQuoted s = .ok (v, rest) ↔
      ∃ items, v = .quoted (.ofList ('"' :: quoteBody items ++ ['"'])) ∧
        s = quoteBody items ++ '"' :: rest := by
  have htext (body : List Char) :
      "\"" ++ String.ofList body ++ "\"" = String.ofList ('"' :: body ++ ['"']) := by
    rw [← String.toList_inj]; simp
  refine ⟨?_, ?_⟩
  · intro h
    unfold lexQuoted at h
    split at h
    · cases h
    · next hq =>
      cases h
      obtain ⟨items, rfl, rfl⟩ := closeQuote_eq_some_iff.1 hq
      exact ⟨items, by rw [htext], rfl⟩
  · rintro ⟨items, rfl, rfl⟩
    simp only [lexQuoted, closeQuote_eq_some_iff.2 ⟨items, rfl, rfl⟩, htext]

/-- Behind its opening quote, a quoted text that is not empty does not go on with a quote. -/
theorem head?_quoteBody_append {items : List QuoteItem} {s : List Char} (h : items ≠ []) :
    (quoteBody items ++ s).head? ≠ some '"' := by
  cases items with
  | nil => exact absurd rfl h
  | cons item items =>
    cases item with
    | escaped c => simp [quoteBody, QuoteItem.text]
    | plain c hc => simp [quoteBody, QuoteItem.text, hc.2]

theorem isNumber_iff {s : List Char} : isNumber s = true ↔ IsNumber s := by
  refine ⟨?_, ?_⟩
  · intro h
    have hs := List.takeWhile_append_dropWhile (p := Char.isDigit) (l := s)
    simp only [isNumber, Bool.and_eq_true, Bool.not_eq_true', List.isEmpty_eq_false_iff] at h
    refine ⟨s.takeWhile Char.isDigit, ⟨h.1, fun c hc => ?_⟩, ?_⟩
    · exact List.all_eq_true.1 List.all_takeWhile c hc
    · have hf := h.2
      split at hf
      · next hd => left; rw [hd] at hs; simpa using hs.symm
      · next c fraction hd =>
        simp only [Bool.and_eq_true, beq_iff_eq, List.all_eq_true] at hf
        refine .inr ⟨fraction, hf.2, ?_⟩
        rw [← hf.1, ← hd, hs]
  · rintro ⟨whole, ⟨hne, hw⟩, rfl | ⟨fraction, hf, rfl⟩⟩
    · have hr := (run_iff (p := Char.isDigit) fun _ => Iff.rfl).2
        ⟨(List.append_nil s).symm, hw, by rintro c ⟨⟩⟩
      simp [isNumber, hr.1, hr.2, hne]
    · have hr := (run_iff (p := Char.isDigit) fun _ => Iff.rfl).2
        ⟨rfl, hw, (by rintro c ⟨⟩; simp : Stops (fun c => c.isDigit = true) ('.' :: fraction))⟩
      simpa [isNumber, hr.1, hr.2, hne] using hf

/-- The longest run of bare characters, if it is not empty, is a number or an unquoted text. -/
theorem Value.lexBare_eq_ok_iff {s rest : List Char} {v : Value} :
    lexBare s = .ok (v, rest) ↔
      ∃ run, IsRun Bare run ∧ Stops Bare rest ∧ s = run ++ rest ∧
        (IsNumber run ∧ v = .number (.ofList run) ∨
          ¬ IsNumber run ∧ v = .unquoted (.ofList run)) := by
  refine ⟨?_, ?_⟩
  · intro h
    obtain ⟨hs, hrun, hstop⟩ := (run_iff (s := s) isBareChar_iff).1 ⟨rfl, rfl⟩
    unfold lexBare at h
    dsimp only at h
    split at h
    · cases h
    · next hne =>
      injection h with h
      injection h with hv hr
      refine ⟨s.takeWhile isBareChar, ⟨hne, hrun⟩, hr ▸ hstop, hr ▸ hs, ?_⟩
      rw [← isNumber_iff]
      split at hv
      · next hn => exact .inl ⟨hn, hv.symm⟩
      · next hn => exact .inr ⟨hn, hv.symm⟩
  · rintro ⟨run, ⟨hne, hrun⟩, hstop, rfl, hv⟩
    obtain ⟨ht, hd⟩ := (run_iff isBareChar_iff).2 ⟨rfl, hrun, hstop⟩
    simp only [lexBare, ht, hd, hne, if_false]
    rcases hv with ⟨hn, rfl⟩ | ⟨hn, rfl⟩
    · rw [if_pos (isNumber_iff.2 hn)]
    · rw [if_neg (mt isNumber_iff.1 hn)]

/-- A maximal run of bare characters starts with two double quotes if the text does. -/
theorem quotes_iff {c : Char} {run rest : List Char} (hstop : Stops Bare rest) :
    ¬ (c = '"' ∧ (run ++ rest).head? ≠ some '"') ↔
      ((c :: run).head? = some '"' → ['"', '"'] <+: c :: run) := by
  have hq : Bare '"' := by simp [Bare, Blank]
  cases run with
  | cons d run => simp_all [List.cons_prefix_cons, eq_comm]
  | nil =>
    have hr : rest.head? ≠ some '"' := fun h => hstop '"' h hq
    simp_all [List.cons_prefix_cons]

/-- A value is read where one is derived, and it is the one that is derived. -/
theorem Value.lex_eq_ok_iff {s rest : List Char} {v : Value} :
    lex s = .ok (v, rest) ↔ ∃ text, s = text ++ rest ∧ v.Derives text rest := by
  refine ⟨?_, ?_⟩
  · intro h
    unfold lex at h
    split at h
    · cases h
    · next c s =>
      split at h
      · next hc =>
        subst hc
        split at h
        · cases h
        · next hread =>
          cases h
          obtain ⟨left, right, rfl, hl, hr, rfl⟩ := lexRange_eq_ok_iff.1 hread
          exact ⟨_, by simp, .range hl hr⟩
      · split at h
        · next hc =>
          obtain ⟨rfl, hq⟩ := hc
          obtain ⟨items, rfl, rfl⟩ := lexQuoted_eq_ok_iff.1 h
          have hne : items ≠ [] := by rintro rfl; exact hq rfl
          exact ⟨_, by simp, .quoted hne⟩
        · next hc hq =>
          obtain ⟨run, hrun, hstop, hs, hv⟩ := lexBare_eq_ok_iff.1 h
          obtain ⟨d, run, rfl⟩ := List.exists_cons_of_ne_nil hrun.1
          obtain ⟨rfl, rfl⟩ := List.cons_eq_cons.1 hs
          have hb : IsBareRun (c :: run) rest := ⟨hrun, hstop, (quotes_iff hstop).1 hq⟩
          rcases hv with ⟨hn, rfl⟩ | ⟨hn, rfl⟩
          · exact ⟨_, rfl, .number hb hn⟩
          · exact ⟨_, rfl, .unquoted hb hn⟩
  · rintro ⟨text, rfl, h⟩
    -- A run that is not empty and holds no bracket gets past the first test of the reader.
    have bare {text : List Char} (hb : IsBareRun text rest) :
        lex (text ++ rest) = lexBare (text ++ rest) := by
      obtain ⟨c, run, rfl⟩ := List.exists_cons_of_ne_nil hb.run.1
      have hc : c ≠ '[' := by rintro rfl; simpa [Bare] using hb.run.2 '[' (by simp)
      simp only [List.cons_append, lex, if_neg hc, if_neg ((quotes_iff hb.maximal).2 hb.quotes)]
    cases h with
    | @range left right _ hl hr =>
      have hread : lexRange (left ++ ';' :: right ++ ']' :: rest) =
          .ok (.range (.ofList left) (.ofList right), rest) :=
        lexRange_eq_ok_iff.2 ⟨left, right, rfl, hl, hr, rfl⟩
      simp only [List.cons_append, List.append_assoc, List.nil_append, lex] at hread ⊢
      rw [if_pos trivial, hread]
    | @quoted items _ hne =>
      simp only [List.cons_append, List.append_assoc, List.nil_append, lex]
      rw [if_neg (by decide), if_pos ⟨trivial, head?_quoteBody_append hne⟩]
      exact lexQuoted_eq_ok_iff.2 ⟨items, rfl, rfl⟩
    | number hb hn =>
      rw [bare hb]
      exact lexBare_eq_ok_iff.2 ⟨_, hb.run, hb.maximal, rfl, .inl ⟨hn, rfl⟩⟩
    | unquoted hb hn =>
      rw [bare hb]
      exact lexBare_eq_ok_iff.2 ⟨_, hb.run, hb.maximal, rfl, .inr ⟨hn, rfl⟩⟩

/-! ## Comparisons -/

theorem isFieldStart_iff (c : Char) : isFieldStart c = true ↔ c.isAlpha = true ∨ c = '_' := by
  simp [isFieldStart]

theorem isFieldChar_iff (c : Char) : isFieldChar c = true ↔ c.isAlphanum = true ∨ c = '_' := by
  simp [isFieldChar]

theorem isField_cons_iff {c : Char} {body : List Char} :
    IsField (c :: body) ↔ isFieldStart c = true ∧ ∀ d ∈ body, isFieldChar d = true := by
  simp only [isFieldStart_iff, isFieldChar_iff]
  refine ⟨?_, ?_⟩
  · rintro ⟨_, _, ⟨rfl, rfl⟩, h⟩
    exact h
  · exact fun h => ⟨c, body, rfl, h⟩

/-- A field is a run of field characters. -/
theorem Grammar.IsField.fieldChar {s : List Char} (h : IsField s) :
    ∀ c ∈ s, c.isAlphanum = true ∨ c = '_' := by
  obtain ⟨c, body, rfl, hc, hb⟩ := h
  rintro d (_ | ⟨_, hd⟩)
  · exact hc.imp_left fun h => by simp [Char.isAlphanum, h]
  · exact hb d hd

/-- The longest operator is read. -/
theorem lexOperator_eq_some_iff {s rest : List Char} {operator : String} :
    lexOperator s = some (operator, rest) ↔
      s = operator.toList ++ rest ∧ IsOperator operator rest := by
  refine ⟨?_, ?_⟩
  · intro h
    refine ⟨(text_append_of_lexOperator h).symm, ?_⟩
    unfold lexOperator at h
    split at h
    · cases h
    · split at h
      · split at h
        · cases h; simp [IsOperator]
        · split at h
          · cases h; simp [IsOperator]
          · split at h
            · cases h; simp [IsOperator]
            · next h1 h2 => cases h; simp [IsOperator, h1, h2]
      · cases h
  · rintro ⟨rfl, rfl | rfl | ⟨rfl, hg, hl⟩⟩
    · simp [lexOperator]
    · simp [lexOperator]
    · cases rest with
      | nil => simp [lexOperator]
      | cons d rest =>
        simp only [List.head?_cons, ne_eq, Option.some.injEq] at hg hl
        simp [lexOperator, hg, hl]

/-- An operator starts with a colon, so no field goes on into it. -/
theorem Grammar.IsOperator.stops {operator : String} {s rest : List Char}
    (h : IsOperator operator s) :
    Stops (fun c => c.isAlphanum = true ∨ c = '_') (operator.toList ++ rest) := by
  rcases h with rfl | rfl | ⟨rfl, -⟩ <;> rintro c ⟨⟩ <;> decide

/-- A comparison is read where one is derived, and it is the one that is derived. -/
theorem Comparison.lex_eq_ok_iff {s rest : List Char} {c : Comparison} :
    lex s = .ok (c, rest) ↔ ∃ text, s = text ++ rest ∧ c.Derives text rest := by
  refine ⟨?_, ?_⟩
  · intro h
    unfold lex at h
    split at h
    · cases h
    · next d s =>
      split at h
      · next hd =>
        obtain ⟨hs, hf, -⟩ := (run_iff (s := d :: s) isFieldChar_iff).1 ⟨rfl, rfl⟩
        have hd' := isFieldChar_of_isFieldStart hd
        dsimp only at h
        split at h
        · cases h
        · next ho =>
          split at h
          · cases h
          · next hv =>
            cases h
            obtain ⟨ho, hop⟩ := lexOperator_eq_some_iff.1 ho
            obtain ⟨value, rfl, hval⟩ := Value.lex_eq_ok_iff.1 hv
            refine ⟨_, ?_, .intro ?_ hop hval⟩
            · rw [ho] at hs
              simpa using hs
            · rw [String.toList_ofList, List.takeWhile_cons_of_pos hd', isField_cons_iff]
              rw [List.takeWhile_cons_of_pos hd'] at hf
              exact ⟨hd, fun x hx => (isFieldChar_iff x).2 (hf x (.tail _ hx))⟩
      · cases h
  · rintro ⟨_, rfl, h⟩
    obtain @⟨value, _, hf, ho, hv⟩ := h
    have hstop : Stops _ (c.operator.toList ++ (value ++ rest)) := ho.stops
    obtain ⟨ht, hd⟩ := (run_iff isFieldChar_iff).2 ⟨rfl, hf.fieldChar, hstop⟩
    obtain ⟨d, body, hc⟩ : ∃ d body, c.field.toList = d :: body := by
      obtain ⟨d, body, h, -⟩ := hf
      exact ⟨d, body, h⟩
    rw [hc] at ht hd hf
    simp only [List.append_assoc, hc, List.cons_append] at ht hd ⊢
    rw [lex, if_pos (isField_cons_iff.1 hf).1]
    dsimp only
    rw [ht, hd, ← hc, String.ofList_toList]
    simp only [lexOperator_eq_some_iff.2 ⟨rfl, ho⟩, Value.lex_eq_ok_iff.2 ⟨value, rfl, hv⟩]

/-! ## Links -/

/-- Blanks have no capitals. -/
theorem Grammar.Blank.toUpper {c : Char} (h : Blank c) : c.toUpper = c := by
  simp only [Blank, List.mem_cons, List.not_mem_nil, or_false] at h
  rcases h with rfl | rfl | rfl | rfl | rfl | rfl <;> rfl

/-- A blank is no letter of a keyword, in whatever case. -/
theorem Grammar.Blank.toUpper_ne {c : Char} (h : Blank c) (letter : Char)
    (hl : letter.isAlpha = true) : c.toUpper ≠ letter := by
  rw [h.toUpper]
  simp only [Blank, List.mem_cons, List.not_mem_nil, or_false] at h
  rintro rfl
  rcases h with rfl | rfl | rfl | rfl | rfl | rfl <;> cases hl

/-- A keyword starts with a letter, so no run of blanks goes on into it. -/
theorem Grammar.IsKeyword.stops {word rest : List Char} (h : IsKeyword word) :
    Stops Blank (word ++ rest) := by
  intro c hc hb
  cases word with
  | nil => simp [IsKeyword] at h
  | cons d word =>
    cases hc
    have hO := hb.toUpper_ne 'O' rfl
    have hA := hb.toUpper_ne 'A' rfl
    simp [IsKeyword, hO, hA] at h

/-- The word that a keyword spells is tried with success. -/
theorem Keyword.lex_word {word rest : List Char} {w : String}
    (h : word.map Char.toUpper = w.toList) :
    (if ((word ++ rest).take w.length).map Char.toUpper = w.toList then
      some (String.ofList ((word ++ rest).take w.length), (word ++ rest).drop w.length)
    else none) = some (.ofList word, rest) := by
  have hl : w.length = word.length := by
    rw [← String.length_toList, ← h, List.length_map]
  rw [hl, List.take_left, List.drop_left, if_pos h]

/-- A keyword is read as it stands if no letter behind it can make it longer: the longer keyword is
tried first, and only an `N` in the right place lets it be read where the shorter one is meant. -/
theorem Keyword.lex_append {word rest : List Char} (hk : IsKeyword word)
    (hr : Stops (·.toUpper = 'N') rest) : lex (word ++ rest) = some (.ofList word, rest) := by
  have hOR : "OR".length = 2 := rfl
  have hAN : "ANDNOT".length = 6 := rfl
  have hu : (word ++ rest).map Char.toUpper = word.map Char.toUpper ++ rest.map Char.toUpper :=
    List.map_append
  simp only [IsKeyword, List.mem_cons, List.not_mem_nil, or_false] at hk
  rw [lex, List.findSome?_eq_some_iff]
  rcases hk with hk | hk | hk
  · exact ⟨[], "OR", _, rfl, Keyword.lex_word hk, by simp⟩
  · refine ⟨["OR"], "ANDNOT", _, rfl, Keyword.lex_word hk, ?_⟩
    simp [-List.map_append, hu, hk, hOR]
  · refine ⟨["OR", "ANDNOT"], "AND", _, rfl, Keyword.lex_word hk, ?_⟩
    cases rest with
    | nil => simp [-List.map_append, hk, hOR, hAN]
    | cons c rest => simp [-List.map_append, hu, hk, hr c rfl, hOR, hAN]

/-- What is read as a keyword is one. -/
theorem Keyword.isKeyword_of_lex {s rest : List Char} {word : String}
    (h : lex s = some (word, rest)) : IsKeyword word.toList := by
  obtain ⟨w, hw, hs⟩ := List.exists_of_findSome?_eq_some h
  split at hs
  · next hu =>
    cases hs
    have hw' : (String.ofList (s.take w.length)).toList.map Char.toUpper = w.toList := by
      rw [String.toList_ofList, hu]
    rw [IsKeyword, hw']
    exact List.mem_map_of_mem (f := String.toList) hw
  · cases hs

/-- A link is read where blanks, a keyword and blanks stand, up to where no further blank does. -/
theorem Link.lex_eq_some_iff {s rest : List Char} {l : Link} :
    lex s = some (l, rest) ↔
      IsRun Blank l.before.toList ∧ IsKeyword l.word.toList ∧ IsRun Blank l.after.toList ∧
        Stops Blank rest ∧ s = l.text.toList ++ rest := by
  refine ⟨?_, ?_⟩
  · intro h
    have hs := text_append_of_lex h
    obtain ⟨-, hb, -⟩ := (run_iff (s := s) isSpace_iff).1 ⟨rfl, rfl⟩
    unfold lex at h
    dsimp only at h
    split at h
    · cases h
    · next word s' hk =>
      obtain ⟨-, ha, hr⟩ := (run_iff (s := s') isSpace_iff).1 ⟨rfl, rfl⟩
      split at h
      · next hne =>
        cases h
        simp only [String.toList_ofList]
        exact ⟨⟨hne.1, hb⟩, Keyword.isKeyword_of_lex hk, ⟨hne.2, ha⟩, hr, hs.symm⟩
      · cases h
  · rintro ⟨⟨hb, hbs⟩, hk, ⟨ha, has⟩, hr, rfl⟩
    obtain ⟨blank, blanks, hblank⟩ := List.exists_cons_of_ne_nil ha
    have hs : l.text.toList ++ rest =
        l.before.toList ++ (l.word.toList ++ (l.after.toList ++ rest)) := by
      simp [Link.text]
    obtain ⟨hbt, hbd⟩ := (run_iff isSpace_iff).2 ⟨hs, hbs, hk.stops⟩
    obtain ⟨hat, had⟩ := (run_iff isSpace_iff).2 ⟨rfl, has, hr⟩
    have hword : Keyword.lex (l.word.toList ++ (l.after.toList ++ rest)) =
        some (l.word, l.after.toList ++ rest) := by
      rw [hblank, List.cons_append, Keyword.lex_append hk, String.ofList_toList]
      rintro _ ⟨⟩
      exact (has blank (by simp [hblank])).toUpper_ne 'N' rfl
    simp only [lex, hbt, hbd, hword, hat, had, String.ofList_toList]
    rw [if_pos ⟨hb, ha⟩]

end FieldQuery
