import FieldQuery.Proofs.Surface.Lexeme

/-!
# Where readers stop

For each reader of a lexeme, the texts on which it fails and the fault that it fails with, again as
rules: a rule names what was passed over, what stands behind it, and why the lexeme cannot go on
there. Reader and rules agree on values and comparisons (`Value.lex_eq_error_iff`,
`Comparison.lex_eq_error_iff`) and on what follows an expression (`Link.Fails.lex_and_trailing`,
`Link.fails_trailing`).

A rule looks at one character behind what was passed over, or at the end of the text. The exception
is a missing keyword, which is missing only if none of the letters to come spell one.
-/

namespace FieldQuery

open Text Grammar

/-! ## Rules -/

namespace Grammar

/-- What a field starts with. -/
def FieldStart (c : Char) : Prop :=
  c.isAlpha = true ∨ c = '_'

/-- What a field goes on with. -/
def FieldChar (c : Char) : Prop :=
  c.isAlphanum = true ∨ c = '_'

/-- What stands behind a possibly empty bound neither goes on with it nor ends it. -/
structure BreaksBound (stop : Char) (bound rest : List Char) : Prop where
  run : ∀ c ∈ bound, Bound c
  maximal : Stops Bound rest
  broken : bound = [] ∨ rest.head? ≠ some stop

/-- Items of a quoted text, the last one perhaps a backslash alone. -/
def Unclosed (s : List Char) : Prop :=
  ∃ items, s = quoteBody items ∨ s = quoteBody items ++ ['\\']

end Grammar

/-- The fault of a text at which a value is due and none can be read. -/
inductive Value.Fails : List Char → Fault → Prop
  | missing {s : List Char} (hs : Stops Bare s) (hr : s.head? ≠ some '[') :
      Fails s ⟨"", .missingValue⟩
  | left {bound rest : List Char} (h : BreaksBound ';' bound rest) :
      Fails ('[' :: bound ++ rest) ⟨.ofList ('[' :: bound), .malformedRange⟩
  | right {left bound rest : List Char} (hl : IsRun Bound left) (h : BreaksBound ']' bound rest) :
      Fails ('[' :: left ++ ';' :: bound ++ rest)
        ⟨.ofList ('[' :: left ++ ';' :: bound), .malformedRange⟩
  | quote {s : List Char} (h : Unclosed s) :
      Fails ('"' :: s) ⟨.ofList ('"' :: s), .unterminatedQuote⟩

/-- The fault of a text at which a comparison is due and none can be read. -/
inductive Comparison.Fails : List Char → Fault → Prop
  | start {s : List Char} (hs : Stops FieldStart s) : Fails s (.noExpression s)
  | operator {field rest : List Char} (hf : IsField field) (hs : Stops FieldChar rest)
      (ho : rest.head? ≠ some ':') :
      Fails (field ++ rest) ⟨.ofList field, .missingAtomOperator⟩
  | value {field rest : List Char} {operator : String} {f : Fault} (hf : IsField field)
      (ho : IsOperator operator rest) (hv : Value.Fails rest f) :
      Fails (field ++ operator.toList ++ rest) (f.after (.ofList field ++ operator))

/-- The fault of a text that follows an expression, does not close a group and has no link at its
start. -/
inductive Link.Fails : List Char → Fault → Prop
  | junk {c : Char} {rest : List Char} (hb : ¬ Blank c) (hc : c ≠ ')') :
      Fails (c :: rest) ⟨"", .unexpectedInput c⟩
  | blank {before : List Char} (hb : IsRun Blank before) :
      Fails before ⟨.ofList before, .unexpectedEnd⟩
  | closing {before rest : List Char} (hb : IsRun Blank before) :
      Fails (before ++ ')' :: rest) ⟨.ofList before, .unbalancedParenthesis⟩
  | dangling {before word : List Char} (hb : IsRun Blank before) (hk : IsKeyword word) :
      Fails (before ++ word) ⟨.ofList (before ++ word), .unexpectedEnd⟩
  | operator {before rest : List Char} {c : Char} (hb : IsRun Blank before) (hc : ¬ Blank c)
      (hp : c ≠ ')')
      (hk : ∀ word rest', IsKeyword word → c :: rest = word ++ rest' →
        ∃ d, rest'.head? = some d ∧ ¬ Blank d) :
      Fails (before ++ c :: rest) ⟨.ofList before, .missingOperator⟩

/-! ## Values -/

theorem lexBound_eq_error_iff {stop : Char} {s : List Char} {f : Fault} :
    lexBound stop s = .error f ↔
      ∃ bound rest, s = bound ++ rest ∧ BreaksBound stop bound rest ∧
        f = ⟨.ofList bound, .malformedRange⟩ := by
  refine ⟨?_, ?_⟩
  · intro h
    obtain ⟨hs, hb, hr⟩ := (run_iff (s := s) isBoundChar_iff).1 ⟨rfl, rfl⟩
    unfold lexBound at h
    dsimp only at h
    split at h
    · next hd =>
      cases h
      exact ⟨_, _, hs, ⟨hb, hr, .inr (by simp [hd])⟩, rfl⟩
    · next c rest hd =>
      split at h
      · cases h
      · next hc =>
        cases h
        refine ⟨_, _, hs, ⟨hb, hr, ?_⟩, rfl⟩
        rw [hd, List.head?_cons, ne_eq, Option.some.injEq]
        exact Decidable.or_iff_not_not_and_not.2 fun h => hc ⟨h.1, Decidable.not_not.1 h.2⟩
  · rintro ⟨bound, rest, rfl, ⟨hb, hr, hbroken⟩, rfl⟩
    obtain ⟨ht, hd⟩ := (run_iff isBoundChar_iff).2 ⟨rfl, hb, hr⟩
    simp only [lexBound, ht, hd]
    cases rest with
    | nil => rfl
    | cons c rest =>
      simp only
      rw [if_neg]
      rintro ⟨hne, rfl⟩
      exact hbroken.elim hne (· rfl)

theorem Value.lexRange_eq_error_iff {s : List Char} {f : Fault} :
    lexRange s = .error f ↔
      (∃ bound rest, s = bound ++ rest ∧ BreaksBound ';' bound rest ∧
        f = ⟨.ofList bound, .malformedRange⟩) ∨
      ∃ left bound rest, IsRun Bound left ∧ s = left ++ ';' :: bound ++ rest ∧
        BreaksBound ']' bound rest ∧ f = ⟨.ofList (left ++ ';' :: bound), .malformedRange⟩ := by
  have hafter (left : String) (bound : List Char) :
      Fault.after (left ++ ";") ⟨.ofList bound, .malformedRange⟩ =
        ⟨.ofList (left.toList ++ ';' :: bound), .malformedRange⟩ := by
    simp [Fault.after, ← String.toList_inj]
  refine ⟨?_, ?_⟩
  · intro h
    unfold lexRange at h
    split at h
    · next hl =>
      cases h
      exact .inl (lexBound_eq_error_iff.1 hl)
    · next left s hl =>
      obtain ⟨hleft, rfl⟩ := (lexBound_eq_ok_iff (by simp [Bound])).1 hl
      split at h
      · next hr =>
        cases h
        obtain ⟨bound, rest, rfl, hbreaks, rfl⟩ := lexBound_eq_error_iff.1 hr
        exact .inr ⟨left.toList, bound, rest, hleft, by simp, hbreaks, hafter left bound⟩
      · cases h
  · rintro (h | ⟨left, bound, rest, hleft, rfl, hbreaks, rfl⟩)
    · simp only [lexRange, lexBound_eq_error_iff.2 h]
    · have hl : lexBound ';' (left ++ ';' :: bound ++ rest) = .ok (.ofList left, bound ++ rest) :=
        (lexBound_eq_ok_iff (by simp [Bound])).2 (by simpa using hleft)
      simp only [lexRange, hl, lexBound_eq_error_iff.2 ⟨bound, rest, rfl, hbreaks, rfl⟩, hafter,
        String.toList_ofList]

/-- No quote is closed in a sequence of items, not even by what a last backslash protects. -/
theorem closeQuote_eq_none_iff {s : List Char} : closeQuote s = none ↔ Unclosed s := by
  refine ⟨?_, ?_⟩
  · intro h
    fun_induction closeQuote s with
    | case1 => exact ⟨[], .inl rfl⟩
    | case2 => cases h
    | case3 => exact ⟨[], .inr rfl⟩
    | case4 d s _ ih =>
      obtain ⟨items, rfl | rfl⟩ := ih (Option.map_eq_none_iff.1 h)
      · exact ⟨.escaped d :: items, .inl rfl⟩
      · exact ⟨.escaped d :: items, .inr rfl⟩
    | case5 c s hq hb ih =>
      obtain ⟨items, rfl | rfl⟩ := ih (Option.map_eq_none_iff.1 h)
      · exact ⟨.plain c ⟨hb, hq⟩ :: items, .inl rfl⟩
      · exact ⟨.plain c ⟨hb, hq⟩ :: items, .inr rfl⟩
  · rintro ⟨items, h⟩
    induction items generalizing s with
    | nil =>
      rcases h with rfl | rfl
      · rfl
      · rfl
    | cons item items ih =>
      rcases h with rfl | rfl
      · rw [quoteBody, List.flatMap_cons, closeQuote_item]
        exact Option.map_eq_none_iff.2 (ih (.inl rfl))
      · rw [quoteBody, List.flatMap_cons, List.append_assoc, closeQuote_item]
        exact Option.map_eq_none_iff.2 (ih (.inr rfl))

/-- What follows an opening quote that is never closed does not start with a quote. -/
theorem Grammar.Unclosed.head?_ne {s : List Char} (h : Unclosed s) : s.head? ≠ some '"' := by
  obtain ⟨items, rfl | rfl⟩ := h
  · cases items with
    | nil => simp [quoteBody]
    | cons item items => simpa using head?_quoteBody_append (s := []) (List.cons_ne_nil item items)
  · cases items with
    | nil => simp [quoteBody]
    | cons item items => exact head?_quoteBody_append (List.cons_ne_nil item items)

theorem Value.lexBare_eq_error_iff {s : List Char} {f : Fault} :
    lexBare s = .error f ↔ Stops Bare s ∧ f = ⟨"", .missingValue⟩ := by
  refine ⟨?_, ?_⟩
  · intro h
    obtain ⟨hs, -, hr⟩ := (run_iff (s := s) isBareChar_iff).1 ⟨rfl, rfl⟩
    unfold lexBare at h
    dsimp only at h
    split at h
    · next hnil =>
      cases h
      rw [hnil, List.nil_append] at hs
      exact ⟨hs ▸ hr, rfl⟩
    · cases h
  · rintro ⟨hs, rfl⟩
    obtain ⟨ht, -⟩ := (run_iff isBareChar_iff).2 ⟨(List.nil_append s).symm, by simp, hs⟩
    simp only [lexBare, ht, if_true]

/-- Reading a value fails where the rules say, with the fault that they say. -/
theorem Value.lex_eq_error_iff {s : List Char} {f : Fault} :
    lex s = .error f ↔ Value.Fails s f := by
  have hafter (bound : List Char) :
      Fault.after "[" ⟨.ofList bound, .malformedRange⟩ =
        ⟨.ofList ('[' :: bound), .malformedRange⟩ := by
    simp [Fault.after]
  have hquote (s : List Char) : "\"" ++ String.ofList s = .ofList ('"' :: s) := by
    simp
  refine ⟨?_, ?_⟩
  · intro h
    unfold lex at h
    split at h
    · cases h
      exact .missing stops_nil (by simp)
    · next c s =>
      split at h
      · next hc =>
        subst hc
        split at h
        · next hr =>
          cases h
          rcases lexRange_eq_error_iff.1 hr with ⟨bound, rest, rfl, hbreaks, rfl⟩ |
            ⟨left, bound, rest, hl, rfl, hbreaks, rfl⟩
          · rw [hafter]
            exact .left hbreaks
          · rw [hafter]
            simpa using Value.Fails.right hl hbreaks
        · cases h
      · next hc =>
        split at h
        · next hq =>
          obtain ⟨rfl, -⟩ := hq
          unfold lexQuoted at h
          split at h
          · next hnone =>
            cases h
            rw [hquote]
            exact .quote (closeQuote_eq_none_iff.1 hnone)
          · cases h
        · obtain ⟨hs, rfl⟩ := lexBare_eq_error_iff.1 h
          exact .missing hs (by simpa using hc)
  · intro h
    cases h with
    | missing hs hr =>
      cases s with
      | nil => rfl
      | cons c s =>
        have hc : c ≠ '[' := by simpa using hr
        have hq : c ≠ '"' := by
          rintro rfl
          exact hs '"' rfl (by simp [Bare, Blank])
        rw [lex, if_neg hc, if_neg (fun h => hq h.1)]
        exact lexBare_eq_error_iff.2 ⟨hs, rfl⟩
    | @left bound rest hbreaks =>
      have hr := lexRange_eq_error_iff.2 (.inl ⟨bound, rest, rfl, hbreaks, rfl⟩)
      simp only [List.cons_append, lex, if_true, hr, hafter]
    | @right left bound rest hl hbreaks =>
      have hr := lexRange_eq_error_iff.2 (.inr ⟨left, bound, rest, hl, rfl, hbreaks, rfl⟩)
      simp only [List.cons_append, lex, if_true, hr, hafter]
    | @quote s hu =>
      rw [lex, if_neg (by decide), if_pos ⟨rfl, hu.head?_ne⟩]
      simp only [lexQuoted, closeQuote_eq_none_iff.2 hu, hquote]

/-! ## Comparisons -/

theorem lexOperator_eq_none_iff {s : List Char} : lexOperator s = none ↔ s.head? ≠ some ':' := by
  cases s with
  | nil => simp [lexOperator]
  | cons c s =>
    by_cases hc : c = ':'
    · subst hc
      cases s with
      | nil => simp [lexOperator]
      | cons d s =>
        simp only [lexOperator, if_true, List.head?_cons]
        split
        · simp
        · split <;> simp
    · simp [lexOperator, hc]

/-- The characters that a field name starts with, followed by those that it goes on with, are a
field. -/
theorem isField_takeWhile {c : Char} {s : List Char} (h : isFieldStart c = true) :
    IsField ((c :: s).takeWhile isFieldChar) := by
  obtain ⟨-, hf, -⟩ := (run_iff (s := c :: s) isFieldChar_iff).1 ⟨rfl, rfl⟩
  rw [List.takeWhile_cons_of_pos (isFieldChar_of_isFieldStart h)] at hf ⊢
  exact isField_cons_iff.2 ⟨h, fun x hx => (isFieldChar_iff x).2 (hf x (.tail _ hx))⟩

/-- Behind a field, a comparison is read as the operator and the value that stand there. -/
theorem Comparison.lex_field {field rest : List Char} (hf : IsField field)
    (hs : Stops FieldChar rest) :
    lex (field ++ rest) =
      match lexOperator rest with
      | none => .error ⟨.ofList field, .missingAtomOperator⟩
      | some (operator, s) =>
        match Value.lex s with
        | .error f => .error (f.after (.ofList field ++ operator))
        | .ok (value, s) => .ok (⟨.ofList field, operator, value⟩, s) := by
  obtain ⟨ht, hd⟩ := (run_iff isFieldChar_iff).2 ⟨rfl, hf.fieldChar, hs⟩
  obtain ⟨c, body, rfl, hc, -⟩ := hf
  have hlex : lex (c :: body ++ rest) = _ := if_pos ((isFieldStart_iff c).2 hc)
  rw [ht, hd] at hlex
  exact hlex

/-- Reading a comparison fails where the rules say, with the fault that they say. -/
theorem Comparison.lex_eq_error_iff {s : List Char} {f : Fault} :
    lex s = .error f ↔ Comparison.Fails s f := by
  refine ⟨?_, ?_⟩
  · intro h
    cases s with
    | nil =>
      cases h
      exact .start stops_nil
    | cons c s =>
      by_cases hc : isFieldStart c = true
      · have hf := isField_takeWhile (s := s) hc
        obtain ⟨hs, -, hstop⟩ := (run_iff (s := c :: s) isFieldChar_iff).1 ⟨rfl, rfl⟩
        rw [hs] at h ⊢
        rw [lex_field hf hstop] at h
        split at h
        · next ho =>
          cases h
          exact .operator hf hstop (lexOperator_eq_none_iff.1 ho)
        · next operator rest ho =>
          obtain ⟨hrest, hop⟩ := lexOperator_eq_some_iff.1 ho
          split at h
          · next hv =>
            cases h
            rw [hrest, ← List.append_assoc]
            exact .value hf hop (Value.lex_eq_error_iff.1 hv)
          · cases h
      · rw [lex, if_neg hc] at h
        cases h
        exact .start (stops_cons.2 fun hstart => hc ((isFieldStart_iff c).2 hstart))
  · intro h
    cases h with
    | start hs =>
      cases s with
      | nil => rfl
      | cons c s => rw [lex, if_neg fun hc => hs c rfl ((isFieldStart_iff c).1 hc)]
    | operator hf hs ho => rw [lex_field hf hs, lexOperator_eq_none_iff.2 ho]
    | value hf ho hv =>
      rw [List.append_assoc, lex_field hf ho.stops]
      simp only [lexOperator_eq_some_iff.2 ⟨rfl, ho⟩, Value.lex_eq_error_iff.2 hv]

/-! ## Links -/

/-- No blank is part of a keyword. -/
theorem Grammar.IsKeyword.not_blank {word : List Char} (h : IsKeyword word) {c : Char}
    (hc : c ∈ word) : ¬ Blank c := by
  intro hb
  have hu : c.toUpper ∈ word.map Char.toUpper := List.mem_map_of_mem hc
  have halpha : c.toUpper.isAlpha = true := by
    simp only [IsKeyword, List.mem_cons, List.not_mem_nil, or_false] at h
    rcases h with h | h | h
    all_goals
      rw [h] at hu
      exact List.all_eq_true.1 (by decide) _ hu
  exact hb.toUpper_ne c.toUpper halpha rfl

/-- A text is cut into blanks and what follows them in one way only. -/
theorem blanks_append_inj {before before' rest rest' : List Char}
    (h : before ++ rest = before' ++ rest') (hb : ∀ c ∈ before, Blank c)
    (hb' : ∀ c ∈ before', Blank c) (hr : Stops Blank rest) (hr' : Stops Blank rest') :
    before = before' ∧ rest = rest' := by
  obtain ⟨ht, hd⟩ := (run_iff isSpace_iff).2 ⟨rfl, hb, hr⟩
  obtain ⟨ht', hd'⟩ := (run_iff isSpace_iff).2 ⟨h, hb', hr'⟩
  exact ⟨ht.symm.trans ht', hd.symm.trans hd'⟩

/-- No link can be read behind given blanks if there are none, or if no keyword with a blank after
it follows them. -/
theorem Link.lex_eq_none {before rest : List Char} (hb : ∀ c ∈ before, Blank c)
    (hr : Stops Blank rest)
    (h : before ≠ [] → ∀ word blank after, IsKeyword word → Blank blank →
      rest ≠ word ++ blank :: after) : lex (before ++ rest) = none := by
  refine Option.eq_none_iff_forall_ne_some.2 fun ⟨l, rest'⟩ hl => ?_
  obtain ⟨hbefore, hk, ⟨hne, hafter⟩, -, hs⟩ := Link.lex_eq_some_iff.1 hl
  have htext : l.text.toList ++ rest' =
      l.before.toList ++ (l.word.toList ++ (l.after.toList ++ rest')) := by simp [Link.text]
  rw [htext] at hs
  obtain ⟨rfl, rfl⟩ := blanks_append_inj hs hb hbefore.2 hr hk.stops
  obtain ⟨blank, after, ha⟩ := List.exists_cons_of_ne_nil hne
  refine h hbefore.1 l.word.toList blank (after ++ rest') hk (hafter blank (by simp [ha])) ?_
  rw [ha, List.cons_append]

/-- A link is read where blanks, a keyword and a blank stand. -/
theorem Link.exists_lex {before word after : List Char} {blank : Char} (hb : IsRun Blank before)
    (hk : IsKeyword word) (ha : Blank blank) :
    ∃ l rest, lex (before ++ (word ++ blank :: after)) = some (l, rest) := by
  obtain ⟨hcut, has, hr⟩ := (run_iff (s := blank :: after) isSpace_iff).1 ⟨rfl, rfl⟩
  have hne : (blank :: after).takeWhile isSpace ≠ [] := by simp [(isSpace_iff blank).2 ha]
  refine ⟨⟨.ofList before, .ofList word, .ofList ((blank :: after).takeWhile isSpace)⟩, _,
    Link.lex_eq_some_iff.2 ⟨?_, ?_, ?_, hr, ?_⟩⟩
  · simpa using hb
  · simpa using hk
  · rw [String.toList_ofList]
    exact ⟨hne, has⟩
  · simp [Link.text]

/-- The fault behind an expression, at given blanks and what follows them. -/
theorem Fault.trailing_append {before rest : List Char} (hb : ∀ c ∈ before, Blank c)
    (hr : Stops Blank rest) :
    trailing (before ++ rest) =
      match rest with
      | [] => ⟨.ofList (before ++ rest), .unexpectedEnd⟩
      | c :: rest =>
        if c = ')' then ⟨.ofList before, .unbalancedParenthesis⟩
        else if before = [] then ⟨"", .unexpectedInput c⟩
        else
          match Keyword.lex (c :: rest) with
          | some (_, []) => ⟨.ofList (before ++ c :: rest), .unexpectedEnd⟩
          | _ => ⟨.ofList before, .missingOperator⟩ := by
  obtain ⟨ht, hd⟩ := (run_iff isSpace_iff).2 ⟨rfl, hb, hr⟩
  simp only [trailing, ht, hd]
  cases rest with
  | nil => rfl
  | cons c rest => rfl

/-- Reading behind an expression fails where the rules say, with the fault that they say. -/
theorem Link.Fails.lex_and_trailing {s : List Char} {f : Fault} (h : Link.Fails s f) :
    lex s = none ∧ f = .trailing s := by
  cases h with
  | @junk c rest hb hc =>
    have hstop : Stops Blank (c :: rest) := stops_cons.2 hb
    have hblanks : ∀ d ∈ ([] : List Char), Blank d := by simp
    have htrail := Fault.trailing_append hblanks hstop
    refine ⟨lex_eq_none hblanks hstop (absurd rfl), ?_⟩
    simpa [hc] using htrail.symm
  | blank hb =>
    have hnone := lex_eq_none hb.2 stops_nil (by simp)
    have htrail := Fault.trailing_append hb.2 stops_nil
    rw [List.append_nil] at hnone htrail
    exact ⟨hnone, htrail.symm⟩
  | @closing before rest hb =>
    have hstop : Stops Blank (')' :: rest) := stops_cons.2 (by simp [Blank])
    refine ⟨lex_eq_none hb.2 hstop ?_, ?_⟩
    · intro _ word blank after hk _ he
      cases word with
      | nil => simp [IsKeyword] at hk
      | cons c word =>
        cases he
        simp [IsKeyword] at hk
    · rw [Fault.trailing_append hb.2 hstop]
      rfl
  | @dangling before word hb hk =>
    have hstop : Stops Blank (word ++ []) := hk.stops
    have hread : Keyword.lex (word ++ []) = some (.ofList word, []) :=
      Keyword.lex_append hk stops_nil
    rw [List.append_nil] at hstop hread
    refine ⟨lex_eq_none hb.2 hstop ?_, ?_⟩
    · intro _ word' blank after _ hblank he
      exact hk.not_blank (by simp [he]) hblank
    · rw [Fault.trailing_append hb.2 hstop]
      cases word with
      | nil => rfl
      | cons c word =>
        have hc : c ≠ ')' := by
          rintro rfl
          simp [IsKeyword] at hk
        simp only [hread, if_neg hc, if_neg hb.1]
  | @operator before rest c hb hc hp hk =>
    have hstop : Stops Blank (c :: rest) := stops_cons.2 hc
    refine ⟨lex_eq_none hb.2 hstop ?_, ?_⟩
    · intro _ word blank after hword hblank he
      obtain ⟨d, hd, hnot⟩ := hk word _ hword he
      cases hd
      exact hnot hblank
    · rw [Fault.trailing_append hb.2 hstop]
      simp only [if_neg hp, if_neg hb.1]
      split
      · next hread =>
        obtain ⟨d, hd, -⟩ := hk _ [] (Keyword.isKeyword_of_lex hread)
          (Keyword.text_append_of_lex hread).symm
        cases hd
      · rfl

/-- Where reading behind an expression fails, the rules say so, and say with which fault. -/
theorem Link.fails_trailing {s : List Char} (hs : s ≠ []) (hclose : s.head? ≠ some ')')
    (hnone : lex s = none) : Link.Fails s (.trailing s) := by
  obtain ⟨hcut, hb, hr⟩ := (run_iff (s := s) isSpace_iff).1 ⟨rfl, rfl⟩
  generalize s.takeWhile isSpace = before at hcut hb
  generalize s.dropWhile isSpace = rest at hcut hr
  subst hcut
  rw [Fault.trailing_append hb hr]
  cases rest with
  | nil =>
    rw [List.append_nil] at hs ⊢
    exact .blank ⟨hs, hb⟩
  | cons c rest =>
    by_cases hp : c = ')'
    · subst hp
      have hne : before ≠ [] := by
        rintro rfl
        exact hclose rfl
      simpa using Link.Fails.closing ⟨hne, hb⟩
    · have hc : ¬ Blank c := hr c rfl
      simp only [if_neg hp]
      split
      · next hnil =>
        subst hnil
        exact .junk hc hp
      · next hne =>
        split
        · next word hread =>
          have hword := Keyword.text_append_of_lex hread
          rw [List.append_nil] at hword
          rw [← hword]
          exact .dangling ⟨hne, hb⟩ (Keyword.isKeyword_of_lex hread)
        · next hread =>
          refine .operator ⟨hne, hb⟩ hc hp fun word rest' hk he => ?_
          cases rest' with
          | nil =>
            have hword := Keyword.lex_append hk stops_nil
            exact absurd (he ▸ hword) (hread _)
          | cons d after =>
            refine ⟨d, rfl, fun hd => ?_⟩
            obtain ⟨l, rest', hl⟩ := exists_lex ⟨hne, hb⟩ hk hd
            rw [he, hl] at hnone
            cases hnone

end FieldQuery
