import FieldQuery.Proofs.Surface.Place

/-!
# A refusal agrees with the text at its offset

A refusal is a reason at an offset, and the reason makes a statement about the text there: that it
ends, or which character comes next, and in some cases what comes before. `SyntaxReason.FitsAt` is
the table of these statements, and `fits_of_parse_error` says that they are true of every text that
is refused. In particular the offset lies between two characters and not inside one.

The rules for faults name what was passed over and what stands behind it, so the statement of a
reason is read off each rule that gives the reason. A missing value is the one whose rule does not
show all of it: the operator in front belongs to the comparison, and a value does not know of it.
-/

namespace FieldQuery

open Text Grammar

/-! ## What reasons say -/

namespace Grammar

/-- A text that starts with a character of a class. -/
def Starts (P : Char → Prop) (s : List Char) : Prop :=
  ∃ c, s.head? = some c ∧ P c

/-- A text that ends with a character of a class. -/
def Ends (P : Char → Prop) (s : List Char) : Prop :=
  ∃ c, s.getLast? = some c ∧ P c

/-- A text that ends in the start of a range: an opening bracket, perhaps a first bound with its
semicolon, and a bound that may be empty. -/
def OpensRange (s : List Char) : Prop :=
  ∃ first bound, (first = [] ∨ ∃ left, IsRun Bound left ∧ first = left ++ [';']) ∧
    (∀ c ∈ bound, Bound c) ∧ '[' :: first ++ bound <:+ s

end Grammar

/-- What a reason says of the text before its offset and of the text from there on, for a nesting
limit. -/
def SyntaxReason.FitsAt (limit : Nat) (before after : List Char) : SyntaxReason → Prop
  | .unterminatedQuote => after = []
  | .unexpectedEnd => after = []
  | .unbalancedParenthesis => after = [] ∨ after.head? = some ')'
  | .nestingTooDeep max => after.head? = some '(' ∧ max = limit
  | .missingField => after.head? = some ':'
  | .expectedExpression found =>
    after.head? = some found ∧ found ≠ ':' ∧ found ≠ '(' ∧ ¬ FieldStart found
  | .unexpectedInput found => after.head? = some found ∧ ¬ Blank found ∧ found ≠ ')'
  | .missingOperator => Ends Blank before ∧ Starts (fun c => ¬ Blank c ∧ c ≠ ')') after
  | .missingAtomOperator =>
    Ends FieldChar before ∧ (after = [] ∨ Starts (fun c => ¬ FieldChar c ∧ c ≠ ':') after)
  | .missingValue =>
    (∃ operator ∈ [":", ":>", ":<"], operator.toList <:+ before) ∧
      (after = [] ∨ Starts (fun c => Blank c ∨ c ∈ ['(', ')', ']']) after)
  | .malformedRange =>
    OpensRange before ∧
      (after = [] ∨ Starts (fun c => Blank c ∨ c ∈ ['[', ']', '(', ')', ';']) after)

/-! ## What rules show -/

/-- A text that does not start with a character of a class is over or starts with another one. -/
theorem Grammar.Stops.nil_or_starts {P : Char → Prop} {s : List Char} (h : Stops P s) :
    s = [] ∨ Starts (fun c => ¬ P c) s := by
  cases s with
  | nil => exact .inl rfl
  | cons c s => exact .inr ⟨c, rfl, h c rfl⟩

theorem Grammar.Starts.imp {P Q : Char → Prop} {s : List Char} (h : Starts P s)
    (hpq : ∀ c, s.head? = some c → P c → Q c) : Starts Q s := by
  obtain ⟨c, hc, hp⟩ := h
  exact ⟨c, hc, hpq c hc hp⟩

/-- A run ends with a character of its class, whatever stands before it. -/
theorem Grammar.IsRun.ends {P : Char → Prop} {run : List Char} (h : IsRun P run)
    (before : List Char) : Ends P (before ++ run) := by
  refine ⟨run.getLast h.1, ?_, h.2 _ (List.getLast_mem h.1)⟩
  rw [List.getLast?_append, List.getLast?_eq_some_getLast h.1, Option.some_or]

/-- A field is a run of field characters. -/
theorem Grammar.IsField.isRun {field : List Char} (h : IsField field) : IsRun FieldChar field := by
  refine ⟨?_, h.fieldChar⟩
  obtain ⟨c, body, rfl, -⟩ := h
  exact List.cons_ne_nil c body

/-- Where a bound is broken, the text is over or goes on with what is no part of a bound. -/
theorem Grammar.BreaksBound.nil_or_starts {stop : Char} {bound rest : List Char}
    (h : BreaksBound stop bound rest) :
    rest = [] ∨ Starts (fun c => Blank c ∨ c ∈ ['[', ']', '(', ')', ';']) rest := by
  refine h.maximal.nil_or_starts.imp_right fun hstarts => hstarts.imp fun c _ hc => ?_
  exact Classical.or_iff_not_imp_left.2 fun hb => Classical.not_not.1 fun hmem => hc ⟨hb, hmem⟩

section
variable {limit : Nat} {s : List Char} {f : Fault}

/-- What is found where a value is due behind an operator. -/
theorem Value.Fails.fits (limit : Nat) (h : Value.Fails s f) {operator : String}
    (ho : operator ∈ [":", ":>", ":<"]) (before : List Char) :
    ∃ after, s = f.skipped.toList ++ after ∧
      f.reason.FitsAt limit (before ++ operator.toList ++ f.skipped.toList) after := by
  cases h with
  | missing hs hr =>
    refine ⟨s, rfl, ⟨operator, ho, by simp⟩, ?_⟩
    refine hs.nil_or_starts.imp_right fun hstarts => hstarts.imp fun c hc hbare => ?_
    have hne : c ≠ '[' := by
      intro he
      exact hr (he ▸ hc)
    simp only [Bare, List.mem_cons, List.not_mem_nil, or_false] at hbare ⊢
    grind
  | @left bound rest hb =>
    refine ⟨rest, by simp, ⟨[], bound, .inl rfl, hb.run, ?_⟩, hb.nil_or_starts⟩
    rw [String.toList_ofList]
    exact List.suffix_append _ _
  | @right left bound rest hl hb =>
    refine ⟨rest, by simp, ⟨left ++ [';'], bound, .inr ⟨left, hl, rfl⟩, hb.run, ?_⟩,
      hb.nil_or_starts⟩
    have hskip : '[' :: left ++ ';' :: bound = '[' :: (left ++ [';']) ++ bound := by simp
    rw [String.toList_ofList, hskip]
    exact List.suffix_append _ _
  | quote => exact ⟨[], by simp, rfl⟩

/-- What is found where a comparison is due and no group is opened. -/
theorem Comparison.Fails.fits (h : Comparison.Fails s f) (hs : s.head? ≠ some '(')
    (before : List Char) :
    ∃ after, s = f.skipped.toList ++ after ∧
      f.reason.FitsAt limit (before ++ f.skipped.toList) after := by
  cases h with
  | start hstop =>
    cases s with
    | nil => exact ⟨[], rfl, rfl⟩
    | cons c s =>
      refine ⟨c :: s, rfl, ?_⟩
      by_cases hc : c = ':'
      · subst hc
        exact rfl
      · have hreason : (Fault.noExpression (c :: s)).reason = .expectedExpression c := if_neg hc
        rw [hreason]
        exact ⟨rfl, hc, fun he => hs (congrArg some he), hstop c rfl⟩
  | @operator field rest hf hstop ho =>
    refine ⟨rest, by simp, ?_, ?_⟩
    · rw [String.toList_ofList]
      exact hf.isRun.ends before
    · refine hstop.nil_or_starts.imp_right fun hstarts => hstarts.imp fun c hc hfield => ?_
      refine ⟨hfield, ?_⟩
      intro he
      exact ho (he ▸ hc)
  | @value field rest operator f hf ho hv =>
    have hop : operator ∈ [":", ":>", ":<"] := by
      rcases ho with rfl | rfl | ⟨rfl, -⟩ <;> simp
    obtain ⟨after, hrest, hfits⟩ := hv.fits limit hop (before ++ field)
    refine ⟨after, ?_, ?_⟩
    · rw [hrest]
      simp [Fault.after]
    · simpa [Fault.after] using hfits

/-- What is found behind an expression where no link can be read. -/
theorem Link.Fails.fits (h : Link.Fails s f) (before : List Char) :
    ∃ after, s = f.skipped.toList ++ after ∧
      f.reason.FitsAt limit (before ++ f.skipped.toList) after := by
  cases h with
  | @junk c rest hb hc => exact ⟨c :: rest, rfl, rfl, hb, hc⟩
  | blank => exact ⟨[], by simp, rfl⟩
  | @closing blanks rest => exact ⟨')' :: rest, by simp, .inr rfl⟩
  | dangling => exact ⟨[], by simp, rfl⟩
  | @operator blanks rest c hb hc hp =>
    refine ⟨c :: rest, by simp, ?_, c, rfl, hc, hp⟩
    rw [String.toList_ofList]
    exact hb.ends before

/-- What is found at a place that no step leads on from. -/
theorem Stuck.fits {p : Place} {n : Nat} (h : Stuck limit p n s f) (before : List Char) :
    ∃ after, s = f.skipped.toList ++ after ∧
      f.reason.FitsAt limit (before ++ f.skipped.toList) after := by
  cases h with
  | @tooDeep _ rest => exact ⟨'(' :: rest, rfl, rfl, rfl⟩
  | comparison hs h => exact h.fits hs before
  | @unopened rest => exact ⟨')' :: rest, rfl, .inr rfl⟩
  | unclosed => exact ⟨[], rfl, .inl rfl⟩
  | link h => exact h.fits before

end

/-! ## What refusals say -/

/-- **A refusal agrees with the text.** Its offset lies within the text and between two characters,
and what its reason says of the text before the offset and from there on is so. -/
theorem fits_of_parse_error {limit : Nat} {s : String} {e : SyntaxError}
    (h : Query.parse limit s = .error e) :
    e.position ≤ s.utf8ByteSize ∧ (String.Pos.Raw.mk e.position).IsValid s ∧
      ∃ before after : String, s = before ++ after ∧ before.utf8ByteSize = e.position ∧
        e.reason.FitsAt limit before.toList after.toList := by
  obtain ⟨p, n, before, rest, f, hs, -, hstuck, rfl⟩ := parse_eq_error_iff.1 h
  obtain ⟨after, hrest, hfits⟩ := hstuck.fits before
  have hcut : s = (.ofList before ++ f.skipped) ++ .ofList after := by
    rw [← String.toList_inj, hs, hrest]
    simp
  have hsize : (String.ofList before ++ f.skipped).utf8ByteSize =
      bytes before + f.skipped.utf8ByteSize := by
    rw [String.utf8ByteSize_append]
    rfl
  refine ⟨?_, ?_, _, _, hcut, hsize, by simpa using hfits⟩
  · show bytes before + f.skipped.utf8ByteSize ≤ s.utf8ByteSize
    rw [hcut, String.utf8ByteSize_append, hsize]
    omega
  · refine String.Pos.Raw.isValid_iff_exists_append.2 ⟨_, _, hcut, ?_⟩
    exact String.Pos.Raw.ext hsize.symm

/-- A blank in the second bound of a range, behind two characters of two bytes each. -/
theorem fits_of_parse_error_range :
    Query.parse 1 "(a:\"é\" OR b:>[ü; 3])" = .error ⟨18, .malformedRange⟩ ∧
    (String.Pos.Raw.mk 18).IsValid "(a:\"é\" OR b:>[ü; 3])" ∧
    ∃ before after : String, "(a:\"é\" OR b:>[ü; 3])" = before ++ after ∧
      before.utf8ByteSize = 18 ∧ OpensRange before.toList ∧
      (after.toList = [] ∨
        Starts (fun c => Blank c ∨ c ∈ ['[', ']', '(', ')', ';']) after.toList) := by
  have hs : "(a:\"é\" OR b:>[ü; 3])".toList = ['(', 'a', ':', '"', 'é', '"', ' ', 'O', 'R', ' ',
    'b', ':', '>', '[', 'ü', ';', ' ', '3', ']', ')'] := rfl
  have ha : Comparison.lex ['a', ':', '"', 'é', '"', ' ', 'O', 'R', ' ', 'b', ':', '>', '[', 'ü',
    ';', ' ', '3', ']', ')'] = .ok (⟨"a", ":", .quoted "\"é\""⟩,
      [' ', 'O', 'R', ' ', 'b', ':', '>', '[', 'ü', ';', ' ', '3', ']', ')']) := rfl
  have h : Query.parse 1 "(a:\"é\" OR b:>[ü; 3])" = .error ⟨18, .malformedRange⟩ := by
    rw [Query.parse, hs, Tokens.scan_opening, Tokens.scan_comparison ha]
    with_unfolding_all rfl
  obtain ⟨-, hvalid, before, after, hs, hsize, hopens, hnext⟩ := fits_of_parse_error h
  exact ⟨h, hvalid, before, after, hs, hsize, hopens, hnext⟩

end FieldQuery
