import FieldQuery.Proofs.Surface.Place

/-!
# A refusal points at the first character that cannot be continued

Where a text is refused, what stands before the offset of the refusal can be completed to a query,
and the character at the offset is enough to refuse it: whatever follows the character, the text is
refused at the same offset for the same reason (`viable_and_final_of_parse_error`). A missing
keyword is the one reason that the letters to come may still take away.

Both halves go from the fault of a lexeme to the place at which it is met. The rules for faults give
a text that completes what was skipped, and they look no further than one character behind it
(`Value.Fails.completable`, `Value.Fails.final`, and so on); at the place, what is completed leads
to a joint, from which the open groups are closed (`Reaches.close`).
-/

namespace FieldQuery

open Text Grammar Tokens

/-! ## What was skipped -/

section
variable {s : List Char} {f : Fault}

/-- What was skipped starts the text. -/
theorem Value.Fails.exists_append (h : Value.Fails s f) :
    ∃ after, s = f.skipped.toList ++ after := by
  cases h with
  | missing => exact ⟨s, rfl⟩
  | left | right => exact ⟨_, by rw [String.toList_ofList]⟩
  | quote => exact ⟨[], by simp⟩

/-- What was skipped starts the text. -/
theorem Comparison.Fails.exists_append (h : Comparison.Fails s f) :
    ∃ after, s = f.skipped.toList ++ after := by
  cases h with
  | start =>
    cases s with
    | nil => exact ⟨[], rfl⟩
    | cons c s => exact ⟨c :: s, rfl⟩
  | operator => exact ⟨_, by rw [String.toList_ofList]⟩
  | value _ _ hv =>
    obtain ⟨after, rfl⟩ := hv.exists_append
    exact ⟨after, by simp [Fault.after]⟩

/-- What was skipped starts the text. -/
theorem Link.Fails.exists_append (h : Link.Fails s f) : ∃ after, s = f.skipped.toList ++ after := by
  cases h with
  | junk => exact ⟨_, rfl⟩
  | blank | dangling => exact ⟨[], by simp⟩
  | closing | operator => exact ⟨_, by rw [String.toList_ofList]⟩

/-- What was skipped starts the text behind the place. -/
theorem Stuck.exists_append {limit n : Nat} {p : Place} (h : Stuck limit p n s f) :
    ∃ after, s = f.skipped.toList ++ after := by
  cases h with
  | tooDeep | unopened | unclosed => exact ⟨_, rfl⟩
  | comparison _ h => exact h.exists_append
  | link h => exact h.exists_append

end

/-! ## The next character decides -/

/-- What stands behind a character does not matter for how a text up to it starts. -/
theorem head?_append_cons (s : List Char) (c : Char) (rest rest' : List Char) :
    (s ++ c :: rest).head? = (s ++ c :: rest').head? := by
  cases s with
  | nil => rfl
  | cons d s => rfl

theorem Grammar.Stops.congr {P : Char → Prop} {s s' : List Char} (h : Stops P s)
    (hs : s.head? = s'.head?) : Stops P s' := by
  intro c hc
  exact h c (hs ▸ hc)

theorem Grammar.BreaksBound.congr {stop : Char} {bound rest rest' : List Char}
    (h : BreaksBound stop bound rest) (hs : rest.head? = rest'.head?) :
    BreaksBound stop bound rest' :=
  ⟨h.run, h.maximal.congr hs, hs ▸ h.broken⟩

section
variable {c : Char} {rest : List Char} {f : Fault}

/-- The character behind what was skipped decides that no value can be read. -/
theorem Value.Fails.final {s : List Char} (h : Value.Fails s f)
    (hs : s = f.skipped.toList ++ c :: rest) (rest' : List Char) :
    Value.Fails (f.skipped.toList ++ c :: rest') f := by
  cases h with
  | missing hstop hr =>
    subst hs
    exact .missing (hstop.congr rfl) hr
  | left hb =>
    simp only [String.toList_ofList] at hs ⊢
    obtain rfl := List.append_cancel_left hs
    exact .left (hb.congr rfl)
  | right hl hb =>
    simp only [String.toList_ofList] at hs ⊢
    obtain rfl := List.append_cancel_left hs
    exact .right hl (hb.congr rfl)
  | quote hu =>
    rw [String.toList_ofList] at hs
    exact absurd hs.symm (by simp)

/-- The character behind what was skipped decides that no comparison can be read. -/
theorem Comparison.Fails.final {s : List Char} (h : Comparison.Fails s f)
    (hs : s = f.skipped.toList ++ c :: rest) (rest' : List Char) :
    Comparison.Fails (f.skipped.toList ++ c :: rest') f := by
  cases h with
  | start hstop =>
    cases s with
    | nil => simp at hs
    | cons d s =>
      have hskip : (Fault.noExpression (d :: s)).skipped.toList = [] := rfl
      rw [hskip] at hs ⊢
      cases hs
      exact .start (s := c :: rest') (hstop.congr rfl)
  | operator hf hstop ho =>
    rw [String.toList_ofList] at hs ⊢
    obtain rfl := List.append_cancel_left hs
    exact .operator hf (hstop.congr rfl) ho
  | @value field _ operator f hf ho hv =>
    have hskip : (f.after (.ofList field ++ operator)).skipped.toList =
        field ++ operator.toList ++ f.skipped.toList := by
      simp [Fault.after]
    rw [hskip, List.append_assoc _ f.skipped.toList] at hs ⊢
    obtain rfl := List.append_cancel_left hs
    refine .value hf ?_ (hv.final rfl rest')
    unfold IsOperator at ho ⊢
    rwa [head?_append_cons _ c rest' rest]

/-- The character behind what was skipped decides that no link can be read, unless a keyword is
missing there. -/
theorem Link.Fails.final {s : List Char} (h : Link.Fails s f)
    (hs : s = f.skipped.toList ++ c :: rest) (hf : f.reason ≠ .missingOperator)
    (rest' : List Char) : Link.Fails (f.skipped.toList ++ c :: rest') f := by
  cases h with
  | junk hb hc =>
    cases hs
    exact .junk hb hc
  | blank | dangling =>
    rw [String.toList_ofList] at hs
    exact absurd hs.symm (by simp)
  | closing hb =>
    rw [String.toList_ofList] at hs ⊢
    cases List.append_cancel_left hs
    exact .closing hb
  | operator => exact absurd rfl hf

/-- The character behind what was skipped decides that no step leads on, unless a keyword is missing
there. -/
theorem Stuck.final {limit n : Nat} {p : Place} {s : List Char} (h : Stuck limit p n s f)
    (hs : s = f.skipped.toList ++ c :: rest) (hf : f.reason ≠ .missingOperator)
    (rest' : List Char) : Stuck limit p n (f.skipped.toList ++ c :: rest') f := by
  cases h with
  | tooDeep hn =>
    cases hs
    exact .tooDeep hn
  | comparison hhead h =>
    refine .comparison ?_ (h.final hs rest')
    rwa [head?_append_cons _ c rest' rest, ← hs]
  | unopened =>
    cases hs
    exact .unopened
  | unclosed => cases hs
  | link h => exact .link (h.final hs hf rest')

end

/-! ## What was skipped can be completed -/

/-- A digit can end every bound. -/
theorem Grammar.BreaksBound.isRun_concat {stop : Char} {bound rest : List Char}
    (h : BreaksBound stop bound rest) : IsRun Bound (bound ++ ['1']) := by
  refine ⟨by simp, fun c hc => ?_⟩
  rcases List.mem_append.1 hc with hc | hc
  · exact h.run c hc
  · rw [List.mem_singleton.1 hc]
    simp [Bound, Blank]

/-- A digit alone is a value. -/
theorem Value.derives_one {rest : List Char} (h : Stops Bare rest) :
    (Value.number (.ofList ['1'])).Derives ['1'] rest := by
  refine .number ⟨⟨by simp, by simp [Bare, Blank]⟩, h, by simp⟩ ?_
  exact ⟨['1'], ⟨by simp, by simp⟩, .inl rfl⟩

/-- What was skipped when no value could be read can be completed to a value. It does not start with
a character that would change the operator before it. -/
theorem Value.Fails.completable {s : List Char} {f : Fault} (h : Value.Fails s f) :
    ∃ u d text, f.skipped.toList ++ u = d :: text ∧ d ≠ '>' ∧ d ≠ '<' ∧
      ∃ v : Value, ∀ rest, Stops Bare rest → v.Derives (d :: text) rest := by
  cases h with
  | missing =>
    exact ⟨['1'], '1', [], rfl, by decide, by decide, _, fun _ hrest => derives_one hrest⟩
  | @left bound _ hb =>
    refine ⟨['1', ';', '1', ']'], '[', (bound ++ ['1']) ++ ';' :: ['1'] ++ [']'], by simp,
      by decide, by decide, _, fun rest _ => .range hb.isRun_concat ⟨by simp, ?_⟩⟩
    simp [Bound, Blank]
  | @right left bound _ hl hb =>
    exact ⟨['1', ']'], '[', left ++ ';' :: (bound ++ ['1']) ++ [']'], by simp, by decide,
      by decide, _, fun rest _ => .range hl hb.isRun_concat⟩
  | quote hu =>
    have hone : '1' ≠ '\\' ∧ '1' ≠ '"' := by decide
    obtain ⟨items, rfl | rfl⟩ := hu
    · refine ⟨['1', '"'], '"', quoteBody (items ++ [.plain '1' hone]) ++ ['"'], ?_, by decide,
        by decide, _, fun rest _ => .quoted (by simp)⟩
      simp [quoteBody, QuoteItem.text]
    · refine ⟨['1', '"'], '"', quoteBody (items ++ [.escaped '1']) ++ ['"'], ?_, by decide,
        by decide, _, fun rest _ => .quoted (by simp)⟩
      simp [quoteBody, QuoteItem.text]

/-- A field, an operator and a value that does not change the operator are a comparison. -/
theorem Comparison.derives_append {field text : List Char} {operator : String} {v : Value}
    {d : Char} (hf : IsField field) (ho : operator = ":>" ∨ operator = ":<" ∨ operator = ":")
    (hg : d ≠ '>') (hl : d ≠ '<') (hv : ∀ rest, Stops Bare rest → v.Derives (d :: text) rest)
    {rest : List Char} (hrest : Stops Bare rest) :
    (Comparison.mk (.ofList field) operator v).Derives (field ++ operator.toList ++ d :: text)
      rest := by
  have hop : IsOperator operator (d :: text ++ rest) := by
    rcases ho with rfl | rfl | rfl
    · exact .inl rfl
    · exact .inr (.inl rfl)
    · exact .inr (.inr ⟨rfl, by simpa using hg, by simpa using hl⟩)
  have hderives := Comparison.Derives.intro (c := ⟨.ofList field, operator, v⟩)
    (by simpa using hf) hop (hv rest hrest)
  simpa using hderives

/-- A field, a colon and a digit are a comparison. -/
theorem Comparison.derives_one {field rest : List Char} (hf : IsField field)
    (hrest : Stops Bare rest) :
    (Comparison.mk (.ofList field) ":" (.number (.ofList ['1']))).Derives (field ++ [':', '1'])
      rest := by
  have h := derives_append hf (.inr (.inr rfl)) (by decide) (by decide)
    (fun _ => Value.derives_one) hrest
  simpa using h

/-- There is a comparison. -/
theorem Comparison.exists_derives : ∃ text, ∃ c : Comparison, ∀ rest, Stops Bare rest →
    c.Derives text rest := by
  have ha : IsField ['a'] := ⟨'a', [], rfl, by decide, by simp⟩
  exact ⟨_, _, fun _ => derives_one ha⟩

/-- What was skipped when no comparison could be read can be completed to a comparison. -/
theorem Comparison.Fails.completable {s : List Char} {f : Fault} (h : Comparison.Fails s f) :
    ∃ u, ∃ c : Comparison, ∀ rest, Stops Bare rest →
      c.Derives (f.skipped.toList ++ u) rest := by
  cases h with
  | start =>
    have hskip : (Fault.noExpression s).skipped.toList = [] := by
      cases s with
      | nil => rfl
      | cons c s => rfl
    rw [hskip]
    exact exists_derives
  | @operator field _ hf =>
    rw [String.toList_ofList]
    exact ⟨[':', '1'], _, fun _ => derives_one hf⟩
  | @value field _ operator f hf ho hv =>
    obtain ⟨u, d, text, htext, hg, hl, v, hderives⟩ := hv.completable
    have hskip : (f.after (.ofList field ++ operator)).skipped.toList ++ u =
        field ++ operator.toList ++ d :: text := by
      rw [← htext]
      simp [Fault.after]
    have hop := ho.imp_right (Or.imp_right And.left)
    refine ⟨u, ⟨.ofList field, operator, v⟩, fun rest hrest => ?_⟩
    rw [hskip]
    exact derives_append hf hop hg hl hderives hrest

/-- What was skipped when no link could be read is empty or can be completed to a link. -/
theorem Link.Fails.completable {s : List Char} {f : Fault} (h : Link.Fails s f) :
    f.skipped.toList = [] ∨
      ∃ u, ∃ l : Link, l.text.toList = f.skipped.toList ++ u ∧
        ∀ rest, Stops Blank rest → l.Derives rest := by
  have hspace : IsRun Blank " ".toList := ⟨by decide, by simp [Blank]⟩
  have hand : IsKeyword "AND".toList := by decide
  have blanks {before : List Char} (hb : IsRun Blank before) : ∃ u, ∃ l : Link,
      l.text.toList = (String.ofList before).toList ++ u ∧
        ∀ rest, Stops Blank rest → l.Derives rest :=
    ⟨"AND ".toList, ⟨.ofList before, "AND", " "⟩, by simp [Link.text],
      fun _ hrest => ⟨by simpa using hb, hand, hspace, hrest⟩⟩
  cases h with
  | junk => exact .inl rfl
  | blank hb | closing hb | operator hb => exact .inr (blanks hb)
  | @dangling before word hb hk =>
    exact .inr ⟨" ".toList, ⟨.ofList before, .ofList word, " "⟩, by simp [Link.text],
      fun _ hrest => ⟨by simpa using hb, by simpa using hk, hspace, hrest⟩⟩

/-! ## From a place to the end -/

section
variable {limit n : Nat} {p : Place} {before rest : List Char} {f : Fault}

/-- At a joint the open groups can be closed. -/
theorem Reaches.close (h : Reaches limit .joint n before (.replicate n ')')) :
    Reaches limit .joint 0 (before ++ .replicate n ')') [] := by
  induction n generalizing before with
  | zero => simpa using h
  | succ n ih =>
    have hstep : Step limit .joint (n + 1) [')'] (.replicate n ')') .joint n := .closing
    simpa [List.replicate_succ] using ih (h.step hstep)

/-- No bare character is among those that close groups. -/
theorem stops_replicate (n : Nat) : Stops Bare (.replicate n ')') := by
  cases n with
  | zero => exact stops_nil
  | succ n => exact stops_bare_closing _

/-- At an operand, a comparison and the end of the open groups complete the text. -/
theorem Reaches.exists_completion {text : List Char} {c : Comparison}
    (h : Reaches limit .operand n before rest)
    (hc : ∀ rest, Stops Bare rest → c.Derives text rest) :
    ∃ u, Reaches limit .joint 0 (before ++ text ++ u) [] := by
  have hd := hc _ (stops_replicate n)
  have hoperand : Reaches limit .operand n before (text ++ .replicate n ')') :=
    h.follow fun _ => hd.stops
  exact ⟨.replicate n ')', (hoperand.step (.comparison hd)).close⟩

/-- Where the pass is stuck, what stands before its fault can be completed. -/
theorem Stuck.viable (hf : Stuck limit p n rest f) (h : Reaches limit p n before rest) :
    ∃ u, Reaches limit .joint 0 (before ++ f.skipped.toList ++ u) [] := by
  have closed (hj : Reaches limit .joint n before rest) (hskip : f.skipped.toList = []) :
      ∃ u, Reaches limit .joint 0 (before ++ f.skipped.toList ++ u) [] := by
    rw [hskip, List.append_nil]
    exact ⟨.replicate n ')', (hj.follow fun _ => stops_replicate n).close⟩
  cases hf with
  | tooDeep =>
    obtain ⟨text, c, hc⟩ := Comparison.exists_derives
    obtain ⟨u, hu⟩ := h.exists_completion hc
    exact ⟨text ++ u, by simpa using hu⟩
  | comparison _ hfails =>
    obtain ⟨text, c, hc⟩ := hfails.completable
    obtain ⟨u, hu⟩ := h.exists_completion hc
    exact ⟨text ++ u, by simpa using hu⟩
  | unopened | unclosed => exact closed h rfl
  | link hfails =>
    rcases hfails.completable with hskip | ⟨u, l, hl, hd⟩
    · exact closed h hskip
    · -- The link that completes what was skipped leads to an operand.
      obtain ⟨text, c, hc⟩ := Comparison.exists_derives
      have hlink : l.Derives (text ++ []) := hd _ (hc [] stops_nil).stops
      have hstep : Step limit .joint n l.text.toList (text ++ []) .operand n := .link hlink
      have hoperand := (h.follow fun _ => hstep.stops).step hstep
      obtain ⟨u', hu'⟩ := hoperand.exists_completion hc
      exact ⟨u ++ text ++ u', by simpa [hl] using hu'⟩

/-- **A refusal points at the first character that cannot be continued.** What stands before its
offset can be completed to a query, and every text that goes on with the same character there is
refused at the same offset for the same reason, unless the reason is a missing keyword. -/
theorem viable_and_final_of_parse_error {limit : Nat} {s : String} {e : SyntaxError}
    (h : Query.parse limit s = .error e) :
    ∃ before after : String, s = before ++ after ∧ before.utf8ByteSize = e.position ∧
      (∃ u q, Query.parse limit (before ++ u) = .ok q) ∧
      (e.reason ≠ .missingOperator → ∀ (c : Char) (rest : String),
        after = String.singleton c ++ rest →
        ∀ rest', Query.parse limit (before ++ (String.singleton c ++ rest')) = .error e) := by
  obtain ⟨p, n, before, rest, f, hs, hreach, hstuck, rfl⟩ := parse_eq_error_iff.1 h
  obtain ⟨after, hrest⟩ := hstuck.exists_append
  refine ⟨.ofList before ++ f.skipped, .ofList after, ?_, ?_, ?_, ?_⟩
  · rw [← String.toList_inj, hs, hrest]
    simp
  · rw [String.utf8ByteSize_append]
    rfl
  · obtain ⟨u, hu⟩ := hstuck.viable hreach
    obtain ⟨q, hq, -⟩ := Reaches.parse_ok (s := .ofList before ++ f.skipped ++ .ofList u)
      (by simpa using hu)
    exact ⟨.ofList u, q, hq⟩
  · intro hreason c rest₁ hafter rest'
    have hc : rest = f.skipped.toList ++ c :: rest₁.toList := by
      rw [hrest, ← String.toList_ofList (l := after), hafter]
      simp
    have hreach' : Reaches limit p n before (f.skipped.toList ++ c :: rest'.toList) := by
      refine hreach.follow fun hstop => hstop.congr ?_
      rw [hc]
      exact head?_append_cons _ c _ _
    refine parse_eq_error_iff.2 ⟨p, n, before, _, f, ?_, hreach',
      hstuck.final hc hreason rest'.toList, rfl⟩
    simp

/-- A blank inside a range, in a group: the text up to it can be completed, and nothing behind it
helps. -/
theorem viable_and_final_of_parse_error_range :
    Query.parse 1 "(a:1 OR b:[2 ;3])" = .error ⟨12, .malformedRange⟩ ∧
    (∃ u q, Query.parse 1 ("(a:1 OR b:[2" ++ u) = .ok q) ∧
    ∀ rest, Query.parse 1 ("(a:1 OR b:[2" ++ (" " ++ rest)) = .error ⟨12, .malformedRange⟩ := by
  have hs : "(a:1 OR b:[2 ;3])".toList = ['(', 'a', ':', '1', ' ', 'O', 'R', ' ', 'b', ':', '[',
    '2', ' ', ';', '3', ']', ')'] := rfl
  have ha : Comparison.lex ['a', ':', '1', ' ', 'O', 'R', ' ', 'b', ':', '[', '2', ' ', ';', '3',
    ']', ')'] = .ok (⟨"a", ":", .number "1"⟩,
      [' ', 'O', 'R', ' ', 'b', ':', '[', '2', ' ', ';', '3', ']', ')']) := rfl
  have hor : Link.lex [' ', 'O', 'R', ' ', 'b', ':', '[', '2', ' ', ';', '3', ']', ')'] =
    some (⟨" ", "OR", " "⟩, ['b', ':', '[', '2', ' ', ';', '3', ']', ')']) := rfl
  have hb : Comparison.lex ['b', ':', '[', '2', ' ', ';', '3', ']', ')'] =
    .error ⟨"b:[2", .malformedRange⟩ := rfl
  have h : Query.parse 1 "(a:1 OR b:[2 ;3])" = .error ⟨12, .malformedRange⟩ := by
    rw [Query.parse, hs, scan_opening, scan_comparison ha, scan_link hor,
      scan_operand_fault (by decide) hb]
    simp only [Tokens.parse]
    rfl
  obtain ⟨before, after, hs, hsize, hviable, hfinal⟩ := viable_and_final_of_parse_error h
  obtain ⟨hbefore, hafter⟩ : before = "(a:1 OR b:[2" ∧ after = " ;3])" := by
    have hcut : before.toList ++ after.toList = "(a:1 OR b:[2".toList ++ " ;3])".toList := by
      rw [← String.toList_append, ← hs, ← String.toList_append]
      rfl
    obtain ⟨hb, ha⟩ := bytes_append_inj hcut (by rw [bytes_toList, hsize]; rfl)
    exact ⟨String.toList_inj.1 hb, String.toList_inj.1 ha⟩
  subst hbefore hafter
  exact ⟨h, hviable, hfinal (by decide) ' ' ";3])" (by decide)⟩

end

end FieldQuery
