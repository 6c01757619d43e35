import FieldQuery.Proofs.Surface.Reason

/-!
# Parentheses that do not balance

A parenthesis counts if it stands outside quoted values. Where that is can be told from the text
alone, one character after the other: `Zone` is what a character stands in, and `Zone.outside` keeps
the characters of a text that stand in no quoted value. At each place of a text the parentheses
before it that count differ by the number of open groups (`Reaches.openings_eq`), since no token but
a parenthesis has one that counts (`Comparison.Derives.passes`, `Link.Derives.passes`).

A refusal for unbalanced parentheses is right about them with one exception
(`unbalanced_iff_of_parse_error`). A parenthesis behind blanks is reported as unbalanced also where
it would close a group, as in `(a:1 )`.
-/

namespace FieldQuery

open Text Grammar

/-! ## Zones -/

/-- What a character of a text stands in, told from the characters before it. -/
inductive Zone where
  /-- Between values: fields, keywords, blanks and parentheses. -/
  | between
  /-- Behind the colon of an operator. -/
  | operator
  /-- Behind an operator of two characters. -/
  | value
  /-- In a bare value or a range. -/
  | unquoted
  /-- Behind a double quote that starts a value. -/
  | opened
  /-- In a quoted value. -/
  | quoted
  /-- In a quoted value, behind a backslash. -/
  | escaped
deriving DecidableEq, Repr

namespace Zone

/-- The zone behind the first character of a value. -/
def enter (c : Char) : Zone :=
  if c = '"' then opened
  else if c = '[' ∨ isBareChar c = true then unquoted
  else between

/-- The zone behind a character. -/
def next : Zone → Char → Zone
  | between, c => if c = ':' then operator else between
  | operator, c => if c = '>' ∨ c = '<' then value else enter c
  | value, c => enter c
  | unquoted, c => if isBareChar c = true then unquoted else between
  -- Two double quotes are the start of a bare value.
  | opened, c => if c = '"' then unquoted else if c = '\\' then escaped else quoted
  | quoted, c => if c = '"' then between else if c = '\\' then escaped else quoted
  | escaped, _ => quoted

/-- Whether a character in a zone belongs to a quoted value. -/
def isQuoted : Zone → Bool
  | opened | quoted | escaped => true
  | between | operator | value | unquoted => false

/-- The zone behind a text. -/
def after (z : Zone) (s : List Char) : Zone :=
  s.foldl next z

/-- The characters of a text that stand in no quoted value. -/
def outside : Zone → List Char → List Char
  | _, [] => []
  | z, c :: s => if z.isQuoted then outside (z.next c) s else c :: outside (z.next c) s

end Zone

/-- How many parentheses outside quoted values open a group. -/
def Text.openings (s : List Char) : Nat :=
  (Zone.between.outside s).count '('

/-- How many parentheses outside quoted values close a group. -/
def Text.closings (s : List Char) : Nat :=
  (Zone.between.outside s).count ')'

/-- A place between two texts at which parentheses do not balance: the text is over there and a
group is open, or a parenthesis closes a group there and none is open. -/
def Text.Unbalanced (before after : List Char) : Prop :=
  after = [] ∧ closings before < openings before ∨
    after.head? = some ')' ∧ openings before = closings before

instance (before after : List Char) : Decidable (Unbalanced before after) :=
  inferInstanceAs (Decidable (_ ∨ _))

namespace Zone

theorem after_append (z : Zone) (s t : List Char) : z.after (s ++ t) = (z.after s).after t :=
  List.foldl_append

theorem outside_append (z : Zone) (s t : List Char) :
    z.outside (s ++ t) = z.outside s ++ (z.after s).outside t := by
  induction s generalizing z with
  | nil => rfl
  | cons c s ih =>
    have hafter : z.after (c :: s) = (z.next c).after s := rfl
    rw [List.cons_append, outside, outside, hafter, ih]
    split <;> rfl

/-- What stands outside quoted values stands in the text. -/
theorem mem_of_mem_outside {z : Zone} {s : List Char} {c : Char} (h : c ∈ z.outside s) : c ∈ s := by
  fun_induction outside z s with
  | case1 => exact h
  | case2 z d s _ ih => exact .tail _ (ih h)
  | case3 z d s _ ih =>
    rcases List.mem_cons.1 h with rfl | h
    · exact .head _
    · exact .tail _ (ih h)

end Zone

/-! ## Texts without parentheses that count -/

/-- A text leads from a zone to a zone and has no parenthesis outside quoted values. -/
structure Zone.Passes (z : Zone) (s : List Char) (z' : Zone) : Prop where
  after_eq : z.after s = z'
  opening : '(' ∉ z.outside s
  closing : ')' ∉ z.outside s

section
variable {z z' z'' : Zone} {s t text rest : List Char} {c : Char}

namespace Zone.Passes

theorem nil : z.Passes [] z :=
  ⟨rfl, List.not_mem_nil, List.not_mem_nil⟩

theorem append (h : z.Passes s z') (h' : z'.Passes t z'') : z.Passes (s ++ t) z'' := by
  obtain ⟨rfl, ho, hc⟩ := h
  refine ⟨?_, ?_, ?_⟩
  · rw [after_append, h'.after_eq]
  · rw [outside_append, List.mem_append]
    exact not_or.2 ⟨ho, h'.opening⟩
  · rw [outside_append, List.mem_append]
    exact not_or.2 ⟨hc, h'.closing⟩

/-- A character other than a parenthesis. -/
theorem single (hn : z.next c = z') (ho : c ≠ '(') (hc : c ≠ ')') : z.Passes [c] z' := by
  refine ⟨hn, ?_, ?_⟩
  · intro h
    exact ho (List.mem_singleton.1 (mem_of_mem_outside h)).symm
  · intro h
    exact hc (List.mem_singleton.1 (mem_of_mem_outside h)).symm

/-- A character of a quoted value, whichever it is. -/
theorem inside (hn : z.next c = z') (hz : z.isQuoted = true) : z.Passes [c] z' := by
  have hout : z.outside [c] = [] := by rw [outside, if_pos hz, outside]
  exact ⟨hn, by simp [hout], by simp [hout]⟩

/-- Characters that stay in their zone. -/
theorem run (h : ∀ c ∈ s, z.Passes [c] z) : z.Passes s z := by
  induction s with
  | nil => exact nil
  | cons c s ih =>
    exact (h c (.head _)).append (ih fun d hd => h d (.tail _ hd))

/-- Between values only a colon leads elsewhere. -/
theorem between_run (h : ∀ c ∈ s, c ≠ ':' ∧ c ≠ '(' ∧ c ≠ ')') : between.Passes s between :=
  run fun c hc => single (if_neg (h c hc).1) (h c hc).2.1 (h c hc).2.2

end Zone.Passes

/-- A bare character is no parenthesis. -/
theorem Grammar.Bare.ne_parenthesis (h : Bare c) : c ≠ '(' ∧ c ≠ ')' := by
  refine ⟨?_, ?_⟩
  · rintro rfl
    exact h.2 (by simp)
  · rintro rfl
    exact h.2 (by simp)

/-- Bare characters go on with a value that is not quoted. -/
theorem Zone.Passes.unquoted_run (h : ∀ c ∈ s, Bare c) : unquoted.Passes s unquoted :=
  run fun c hc => single (if_pos ((isBareChar_iff c).2 (h c hc))) (h c hc).ne_parenthesis.1
    (h c hc).ne_parenthesis.2

/-! ## Values -/

/-- A bound of a range is a text of bare characters. -/
theorem Grammar.Bound.bare (h : Bound c) : Bare c := by
  refine ⟨h.1, fun hc => h.2 ?_⟩
  simp only [List.mem_cons, List.not_mem_nil, or_false] at hc ⊢
  grind

/-- An item of a quoted value leads to the next one. -/
theorem Grammar.QuoteItem.passes (item : QuoteItem) (hz : z = .opened ∨ z = .quoted) :
    z.Passes item.text .quoted := by
  have hquoted : z.isQuoted = true := by
    rcases hz with rfl | rfl
    · rfl
    · rfl
  cases item with
  | escaped c =>
    have hbackslash : z.next '\\' = .escaped := by
      rcases hz with rfl | rfl
      · rfl
      · rfl
    exact (Zone.Passes.inside hbackslash hquoted).append (.inside (c := c) rfl rfl)
  | plain c hc =>
    refine .inside ?_ hquoted
    rcases hz with rfl | rfl
    · simp [Zone.next, hc]
    · simp [Zone.next, hc]

/-- The items of a quoted value lead to its closing quote. -/
theorem Grammar.passes_quoteBody {items : List QuoteItem} (h : items ≠ []) :
    Zone.opened.Passes (quoteBody items) .quoted := by
  have hrest (items : List QuoteItem) : Zone.quoted.Passes (quoteBody items) .quoted := by
    induction items with
    | nil => exact .nil
    | cons item items ih => exact (item.passes (.inr rfl)).append ih
  obtain ⟨item, items, rfl⟩ := List.exists_cons_of_ne_nil h
  exact (item.passes (.inl rfl)).append (hrest items)

/-- A bare run ends in the zone of values that are not quoted. -/
theorem Grammar.IsBareRun.passes (h : IsBareRun text rest)
    (hz : ∀ c ∈ text.head?, z.next c = .enter c) : z.Passes text .unquoted := by
  obtain ⟨⟨hne, hbare⟩, -, hquotes⟩ := h
  obtain ⟨c, s, rfl⟩ := List.exists_cons_of_ne_nil hne
  have hc := (hbare c (.head _)).ne_parenthesis
  have hnext := hz c rfl
  by_cases hquote : c = '"'
  · -- The run goes on with a second quote, which makes it a bare one.
    subst hquote
    obtain ⟨s, rfl⟩ : ∃ s', s = '"' :: s' := by
      obtain ⟨s', hs'⟩ := hquotes rfl
      exact ⟨s', by simpa using hs'.symm⟩
    refine (Zone.Passes.single hnext hc.1 hc.2).append
      ((Zone.Passes.inside (c := '"') rfl rfl).append (.unquoted_run fun d hd => ?_))
    exact hbare d (.tail _ (.tail _ hd))
  · have henter : Zone.enter c = .unquoted := by
      rw [Zone.enter, if_neg hquote, if_pos (.inr ((isBareChar_iff c).2 (hbare c (.head _))))]
    exact (Zone.Passes.single (hnext.trans henter) hc.1 hc.2).append
      (.unquoted_run fun d hd => hbare d (.tail _ hd))

/-- The zones in which the text before a place may end. A bare value is not over at the joint behind
it, as far as the text before tells. -/
def Zone.RestsAt : Place → Zone → Prop
  | .operand, z => z = .between
  | .joint, z => z = .between ∨ z = .unquoted

/-- A value has no parenthesis that counts. -/
theorem Value.Derives.passes {v : Value} (h : v.Derives text rest)
    (hz : ∀ c ∈ text.head?, z.next c = .enter c) :
    ∃ z' : Zone, z'.RestsAt .joint ∧ z.Passes text z' := by
  cases h with
  | @range left right _ hl hr =>
    have hbare : ∀ c ∈ left ++ ';' :: right, Bare c := by
      intro c hc
      rcases List.mem_append.1 hc with hc | hc
      · exact (hl.2 c hc).bare
      · rcases List.mem_cons.1 hc with rfl | hc
        · simp [Bare, Blank]
        · exact (hr.2 c hc).bare
    refine ⟨.between, .inl rfl, ?_⟩
    have hopen : z.Passes ['['] .unquoted := .single (hz '[' rfl) (by decide) (by decide)
    have hclose : Zone.unquoted.Passes [']'] .between := .single rfl (by decide) (by decide)
    simpa using (hopen.append (.unquoted_run hbare)).append hclose
  | @quoted items _ hne =>
    refine ⟨.between, .inl rfl, ?_⟩
    have hopen : z.Passes ['"'] .opened := .single (hz '"' rfl) (by decide) (by decide)
    have hclose : Zone.quoted.Passes ['"'] .between := .inside rfl rfl
    simpa using (hopen.append (passes_quoteBody hne)).append hclose
  | number h => exact ⟨.unquoted, .inr rfl, h.passes hz⟩
  | unquoted h => exact ⟨.unquoted, .inr rfl, h.passes hz⟩

/-! ## Tokens -/

/-- A character of a field leads nowhere else and is no parenthesis. -/
theorem Grammar.FieldChar.ne (h : FieldChar c) : c ≠ ':' ∧ c ≠ '(' ∧ c ≠ ')' := by
  refine ⟨?_, ?_, ?_⟩
  all_goals
    rintro rfl
    revert h
    simp [FieldChar]

/-- An operator leads to the value behind it. -/
theorem Grammar.IsOperator.passes {operator : String} (h : IsOperator operator s) :
    ∃ z' : Zone, Zone.between.Passes operator.toList z' ∧ ∀ c ∈ s.head?, z'.next c = .enter c := by
  have hcolon : Zone.between.Passes [':'] .operator := .single rfl (by decide) (by decide)
  rcases h with rfl | rfl | ⟨rfl, hg, hl⟩
  · exact ⟨.value, hcolon.append (.single (c := '>') rfl (by decide) (by decide)), fun _ _ => rfl⟩
  · exact ⟨.value, hcolon.append (.single (c := '<') rfl (by decide) (by decide)), fun _ _ => rfl⟩
  · refine ⟨.operator, hcolon, fun c hc => if_neg ?_⟩
    rintro (rfl | rfl)
    · exact hg hc
    · exact hl hc

/-- A comparison has no parenthesis that counts. -/
theorem Comparison.Derives.passes {k : Comparison} (h : k.Derives text rest) :
    ∃ z' : Zone, z'.RestsAt .joint ∧ Zone.between.Passes text z' := by
  obtain @⟨value, _, hf, ho, hv⟩ := h
  have hfield : Zone.between.Passes k.field.toList .between :=
    .between_run fun c hc => FieldChar.ne (hf.fieldChar c hc)
  obtain ⟨z, hoperator, hz⟩ := ho.passes
  have hhead : ∀ c ∈ value.head?, z.next c = .enter c := by
    intro c hc
    refine hz c ?_
    obtain ⟨d, value, rfl⟩ := List.exists_cons_of_ne_nil hv.ne_nil
    exact hc
  obtain ⟨z', hrests, hvalue⟩ := hv.passes hhead
  exact ⟨z', hrests, (hfield.append hoperator).append hvalue⟩

/-- A letter of a keyword leads nowhere else and is no parenthesis. -/
theorem Grammar.IsKeyword.ne {word : List Char} (h : IsKeyword word) (hc : c ∈ word) :
    c ≠ ':' ∧ c ≠ '(' ∧ c ≠ ')' := by
  have hu : c.toUpper ∈ word.map Char.toUpper := List.mem_map_of_mem hc
  have hletter : c.toUpper ∈ ['O', 'R', 'A', 'N', 'D', 'T'] := by
    simp only [IsKeyword, List.mem_cons, List.not_mem_nil, or_false] at h
    rcases h with h | h | h
    all_goals
      rw [h] at hu
      exact List.subset_def.1 (by decide) hu
  refine ⟨?_, ?_, ?_⟩
  all_goals
    rintro rfl
    revert hletter
    decide

/-- A blank leads nowhere else and is no parenthesis. -/
theorem Grammar.Blank.ne (h : Blank c) : c ≠ ':' ∧ c ≠ '(' ∧ c ≠ ')' := by
  refine ⟨?_, ?_, ?_⟩
  all_goals
    rintro rfl
    simp [Blank] at h

/-- Blanks end a bare value. -/
theorem Grammar.IsRun.passes_blank (h : IsRun Blank s) (hz : z.RestsAt .joint) :
    z.Passes s .between := by
  obtain ⟨c, s, rfl⟩ := List.exists_cons_of_ne_nil h.1
  have hc := h.2 c (.head _)
  have hnext : z.next c = .between := by
    rcases hz with rfl | rfl
    · exact if_neg hc.ne.1
    · exact if_neg fun hbare => ((isBareChar_iff c).1 hbare).1 hc
  exact (Zone.Passes.single hnext hc.ne.2.1 hc.ne.2.2).append
    (.between_run fun d hd => (h.2 d (.tail _ hd)).ne)

/-- A link has no parenthesis that counts. -/
theorem Link.Derives.passes {l : Link} (h : l.Derives rest) (hz : z.RestsAt .joint) :
    z.Passes l.text.toList .between := by
  have hword : Zone.between.Passes l.word.toList .between := .between_run fun _ => h.word.ne
  have hafter : Zone.between.Passes l.after.toList .between := h.after.passes_blank (.inl rfl)
  simpa [Link.text] using (h.before.passes_blank hz).append (hword.append hafter)

/-! ## Places -/

/-- No parenthesis of a text that passes counts. -/
theorem Zone.Passes.count (h : z.Passes s z') :
    (z.outside s).count '(' = 0 ∧ (z.outside s).count ')' = 0 :=
  ⟨List.count_eq_zero.2 h.opening, List.count_eq_zero.2 h.closing⟩

/-- The parentheses of a token that count are the groups that it opens or closes. -/
theorem Step.count {limit n n' : Nat} {p p' : Place} (h : Step limit p n text rest p' n')
    (hz : z.RestsAt p) :
    (z.after text).RestsAt p' ∧
      n + (z.outside text).count '(' = n' + (z.outside text).count ')' := by
  cases h with
  | opening =>
    obtain rfl : z = .between := hz
    exact ⟨rfl, rfl⟩
  | comparison hc =>
    obtain rfl : z = .between := hz
    obtain ⟨z', hrests, hpasses⟩ := hc.passes
    refine ⟨hpasses.after_eq ▸ hrests, ?_⟩
    rw [hpasses.count.1, hpasses.count.2]
  | closing =>
    rcases hz with rfl | rfl
    · exact ⟨.inl rfl, rfl⟩
    · exact ⟨.inl rfl, rfl⟩
  | link hl =>
    have hpasses := hl.passes hz
    refine ⟨hpasses.after_eq, ?_⟩
    rw [hpasses.count.1, hpasses.count.2]

/-- At a place that is reached, the parentheses before it that count differ by the open groups. -/
theorem Reaches.openings_eq {limit n : Nat} {p : Place} {before : List Char}
    (h : Reaches limit p n before rest) :
    (Zone.between.after before).RestsAt p ∧ openings before = closings before + n := by
  induction h with
  | start => exact ⟨rfl, rfl⟩
  | step _ hs ih =>
    obtain ⟨hrests, hcount⟩ := ih
    obtain ⟨hrests', hcount'⟩ := hs.count hrests
    rw [← Zone.after_append] at hrests'
    refine ⟨hrests', ?_⟩
    simp only [openings, closings] at hcount ⊢
    simp only [Zone.outside_append, List.count_append]
    omega

/-- Blanks behind a joint have no part in it. -/
theorem Reaches.openings_blanks {limit n : Nat} {before blanks : List Char}
    (h : Reaches limit .joint n before rest) (hb : IsRun Blank blanks) :
    openings (before ++ blanks) = closings (before ++ blanks) + n := by
  obtain ⟨hrests, hcount⟩ := h.openings_eq
  obtain ⟨hopen, hclose⟩ := (hb.passes_blank hrests).count
  simp only [openings, closings] at hcount ⊢
  simp only [Zone.outside_append, List.count_append]
  omega

end

/-! ## Refusals -/

/-- No comparison fails for a parenthesis. -/
theorem Comparison.Fails.reason_ne {s : List Char} {f : Fault} (h : Comparison.Fails s f) :
    f.reason ≠ .unbalancedParenthesis := by
  cases h with
  | start =>
    cases s with
    | nil => simp [Fault.noExpression]
    | cons c s =>
      simp only [Fault.noExpression]
      split
      · simp
      · simp
  | operator => simp
  | value _ _ hv =>
    cases hv with
    | missing | left | right | quote => simp [Fault.after]

/-- Where the pass is stuck for a parenthesis, an expression has just ended: the text is over and a
group is open, or a parenthesis follows, perhaps behind blanks, and none is open or there are
blanks. -/
theorem Stuck.of_unbalanced {limit n : Nat} {p : Place} {s : List Char} {f : Fault}
    (h : Stuck limit p n s f) (hf : f.reason = .unbalancedParenthesis) :
    p = .joint ∧ ∃ after, s = f.skipped.toList ++ after ∧
      (s = [] ∧ 0 < n ∨
        after.head? = some ')' ∧ (f.skipped = "" ∧ n = 0 ∨ IsRun Blank f.skipped.toList)) := by
  cases h with
  | tooDeep => cases hf
  | comparison _ h => exact absurd hf h.reason_ne
  | @unopened rest => exact ⟨rfl, ')' :: rest, rfl, .inr ⟨rfl, .inl ⟨rfl, rfl⟩⟩⟩
  | unclosed => exact ⟨rfl, [], rfl, .inl ⟨rfl, Nat.succ_pos _⟩⟩
  | link h =>
    cases h with
    | junk | blank | dangling | operator => cases hf
    | @closing before rest hb =>
      exact ⟨rfl, ')' :: rest, by simp, .inr ⟨rfl, .inr (by simpa using hb)⟩⟩

/-- **A refusal for unbalanced parentheses is right about them, unless blanks stand before a
parenthesis that closes a group.** At its offset the text is over, or a parenthesis stands there.
Outside quoted values, the text has more parentheses before the offset that open a group than close
one in the first case, and as many in the second; or else it is the second case, a blank stands
directly before the parenthesis, and there is a group for it to close. -/
theorem unbalanced_iff_of_parse_error {limit p : Nat} {s : String}
    (h : Query.parse limit s = .error ⟨p, .unbalancedParenthesis⟩) :
    ∃ before after : String, s = before ++ after ∧ before.utf8ByteSize = p ∧
      (Unbalanced before.toList after.toList ↔
        ¬ (after.toList.head? = some ')' ∧ closings before.toList < openings before.toList ∧
          Ends Blank before.toList)) := by
  obtain ⟨place, n, before, rest, f, hs, hreach, hstuck, he⟩ := parse_eq_error_iff.1 h
  injection he with hp hreason
  obtain ⟨rfl, after, rfl, hcase⟩ := hstuck.of_unbalanced hreason.symm
  refine ⟨.ofList before ++ f.skipped, .ofList after, ?_, ?_, ?_⟩
  · rw [← String.toList_inj, hs]
    simp
  · rw [hp, String.utf8ByteSize_append]
    rfl
  rw [String.toList_append, String.toList_ofList, String.toList_ofList]
  rcases hcase with ⟨hnil, hn⟩ | ⟨hhead, ⟨hskip, rfl⟩ | hblank⟩
  · -- The text is over and a group is open.
    obtain ⟨hskip, rfl⟩ := List.append_eq_nil_iff.1 hnil
    have hcount := hreach.openings_eq.2
    rw [hskip, List.append_nil]
    refine iff_of_true (.inl ⟨rfl, by omega⟩) ?_
    rintro ⟨hhead, -⟩
    cases hhead
  · -- No group is open where the parenthesis stands.
    have hcount := hreach.openings_eq.2
    rw [hskip, String.toList_empty, List.append_nil]
    refine iff_of_true (.inr ⟨hhead, by omega⟩) ?_
    rintro ⟨-, hlt, -⟩
    omega
  · have hcount := hreach.openings_blanks hblank
    have hends := hblank.ends before
    have hne : after ≠ [] := by
      rintro rfl
      cases hhead
    simp only [Unbalanced, hne, hhead, hends, false_and, true_and, and_true, false_or]
    omega

/-- Blanks before a parenthesis that closes a group, which is reported as unbalanced though the
parentheses balance, and a group that is never closed, with a parenthesis in a quoted value. -/
theorem unbalanced_iff_of_parse_error_blank :
    Query.parse 1 "(a:1 )" = .error ⟨5, .unbalancedParenthesis⟩ ∧
    (∃ before after : String, "(a:1 )" = before ++ after ∧ before.utf8ByteSize = 5 ∧
      openings before.toList = 1 ∧ closings before.toList = 0 ∧
      ¬ Unbalanced before.toList after.toList) ∧
    Query.parse 1 "(a:\")\"" = .error ⟨6, .unbalancedParenthesis⟩ ∧
    ∃ before after : String, "(a:\")\"" = before ++ after ∧ before.utf8ByteSize = 6 ∧
      Unbalanced before.toList after.toList := by
  have hs : "(a:1 )".toList = ['(', 'a', ':', '1', ' ', ')'] := rfl
  have ha : Comparison.lex ['a', ':', '1', ' ', ')'] =
    .ok (⟨"a", ":", .number "1"⟩, [' ', ')']) := rfl
  have hlink : Link.lex [' ', ')'] = none := rfl
  have hblank : Query.parse 1 "(a:1 )" = .error ⟨5, .unbalancedParenthesis⟩ := by
    rw [Query.parse, hs, Tokens.scan_opening, Tokens.scan_comparison ha,
      Tokens.scan_joint_fault (by decide) hlink]
    simp only [Tokens.parse]
    rfl
  have hs' : "(a:\")\"".toList = ['(', 'a', ':', '"', ')', '"'] := rfl
  have ha' : Comparison.lex ['a', ':', '"', ')', '"'] =
    .ok (⟨"a", ":", .quoted "\")\""⟩, []) := rfl
  have hopen : Query.parse 1 "(a:\")\"" = .error ⟨6, .unbalancedParenthesis⟩ := by
    rw [Query.parse, hs', Tokens.scan_opening, Tokens.scan_comparison ha', Tokens.scan_done]
    simp only [Tokens.parse]
    rfl
  obtain ⟨before, after, hcut, hsize, hiff⟩ := unbalanced_iff_of_parse_error hblank
  obtain ⟨before', after', hcut', hsize', hiff'⟩ := unbalanced_iff_of_parse_error hopen
  obtain ⟨hb, hc⟩ : before.toList = ['(', 'a', ':', '1', ' '] ∧ after.toList = [')'] :=
    bytes_append_inj (by rw [← String.toList_append, ← hcut, hs]; rfl)
      (by rw [bytes_toList, hsize]; rfl)
  obtain ⟨hb', hc'⟩ : before'.toList = ['(', 'a', ':', '"', ')', '"'] ∧ after'.toList = [] :=
    bytes_append_inj (by rw [← String.toList_append, ← hcut', hs']; rfl)
      (by rw [bytes_toList, hsize']; rfl)
  refine ⟨hblank, ⟨before, after, hcut, hsize, ?_, ?_, fun h => hiff.1 h ?_⟩, hopen, before',
    after', hcut', hsize', hiff'.2 ?_⟩
  · rw [hb]
    decide
  · rw [hb]
    decide
  · rw [hb, hc]
    exact ⟨rfl, by decide, ' ', rfl, by simp [Blank]⟩
  · rw [hc']
    simp

end FieldQuery
