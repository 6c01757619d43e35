import FieldQuery.Proofs.Surface.Place

/-!
# What the nesting limit does

A lower limit gives the same answer as a higher one, or it stops at a parenthesis that opens one
group too many (`parse_eq_or_tooDeep`). Two passes over one text that differ in the limit take the
same steps and put together the same tree (`Tokens.parse_mono`), and where the one with the lower
limit is stuck, the other is too, unless it is the limit that holds the first one back.
-/

namespace FieldQuery

open Text Grammar Tokens

/-- A pass that succeeds does so with the same tree when more groups may be open. -/
theorem Tokens.parse_mono {d d' : Nat} (hd : d ≤ d') {p : Place} {ts : Tokens p} {pos : Nat}
    {r : Reading p} {q : Query} (h : ts.parse d pos r = .ok q) : ts.parse d' pos r = .ok q := by
  induction ts generalizing pos with
  | opening rest ih =>
    cases r with
    | due frame outer =>
      rw [parse] at h ⊢
      split at h
      · next hlt =>
        rw [if_pos (Nat.lt_of_lt_of_le hlt hd)]
        exact ih h
      · cases h
  | comparison c rest ih =>
    cases r with
    | due frame outer =>
      rw [parse] at h ⊢
      exact ih h
  | closing rest ih =>
    cases r with
    | ended last frame outer =>
      rw [parse.eq_def] at h ⊢
      cases outer with
      | nil => cases h
      | cons around outer => exact ih h
  | link l rest ih =>
    cases r with
    | ended last frame outer =>
      rw [parse] at h ⊢
      exact ih h
  | done =>
    cases r with
    | ended last frame outer =>
      rw [parse.eq_def] at h ⊢
      exact h
  | fault f =>
    rw [parse.eq_def] at h
    cases h

/-- Where a pass is stuck, it is held back by the limit at a parenthesis, or it is stuck with every
other limit too. -/
theorem Stuck.tooDeep_or_forall {d n : Nat} {p : Place} {s : List Char} {f : Fault}
    (h : Stuck d p n s f) :
    (∃ rest, p = .operand ∧ d ≤ n ∧ s = '(' :: rest ∧ f = ⟨"", .nestingTooDeep d⟩) ∨
      ∀ d', Stuck d' p n s f := by
  cases h with
  | @tooDeep _ rest hn => exact .inl ⟨rest, rfl, hn, rfl, rfl⟩
  | comparison hs h => exact .inr fun _ => .comparison hs h
  | unopened => exact .inr fun _ => .unopened
  | unclosed => exact .inr fun _ => .unclosed
  | link h => exact .inr fun _ => .link h

/-- A parenthesis that opens a group with `d` groups open is refused by the limit `d`. -/
theorem Reaches.parse_tooDeep {d : Nat} {before after : List Char}
    (h : Reaches d .operand d before ('(' :: after)) :
    Query.parse d (.ofList (before ++ '(' :: after)) =
      .error ⟨bytes before, .nestingTooDeep d⟩ := by
  simpa using h.parse_error (.tooDeep (Nat.le_refl d))

/-- **The limit turns an answer into a refusal for nesting, and does so exactly where it must.** Of
two limits the lower gives the answer of the higher, or it refuses the text at a parenthesis that
stands where an expression is due with as many groups open as it allows; and wherever such a
parenthesis stands, that is the answer. A tree that the higher gives is given by the lower if and
only if its groups nest within the lower. -/
theorem parse_eq_or_tooDeep {d d' : Nat} (hd : d ≤ d') (s : String) :
    (Query.parse d s = Query.parse d' s ∨
      ∃ before after : String, s = before ++ "(" ++ after ∧
        Reaches d .operand d before.toList ('(' :: after.toList) ∧
        Query.parse d s = .error ⟨before.utf8ByteSize, .nestingTooDeep d⟩) ∧
    (∀ before after : String, s = before ++ "(" ++ after →
      Reaches d .operand d before.toList ('(' :: after.toList) →
      Query.parse d s = .error ⟨before.utf8ByteSize, .nestingTooDeep d⟩) ∧
    ∀ t, Query.parse d' s = .ok t → (Query.parse d s = .ok t ↔ t.depth ≤ d) := by
  have hdeep : ∀ before after : String, s = before ++ "(" ++ after →
      Reaches d .operand d before.toList ('(' :: after.toList) →
      Query.parse d s = .error ⟨before.utf8ByteSize, .nestingTooDeep d⟩ := by
    intro before after hs hreach
    have hcut : String.ofList (before.toList ++ '(' :: after.toList) = s := by
      simp [hs, ← String.toList_inj]
    rw [← hcut, hreach.parse_tooDeep, bytes_toList]
  refine ⟨?_, hdeep, ?_⟩
  · cases hparse : Query.parse d s with
    | ok q => exact .inl (Tokens.parse_mono hd hparse).symm
    | error e =>
      obtain ⟨p, n, before, rest, f, hs, hreach, hstuck, rfl⟩ := parse_eq_error_iff.1 hparse
      rcases hstuck.tooDeep_or_forall with ⟨after, rfl, hn, rfl, rfl⟩ | hstuck
      · obtain rfl : n = d := Nat.le_antisymm hreach.le_limit hn
        refine .inr ⟨.ofList before, .ofList after, ?_, by simpa using hreach, rfl⟩
        rw [← String.toList_inj, hs]
        simp
      · refine .inl (parse_eq_error_iff.2 ?_).symm
        exact ⟨p, n, before, rest, f, hs, hreach.mono hd, hstuck d', rfl⟩
  · intro t ht
    refine ⟨fun h => (derives_of_parse h).2, fun hdepth => ?_⟩
    obtain ⟨q, hq, -⟩ := parse_of_derives (derives_of_parse ht).1 hdepth
    have hq' : Query.parse d' s = .ok q := Tokens.parse_mono hd hq
    rw [ht] at hq'
    cases hq'
    exact hq

/-- A second group opened inside a group: one level is too few and two are enough. -/
theorem parse_eq_or_tooDeep_nested :
    Query.parse 1 "(a:1) OR ((b:2))" = .error ⟨10, .nestingTooDeep 1⟩ ∧
    ∃ t, Query.parse 2 "(a:1) OR ((b:2))" = .ok t ∧ t.depth = 2 ∧
      (Query.parse 1 "(a:1) OR ((b:2))" = .ok t ↔ t.depth ≤ 1) ∧
      ∃ before after : String, "(a:1) OR ((b:2))" = before ++ "(" ++ after ∧
        Reaches 1 .operand 1 before.toList ('(' :: after.toList) ∧
        Query.parse 1 "(a:1) OR ((b:2))" = .error ⟨before.utf8ByteSize, .nestingTooDeep 1⟩ := by
  have hs : "(a:1) OR ((b:2))".toList = ['(', 'a', ':', '1', ')', ' ', 'O', 'R', ' ', '(', '(', 'b',
    ':', '2', ')', ')'] := rfl
  have ha : Comparison.lex ['a', ':', '1', ')', ' ', 'O', 'R', ' ', '(', '(', 'b', ':', '2', ')',
    ')'] = .ok (⟨"a", ":", .number "1"⟩,
      [')', ' ', 'O', 'R', ' ', '(', '(', 'b', ':', '2', ')', ')']) := rfl
  have hor : Link.lex [' ', 'O', 'R', ' ', '(', '(', 'b', ':', '2', ')', ')'] =
    some (⟨" ", "OR", " "⟩, ['(', '(', 'b', ':', '2', ')', ')']) := rfl
  have hb : Comparison.lex ['b', ':', '2', ')', ')'] =
    .ok (⟨"b", ":", .number "2"⟩, [')', ')']) := rfl
  have hone : Query.parse 1 "(a:1) OR ((b:2))" = .error ⟨10, .nestingTooDeep 1⟩ := by
    rw [Query.parse, hs, scan_opening, scan_comparison ha, scan_closing, scan_link hor,
      scan_opening, scan_opening]
    simp only [Tokens.parse]
    rfl
  have htwo : Query.parse 2 "(a:1) OR ((b:2))" =
      .ok (.chain (.group (.single (.comparison ⟨⟨"a", ":", .number "1"⟩, 1⟩))) ⟨"OR", 6⟩
        (.single (.group (.single (.group (.single
          (.comparison ⟨⟨"b", ":", .number "2"⟩, 11⟩))))))) := by
    rw [Query.parse, hs, scan_opening, scan_comparison ha, scan_closing, scan_link hor,
      scan_opening, scan_opening, scan_comparison hb, scan_closing, scan_closing, scan_done]
    simp only [Tokens.parse, Frame.close]
    rfl
  obtain ⟨hsame | hdeep, -, hdepth⟩ :=
    parse_eq_or_tooDeep (show 1 ≤ 2 by decide) "(a:1) OR ((b:2))"
  · rw [hone, htwo] at hsame
    cases hsame
  · exact ⟨hone, _, htwo, rfl, hdepth _ htwo, hdeep⟩

end FieldQuery
