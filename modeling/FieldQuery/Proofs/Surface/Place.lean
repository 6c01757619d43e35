import FieldQuery.Proofs.Surface.Fault
import FieldQuery.Proofs.Surface.Layout

/-!
# The places of a text

A pass over a text goes from place to place, one token at a time. `Step` has a rule for each token,
`Reaches limit p n before rest` says that steps lead over `before` to a place of kind `p` with `n`
groups open, and `Stuck limit p n rest f` says that no step leads on from such a place over `rest`,
with the fault that is found there. All three speak of the text alone: what the pass has put
together so far plays no part in where it goes.

One step of the rules is one step of the pass (`Step.parse`), and a place that is neither the end
nor left by a step is stuck (`step_or_stuck`). So a text is parsed if steps lead to its end
(`Reaches.parse_ok`), and otherwise it is refused at a place that steps lead to, with the fault of
that place (`parse_eq_error_iff`).
-/

namespace FieldQuery

open Text Grammar Tokens

/-! ## Steps -/

/-- The characters that would still belong to the lexeme before a place: blanks at an operand, where
a link may have ended, and bare characters at a joint, where a value may have. -/
def Place.Absorbs : Place → Char → Prop
  | .operand => Blank
  | .joint => Bare

/-- Blanks, a keyword and blanks, up to where no further blank stands. -/
structure Link.Derives (l : Link) (rest : List Char) : Prop where
  before : IsRun Blank l.before.toList
  word : IsKeyword l.word.toList
  after : IsRun Blank l.after.toList
  maximal : Stops Blank rest

/-- A token that leads from a place, with some groups open, to the next place: its text and the text
behind it. -/
inductive Step (limit : Nat) : Place → Nat → List Char → List Char → Place → Nat → Prop
  | opening {n : Nat} {rest : List Char} (hn : n < limit) :
      Step limit .operand n ['('] rest .operand (n + 1)
  | comparison {n : Nat} {c : Comparison} {text rest : List Char} (hc : c.Derives text rest) :
      Step limit .operand n text rest .joint n
  | closing {n : Nat} {rest : List Char} : Step limit .joint (n + 1) [')'] rest .joint n
  | link {n : Nat} {l : Link} {rest : List Char} (hl : l.Derives rest) :
      Step limit .joint n l.text.toList rest .operand n

/-- Steps lead from the start of a text to a place with `n` groups open: the text before the place
and the text behind it. -/
inductive Reaches (limit : Nat) : Place → Nat → List Char → List Char → Prop
  | start {rest : List Char} : Reaches limit .operand 0 [] rest
  | step {p p' : Place} {n n' : Nat} {before text rest : List Char}
      (h : Reaches limit p n before (text ++ rest)) (hs : Step limit p n text rest p' n') :
      Reaches limit p' n' (before ++ text) rest

/-- No step leads on from a place, and the end of the text is not due there. -/
inductive Stuck (limit : Nat) : Place → Nat → List Char → Fault → Prop
  | tooDeep {n : Nat} {rest : List Char} (hn : limit ≤ n) :
      Stuck limit .operand n ('(' :: rest) ⟨"", .nestingTooDeep limit⟩
  | comparison {n : Nat} {s : List Char} {f : Fault} (hs : s.head? ≠ some '(')
      (h : Comparison.Fails s f) : Stuck limit .operand n s f
  | unopened {rest : List Char} : Stuck limit .joint 0 (')' :: rest) ⟨"", .unbalancedParenthesis⟩
  | unclosed {n : Nat} : Stuck limit .joint (n + 1) [] ⟨"", .unbalancedParenthesis⟩
  | link {n : Nat} {s : List Char} {f : Fault} (h : Link.Fails s f) : Stuck limit .joint n s f

/-! ## What may follow -/

theorem Value.Derives.ne_nil {v : Value} {text rest : List Char} (h : v.Derives text rest) :
    text ≠ [] := by
  cases h with
  | range | quoted => simp
  | number h | unquoted h => exact h.run.1

/-- A value stays one in front of another text, unless that goes on with a bare value. -/
theorem Value.Derives.follow {v : Value} {text rest rest' : List Char} (h : v.Derives text rest)
    (hr : Stops Bare rest → Stops Bare rest') : v.Derives text rest' := by
  cases h with
  | range hl hr => exact .range hl hr
  | quoted h => exact .quoted h
  | number h hn => exact .number ⟨h.run, hr h.maximal, h.quotes⟩ hn
  | unquoted h hn => exact .unquoted ⟨h.run, hr h.maximal, h.quotes⟩ hn

/-- A comparison stays one in front of another text, unless that goes on with a bare value. -/
theorem Comparison.Derives.follow {c : Comparison} {text rest rest' : List Char}
    (h : c.Derives text rest) (hr : Stops Bare rest → Stops Bare rest') : c.Derives text rest' := by
  obtain @⟨value, _, hf, ho, hv⟩ := h
  refine .intro hf ?_ (hv.follow hr)
  obtain ⟨d, value, rfl⟩ := List.exists_cons_of_ne_nil hv.ne_nil
  exact ho

theorem Comparison.Derives.ne_nil {c : Comparison} {text rest : List Char}
    (h : c.Derives text rest) : text ≠ [] := by
  obtain ⟨-, -, hv⟩ := h
  simp [hv.ne_nil]

/-- No bare character starts a run of blanks. -/
theorem Grammar.IsRun.stops_bare {blanks rest : List Char} (h : IsRun Blank blanks) :
    Stops Bare (blanks ++ rest) := by
  obtain ⟨blank, blanks, rfl⟩ := List.exists_cons_of_ne_nil h.1
  exact stops_cons.2 fun hbare => hbare.1 (h.2 blank (.head _))

/-- No bare character closes a group. -/
theorem Grammar.stops_bare_closing (rest : List Char) : Stops Bare (')' :: rest) :=
  stops_cons.2 (by simp [Bare])

section
variable {limit n n' : Nat} {p p' : Place} {before text rest rest' : List Char} {f : Fault}

theorem Step.ne_nil (h : Step limit p n text rest p' n') : text ≠ [] := by
  cases h with
  | opening | closing => simp
  | comparison hc => exact hc.ne_nil
  | link hl => simp [Link.text, hl.before.1]

/-- A token does not start with a character that would belong to the lexeme before it. -/
theorem Step.stops (h : Step limit p n text rest p' n') : Stops p.Absorbs (text ++ rest') := by
  cases h with
  | opening => exact stops_cons.2 (by simp [Place.Absorbs, Blank])
  | comparison hc => exact hc.stops
  | closing => exact stops_bare_closing rest'
  | link hl => simpa [Place.Absorbs, Link.text] using hl.before.stops_bare

/-- A token stays one in front of another text, unless its lexeme goes on there. -/
theorem Step.follow (h : Step limit p n text rest p' n')
    (hr : Stops p'.Absorbs rest → Stops p'.Absorbs rest') : Step limit p n text rest' p' n' := by
  cases h with
  | opening hn => exact .opening hn
  | comparison hc => exact .comparison (hc.follow hr)
  | closing => exact .closing
  | link hl => exact .link { hl with maximal := hr hl.maximal }

/-- A place is reached in front of another text too, unless the lexeme before it goes on there. -/
theorem Reaches.follow (h : Reaches limit p n before rest)
    (hr : Stops p.Absorbs rest → Stops p.Absorbs rest') : Reaches limit p n before rest' := by
  induction h generalizing rest' with
  | start => exact .start
  | step _ hs ih => exact .step (ih fun _ => hs.stops) (hs.follow hr)

/-- A higher limit lets the same steps be taken. -/
theorem Reaches.mono {limit' : Nat} (h : Reaches limit p n before rest) (hl : limit ≤ limit') :
    Reaches limit' p n before rest := by
  induction h with
  | start => exact .start
  | step _ hs ih =>
    refine ih.step ?_
    cases hs with
    | opening hn => exact .opening (Nat.lt_of_lt_of_le hn hl)
    | comparison hc => exact .comparison hc
    | closing => exact .closing
    | link hl => exact .link hl

/-- No more groups are open than the limit allows. -/
theorem Reaches.le_limit (h : Reaches limit p n before rest) : n ≤ limit := by
  induction h with
  | start => exact Nat.zero_le _
  | step _ hs ih =>
    cases hs with
    | opening hn => exact hn
    | comparison | link => exact ih
    | closing => exact Nat.le_of_succ_le ih

/-! ## A step of the pass -/

/-- How many groups are open. -/
def Reading.height : {p : Place} → Reading p → Nat
  | _, .due _ outer => outer.length
  | _, .ended _ _ outer => outer.length

/-- The text that what has been read was read from. -/
def Reading.Covers : {p : Place} → Reading p → List Char → Prop
  | _, .due frame outer, before => frame.Covers outer before
  | _, .ended last frame outer, before => ∃ text text', before = text ++ text' ∧
      frame.Covers outer text ∧ last.Laid (bytes text) text'

/-- A link of the rules is read. -/
theorem Link.Derives.lex {l : Link} (h : l.Derives rest) :
    Link.lex (l.text.toList ++ rest) = some (l, rest) :=
  Link.lex_eq_some_iff.2 ⟨h.before, h.word, h.after, h.maximal, rfl⟩

/-- The text of a derived comparison is the one that it is written as. -/
theorem Comparison.Derives.text_eq {c : Comparison} (h : c.Derives text rest) :
    c.text.toList = text :=
  List.append_cancel_right
    (Comparison.text_append_of_lex (Comparison.lex_eq_ok_iff.2 ⟨text, rfl, h⟩))

/-- A step of the rules is a step of the pass, in front of every text in which the lexeme that it
reads does not go on. -/
theorem Step.parse (h : Step limit p n text rest p' n') {r : Reading p} (hr : r.height = n)
    (hc : r.Covers before) :
    ∃ r' : Reading p', r'.height = n' ∧ r'.Covers (before ++ text) ∧
      ∀ rest', (Stops p'.Absorbs rest → Stops p'.Absorbs rest') →
        (scan p (text ++ rest')).parse limit (bytes before) r =
          (scan p' rest').parse limit (bytes (before ++ text)) r' := by
  cases h with
  | opening hn =>
    cases r with
    | due frame outer =>
      subst hr
      refine ⟨.due [] (frame :: outer), rfl, .inner hc (Frame.laid_nil _), fun rest' _ => ?_⟩
      rw [List.cons_append, List.nil_append, scan_opening, Tokens.parse, bytes_append,
        bytes_opening]
      exact if_pos hn
  | @comparison _ c _ _ hd =>
    cases r with
    | due frame outer =>
      refine ⟨.ended (.comparison ⟨c, bytes before⟩) frame outer, hr,
        ⟨before, text, rfl, hc, hd.text_eq ▸ .comparison⟩, fun rest' hrest => ?_⟩
      rw [scan_comparison (Comparison.lex_eq_ok_iff.2 ⟨text, rfl, hd.follow hrest⟩), Tokens.parse,
        bytes_append, ← hd.text_eq, bytes_toList]
  | closing =>
    cases r with
    | ended last frame outer =>
      cases outer with
      | nil => cases hr
      | cons around outer =>
        obtain ⟨text₁, text₂, rfl, hframe, hlast⟩ := hc
        obtain ⟨text, text', heq, haround, hgroup⟩ := hframe.close hlast
        refine ⟨.ended (.group (frame.close last)) around outer, Nat.succ.inj hr,
          ⟨text, text', heq, haround, hgroup⟩, fun rest' _ => ?_⟩
        rw [List.cons_append, List.nil_append, scan_closing, Tokens.parse, bytes_append _ [')'],
          bytes_closing]
        rfl
  | @link _ l _ hl =>
    cases r with
    | ended last frame outer =>
      obtain ⟨text₁, text₂, rfl, hframe, hlast⟩ := hc
      let keyword : Keyword := ⟨l.word, bytes (text₁ ++ text₂) + l.before.utf8ByteSize⟩
      refine ⟨.due ((last, keyword) :: frame) outer, hr,
        hframe.link hlast hl.before hl.after, fun rest' hrest => ?_⟩
      have hl' : l.Derives rest' := { hl with maximal := hrest hl.maximal }
      rw [scan_link hl'.lex, Tokens.parse, bytes_append _ l.text.toList, bytes_toList]

/-- At every place that is reached, the pass goes on with what it has read of the text before, over
every text in which the lexeme before the place does not go on. -/
theorem Reaches.exists_reading (h : Reaches limit p n before rest) :
    ∃ r : Reading p, r.height = n ∧ r.Covers before ∧
      ∀ rest', (Stops p.Absorbs rest → Stops p.Absorbs rest') →
        Query.parse limit (.ofList (before ++ rest')) =
          (scan p rest').parse limit (bytes before) r := by
  induction h with
  | start =>
    exact ⟨.due [] [], rfl, .outermost (Frame.laid_nil 0), fun _ _ => by simp [Query.parse]⟩
  | step _ hs ih =>
    obtain ⟨r, hr, hc, hparse⟩ := ih
    obtain ⟨r', hr', hc', hstep⟩ := hs.parse hr hc
    refine ⟨r', hr', hc', fun rest' hrest => ?_⟩
    rw [List.append_assoc, hparse _ fun _ => hs.stops, hstep rest' hrest]

/-! ## Where the pass ends -/

/-- Where no comparison can be read at an operand, its fault is the token there. -/
theorem Tokens.scan_operand_fault {s : List Char} (hs : s.head? ≠ some '(')
    (h : Comparison.lex s = .error f) : scan .operand s = .fault f := by
  cases s with
  | nil =>
    cases h
    rw [scan]
  | cons c s =>
    have hc : c ≠ '(' := fun hc => hs (congrArg some hc)
    rw [scan, if_neg hc]
    split
    · next he =>
      rw [h] at he
      cases he
      rfl
    · next he =>
      rw [h] at he
      cases he

/-- Where no link can be read at a joint, its fault is the token there. -/
theorem Tokens.scan_joint_fault {s : List Char} {c : Char} (hc : c ≠ ')')
    (h : Link.lex (c :: s) = none) : scan .joint (c :: s) = .fault (.trailing (c :: s)) := by
  rw [scan, if_neg hc]
  split
  · rfl
  · next he =>
    rw [h] at he
    cases he

/-- A text that follows an expression and has no link neither is empty nor closes a group. -/
theorem Link.Fails.exists_cons {s : List Char} (h : Link.Fails s f) :
    ∃ c s', s = c :: s' ∧ c ≠ ')' := by
  have blank {before s : List Char} (hb : IsRun Blank before) :
      ∃ c s', before ++ s = c :: s' ∧ c ≠ ')' := by
    obtain ⟨c, before, rfl⟩ := List.exists_cons_of_ne_nil hb.1
    refine ⟨c, before ++ s, rfl, ?_⟩
    rintro rfl
    simpa [Blank] using hb.2 ')' (.head _)
  cases h with
  | junk _ hc => exact ⟨_, _, rfl, hc⟩
  | blank hb => simpa using blank (s := []) hb
  | closing hb | dangling hb | operator hb => exact blank hb

/-- A pass that is stuck ends with the fault of its place. -/
theorem Stuck.parse (h : Stuck limit p n rest f) {r : Reading p} (hr : r.height = n) (pos : Nat) :
    (scan p rest).parse limit pos r =
      .error ⟨pos + f.skipped.utf8ByteSize, f.reason⟩ := by
  cases h with
  | tooDeep hn =>
    cases r with
    | due frame outer =>
      subst hr
      rw [scan_opening, Tokens.parse]
      exact if_neg (Nat.not_lt.2 hn)
  | comparison hs h =>
    rw [scan_operand_fault hs (Comparison.lex_eq_error_iff.2 h), Tokens.parse]
  | unopened =>
    cases r with
    | ended last frame outer =>
      cases outer with
      | nil => rw [scan_closing, Tokens.parse]; rfl
      | cons => cases hr
  | unclosed =>
    cases r with
    | ended last frame outer =>
      cases outer with
      | nil => cases hr
      | cons => rw [scan_done, Tokens.parse]; rfl
  | link h =>
    obtain ⟨hnone, htrail⟩ := h.lex_and_trailing
    obtain ⟨c, s, rfl, hc⟩ := h.exists_cons
    rw [scan_joint_fault hc hnone, Tokens.parse, htrail]

/-- Where the pass has not reached the end, a step leads on or it is stuck. -/
theorem step_or_stuck (limit : Nat) (p : Place) (n : Nat) (s : List Char) :
    (p = .joint ∧ n = 0 ∧ s = []) ∨ (∃ f, Stuck limit p n s f) ∨
      ∃ text rest p' n', s = text ++ rest ∧ Step limit p n text rest p' n' := by
  cases p with
  | operand =>
    by_cases hs : s.head? = some '('
    · obtain ⟨rest, rfl⟩ : ∃ rest, s = '(' :: rest := List.head?_eq_some_iff.1 hs
      by_cases hn : n < limit
      · exact .inr (.inr ⟨['('], rest, _, _, rfl, .opening hn⟩)
      · exact .inr (.inl ⟨_, .tooDeep (Nat.not_lt.1 hn)⟩)
    · cases hl : Comparison.lex s with
      | error f => exact .inr (.inl ⟨f, .comparison hs (Comparison.lex_eq_error_iff.1 hl)⟩)
      | ok found =>
        obtain ⟨c, rest⟩ := found
        obtain ⟨text, rfl, hc⟩ := Comparison.lex_eq_ok_iff.1 hl
        exact .inr (.inr ⟨text, rest, _, _, rfl, .comparison hc⟩)
  | joint =>
    cases s with
    | nil =>
      cases n with
      | zero => exact .inl ⟨rfl, rfl, rfl⟩
      | succ n => exact .inr (.inl ⟨_, .unclosed⟩)
    | cons c s =>
      by_cases hc : c = ')'
      · subst hc
        cases n with
        | zero => exact .inr (.inl ⟨_, .unopened⟩)
        | succ n => exact .inr (.inr ⟨[')'], s, _, _, rfl, .closing⟩)
      · cases hl : Link.lex (c :: s) with
        | none =>
          have hfails := Link.fails_trailing (by simp) (by simpa using hc) hl
          exact .inr (.inl ⟨_, .link hfails⟩)
        | some found =>
          obtain ⟨l, rest⟩ := found
          obtain ⟨hb, hk, ha, hr, hs⟩ := Link.lex_eq_some_iff.1 hl
          exact .inr (.inr ⟨_, rest, _, _, hs, .link ⟨hb, hk, ha, hr⟩⟩)

/-- From every place, steps lead to the end of the text or to a place where the pass is stuck. -/
theorem Reaches.halts {limit n : Nat} {p : Place} {before rest : List Char}
    (h : Reaches limit p n before rest) :
    Reaches limit .joint 0 (before ++ rest) [] ∨
      ∃ p' n' before' rest' f, before ++ rest = before' ++ rest' ∧
        Reaches limit p' n' before' rest' ∧ Stuck limit p' n' rest' f := by
  rcases step_or_stuck limit p n rest with ⟨rfl, rfl, rfl⟩ | ⟨f, hf⟩ |
    ⟨text, rest', p', n', rfl, hs⟩
  · rw [List.append_nil]
    exact .inl h
  · exact .inr ⟨p, n, before, rest, f, rfl, h, hf⟩
  · have hlt : rest'.length < (text ++ rest').length := by
      have := List.length_pos_iff.2 hs.ne_nil
      rw [List.length_append]
      omega
    rw [← List.append_assoc]
    exact (h.step hs).halts
termination_by rest.length

/-! ## What parsing gives -/

/-- A text whose end is reached is parsed, and its tree is laid out over it. -/
theorem Reaches.parse_ok {s : String} (h : Reaches limit .joint 0 s.toList []) :
    ∃ q, Query.parse limit s = .ok q ∧ q.Laid 0 s.toList := by
  obtain ⟨r, hr, hc, hrest⟩ := h.exists_reading
  have hparse := hrest [] id
  rw [List.append_nil, String.ofList_toList, scan_done] at hparse
  cases r with
  | ended last frame outer =>
    cases outer with
    | cons => cases hr
    | nil =>
      obtain ⟨text, text', heq, hframe, hlast⟩ := hc
      cases hframe with
      | outermost hframe =>
        refine ⟨frame.close last, by rw [hparse, Tokens.parse], ?_⟩
        rw [heq]
        exact hframe _ _ (.single (by rwa [Nat.zero_add]))

/-- A text in which a place is reached where the pass is stuck is refused with the fault there. -/
theorem Reaches.parse_error (h : Reaches limit p n before rest) (hf : Stuck limit p n rest f) :
    Query.parse limit (.ofList (before ++ rest)) =
      .error ⟨bytes before + f.skipped.utf8ByteSize, f.reason⟩ := by
  obtain ⟨r, hr, -, hparse⟩ := h.exists_reading
  rw [hparse rest id, hf.parse hr]

/-- The end of a text is reached, or a place where the pass is stuck. -/
theorem reaches_end_or_stuck (limit : Nat) (s : String) :
    Reaches limit .joint 0 s.toList [] ∨
      ∃ p n before rest f, s.toList = before ++ rest ∧ Reaches limit p n before rest ∧
        Stuck limit p n rest f := by
  have hstart : Reaches limit .operand 0 [] s.toList := .start
  exact hstart.halts

/-- A text that is parsed has its end reached, and its tree is laid out over it. -/
theorem reaches_and_laid_of_parse {s : String} {q : Query} (h : Query.parse limit s = .ok q) :
    Reaches limit .joint 0 s.toList [] ∧ q.Laid 0 s.toList := by
  rcases reaches_end_or_stuck limit s with hend | ⟨p, n, before, rest, f, hs, hreach, hf⟩
  · obtain ⟨q', hq', hlaid⟩ := hend.parse_ok
    rw [h] at hq'
    cases hq'
    exact ⟨hend, hlaid⟩
  · have herror := hreach.parse_error hf
    rw [← hs, String.ofList_toList, h] at herror
    cases herror

/-- **A text is refused at a place that steps lead to and none leads on from,** with the fault of
that place. -/
theorem parse_eq_error_iff {s : String} {e : SyntaxError} :
    Query.parse limit s = .error e ↔
      ∃ p n before rest f, s.toList = before ++ rest ∧ Reaches limit p n before rest ∧
        Stuck limit p n rest f ∧ e = ⟨bytes before + f.skipped.utf8ByteSize, f.reason⟩ := by
  refine ⟨?_, ?_⟩
  · intro h
    rcases reaches_end_or_stuck limit s with hend | ⟨p, n, before, rest, f, hs, hreach, hf⟩
    · obtain ⟨q, hq, -⟩ := hend.parse_ok
      rw [h] at hq
      cases hq
    · have herror := hreach.parse_error hf
      rw [← hs, String.ofList_toList, h] at herror
      exact ⟨p, n, before, rest, f, hs, hreach, hf, Except.error.inj herror⟩
  · rintro ⟨p, n, before, rest, f, hs, hreach, hf, rfl⟩
    rw [← hreach.parse_error hf, ← hs, String.ofList_toList]

end

end FieldQuery
