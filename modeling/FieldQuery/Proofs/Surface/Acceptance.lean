import FieldQuery.Surface.Parser
import FieldQuery.Proofs.Surface.Lexeme

/-!
# Parsing accepts the grammar

The trees that parsing gives are those that the grammar derives, offsets apart, from the whole
text with groups nested within the limit (`parse_iff_derives`).

Parsing is one pass over the text with a stack of open groups, so neither half is an induction on
the tree alone. A pass that succeeds is taken apart from the left, one step at a time
(`operand_step`, `joint_step`): `exists_expr` finds the expression at an operand, `exists_rest` the
rest of the query at a joint, and each calls the other on a shorter text. In the other direction a
derivation drives the pass from an operand to the joint behind it and leaves the stack below as it
was (`Expr.Derives.run`, `Query.Derives.run`).
-/

namespace FieldQuery

open Text Grammar

/-! ## Scanning -/

namespace Tokens

@[simp] theorem scan_opening (s : List Char) :
    scan .operand ('(' :: s) = .opening (scan .operand s) := by
  rw [scan]; rfl

@[simp] theorem scan_closing (s : List Char) :
    scan .joint (')' :: s) = .closing (scan .joint s) := by
  rw [scan]; rfl

@[simp] theorem scan_done : scan .joint [] = .done := by
  rw [scan]

/-- A comparison that can be read at an operand is the token there. -/
theorem scan_comparison {s rest : List Char} {c : Comparison}
    (h : Comparison.lex s = .ok (c, rest)) :
    scan .operand s = .comparison c (scan .joint rest) := by
  cases s with
  | nil => cases h
  | cons d s =>
    have hd : d ≠ '(' := by rintro rfl; cases h
    rw [scan, if_neg hd]
    split
    · next he => rw [h] at he; cases he
    · next he => rw [h] at he; cases he; rfl

/-- A link that can be read at a joint is the token there. -/
theorem scan_link {s rest : List Char} {l : Link} (h : Link.lex s = some (l, rest)) :
    scan .joint s = .link l (scan .operand rest) := by
  cases s with
  | nil => cases h
  | cons d s =>
    have hd : d ≠ ')' := by rintro rfl; cases h
    rw [scan, if_neg hd]
    split
    · next he => rw [h] at he; cases he
    · next he => rw [h] at he; cases he; rfl

/-! ## One step of a pass that succeeds -/

section
variable {limit pos : Nat} {s : List Char} {frame : Frame} {outer : List Frame} {last : Expr}
  {r : Query}

/-- At an operand a pass that succeeds opens a group or reads a comparison. -/
theorem operand_step (h : (scan .operand s).parse limit pos (.due frame outer) = .ok r) :
    (∃ s', s = '(' :: s' ∧ outer.length < limit ∧
      (scan .operand s').parse limit (pos + 1) (.due [] (frame :: outer)) = .ok r) ∨
    ∃ c rest, Comparison.lex s = .ok (c, rest) ∧
      (scan .joint rest).parse limit (pos + c.text.utf8ByteSize)
        (.ended (.comparison ⟨c, pos⟩) frame outer) = .ok r := by
  cases s with
  | nil => rw [scan] at h; cases h
  | cons d s =>
    by_cases hd : d = '('
    · subst hd
      rw [scan_opening, parse] at h
      split at h
      · next hl => exact .inl ⟨s, rfl, hl, h⟩
      · cases h
    · cases hl : Comparison.lex (d :: s) with
      | error f =>
        rw [scan, if_neg hd] at h
        split at h
        · cases h
        · next he => rw [hl] at he; cases he
      | ok found =>
        obtain ⟨c, rest⟩ := found
        rw [scan_comparison hl, parse] at h
        exact .inr ⟨c, rest, rfl, h⟩

/-- At a joint a pass that succeeds ends, closes a group or reads a link. -/
theorem joint_step (h : (scan .joint s).parse limit pos (.ended last frame outer) = .ok r) :
    (s = [] ∧ outer = [] ∧ r = frame.close last) ∨
    (∃ s' around outer', s = ')' :: s' ∧ outer = around :: outer' ∧
      (scan .joint s').parse limit (pos + 1) (.ended (.group (frame.close last)) around outer') =
        .ok r) ∨
    ∃ l rest, Link.lex s = some (l, rest) ∧
      (scan .operand rest).parse limit (pos + l.text.utf8ByteSize)
        (.due ((last, ⟨l.word, pos + l.before.utf8ByteSize⟩) :: frame) outer) = .ok r := by
  cases s with
  | nil =>
    rw [scan_done, parse.eq_def] at h
    cases outer with
    | nil => cases h; exact .inl ⟨rfl, rfl, rfl⟩
    | cons around outer => cases h
  | cons d s =>
    by_cases hd : d = ')'
    · subst hd
      rw [scan_closing, parse.eq_def] at h
      cases outer with
      | nil => cases h
      | cons around outer => exact .inr (.inl ⟨s, around, outer, rfl, rfl, h⟩)
    · cases hl : Link.lex (d :: s) with
      | none =>
        rw [scan, if_neg hd] at h
        split at h
        · cases h
        · next he => rw [hl] at he; cases he
      | some found =>
        obtain ⟨l, rest⟩ := found
        rw [scan_link hl, parse.eq_def] at h
        exact .inr (.inr ⟨l, rest, rfl, h⟩)

end

end Tokens

/-! ## From a pass to a derivation -/

/-- The query that a frame and the query behind it make up. -/
def Frame.enclose (frame : Frame) (q : Query) : Query :=
  frame.foldl (fun q (e, k) => .chain e k q) q

/-- How a pass that succeeds with `r` goes on behind a whole query `q`: the text ends and so does
the outermost query, or a parenthesis closes the group that `q` is the last part of. -/
def Tokens.Closes (limit : Nat) (frame : Frame) (q : Query) (rest : List Char) (r : Query) :
    List Frame → Prop
  | [] => rest = [] ∧ r = frame.enclose q
  | around :: outer => ∃ rest' pos, rest = ')' :: rest' ∧
      (scan .joint rest').parse limit pos (.ended (.group (frame.enclose q)) around outer) = .ok r

open Tokens

/-- The rule for a chain, with blanks, keyword and blanks as a link. -/
theorem Query.Derives.link {e : Expr} {q : Query} {l : Link} {pos : Nat}
    {text text' rest : List Char} (he : e.Derives text (l.text.toList ++ (text' ++ rest)))
    (hb : IsRun Blank l.before.toList) (hk : IsKeyword l.word.toList)
    (ha : IsRun Blank l.after.toList) (hq : q.Derives text' rest) :
    (Query.chain e ⟨l.word, pos⟩ q).Derives (text ++ (l.text.toList ++ text')) rest := by
  have ht : text ++ (l.text.toList ++ text') =
      text ++ l.before.toList ++ l.word.toList ++ l.after.toList ++ text' := by
    simp [Link.text]
  rw [ht]
  exact .chain (by simpa [Link.text] using he) hb hk ha hq

mutual

/-- A pass that succeeds from an operand on passes over an expression that the text derives there,
and succeeds from the joint behind it on. -/
theorem exists_expr {limit pos : Nat} {s : List Char} {frame : Frame} {outer : List Frame}
    {r : Query} (h : (scan .operand s).parse limit pos (.due frame outer) = .ok r)
    (houter : outer.length ≤ limit) :
    ∃ e text rest pos', s = text ++ rest ∧ e.Derives text rest ∧ rest.length < s.length ∧
      outer.length + e.depth ≤ limit ∧
      (scan .joint rest).parse limit pos' (.ended e frame outer) = .ok r := by
  rcases operand_step h with ⟨s', hs, hlimit, hin⟩ | ⟨c, rest, hc, hrest⟩
  · have hs' : s'.length < s.length := by simp [hs]
    obtain ⟨e, text, rest, pos', hs₁, he, hlen, hdepth, hjoint⟩ := exists_expr hin hlimit
    obtain ⟨q, text', rest', hs₂, hq, hdepth', hclose⟩ := exists_rest hjoint hdepth
    obtain ⟨rest'', pos'', hs₃, hout⟩ := hclose
    subst hs₃
    refine ⟨.group q, '(' :: (text ++ text') ++ [')'], rest'', pos'', ?_, .group (hq he), ?_, ?_,
      hout⟩
    · simp [hs, hs₁, hs₂]
    · simp only [hs₂, List.length_append, List.length_cons] at hlen
      omega
    · simp only [List.length_cons, Expr.depth] at hdepth' ⊢
      omega
  · have hlen := Comparison.length_lt_of_lex hc
    obtain ⟨text, hs, hd⟩ := Comparison.lex_eq_ok_iff.1 hc
    exact ⟨.comparison ⟨c, pos⟩, text, rest, _, hs, .comparison hd, hlen, houter, hrest⟩
termination_by s.length

/-- A pass that succeeds from a joint on passes over the rest of a query, whatever text the
expression before the joint was derived from. -/
theorem exists_rest {limit pos : Nat} {s : List Char} {last : Expr} {frame : Frame}
    {outer : List Frame} {r : Query}
    (h : (scan .joint s).parse limit pos (.ended last frame outer) = .ok r)
    (hlast : outer.length + last.depth ≤ limit) :
    ∃ q text rest, s = text ++ rest ∧
      (∀ {before}, last.Derives before s → q.Derives (before ++ text) rest) ∧
      outer.length + q.depth ≤ limit ∧ Closes limit frame q rest r outer := by
  rcases joint_step h with ⟨rfl, rfl, rfl⟩ | ⟨s', around, outer, rfl, rfl, hout⟩ |
    ⟨l, s', hl, hnext⟩
  · exact ⟨.single last, [], [], rfl, fun h => by simpa using .single h, hlast, rfl, rfl⟩
  · exact ⟨.single last, [], ')' :: s', rfl, fun h => by simpa using .single h, hlast, s', _, rfl,
      hout⟩
  · have hs' := Link.length_lt_of_lex hl
    obtain ⟨hb, hk, ha, -, hs⟩ := Link.lex_eq_some_iff.1 hl
    obtain ⟨e, text, rest, pos', hs₁, he, hlen, hdepth, hjoint⟩ := exists_expr hnext (by omega)
    obtain ⟨q, text', rest', hs₂, hq, hdepth', hclose⟩ := exists_rest hjoint hdepth
    refine ⟨.chain last ⟨l.word, pos + l.before.utf8ByteSize⟩ q, l.text.toList ++ (text ++ text'),
      rest', by simp [hs, hs₁, hs₂], ?_, ?_, ?_⟩
    · intro before hbefore
      exact .link (by simpa [hs, hs₁, hs₂] using hbefore) hb hk ha (hq he)
    · simp only [Query.depth]
      omega
    · cases outer with
      | nil => exact hclose
      | cons around outer => exact hclose
termination_by s.length

end

/-! ## From a derivation to a pass -/

/-- A field does not start with a blank. -/
theorem Comparison.Derives.stops {c : Comparison} {text rest rest' : List Char}
    (h : c.Derives text rest) : Stops Blank (text ++ rest') := by
  obtain ⟨⟨d, body, hf, hd, -⟩, -, -⟩ := h
  rw [hf]
  rintro _ ⟨⟩ hb
  rcases hd with hd | rfl
  · exact hb.toUpper_ne d hd hb.toUpper
  · simp [Blank] at hb

/-- An expression does not start with a blank. -/
theorem Expr.Derives.stops {e : Expr} {text rest rest' : List Char} (h : e.Derives text rest) :
    Stops Blank (text ++ rest') := by
  cases h with
  | comparison h => exact h.stops
  | group h => rintro _ ⟨⟩ hb; simp [Blank] at hb

/-- A query does not start with a blank. -/
theorem Query.Derives.stops {q : Query} {text rest rest' : List Char} (h : q.Derives text rest) :
    Stops Blank (text ++ rest') := by
  cases h with
  | single h => exact h.stops
  | chain he => simpa only [List.append_assoc] using he.stops

/-- The first expression of a frame is the first expression of the query. -/
theorem Frame.close_concat (frame : Frame) (e : Expr) (k : Keyword) (last : Expr) :
    Frame.close (frame ++ [(e, k)]) last = .chain e k (frame.close last) := by
  simp [Frame.close]

mutual

/-- A pass over a derived expression ends at the joint behind it, with the expression, offsets
apart, and with the stack as it was. -/
theorem Expr.Derives.run : ∀ {e : Expr} {text rest : List Char},
    e.Derives text rest → ∀ (limit pos : Nat) (frame : Frame) (outer : List Frame),
    outer.length + e.depth ≤ limit →
    ∃ e' pos', e'.unplaced = e.unplaced ∧
      (scan .operand (text ++ rest)).parse limit pos (.due frame outer) =
        (scan .joint rest).parse limit pos' (.ended e' frame outer)
  | .comparison c, text, rest, .comparison h, limit, pos, frame, outer, _ => by
    refine ⟨.comparison ⟨c.toComparison, pos⟩, pos + c.text.utf8ByteSize, rfl, ?_⟩
    rw [scan_comparison (Comparison.lex_eq_ok_iff.2 ⟨text, rfl, h⟩), parse]
  | .group q, _, rest, @Expr.Derives.group _ text _ h, limit, pos, frame, outer, hdepth => by
    have hlimit : outer.length + 1 + q.depth ≤ limit := by
      simp only [Expr.depth] at hdepth
      omega
    obtain ⟨last, inner, pos', hq, hrun⟩ := h.run limit (pos + 1) [] (frame :: outer) hlimit
    refine ⟨.group ((inner ++ []).close last), pos' + 1, ?_, ?_⟩
    · rw [List.append_nil, Expr.unplaced, Expr.unplaced, hq]
    · have ht : '(' :: text ++ [')'] ++ rest = '(' :: (text ++ ')' :: rest) := by simp
      rw [ht, scan_opening, parse, if_pos (by omega), hrun, scan_closing, parse]

/-- A pass over a derived query ends at the joint behind it: what it has read adds up to the query,
offsets apart, and lies on top of the stack as it was. -/
theorem Query.Derives.run : ∀ {q : Query} {text rest : List Char},
    q.Derives text rest → ∀ (limit pos : Nat) (frame : Frame) (outer : List Frame),
    outer.length + q.depth ≤ limit →
    ∃ last inner pos', (Frame.close inner last).unplaced = q.unplaced ∧
      (scan .operand (text ++ rest)).parse limit pos (.due frame outer) =
        (scan .joint rest).parse limit pos' (.ended last (inner ++ frame) outer)
  | .single e, text, rest, .single h, limit, pos, frame, outer, hdepth => by
    obtain ⟨last, pos', he, hrun⟩ := h.run limit pos frame outer hdepth
    exact ⟨last, [], pos', by rw [Query.unplaced, ← he]; rfl, hrun⟩
  | .chain e k q, _, rest, @Query.Derives.chain _ _ _ text before after text' _ he hb hk ha hq,
      limit, pos, frame, outer, hdepth => by
    have hde : outer.length + e.depth ≤ limit := by simp only [Query.depth] at hdepth; omega
    have hdq : outer.length + q.depth ≤ limit := by simp only [Query.depth] at hdepth; omega
    obtain ⟨e', pos₁, hee, hrun₁⟩ := he.run limit pos frame outer hde
    let l : Link := ⟨.ofList before, k.word, .ofList after⟩
    have hl : Link.lex (l.text.toList ++ (text' ++ rest)) = some (l, text' ++ rest) :=
      Link.lex_eq_some_iff.2 ⟨by simpa [l] using hb, hk, by simpa [l] using ha, hq.stops, rfl⟩
    obtain ⟨last, inner, pos₂, hqq, hrun₂⟩ := hq.run limit (pos₁ + l.text.utf8ByteSize)
      ((e', ⟨k.word, pos₁ + l.before.utf8ByteSize⟩) :: frame) outer hdq
    refine ⟨last, inner ++ [(e', ⟨k.word, pos₁ + l.before.utf8ByteSize⟩)], pos₂, ?_, ?_⟩
    · rw [Frame.close_concat, Query.unplaced, Query.unplaced, hee, hqq]
    · have ht : before ++ k.word.toList ++ after ++ text' ++ rest =
          l.text.toList ++ (text' ++ rest) := by simp [l, Link.text]
      have ht' : text ++ before ++ k.word.toList ++ after ++ text' ++ rest =
          text ++ (l.text.toList ++ (text' ++ rest)) := by simp [l, Link.text]
      rw [ht, scan_link hl, parse] at hrun₁
      rw [ht', hrun₁, hrun₂, List.append_assoc]
      rfl

end

/-! ## Offsets -/

mutual

/-- Offsets play no part in a derivation. -/
@[simp] theorem Expr.derives_unplaced : ∀ {e : Expr} {text rest : List Char},
    e.unplaced.Derives text rest ↔ e.Derives text rest
  | .comparison c, text, rest => by
    constructor <;> intro h
    · cases h with | comparison h => exact .comparison h
    · cases h with | comparison h => exact .comparison h
  | .group q, text, rest => by
    constructor <;> intro h
    · cases h with | group h => exact .group (Query.derives_unplaced.1 h)
    · cases h with | group h => exact .group (Query.derives_unplaced.2 h)

/-- Offsets play no part in a derivation. -/
@[simp] theorem Query.derives_unplaced : ∀ {q : Query} {text rest : List Char},
    q.unplaced.Derives text rest ↔ q.Derives text rest
  | .single e, text, rest => by
    constructor <;> intro h
    · cases h with | single h => exact .single (Expr.derives_unplaced.1 h)
    · cases h with | single h => exact .single (Expr.derives_unplaced.2 h)
  | .chain e k q, text, rest => by
    constructor <;> intro h
    · cases h with
      | chain he hb hk ha hq =>
        exact .chain (Expr.derives_unplaced.1 he) hb hk ha (Query.derives_unplaced.1 hq)
    · cases h with
      | chain he hb hk ha hq =>
        exact .chain (Expr.derives_unplaced.2 he) hb hk ha (Query.derives_unplaced.2 hq)

end

mutual

/-- Offsets play no part in nesting. -/
@[simp] theorem Expr.depth_unplaced : ∀ e : Expr, e.unplaced.depth = e.depth
  | .comparison _ => rfl
  | .group q => congrArg (· + 1) q.depth_unplaced

/-- Offsets play no part in nesting. -/
@[simp] theorem Query.depth_unplaced : ∀ q : Query, q.unplaced.depth = q.depth
  | .single e => e.depth_unplaced
  | .chain e _ q => by
    rw [Query.unplaced, Query.depth, Query.depth, e.depth_unplaced, q.depth_unplaced]

end

/-! ## Acceptance -/

/-- What parsing gives is derived from the whole text, with groups nested within the limit. -/
theorem derives_of_parse {limit : Nat} {s : String} {q : Query} (h : Query.parse limit s = .ok q) :
    q.Derives s.toList [] ∧ q.depth ≤ limit := by
  obtain ⟨e, text, rest, pos, hs, he, -, hdepth, hjoint⟩ := exists_expr h (Nat.zero_le _)
  obtain ⟨q', text', rest', hs', hq, hdepth', hrest, hr⟩ := exists_rest hjoint hdepth
  have hr : q = q' := hr
  subst hrest hr
  exact ⟨by simpa [hs, hs'] using hq he, by simpa using hdepth'⟩

/-- A text that derives a query with groups nested within the limit is parsed, and gives that
query, offsets apart. -/
theorem parse_of_derives {limit : Nat} {s : String} {t : Query} (h : t.Derives s.toList [])
    (hdepth : t.depth ≤ limit) : ∃ q, Query.parse limit s = .ok q ∧ q.unplaced = t.unplaced := by
  obtain ⟨last, inner, pos, hq, hrun⟩ := h.run limit 0 [] [] (by simpa using hdepth)
  refine ⟨inner.close last, ?_, hq⟩
  rw [List.append_nil, List.append_nil, scan_done] at hrun
  rw [Query.parse, hrun, parse]

/-- **Parsing accepts exactly the grammar.** A text is parsed to a tree, offsets apart, if and only
if the whole text derives the tree and its groups nest within the limit. So a text derives one tree
at most. -/
theorem parse_iff_derives (limit : Nat) (s : String) (t : Query) :
    ((∃ q, Query.parse limit s = .ok q ∧ q.unplaced = t.unplaced) ↔
      t.Derives s.toList [] ∧ t.depth ≤ limit) ∧
    (t.Derives s.toList [] → ∀ t' : Query, t'.Derives s.toList [] → t'.unplaced = t.unplaced) := by
  refine ⟨?_, ?_⟩
  · refine ⟨?_, ?_⟩
    · rintro ⟨q, hq, ht⟩
      have hd := derives_of_parse hq
      rwa [← Query.derives_unplaced, ← q.depth_unplaced, ht, Query.derives_unplaced,
        t.depth_unplaced] at hd
    · exact fun h => parse_of_derives h.1 h.2
  · intro h t' h'
    obtain ⟨q, hq, ht⟩ := parse_of_derives h (Nat.le_max_left t.depth t'.depth)
    obtain ⟨q', hq', ht'⟩ := parse_of_derives h' (Nat.le_max_right t.depth t'.depth)
    rw [hq] at hq'
    cases hq'
    rw [← ht, ht']

end FieldQuery
