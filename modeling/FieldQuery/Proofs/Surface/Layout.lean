import FieldQuery.Proofs.Surface.Acceptance

/-!
# Trees over their text

`q.Laid pos text` says that `text`, where it starts at the byte offset `pos`, is what `q` is written
as, and that every offset in `q` is the one at which its comparison or keyword stands there. From
this it follows that a comparison is found in the text at its offset (`Query.Laid.exists_append`)
and that offsets grow from left to right (`Query.Laid.pairwise`).

While a text is read its tree is not there yet. What there is, the stack of frames, covers the text
before the current place in the same sense (`Frame.Covers`): a frame is laid out if every query laid
out behind it completes it to one that is.
-/

namespace FieldQuery

open Text Grammar

/-! ## Sizes -/

/-- How many bytes a text takes. -/
def Text.bytes (s : List Char) : Nat :=
  (String.ofList s).utf8ByteSize

@[simp] theorem Text.bytes_nil : bytes [] = 0 :=
  rfl

@[simp] theorem Text.bytes_cons (c : Char) (s : List Char) :
    bytes (c :: s) = c.utf8Size + bytes s := by
  simp [bytes]

@[simp] theorem Text.bytes_append (s t : List Char) : bytes (s ++ t) = bytes s + bytes t := by
  simp [bytes]

@[simp] theorem Text.bytes_toList (s : String) : bytes s.toList = s.utf8ByteSize := by
  simp [bytes]

/-- A parenthesis takes one byte. -/
theorem Text.bytes_opening (s : List Char) : bytes ('(' :: s) = 1 + bytes s :=
  bytes_cons '(' s

/-- A parenthesis takes one byte. -/
theorem Text.bytes_closing (s : List Char) : bytes (')' :: s) = 1 + bytes s :=
  bytes_cons ')' s

/-- A text that is not empty takes a byte at least. -/
theorem Text.bytes_pos {s : List Char} (h : s ≠ []) : 0 < bytes s := by
  cases s with
  | nil => exact absurd rfl h
  | cons c s =>
    have := c.utf8Size_pos
    rw [bytes_cons]
    omega

/-- A text is cut at an offset in one way only. -/
theorem Text.bytes_append_inj {s s' t t' : List Char} (h : s ++ t = s' ++ t')
    (hb : bytes s = bytes s') : s = s' ∧ t = t' := by
  induction s generalizing s' with
  | nil =>
    cases s' with
    | nil => exact ⟨rfl, h⟩
    | cons c s' => exact absurd hb (Nat.ne_of_lt (bytes_pos (List.cons_ne_nil c s')))
  | cons c s ih =>
    cases s' with
    | nil => exact absurd hb (Nat.ne_of_gt (bytes_pos (List.cons_ne_nil c s)))
    | cons d s' =>
      obtain ⟨rfl, htail⟩ := List.cons_eq_cons.1 h
      rw [bytes_cons, bytes_cons, Nat.add_right_inj] at hb
      obtain ⟨rfl, rfl⟩ := ih htail hb
      exact ⟨rfl, rfl⟩

/-! ## Layout -/

mutual

/-- What an expression is written as, from an offset on. -/
inductive Expr.Laid : Expr → Nat → List Char → Prop
  | comparison {c : PlacedComparison} : Expr.Laid (.comparison c) c.position c.text.toList
  | group {q : Query} {pos : Nat} {text : List Char} (h : Query.Laid q (pos + 1) text) :
      Expr.Laid (.group q) pos ('(' :: text ++ [')'])

/-- What a query is written as, from an offset on. -/
inductive Query.Laid : Query → Nat → List Char → Prop
  | single {e : Expr} {pos : Nat} {text : List Char} (h : Expr.Laid e pos text) :
      Query.Laid (.single e) pos text
  | chain {e : Expr} {k : Keyword} {q : Query} {pos : Nat} {text before after text' : List Char}
      (he : Expr.Laid e pos text) (hb : IsRun Blank before)
      (hk : k.position = pos + bytes (text ++ before)) (ha : IsRun Blank after)
      (hq : Query.Laid q (k.position + bytes (k.word.toList ++ after)) text') :
      Query.Laid (.chain e k q) pos (text ++ before ++ k.word.toList ++ after ++ text')

end

mutual

/-- The comparisons of an expression, from left to right. -/
def Expr.comparisons : Expr → List PlacedComparison
  | .comparison c => [c]
  | .group q => q.comparisons

/-- The comparisons of a query, from left to right. -/
def Query.comparisons : Query → List PlacedComparison
  | .single e => e.comparisons
  | .chain e _ rest => e.comparisons ++ rest.comparisons

end

mutual

/-- A comparison of an expression stands in the text at its offset. -/
theorem Expr.Laid.exists_append : ∀ {e : Expr} {pos : Nat} {text : List Char}, e.Laid pos text →
    ∀ c ∈ e.comparisons, ∃ before after, text = before ++ c.text.toList ++ after ∧
      c.position = pos + bytes before
  | .comparison c, _, _, .comparison, k, hk => by
    obtain rfl : k = c := List.mem_singleton.1 hk
    exact ⟨[], [], by simp, rfl⟩
  | .group q, pos, _, .group h, c, hc => by
    obtain ⟨before, after, rfl, hpos⟩ := Query.Laid.exists_append h c hc
    refine ⟨'(' :: before, after ++ [')'], by simp, ?_⟩
    rw [hpos, bytes_opening, Nat.add_assoc]

/-- A comparison of a query stands in the text at its offset. -/
theorem Query.Laid.exists_append : ∀ {q : Query} {pos : Nat} {text : List Char}, q.Laid pos text →
    ∀ c ∈ q.comparisons, ∃ before after, text = before ++ c.text.toList ++ after ∧
      c.position = pos + bytes before
  | .single e, _, _, .single h, c, hc => Expr.Laid.exists_append h c hc
  | .chain e k q, pos, _, @Query.Laid.chain _ _ _ _ text blanks blanks' text' he _ hk _ hq,
      c, hc => by
    rcases List.mem_append.1 hc with hc | hc
    · obtain ⟨before, after, rfl, hpos⟩ := Expr.Laid.exists_append he c hc
      exact ⟨before, after ++ blanks ++ k.word.toList ++ blanks' ++ text', by simp, hpos⟩
    · obtain ⟨before, after, rfl, hpos⟩ := Query.Laid.exists_append hq c hc
      refine ⟨text ++ blanks ++ k.word.toList ++ blanks' ++ before, after, by simp, ?_⟩
      simp only [hpos, hk, bytes_append]
      omega

end

mutual

/-- The offsets of the comparisons of an expression grow from left to right. -/
theorem Expr.Laid.pairwise : ∀ {e : Expr} {pos : Nat} {text : List Char}, e.Laid pos text →
    e.comparisons.Pairwise (·.position < ·.position)
  | .comparison _, _, _, .comparison => List.pairwise_singleton _ _
  | .group _, _, _, .group h => Query.Laid.pairwise h

/-- The offsets of the comparisons of a query grow from left to right. -/
theorem Query.Laid.pairwise : ∀ {q : Query} {pos : Nat} {text : List Char}, q.Laid pos text →
    q.comparisons.Pairwise (·.position < ·.position)
  | .single _, _, _, .single h => Expr.Laid.pairwise h
  | .chain e k q, pos, _, .chain he hb hk _ hq => by
    refine List.pairwise_append.2 ⟨Expr.Laid.pairwise he, Query.Laid.pairwise hq, ?_⟩
    -- The first stands within the expression and the second behind the blanks after it.
    intro c hc d hd
    obtain ⟨before, after, rfl, hpos⟩ := Expr.Laid.exists_append he c hc
    obtain ⟨before', after', rfl, hpos'⟩ := Query.Laid.exists_append hq d hd
    have hblank := bytes_pos hb.1
    simp only [bytes_append] at hk
    omega

end

/-! ## Frames -/

/-- What a frame was read from: a query that is laid out behind it completes it. -/
def Frame.Laid (frame : Frame) (pos : Nat) (text : List Char) : Prop :=
  ∀ q text', q.Laid (pos + bytes text) text' → (frame.enclose q).Laid pos (text ++ text')

theorem Frame.laid_nil (pos : Nat) : Frame.Laid [] pos [] :=
  fun _ _ h => h

/-- A frame goes on with an expression and a link. -/
theorem Frame.Laid.link {frame : Frame} {pos pos' : Nat} {text text' : List Char} {e : Expr}
    {l : Link} (h : frame.Laid pos text) (he : e.Laid (pos + bytes text) text')
    (hb : IsRun Blank l.before.toList) (ha : IsRun Blank l.after.toList)
    (hpos : pos' = pos + bytes (text ++ text') + l.before.utf8ByteSize) :
    Frame.Laid ((e, ⟨l.word, pos'⟩) :: frame) pos (text ++ text' ++ l.text.toList) := by
  intro q text'' hq
  have hend : pos + bytes (text ++ text' ++ l.text.toList) =
      pos' + bytes (l.word.toList ++ l.after.toList) := by
    simp only [hpos, bytes_append, bytes_toList, Link.text, String.utf8ByteSize_append]
    omega
  have hstart : pos' = pos + bytes text + bytes (text' ++ l.before.toList) := by
    simp only [hpos, bytes_append, bytes_toList]
    omega
  rw [hend] at hq
  have hchain := h _ _ (.chain (k := ⟨l.word, pos'⟩) he hb hstart ha hq)
  simpa [Link.text, Frame.enclose] using hchain

/-- The text before a place that a stack of frames was read from, the innermost frame first. A
parenthesis stands between a frame and the one inside it. -/
inductive Frame.Covers : Frame → List Frame → List Char → Prop
  | outermost {frame : Frame} {text : List Char} (h : frame.Laid 0 text) : Covers frame [] text
  | inner {frame around : Frame} {outer : List Frame} {text text' : List Char}
      (h : Covers around outer text) (hf : frame.Laid (bytes text + 1) text') :
      Covers frame (around :: outer) (text ++ '(' :: text')

/-- The innermost frame goes on with an expression and a link. -/
theorem Frame.Covers.link {frame : Frame} {outer : List Frame} {text text' : List Char} {e : Expr}
    {l : Link} (h : frame.Covers outer text) (he : e.Laid (bytes text) text')
    (hb : IsRun Blank l.before.toList) (ha : IsRun Blank l.after.toList) :
    Frame.Covers ((e, ⟨l.word, bytes (text ++ text') + l.before.utf8ByteSize⟩) :: frame) outer
      (text ++ text' ++ l.text.toList) := by
  cases h with
  | outermost hf =>
    refine .outermost (hf.link ?_ hb ha ?_)
    · rwa [Nat.zero_add]
    · rw [Nat.zero_add]
  | @inner _ around outer text text₂ h hf =>
    rw [bytes_append, bytes_opening, ← Nat.add_assoc] at he
    rw [List.append_assoc text, List.append_assoc text, List.cons_append, List.cons_append]
    refine .inner h (hf.link he hb ha ?_)
    rw [bytes_append, bytes_opening, ← Nat.add_assoc]

/-- The innermost frame, an expression and a parenthesis make a group of the frame around it. -/
theorem Frame.Covers.close {frame around : Frame} {outer : List Frame} {text text' : List Char}
    {e : Expr} (h : frame.Covers (around :: outer) text) (he : e.Laid (bytes text) text') :
    ∃ text₁ text₂, text ++ text' ++ [')'] = text₁ ++ text₂ ∧ around.Covers outer text₁ ∧
      (Expr.group (frame.close e)).Laid (bytes text₁) text₂ := by
  cases h with
  | @inner _ _ _ text₁ text₂ h hf =>
    rw [bytes_append, bytes_opening, ← Nat.add_assoc] at he
    exact ⟨text₁, '(' :: (text₂ ++ text') ++ [')'], by simp, h, .group (hf _ _ (.single he))⟩

end FieldQuery
