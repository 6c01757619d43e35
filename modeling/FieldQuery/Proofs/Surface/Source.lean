import FieldQuery.Proofs.Surface.Place

/-!
# A tree is a map of its text

Walked from left to right, a tree names every comparison, keyword and parenthesis of the text that
it was read from, with the offset at which it stands there: these are its marks. A group has no
offset of its own in the tree, but its parentheses are one byte before its first expression and
directly behind its last. `Query.maps_text_of_parse` says that the marks are right and that nothing
of the text is lost: they stand where they say, in order and without overlap, and each byte belongs
to one mark or to the blanks beside a keyword.

`Query.Laid` relates a tree to its text rule by rule. `Tiles` says the same of the list of marks, so
that what follows from it is an induction along a list and no longer one over trees.
-/

namespace FieldQuery

open Text Grammar

/-! ## Marks -/

mutual

/-- The offset at which an expression starts. -/
def Expr.start : Expr → Nat
  | .comparison c => c.position
  | .group q => q.start - 1

/-- The offset at which a query starts. -/
def Query.start : Query → Nat
  | .single e => e.start
  | .chain e _ _ => e.start

end

mutual

/-- The offset at which an expression ends. -/
def Expr.stop : Expr → Nat
  | .comparison c => c.position + c.text.utf8ByteSize
  | .group q => q.stop + 1

/-- The offset at which a query ends. -/
def Query.stop : Query → Nat
  | .single e => e.stop
  | .chain _ _ rest => rest.stop

end

/-- What a tree says to stand in its text: a comparison, a keyword, or a parenthesis that opens or
closes the group around a query. -/
inductive Mark where
  | comparison (c : PlacedComparison)
  | keyword (k : Keyword)
  | opening (q : Query)
  | closing (q : Query)

namespace Mark

/-- The offset at which a mark stands. -/
def position : Mark → Nat
  | comparison c => c.position
  | keyword k => k.position
  | opening q => q.start - 1
  | closing q => q.stop

/-- The text that a mark is written as. -/
def text : Mark → String
  | comparison c => c.text
  | keyword k => k.word
  | opening _ => "("
  | closing _ => ")"

/-- The offset at which a mark ends. -/
def stop (m : Mark) : Nat :=
  m.position + m.text.utf8ByteSize

/-- The byte at an offset belongs to a mark. -/
def Covers (m : Mark) (i : Nat) : Prop :=
  m.position ≤ i ∧ i < m.stop

instance (m : Mark) (i : Nat) : Decidable (m.Covers i) :=
  inferInstanceAs (Decidable (_ ∧ _))

/-- The blanks that a mark has on its two sides: a keyword has some on each, and the others have
none. -/
def Padded : Mark → List Char → List Char → Prop
  | keyword _, blanks, blanks' => IsRun Blank blanks ∧ IsRun Blank blanks'
  | comparison _, blanks, blanks' => blanks = [] ∧ blanks' = []
  | opening _, blanks, blanks' => blanks = [] ∧ blanks' = []
  | closing _, blanks, blanks' => blanks = [] ∧ blanks' = []

/-- A mark stands at its offset in a text that starts at the offset `pos`, with its blanks on both
sides. -/
def StandsIn (m : Mark) (pos : Nat) (text blanks blanks' : List Char) : Prop :=
  m.Padded blanks blanks' ∧ ∃ before after,
    text = before ++ blanks ++ m.text.toList ++ blanks' ++ after ∧
      m.position = pos + bytes (before ++ blanks)

/-- A mark that has blanks is a keyword. -/
theorem Padded.eq_nil_or_keyword {m : Mark} {blanks blanks' : List Char}
    (h : m.Padded blanks blanks') : (blanks = [] ∧ blanks' = []) ∨ ∃ k, m = keyword k := by
  cases m with
  | keyword k => exact .inr ⟨k, rfl⟩
  | comparison | opening | closing => exact .inl h

end Mark

mutual

/-- The marks of an expression, from left to right. -/
def Expr.marks : Expr → List Mark
  | .comparison c => [.comparison c]
  | .group q => .opening q :: (q.marks ++ [.closing q])

/-- The marks of a query, from left to right. -/
def Query.marks : Query → List Mark
  | .single e => e.marks
  | .chain e k rest => e.marks ++ .keyword k :: rest.marks

end

/-! ## Tilings -/

/-- Marks, each with its blanks, make up a text that starts at an offset. -/
inductive Tiles : List Mark → Nat → List Char → Prop
  | nil {pos : Nat} : Tiles [] pos []
  | cons {m : Mark} {ms : List Mark} {pos : Nat} {blanks blanks' text : List Char}
      (hb : m.Padded blanks blanks') (hm : m.position = pos + bytes blanks)
      (h : Tiles ms (m.stop + bytes blanks') text) :
      Tiles (m :: ms) pos (blanks ++ m.text.toList ++ blanks' ++ text)

section
variable {m : Mark} {ms ms' : List Mark} {pos : Nat} {blanks blanks' text text' : List Char}

/-- Counted from a mark or from the text before it, a tiling ends at the same offset. -/
theorem Mark.stop_add_bytes (hm : m.position = pos + bytes blanks) (text : List Char) :
    m.stop + bytes blanks' + bytes text =
      pos + bytes (blanks ++ m.text.toList ++ blanks' ++ text) := by
  simp only [Mark.stop, hm, bytes_append, bytes_toList]
  omega

/-- The first mark of a tiling stands in its text. -/
theorem Mark.Padded.standsIn (hb : m.Padded blanks blanks') (hm : m.position = pos + bytes blanks)
    (text : List Char) :
    m.StandsIn pos (blanks ++ m.text.toList ++ blanks' ++ text) blanks blanks' :=
  ⟨hb, [], text, by simp, by simpa using hm⟩

/-- What stands in the text behind a mark stands in the text with the mark. -/
theorem Mark.StandsIn.behind {m' : Mark} {left right : List Char}
    (h : m'.StandsIn (m.stop + bytes blanks') text left right)
    (hm : m.position = pos + bytes blanks) :
    m'.StandsIn pos (blanks ++ m.text.toList ++ blanks' ++ text) left right := by
  obtain ⟨hpad, before, after, rfl, hpos⟩ := h
  refine ⟨hpad, blanks ++ m.text.toList ++ blanks' ++ before, after, by simp, ?_⟩
  rw [hpos, Mark.stop_add_bytes hm, ← List.append_assoc]

/-- A mark without blanks stands before a tiling. -/
theorem Tiles.plain {s : List Char} (hb : m.Padded [] []) (hm : m.position = pos)
    (ht : m.text.toList = s) (h : Tiles ms m.stop text) : Tiles (m :: ms) pos (s ++ text) := by
  subst hm ht
  have hcons : Tiles (m :: ms) m.position ([] ++ m.text.toList ++ [] ++ text) := .cons hb rfl h
  rwa [List.nil_append, List.append_nil] at hcons

/-- Two tilings, the second from where the first ends, make up one. -/
theorem Tiles.append (h : Tiles ms pos text) (h' : Tiles ms' (pos + bytes text) text') :
    Tiles (ms ++ ms') pos (text ++ text') := by
  induction h with
  | nil => simpa using h'
  | @cons m ms pos blanks blanks' text hb hm _ ih =>
    have htail := ih (by rwa [Mark.stop_add_bytes hm])
    simpa using Tiles.cons hb hm htail

/-- The marks of a tiling stand in its text. -/
theorem Tiles.standsIn (h : Tiles ms pos text) :
    ∀ m ∈ ms, ∃ blanks blanks', m.StandsIn pos text blanks blanks' := by
  induction h with
  | nil =>
    intro m hm
    cases hm
  | @cons m₀ ms pos blanks₀ blanks₀' text hb hm₀ _ ih =>
    intro m hm
    rcases List.mem_cons.1 hm with rfl | hm
    · exact ⟨blanks₀, blanks₀', hb.standsIn hm₀ text⟩
    · obtain ⟨blanks, blanks', hstands⟩ := ih m hm
      exact ⟨blanks, blanks', hstands.behind hm₀⟩

/-- The marks of a tiling follow each other without overlap. -/
theorem Tiles.pairwise (h : Tiles ms pos text) :
    ms.Pairwise (fun m m' => m.stop ≤ m'.position) := by
  induction h with
  | nil => exact .nil
  | cons _ _ htail ih =>
    refine .cons ?_ ih
    intro m' hm'
    obtain ⟨blanks, blanks', -, before, after, -, hpos⟩ := htail.standsIn m' hm'
    omega

/-- A byte of the text of a tiling belongs to a mark or to the blanks beside it. -/
theorem Tiles.exists_mem (h : Tiles ms pos text) {i : Nat} (hi : pos ≤ i)
    (hi' : i < pos + bytes text) :
    ∃ m ∈ ms, ∃ blanks blanks', m.StandsIn pos text blanks blanks' ∧
      m.position ≤ i + bytes blanks ∧ i < m.stop + bytes blanks' := by
  induction h with
  | nil =>
    rw [bytes_nil] at hi'
    omega
  | @cons m₀ ms pos blanks₀ blanks₀' text hb hm₀ htail ih =>
    by_cases hlt : i < m₀.stop + bytes blanks₀'
    · exact ⟨m₀, .head _, blanks₀, blanks₀', hb.standsIn hm₀ text, by omega, hlt⟩
    · rw [← Mark.stop_add_bytes hm₀] at hi'
      obtain ⟨m, hm, blanks, blanks', hstands, hle, hlt'⟩ := ih (by omega) hi'
      exact ⟨m, .tail _ hm, blanks, blanks', hstands.behind hm₀, hle, hlt'⟩

end

/-! ## From layouts to tilings -/

mutual

/-- A laid out expression starts where it is laid out. -/
theorem Expr.Laid.start_eq : ∀ {e : Expr} {pos : Nat} {text : List Char}, e.Laid pos text →
    e.start = pos
  | .comparison _, _, _, .comparison => rfl
  | .group q, pos, _, .group h => by
    rw [Expr.start, Query.Laid.start_eq h]
    omega

/-- A laid out query starts where it is laid out. -/
theorem Query.Laid.start_eq : ∀ {q : Query} {pos : Nat} {text : List Char}, q.Laid pos text →
    q.start = pos
  | .single _, _, _, .single h => Expr.Laid.start_eq h
  | .chain _ _ _, _, _, .chain he _ _ _ _ => Expr.Laid.start_eq he

end

mutual

/-- A laid out expression ends where its text does. -/
theorem Expr.Laid.stop_eq : ∀ {e : Expr} {pos : Nat} {text : List Char}, e.Laid pos text →
    e.stop = pos + bytes text
  | .comparison c, _, _, .comparison => by rw [Expr.stop, bytes_toList]
  | .group q, pos, _, @Expr.Laid.group _ _ text h => by
    have hclose : bytes [')'] = 1 := rfl
    rw [Expr.stop, Query.Laid.stop_eq h, bytes_append, bytes_opening, hclose]
    omega

/-- A laid out query ends where its text does. -/
theorem Query.Laid.stop_eq : ∀ {q : Query} {pos : Nat} {text : List Char}, q.Laid pos text →
    q.stop = pos + bytes text
  | .single _, _, _, .single h => Expr.Laid.stop_eq h
  | .chain _ _ _, _, _, .chain _ _ hk _ hq => by
    rw [Query.stop, Query.Laid.stop_eq hq, hk]
    simp only [bytes_append]
    omega

end

mutual

/-- The marks of a laid out expression make up its text. -/
theorem Expr.Laid.tiles : ∀ {e : Expr} {pos : Nat} {text : List Char}, e.Laid pos text →
    Tiles e.marks pos text
  | .comparison c, _, _, .comparison => by
    rw [Expr.marks, ← List.append_nil c.text.toList]
    exact .plain (m := .comparison c) ⟨rfl, rfl⟩ rfl rfl .nil
  | .group q, pos, _, @Expr.Laid.group _ _ text h => by
    have hopen : (Mark.opening q).position = pos := by
      rw [Mark.position, h.start_eq, Nat.add_sub_cancel]
    have hopen' : (Mark.opening q).stop = pos + 1 := congrArg (· + 1) hopen
    have hclose : Tiles [.closing q] (pos + 1 + bytes text) [')'] :=
      .plain (m := .closing q) (s := [')']) ⟨rfl, rfl⟩ h.stop_eq (by simp [Mark.text]) .nil
    have hinner : Tiles (q.marks ++ [.closing q]) (pos + 1) (text ++ [')']) :=
      (Query.Laid.tiles h).append hclose
    rw [Expr.marks]
    exact .plain (m := .opening q) (s := ['(']) ⟨rfl, rfl⟩ hopen (by simp [Mark.text])
      (hopen' ▸ hinner)

/-- The marks of a laid out query make up its text. -/
theorem Query.Laid.tiles : ∀ {q : Query} {pos : Nat} {text : List Char}, q.Laid pos text →
    Tiles q.marks pos text
  | .single _, _, _, .single h => Expr.Laid.tiles h
  | .chain e k q, pos, _, @Query.Laid.chain _ _ _ _ text blanks blanks' text' he hb hk ha hq => by
    have hpos : k.position = pos + bytes text + bytes blanks := by
      rw [hk, bytes_append, Nat.add_assoc]
    have hrest : (Mark.keyword k).stop + bytes blanks' =
        k.position + bytes (k.word.toList ++ blanks') := by
      simp only [Mark.stop, Mark.position, Mark.text, bytes_append, bytes_toList, Nat.add_assoc]
    have htail : Tiles (.keyword k :: q.marks) (pos + bytes text)
        (blanks ++ k.word.toList ++ blanks' ++ text') :=
      .cons (m := .keyword k) ⟨hb, ha⟩ hpos (hrest ▸ Query.Laid.tiles hq)
    rw [Query.marks]
    simpa using (Expr.Laid.tiles he).append htail

end

mutual

/-- No mark of a derived expression is empty. -/
theorem Expr.Derives.mark_pos : ∀ {e : Expr} {text rest : List Char}, e.Derives text rest →
    ∀ m ∈ e.marks, m.position < m.stop
  | .comparison c, text, _, .comparison h, m, hm => by
    obtain rfl : m = .comparison c := List.mem_singleton.1 hm
    have hpos := bytes_pos h.ne_nil
    rw [← h.text_eq, bytes_toList] at hpos
    exact Nat.lt_add_of_pos_right hpos
  | .group q, _, _, .group h, m, hm => by
    rcases List.mem_cons.1 hm with rfl | hm
    · exact Nat.lt_succ_self _
    · rcases List.mem_append.1 hm with hm | hm
      · exact Query.Derives.mark_pos h m hm
      · obtain rfl : m = .closing q := List.mem_singleton.1 hm
        exact Nat.lt_succ_self _

/-- No mark of a derived query is empty. -/
theorem Query.Derives.mark_pos : ∀ {q : Query} {text rest : List Char}, q.Derives text rest →
    ∀ m ∈ q.marks, m.position < m.stop
  | .single _, _, _, .single h, m, hm => Expr.Derives.mark_pos h m hm
  | .chain _ k _, _, _, .chain he _ hk _ hq, m, hm => by
    rcases List.mem_append.1 hm with hm | hm
    · exact Expr.Derives.mark_pos he m hm
    · rcases List.mem_cons.1 hm with rfl | hm
      · have hne : k.word.toList ≠ [] := by
          intro he
          simp [he, IsKeyword] at hk
        have hpos := bytes_pos hne
        rw [bytes_toList] at hpos
        exact Nat.lt_add_of_pos_right hpos
      · exact Query.Derives.mark_pos hq m hm

end

/-! ## What parsing gives -/

/-- At most one mark of a list without overlap covers a byte. -/
theorem Mark.Covers.unique {ms : List Mark} (h : ms.Pairwise (fun m m' => m.stop ≤ m'.position))
    {m : Mark} {i : Nat} (hm : m ∈ ms) (hi : m.Covers i) :
    ∃ front back, ms = front ++ m :: back ∧ ∀ m' ∈ front ++ back, ¬ m'.Covers i := by
  obtain ⟨front, back, rfl⟩ := List.append_of_mem hm
  refine ⟨front, back, rfl, ?_⟩
  obtain ⟨-, hback, hfront⟩ := List.pairwise_append.1 h
  intro m' hm' hi'
  have hmi : m.position ≤ i ∧ i < m.stop := hi
  have hmi' : m'.position ≤ i ∧ i < m'.stop := hi'
  rcases List.mem_append.1 hm' with hm' | hm'
  · have := hfront m' hm' m (.head _)
    omega
  · have := (List.pairwise_cons.1 hback).1 m' hm'
    omega

/-- **A tree that parsing gives is a map of the text.** Each of its marks stands in the text at its
offset, a keyword with blanks directly before and after it. From left to right the offsets grow, and
no mark reaches into the next. A byte of the text belongs to exactly one mark, or it belongs to the
blanks beside a keyword. -/
theorem Query.maps_text_of_parse {limit : Nat} {s : String} {t : Query}
    (h : Query.parse limit s = .ok t) :
    (∀ m ∈ t.marks, ∃ blanks blanks', m.StandsIn 0 s.toList blanks blanks') ∧
    t.marks.Pairwise (fun m m' => m.position < m'.position ∧ m.stop ≤ m'.position) ∧
    ∀ i < s.utf8ByteSize,
      (∃ front m back, t.marks = front ++ m :: back ∧ m.Covers i ∧
        ∀ m' ∈ front ++ back, ¬ m'.Covers i) ∨
      ∃ k blanks blanks', .keyword k ∈ t.marks ∧
        (Mark.keyword k).StandsIn 0 s.toList blanks blanks' ∧
        (k.position ≤ i + bytes blanks ∧ i < k.position ∨
          (Mark.keyword k).stop ≤ i ∧ i < (Mark.keyword k).stop + bytes blanks') := by
  have htiles : Tiles t.marks 0 s.toList := (reaches_and_laid_of_parse h).2.tiles
  refine ⟨htiles.standsIn, ?_, ?_⟩
  · refine htiles.pairwise.imp_of_mem ?_
    intro m m' hm _ hle
    exact ⟨Nat.lt_of_lt_of_le ((derives_of_parse h).1.mark_pos m hm) hle, hle⟩
  · intro i hi
    rw [← bytes_toList] at hi
    obtain ⟨m, hm, blanks, blanks', hstands, hle, hlt⟩ :=
      htiles.exists_mem (Nat.zero_le i) (by omega)
    by_cases hcover : m.Covers i
    · obtain ⟨front, back, hmarks, hothers⟩ := hcover.unique htiles.pairwise hm
      exact .inl ⟨front, m, back, hmarks, hcover, hothers⟩
    · have hbeside : i < m.position ∨ m.stop ≤ i := by
        rw [Mark.Covers] at hcover
        omega
      rcases hstands.1.eq_nil_or_keyword with ⟨rfl, rfl⟩ | ⟨k, rfl⟩
      · rw [bytes_nil] at hle hlt
        omega
      · refine .inr ⟨k, blanks, blanks', hm, hstands, ?_⟩
        exact hbeside.imp (fun hlt' => ⟨hle, hlt'⟩) (fun hle' => ⟨hle', hlt⟩)

/-- A group in a group, a character of two bytes, and two blanks before a keyword: the marks are
found, and the second blank, at the offset 8, belongs to the keyword. -/
theorem Query.maps_text_of_parse_nested :
    ∃ t, Query.parse 2 "((a:é) \tor b:[1;2])" = .ok t ∧
      t.marks.map Mark.position = [0, 1, 2, 6, 9, 12, 19] ∧
      (∀ m ∈ t.marks, ∃ blanks blanks',
        m.StandsIn 0 "((a:é) \tor b:[1;2])".toList blanks blanks') ∧
      ∃ k blanks blanks', .keyword k ∈ t.marks ∧
        (Mark.keyword k).StandsIn 0 "((a:é) \tor b:[1;2])".toList blanks blanks' ∧
        (k.position ≤ 8 + bytes blanks ∧ 8 < k.position ∨
          (Mark.keyword k).stop ≤ 8 ∧ 8 < (Mark.keyword k).stop + bytes blanks') := by
  have h : Query.parse 2 "((a:é) \tor b:[1;2])" =
      .ok (.single (.group (.chain
        (.group (.single (.comparison ⟨⟨"a", ":", .unquoted "é"⟩, 2⟩))) ⟨"or", 9⟩
        (.single (.comparison ⟨⟨"b", ":", .range "1" "2"⟩, 12⟩))))) := by
    with_unfolding_all rfl
  obtain ⟨hstands, -, hbytes⟩ := Query.maps_text_of_parse h
  refine ⟨_, h, by decide, hstands, ?_⟩
  rcases hbytes 8 (by decide) with ⟨front, m, back, hmarks, hcover, -⟩ | hblank
  · have hnone : ∀ m' ∈ front ++ m :: back, ¬ m'.Covers 8 := by
      rw [← hmarks]
      decide
    exact absurd hcover (hnone m (by simp))
  · exact hblank

end FieldQuery
