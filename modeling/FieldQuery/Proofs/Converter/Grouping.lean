import FieldQuery.Proofs.Condition.Reachable
import FieldQuery.Proofs.Sql.RoundTrip
import FieldQuery.Proofs.Surface.Parenthesis
import FieldQuery.Proofs.Surface.Source

/-!
# Groups stay where they were

A fragment has the parentheses of its query text, in the same order, and no others. Parentheses in
values do not count on either side, and what is in a value is told there by different rules: in the
text by the quoted values of its tree, in the fragment by its literals. The parentheses that count
balance, and no more of them are open at a time than the nesting limit allows
(`Sql.Dialect.parentheses_convert`).

Both sides are compared with the groups between them. A text is made up of the marks of its tree, so
its parentheses are a matter of one mark at a time (`Tiles.parentheses_eq`). A fragment is made up
of texts without a quote and of literals, and what a literal leaves of the text behind it does not
depend on its value (`Sql.Dialect.Shows`).
-/

namespace FieldQuery

open Text Grammar

/-! ## Parentheses -/

/-- The parentheses of a text, in their order. -/
def Text.parentheses (s : List Char) : List Char :=
  s.filter fun c => c = '(' ∨ c = ')'

@[simp] theorem Text.parentheses_append (s t : List Char) :
    parentheses (s ++ t) = parentheses s ++ parentheses t :=
  List.filter_append ..

theorem Text.parentheses_eq_nil {s : List Char} (h : ∀ c ∈ s, c ≠ '(' ∧ c ≠ ')') :
    parentheses s = [] := by
  refine List.filter_eq_nil_iff.2 fun c hc => ?_
  simpa using h c hc

/-- Parentheses that balance, of which at most `depth` are open at a time. -/
inductive Text.Nested : Nat → List Char → Prop
  | nil {depth : Nat} : Nested depth []
  | group {depth : Nat} {s t : List Char} (h : Nested depth s) (h' : Nested (depth + 1) t) :
      Nested (depth + 1) ('(' :: s ++ ')' :: t)

theorem Text.Nested.append {depth : Nat} {s t : List Char} (h : Nested depth s)
    (h' : Nested depth t) : Nested depth (s ++ t) := by
  induction h with
  | nil => exact h'
  | @group depth s₁ s₂ h₁ _ _ ih₂ =>
    have ht : '(' :: s₁ ++ ')' :: s₂ ++ t = '(' :: s₁ ++ ')' :: (s₂ ++ t) := by simp
    rw [ht]
    exact .group h₁ (ih₂ h')

/-- A higher limit allows what a lower one does. -/
theorem Text.Nested.mono {depth depth' : Nat} {s : List Char} (h : Nested depth s)
    (hle : depth ≤ depth') : Nested depth' s := by
  induction h generalizing depth' with
  | nil => exact .nil
  | group _ _ ih ih' =>
    cases depth' with
    | zero => exact absurd hle (Nat.not_succ_le_zero _)
    | succ depth' => exact .group (ih (Nat.le_of_succ_le_succ hle)) (ih' hle)

/-! ## Texts outside quoted values -/

/-- Whether a value is written in quotes. -/
def Value.isQuoted : Value → Bool
  | quoted _ => true
  | range _ _ | unquoted _ | number _ => false

/-- The byte at an offset belongs to the value of a comparison, and the value is in quotes. -/
def PlacedComparison.Quotes (c : PlacedComparison) (i : Nat) : Prop :=
  c.value.isQuoted = true ∧ c.position + (c.field ++ c.operator).utf8ByteSize ≤ i ∧
    i < c.position + c.text.utf8ByteSize

instance (c : PlacedComparison) (i : Nat) : Decidable (c.Quotes i) :=
  inferInstanceAs (Decidable (_ ∧ _))

/-- The byte at an offset belongs to a quoted value of a query. -/
def Query.Quotes (q : Query) (i : Nat) : Prop :=
  ∃ c ∈ q.comparisons, c.Quotes i

instance (q : Query) (i : Nat) : Decidable (q.Quotes i) :=
  inferInstanceAs (Decidable (∃ c ∈ q.comparisons, c.Quotes i))

/-- The characters of a text, which starts at the offset `pos`, that belong to no quoted value of a
query. -/
def Query.outsideQuotes (q : Query) (pos : Nat) : List Char → List Char
  | [] => []
  | c :: s =>
    if q.Quotes pos then q.outsideQuotes (pos + c.utf8Size) s
    else c :: q.outsideQuotes (pos + c.utf8Size) s

section
variable {q : Query} {pos : Nat} {s t text : List Char}

theorem Query.outsideQuotes_append (q : Query) (pos : Nat) (s t : List Char) :
    q.outsideQuotes pos (s ++ t) = q.outsideQuotes pos s ++ q.outsideQuotes (pos + bytes s) t := by
  induction s generalizing pos with
  | nil => rfl
  | cons c s ih =>
    rw [List.cons_append, outsideQuotes, outsideQuotes, ih, bytes_cons, Nat.add_assoc]
    split <;> rfl

/-- What stands outside quoted values stands in the text. -/
theorem Query.mem_of_mem_outsideQuotes {c : Char} (h : c ∈ q.outsideQuotes pos s) : c ∈ s := by
  fun_induction outsideQuotes q pos s with
  | case1 => exact h
  | case2 pos d s _ ih => exact .tail _ (ih h)
  | case3 pos d s _ ih =>
    rcases List.mem_cons.1 h with rfl | h
    · exact .head _
    · exact .tail _ (ih h)

/-- A text without parentheses has none outside quoted values. -/
theorem Query.parentheses_outsideQuotes_eq_nil (h : ∀ c ∈ s, c ≠ '(' ∧ c ≠ ')') :
    parentheses (q.outsideQuotes pos s) = [] :=
  parentheses_eq_nil fun c hc => h c (mem_of_mem_outsideQuotes hc)

/-- Nothing of a quoted value stands outside quoted values. -/
theorem Query.outsideQuotes_eq_nil (h : ∀ i, pos ≤ i → i < pos + bytes s → q.Quotes i) :
    q.outsideQuotes pos s = [] := by
  induction s generalizing pos with
  | nil => rfl
  | cons c s ih =>
    have hsize := c.utf8Size_pos
    rw [bytes_cons] at h
    rw [outsideQuotes, if_pos (h pos (Nat.le_refl _) (by omega))]
    exact ih fun i hi hi' => h i (by omega) (by omega)

/-! ## Marks -/

/-- The parenthesis that a mark is, if it is one. -/
def Mark.parenthesis : Mark → List Char
  | opening _ => ['(']
  | closing _ => [')']
  | comparison _ | keyword _ => []

/-- The parentheses around the groups of an expression. -/
def Expr.parentheses (e : Expr) : List Char :=
  e.marks.flatMap Mark.parenthesis

/-- The parentheses around the groups of a query. -/
def Query.parentheses (q : Query) : List Char :=
  q.marks.flatMap Mark.parenthesis

@[simp] theorem Expr.parentheses_group (q : Query) :
    (Expr.group q).parentheses = '(' :: q.parentheses ++ [')'] := by
  simp [parentheses, Query.parentheses, marks, Mark.parenthesis]

@[simp] theorem Query.parentheses_single (e : Expr) :
    (Query.single e).parentheses = e.parentheses :=
  rfl

@[simp] theorem Query.parentheses_chain (e : Expr) (k : Keyword) (q : Query) :
    (Query.chain e k q).parentheses = e.parentheses ++ q.parentheses := by
  simp [parentheses, Expr.parentheses, marks, Mark.parenthesis]

/-- The byte at an offset belongs to the quoted value of a mark. -/
def Mark.Quotes : Mark → Nat → Prop
  | comparison c, i => c.Quotes i
  | keyword _, _ | opening _, _ | closing _, _ => False

/-- A mark that the grammar allows. -/
def Mark.Derived : Mark → Prop
  | comparison c => ∃ text rest, c.toComparison.Derives text rest
  | keyword k => IsKeyword k.word.toList
  | opening _ | closing _ => True

mutual

/-- The grammar allows the marks of a derived expression. -/
theorem Expr.Derives.mark_derived : ∀ {e : Expr} {text rest : List Char}, e.Derives text rest →
    ∀ m ∈ e.marks, m.Derived
  | .comparison c, text, rest, .comparison h, m, hm => by
    obtain rfl : m = .comparison c := List.mem_singleton.1 hm
    exact ⟨text, rest, h⟩
  | .group q, _, _, .group h, m, hm => by
    rcases List.mem_cons.1 hm with rfl | hm
    · trivial
    · rcases List.mem_append.1 hm with hm | hm
      · exact Query.Derives.mark_derived h m hm
      · obtain rfl : m = .closing q := List.mem_singleton.1 hm
        trivial

/-- The grammar allows the marks of a derived query. -/
theorem Query.Derives.mark_derived : ∀ {q : Query} {text rest : List Char}, q.Derives text rest →
    ∀ m ∈ q.marks, m.Derived
  | .single _, _, _, .single h, m, hm => Expr.Derives.mark_derived h m hm
  | .chain _ _ _, _, _, .chain he _ hk _ hq, m, hm => by
    rcases List.mem_append.1 hm with hm | hm
    · exact Expr.Derives.mark_derived he m hm
    · rcases List.mem_cons.1 hm with rfl | hm
      · exact hk
      · exact Query.Derives.mark_derived hq m hm

end

mutual

/-- The comparisons of an expression are marks of it. -/
theorem Expr.comparison_mem_marks {c : PlacedComparison} : ∀ {e : Expr},
    Mark.comparison c ∈ e.marks ↔ c ∈ e.comparisons
  | .comparison _ => by simp [Expr.marks, Expr.comparisons]
  | .group q => by simp [Expr.marks, Expr.comparisons, Query.comparison_mem_marks (q := q)]

/-- The comparisons of a query are marks of it. -/
theorem Query.comparison_mem_marks {c : PlacedComparison} : ∀ {q : Query},
    Mark.comparison c ∈ q.marks ↔ c ∈ q.comparisons
  | .single e => Expr.comparison_mem_marks (e := e)
  | .chain e _ q => by
    simp [Query.marks, Query.comparisons, Expr.comparison_mem_marks (e := e),
      Query.comparison_mem_marks (q := q)]

end

/-- A quoted value lies within its comparison. -/
theorem Mark.Quotes.covers {m : Mark} {i : Nat} (h : m.Quotes i) : m.Covers i := by
  cases m with
  | comparison c => exact ⟨Nat.le_trans (Nat.le_add_right _ _) h.2.1, h.2.2⟩
  | keyword | opening | closing => exact absurd h id

/-- Within a mark, what is quoted is up to the mark, for no other reaches in. -/
theorem Query.quotes_iff (h : Tiles q.marks pos text) {m : Mark} (hm : m ∈ q.marks) {i : Nat}
    (hi : m.Covers i) : q.Quotes i ↔ m.Quotes i := by
  refine ⟨?_, ?_⟩
  · rintro ⟨c, hc, hquotes⟩
    obtain ⟨front, back, hmarks, hothers⟩ := hi.unique h.pairwise hm
    have hmem : Mark.comparison c ∈ front ++ m :: back := hmarks ▸ comparison_mem_marks.2 hc
    have hcovers : (Mark.comparison c).Covers i := Mark.Quotes.covers (m := .comparison c) hquotes
    by_cases heq : Mark.comparison c = m
    · exact heq ▸ hquotes
    · refine absurd hcovers (hothers _ ?_)
      simpa [heq] using hmem
  · intro hquotes
    cases m with
    | comparison c => exact ⟨c, comparison_mem_marks.1 hm, hquotes⟩
    | keyword | opening | closing => exact absurd hquotes id

/-! ## The parentheses of a query text -/

/-- A value that is not in quotes has no parenthesis. -/
theorem Value.Derives.isQuoted_or_plain {v : Value} {rest : List Char} (h : v.Derives text rest) :
    v.isQuoted = true ∨ ∀ c ∈ v.text.toList, c ≠ '(' ∧ c ≠ ')' := by
  cases h with
  | quoted => exact .inl rfl
  | range hl hr =>
    refine .inr fun c hc => ?_
    simp only [Value.text, String.toList_append, String.toList_ofList, List.mem_append] at hc
    rcases hc with (((hc | hc) | hc) | hc) | hc
    · obtain rfl : c = '[' := by simpa using hc
      decide
    · exact (hl.2 c hc).bare.ne_parenthesis
    · obtain rfl : c = ';' := by simpa using hc
      decide
    · exact (hr.2 c hc).bare.ne_parenthesis
    · obtain rfl : c = ']' := by simpa using hc
      decide
  | number h | unquoted h =>
    refine .inr fun c hc => (h.run.2 c ?_).ne_parenthesis
    simpa [Value.text] using hc

/-- The characters of an operator are no parentheses. -/
theorem Grammar.IsOperator.ne_parenthesis {operator : String} (h : IsOperator operator s) :
    ∀ c ∈ operator.toList, c ≠ '(' ∧ c ≠ ')' := by
  rcases h with rfl | rfl | ⟨rfl, -, -⟩
  all_goals simp

/-- Blanks beside a mark are no parentheses. -/
theorem Mark.Padded.ne_parenthesis {m : Mark} {blanks blanks' : List Char}
    (h : m.Padded blanks blanks') : ∀ c ∈ blanks ++ blanks', c ≠ '(' ∧ c ≠ ')' := by
  intro c hc
  cases m with
  | keyword k =>
    rcases List.mem_append.1 hc with hc | hc
    · exact (h.1.2 c hc).ne.2
    · exact (h.2.2 c hc).ne.2
  | comparison | opening | closing =>
    obtain ⟨rfl, rfl⟩ := h
    cases hc

/-- The parentheses of a mark that stand outside quoted values are the one that it is. -/
theorem Mark.Derived.parentheses_eq {m : Mark} (h : m.Derived)
    (hq : ∀ i, m.Covers i → (q.Quotes i ↔ m.Quotes i)) :
    parentheses (q.outsideQuotes m.position m.text.toList) = m.parenthesis := by
  have hbyte (hm : m.text.utf8ByteSize = 1) (hnone : ¬ m.Quotes m.position) :
      ¬ q.Quotes m.position := by
    rwa [hq m.position ⟨Nat.le_refl _, by rw [Mark.stop, hm]; exact Nat.lt_succ_self _⟩]
  cases m with
  | keyword k => exact Query.parentheses_outsideQuotes_eq_nil fun c hc => (IsKeyword.ne h hc).2
  | opening p =>
    have hopen : ¬ q.Quotes (p.start - 1) := hbyte rfl id
    simp [Mark.text, Mark.position, Query.outsideQuotes, hopen, Text.parentheses, Mark.parenthesis]
  | closing p =>
    have hclose : ¬ q.Quotes p.stop := hbyte rfl id
    simp [Mark.text, Mark.position, Query.outsideQuotes, hclose, Text.parentheses, Mark.parenthesis]
  | comparison k =>
    obtain ⟨text, rest, h⟩ := h
    have htext : (Mark.comparison k).text.toList =
        (k.field ++ k.operator).toList ++ k.value.text.toList := by
      simp [Mark.text, Comparison.text]
    obtain @⟨value, _, hf, ho, hv⟩ := h
    have hfront : ∀ c ∈ (k.field ++ k.operator).toList, c ≠ '(' ∧ c ≠ ')' := by
      intro c hc
      rw [String.toList_append] at hc
      rcases List.mem_append.1 hc with hc | hc
      · exact (FieldChar.ne (hf.fieldChar c hc)).2
      · exact ho.ne_parenthesis c hc
    rw [htext, Query.outsideQuotes_append, parentheses_append,
      Query.parentheses_outsideQuotes_eq_nil hfront, List.nil_append]
    rcases hv.isQuoted_or_plain with hquoted | hplain
    · have hsize : k.text.utf8ByteSize =
          (k.field ++ k.operator).utf8ByteSize + k.value.text.utf8ByteSize :=
        String.utf8ByteSize_append
      have hquotes : ∀ i, k.position + bytes (k.field ++ k.operator).toList ≤ i →
          i < k.position + bytes (k.field ++ k.operator).toList + bytes k.value.text.toList →
          q.Quotes i := by
        intro i hi hi'
        rw [bytes_toList] at hi hi'
        rw [bytes_toList, Nat.add_assoc, ← hsize] at hi'
        have hk : (Mark.comparison k).Quotes i := ⟨hquoted, hi, hi'⟩
        exact (hq i hk.covers).2 hk
      exact congrArg Text.parentheses (Query.outsideQuotes_eq_nil hquotes)
    · exact Query.parentheses_outsideQuotes_eq_nil hplain

/-- The parentheses of a tiled text that stand outside quoted values are its marks that are
parentheses. -/
theorem Tiles.parentheses_eq {ms : List Mark} (h : Tiles ms pos text) (hd : ∀ m ∈ ms, m.Derived)
    (hq : ∀ m ∈ ms, ∀ i, m.Covers i → (q.Quotes i ↔ m.Quotes i)) :
    parentheses (q.outsideQuotes pos text) = ms.flatMap Mark.parenthesis := by
  induction h with
  | nil => rfl
  | @cons m ms pos blanks blanks' text hb hm _ ih =>
    have hmark := (hd m (.head _)).parentheses_eq (hq m (.head _))
    have hrest := ih (fun m' hm' => hd m' (.tail _ hm')) (fun m' hm' => hq m' (.tail _ hm'))
    have hblank : ∀ c ∈ blanks, c ≠ '(' ∧ c ≠ ')' := fun c hc =>
      hb.ne_parenthesis c (List.mem_append_left _ hc)
    have hblank' : ∀ c ∈ blanks', c ≠ '(' ∧ c ≠ ')' := fun c hc =>
      hb.ne_parenthesis c (List.mem_append_right _ hc)
    have hstop : pos + bytes (blanks ++ m.text.toList) = m.stop := by
      rw [Mark.stop, hm, bytes_append, bytes_toList, Nat.add_assoc]
    have hnext : pos + bytes (blanks ++ m.text.toList ++ blanks') = m.stop + bytes blanks' := by
      rw [bytes_append, ← Nat.add_assoc, hstop]
    simp only [Query.outsideQuotes_append, parentheses_append, hnext, ← hm, hrest, hmark,
      Query.parentheses_outsideQuotes_eq_nil hblank, Query.parentheses_outsideQuotes_eq_nil hblank',
      List.nil_append, List.append_nil, List.flatMap_cons]

/-- The parentheses of a query text that stand outside quoted values are those around the groups of
its tree. -/
theorem Query.parentheses_of_parse {limit : Nat} {s : String} {t : Query}
    (h : Query.parse limit s = .ok t) :
    Text.parentheses (t.outsideQuotes 0 s.toList) = t.parentheses := by
  have htiles : Tiles t.marks 0 s.toList := (reaches_and_laid_of_parse h).2.tiles
  exact htiles.parentheses_eq (derives_of_parse h).1.mark_derived
    fun m hm i hi => Query.quotes_iff htiles hm hi

end

/-! ## The parentheses of a sequence -/

mutual

/-- The parentheses around the groups of a node. -/
def Node.parentheses : Node → List Char
  | .condition _ | .connective _ => []
  | .group nodes => '(' :: parenthesesOf nodes ++ [')']

/-- The parentheses around the groups of a sequence. -/
def parenthesesOf : List Node → List Char
  | [] => []
  | n :: nodes => n.parentheses ++ parenthesesOf nodes

end

mutual

/-- A node has the groups of its expression. -/
theorem Expr.parentheses_of_resolve : ∀ {e : Expr} {n : Node}, e.resolve = .ok n →
    n.parentheses = e.parentheses
  | .comparison c, n, h => by
    obtain ⟨condition, -, rfl⟩ := Expr.resolve_comparison_iff.1 h
    rfl
  | .group q, n, h => by
    obtain ⟨nodes, hq, rfl⟩ := Expr.resolve_group_iff.1 h
    rw [Node.parentheses, Query.parentheses_of_resolve hq, Expr.parentheses_group]

/-- A sequence has the groups of its query. -/
theorem Query.parentheses_of_resolve : ∀ {q : Query} {nodes : List Node}, q.resolve = .ok nodes →
    parenthesesOf nodes = q.parentheses
  | .single e, nodes, h => by
    obtain ⟨n, he, rfl⟩ := Query.resolve_single_iff.1 h
    rw [parenthesesOf, parenthesesOf, List.append_nil, Expr.parentheses_of_resolve he,
      Query.parentheses_single]
  | .chain e k q, nodes, h => by
    obtain ⟨n, c, nodes, he, -, hq, rfl⟩ := Query.resolve_chain_iff.1 h
    rw [parenthesesOf, parenthesesOf, Node.parentheses, List.nil_append,
      Expr.parentheses_of_resolve he, Query.parentheses_of_resolve hq, Query.parentheses_chain]

end

mutual

/-- The parentheses of an expression balance and nest as its groups do. -/
theorem Expr.nested_parentheses : (e : Expr) → Nested e.depth e.parentheses
  | .comparison _ => .nil
  | .group q => by
    rw [Expr.parentheses_group]
    exact .group q.nested_parentheses .nil

/-- The parentheses of a query balance and nest as its groups do. -/
theorem Query.nested_parentheses : (q : Query) → Nested q.depth q.parentheses
  | .single e => e.nested_parentheses
  | .chain e _ q => by
    rw [Query.parentheses_chain]
    exact (e.nested_parentheses.mono (Nat.le_max_left _ _)).append
      (q.nested_parentheses.mono (Nat.le_max_right _ _))

end

/-! ## The parentheses of a fragment -/

namespace Sql

/-- The characters of an SQL text that stand outside its literals. A literal without an end takes in
the rest of the text. -/
def Dialect.outsideLiterals (d : Dialect) (s : List Char) : List Char :=
  match s with
  | [] => []
  | c :: s =>
    if c = '\x27' then
      match h : d.readLiteral (c :: s) with
      | none => []
      | some (_, rest) =>
        have := Dialect.length_lt_of_readLiteral h
        d.outsideLiterals rest
    else c :: d.outsideLiterals s
termination_by s.length
decreasing_by all_goals simp only [List.length_cons] at *; omega

variable {d : Dialect}

/-- A text without a quote stands outside literals. -/
theorem Dialect.outsideLiterals_append {s : List Char} (h : '\x27' ∉ s) (t : List Char) :
    d.outsideLiterals (s ++ t) = s ++ d.outsideLiterals t := by
  induction s with
  | nil => rfl
  | cons c s ih =>
    obtain ⟨hc, hs⟩ := not_or.1 (mt List.mem_cons.2 h)
    rw [List.cons_append, outsideLiterals, if_neg (Ne.symm hc), ih hs, List.cons_append]

/-- Nothing of a literal stands outside literals. -/
theorem Dialect.outsideLiterals_literal (d : Dialect) (value : String) {rest : List Char}
    (h : rest.head? ≠ some '\x27') :
    d.outsideLiterals ((literal d.escaper value).toList ++ rest) = d.outsideLiterals rest := by
  have hread := d.readLiteral_literal value h
  obtain ⟨s, hs⟩ : ∃ s, (literal d.escaper value).toList ++ rest = '\x27' :: s :=
    ⟨(d.escaper value).toList ++ '\x27' :: rest, by simp [literal]⟩
  rw [hs] at hread ⊢
  rw [outsideLiterals, if_pos rfl]
  split
  · next hnone => rw [hread] at hnone; cases hnone
  · next hsome => rw [hread] at hsome; cases hsome; rfl

/-- A part of a fragment that adds the given parentheses to those behind it, outside literals. -/
def Dialect.Shows (d : Dialect) (s shown : List Char) : Prop :=
  ∀ rest : List Char, rest.head? ≠ some '\x27' →
    parentheses (d.outsideLiterals (s ++ rest)) = shown ++ parentheses (d.outsideLiterals rest)

theorem Dialect.Shows.nil : d.Shows [] [] :=
  fun _ _ => rfl

/-- A literal adds no parentheses, whatever its value. -/
theorem Dialect.shows_literal (d : Dialect) (value : String) :
    d.Shows (literal d.escaper value).toList [] := by
  intro rest h
  rw [d.outsideLiterals_literal value h, List.nil_append]

/-- A text without a quote adds its parentheses. -/
theorem Dialect.Shows.plain_append {s t shown : List Char} (ht : d.Shows t shown) (h : '\x27' ∉ s) :
    d.Shows (s ++ t) (parentheses s ++ shown) := by
  intro rest hrest
  rw [List.append_assoc, outsideLiterals_append h, parentheses_append, ht rest hrest,
    List.append_assoc]

/-- A text without quotes and parentheses adds nothing. -/
theorem Dialect.Shows.neutral_append {s t shown : List Char} (ht : d.Shows t shown)
    (h : ∀ c ∈ s, c ≠ '\x27' ∧ c ≠ '(' ∧ c ≠ ')') : d.Shows (s ++ t) shown := by
  have hplain := ht.plain_append fun hc => (h _ hc).1 rfl
  rwa [parentheses_eq_nil fun c hc => (h c hc).2, List.nil_append] at hplain

/-- Two parts add the parentheses of both, if the second does not go on with a literal. -/
theorem Dialect.Shows.append {s t shown shown' : List Char} (h : d.Shows s shown)
    (h' : d.Shows t shown') (ht : t.head? ≠ some '\x27') : d.Shows (s ++ t) (shown ++ shown') := by
  intro rest hrest
  have hhead : (t ++ rest).head? ≠ some '\x27' := by
    cases t with
    | nil => exact hrest
    | cons c t => exact ht
  rw [List.append_assoc, h _ hhead, h' rest hrest, List.append_assoc]

/-- A part and what it adds, written in another way. -/
theorem Dialect.Shows.of_eq {s t shown shown' : List Char} (h : d.Shows s shown) (hs : t = s)
    (hshown : shown' = shown) : d.Shows t shown' := by
  rwa [hs, hshown]

/-- A name in quotes is made of the quotes and the characters of the name. -/
theorem mem_of_mem_quoted {quote c : Char} {name : String} (h : c ∈ (quoted quote name).toList) :
    c = quote ∨ c ∈ name.toList := by
  simp only [quoted, doubleChars, String.toList_ofList, List.mem_append, List.mem_cons,
    List.mem_flatMap, List.not_mem_nil, or_false] at h
  rcases h with (h | ⟨e, he, hc⟩) | h
  · exact .inl h
  · obtain rfl : c = e := by
      split at hc
      · simpa using hc
      · simpa using hc
    exact .inr he
  · exact .inl h

/-- An identifier has no single quote and no parenthesis. -/
theorem ne_of_mem_identifier {name : String} (h : IsField name.toList) {q : Quoting} {c : Char}
    (hc : c ∈ (q.identifier name).toList) : c ≠ '\x27' ∧ c ≠ '(' ∧ c ≠ ')' := by
  have hname : c ∈ name.toList → c ≠ '\x27' ∧ c ≠ '(' ∧ c ≠ ')' := by
    intro hc
    have hfield := h.fieldChar c hc
    refine ⟨?_, (FieldChar.ne hfield).2⟩
    rintro rfl
    revert hfield
    decide
  unfold Quoting.identifier at hc
  split at hc
  · cases q with
    | none => exact hname hc
    | ansi =>
      rcases mem_of_mem_quoted hc with rfl | hc
      · decide
      · exact hname hc
    | backtick =>
      rcases mem_of_mem_quoted hc with rfl | hc
      · decide
      · exact hname hc
  · exact hname hc

/-- An identifier and a comparator add no parentheses to what stands behind them. -/
theorem Dialect.Shows.comparator_append {name : String} (h : IsField name.toList) (q : Quoting)
    (c : Comparator) {t shown : List Char} (ht : d.Shows t shown) :
    d.Shows ((q.identifier name).toList ++ ' ' :: c.symbol.toList ++ ' ' :: t) shown := by
  have hsymbol : ∀ e ∈ ' ' :: c.symbol.toList ++ [' '], e ≠ '\x27' ∧ e ≠ '(' ∧ e ≠ ')' := by
    cases c <;> simp [Comparator.symbol]
  have hname : ∀ e ∈ (q.identifier name).toList, e ≠ '\x27' ∧ e ≠ '(' ∧ e ≠ ')' :=
    fun e he => ne_of_mem_identifier h he
  exact ((ht.neutral_append hsymbol).neutral_append hname).of_eq (by simp) rfl

/-- What is written for a well-formed condition adds no parentheses. -/
theorem Dialect.shows_condition {q : Quoting} {c : Condition} {text : String} (hc : c.WellFormed)
    (ht : renderCondition ⟨d.escaper, q⟩ c = .ok text) : d.Shows text.toList [] := by
  rcases hc.single_or_between with ⟨field, comparator, value, rfl, hne, hf, -⟩ |
    ⟨field, lower, upper, rfl, hf, -, -⟩
  · obtain ⟨text', ht', hlist⟩ := renderCondition_single ⟨d.escaper, q⟩ field value hne
    obtain rfl : text' = text := Except.ok.inj (ht'.symm.trans ht)
    rw [hlist]
    exact (d.shows_literal value).comparator_append hf q comparator
  · obtain ⟨text', ht', hlist⟩ := renderCondition_between ⟨d.escaper, q⟩ field lower upper
    obtain rfl : text' = text := Except.ok.inj (ht'.symm.trans ht)
    have hand : d.Shows (" AND ".toList ++ (literal d.escaper upper).toList) [] :=
      (d.shows_literal upper).neutral_append (by simp)
    have hbounds := (d.shows_literal lower).append hand (by simp)
    refine (hbounds.comparator_append hf q .between).of_eq ?_ rfl
    rw [hlist]
    simp

/-- What is written for a sequence adds the parentheses of the sequence, if it is so for each of its
operands. -/
theorem Dialect.shows_sequence {q : Quoting} {depth : Nat} {nodes : List Node}
    (hshow : ∀ n : Node, n.IsOperand depth → ∀ text, renderNode ⟨d.escaper, q⟩ n = .ok text →
      d.Shows text.toList n.parentheses) (h : WellFormed depth nodes) :
    ∀ parts, renderParts ⟨d.escaper, q⟩ nodes = .ok parts →
      d.Shows (" ".intercalate parts).toList (parenthesesOf nodes) := by
  induction h using Alternates.chainRec with
  | single n hn =>
    intro parts hparts
    obtain ⟨part, _, hpart, hnil, rfl⟩ := renderParts_cons_iff.1 hparts
    cases hnil
    exact (hshow n hn part hpart).of_eq (by simp) (by simp [parenthesesOf])
  | chain n c nodes hn _ hnodes ih =>
    intro parts hparts
    obtain ⟨part, _, hpart, hjoint, rfl⟩ := renderParts_cons_iff.1 hparts
    obtain ⟨_, parts, hsymbol, htail, rfl⟩ := renderParts_cons_iff.1 hjoint
    cases hsymbol
    have hne : parts ≠ [] := by
      rintro rfl
      cases hnodes using Alternates.chainRec <;> simp [renderParts_cons_iff] at htail
    have hsymbol : ∀ e ∈ ' ' :: c.symbol.toList ++ [' '], e ≠ '\x27' ∧ e ≠ '(' ∧ e ≠ ')' := by
      cases c <;> simp [Connective.symbol]
    have hlink := (ih parts htail).neutral_append hsymbol
    refine ((hshow n hn part hpart).append hlink (by simp)).of_eq ?_ ?_
    · rw [String.intercalate_cons_cons, String.intercalate_cons_of_ne_nil hne]
      simp
    · simp [parenthesesOf, Node.parentheses]

/-- What is written for an operand adds the parentheses of the operand. -/
theorem Dialect.shows_of_isOperand (d : Dialect) (q : Quoting) : ∀ {depth : Nat} {n : Node},
    n.IsOperand depth → ∀ text, renderNode ⟨d.escaper, q⟩ n = .ok text →
      d.Shows text.toList n.parentheses
  | _, .condition _, h, _, ht => shows_condition (Node.isOperand_condition.1 h) ht
  | _, .connective _, h, _, _ => absurd h Node.not_isOperand_connective
  | depth + 1, .group nodes, h, text, ht => by
    obtain ⟨parts, hparts, rfl⟩ := renderNode_group_iff.1 ht
    have hinner := shows_sequence (fun _ => d.shows_of_isOperand q) h parts hparts
    have hclose : d.Shows [')'] [')'] := Shows.nil.plain_append (s := [')']) (by decide)
    have hgroup := (hinner.append hclose (by simp)).plain_append (s := ['(']) (by decide)
    exact hgroup.of_eq (by simp) rfl

/-- The parentheses of a fragment that stand outside literals are those of the sequence that it was
written for. -/
theorem Dialect.parentheses_render {q : Quoting} {depth : Nat} {nodes : List Node} {sql : String}
    (h : WellFormed depth nodes) (hsql : render ⟨d.escaper, q⟩ nodes = .ok sql) :
    parentheses (d.outsideLiterals sql.toList) = parenthesesOf nodes := by
  obtain ⟨parts, hparts, rfl⟩ := render_eq_ok_iff.1 hsql
  have hshow := shows_sequence (fun _ => d.shows_of_isOperand q) h parts hparts [] nofun
  simpa [outsideLiterals, Text.parentheses] using hshow

/-- **A fragment is parenthesized where its query text is.** Outside literals it has the parentheses
that the text has outside the quoted values of its tree, in the same order. They balance, and at
most as many are open at a time as the nesting limit allows. -/
theorem Dialect.parentheses_convert (d : Dialect) (config : Config) {query sql : String}
    (h : ((d.converter config).convert query).outcome = .ok sql) :
    (query = "" ∧ sql = "" ∨ ∃ t, Query.parse config.maxDepth query = .ok t ∧
      parentheses (d.outsideLiterals sql.toList) =
        parentheses (t.outsideQuotes 0 query.toList)) ∧
    Nested config.maxDepth (parentheses (d.outsideLiterals sql.toList)) := by
  obtain ⟨nodes, hast, hsql⟩ := Converter.convert_eq_ok_iff.1 h
  rcases Converter.ast_eq_ok_iff.1 hast with ⟨rfl, rfl⟩ | ⟨t, ht, hnodes⟩
  · obtain rfl : sql = "" := (Except.ok.inj hsql).symm
    refine ⟨.inl ⟨rfl, rfl⟩, ?_⟩
    rw [String.toList_empty, outsideLiterals]
    exact .nil
  · obtain ⟨hd, hdepth⟩ := derives_of_parse ht
    have hfragment : parentheses (d.outsideLiterals sql.toList) = t.parentheses := by
      rw [parentheses_render (Query.wellFormed_of_resolve hd hnodes hdepth) hsql,
        Query.parentheses_of_resolve hnodes]
    rw [hfragment]
    exact ⟨.inr ⟨t, ht, (Query.parentheses_of_parse ht).symm⟩, t.nested_parentheses.mono hdepth⟩

/-- A value with parentheses and a quote in it, between groups. -/
theorem Dialect.parentheses_convert_quoted :
    ((Dialect.mysql.converter {}).convert "(a:\")'(\" OR (b:1))").outcome =
      .ok "(a = ')\\'(' OR (b = '1'))" ∧
    parentheses (Dialect.mysql.outsideLiterals "(a = ')\\'(' OR (b = '1'))".toList) =
      ['(', '(', ')', ')'] ∧
    Nested 64 ['(', '(', ')', ')'] := by
  have hs : "(a:\")'(\" OR (b:1))".toList = ['(', 'a', ':', '"', ')', '\x27', '(', '"', ' ', 'O',
    'R', ' ', '(', 'b', ':', '1', ')', ')'] := rfl
  have ha : Comparison.lex ['a', ':', '"', ')', '\x27', '(', '"', ' ', 'O', 'R', ' ', '(', 'b', ':',
    '1', ')', ')'] = .ok (⟨"a", ":", .quoted "\")'(\""⟩,
      [' ', 'O', 'R', ' ', '(', 'b', ':', '1', ')', ')']) := rfl
  have hparse : Query.parse 64 "(a:\")'(\" OR (b:1))" =
      .ok (.single (.group (.chain (.comparison ⟨⟨"a", ":", .quoted "\")'(\""⟩, 1⟩) ⟨"OR", 9⟩
        (.single (.group (.single (.comparison ⟨⟨"b", ":", .number "1"⟩, 13⟩))))))) := by
    rw [Query.parse, hs, Tokens.scan_opening, Tokens.scan_comparison ha]
    with_unfolding_all rfl
  have h : ((Dialect.mysql.converter {}).convert "(a:\")'(\" OR (b:1))").outcome =
      .ok "(a = ')\\'(' OR (b = '1'))" :=
    Converter.convert_eq_ok_iff.2 ⟨_, Converter.ast_eq_ok_iff.2 (.inr ⟨_, hparse, rfl⟩), rfl⟩
  obtain ⟨⟨hquery, -⟩ | ⟨t, ht, hsame⟩, hnested⟩ := Dialect.parentheses_convert .mysql {} h
  · exact absurd hquery (by decide)
  · obtain rfl := Except.ok.inj (ht.symm.trans hparse)
    have hshown : parentheses (Dialect.mysql.outsideLiterals
        "(a = ')\\'(' OR (b = '1'))".toList) = ['(', '(', ')', ')'] := hsame.trans (by decide)
    exact ⟨h, hshown, hshown ▸ hnested⟩

end Sql

end FieldQuery
