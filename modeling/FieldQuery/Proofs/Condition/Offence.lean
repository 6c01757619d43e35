import Mathlib.Order.Minimal
import FieldQuery.Proofs.Condition.Resolve
import FieldQuery.Proofs.Surface.Layout
import FieldQuery.Proofs.Text.Backslash

/-!
# What makes a tree meaningless

Each keyword and each comparison of a tree offends or does not, by itself: `Query.offences` lists
the offences of a tree from left to right, a keyword before the expression that it introduces. A
tree resolves if the list is empty, and otherwise it is refused with the first of the list
(`Query.reports_resolve`). That is what every computation does that is put together from parts which
report their own offences, one part after the other (`Reports.bind`).

In a tree of the grammar keywords and operators are known, so a range that is open on both sides is
the only offence (`Query.Derives.resolve_eq_error_iff`).
-/

namespace FieldQuery

open Text Grammar

/-! ## Reporting the first offence -/

/-- A computation succeeds if a list of offences is empty, and fails with the first of them
otherwise. -/
def Reports {ε α : Type} (x : Except ε α) (offences : List ε) : Prop :=
  match x with
  | .ok _ => offences = []
  | .error e => offences.head? = some e

theorem Reports.pure {ε α : Type} (a : α) : Reports (.ok a : Except ε α) [] :=
  rfl

/-- Two computations, one after the other, report what both of them report. -/
theorem Reports.bind {ε α β : Type} {x : Except ε α} {f : α → Except ε β} {es es' : List ε}
    (hx : Reports x es) (hf : ∀ a, Reports (f a) es') : Reports (x >>= f) (es ++ es') := by
  cases x with
  | ok a =>
    obtain rfl : es = [] := hx
    exact hf a
  | error e =>
    have hhead : es.head? = some e := hx
    simp [Reports, Bind.bind, Except.bind, hhead]

/-- A computation fails with the first of the offences that it reports. -/
theorem Reports.eq_error_iff {ε α : Type} {x : Except ε α} {es : List ε} (h : Reports x es)
    {e : ε} : x = .error e ↔ es.head? = some e := by
  cases x with
  | ok a =>
    obtain rfl : es = [] := h
    simp
  | error e' =>
    have hhead : es.head? = some e' := h
    simp [hhead]

/-- A computation succeeds if it has nothing to report. -/
theorem Reports.exists_ok_iff {ε α : Type} {x : Except ε α} {es : List ε} (h : Reports x es) :
    (∃ a, x = .ok a) ↔ es = [] := by
  cases x with
  | ok a =>
    obtain rfl : es = [] := h
    simp
  | error e =>
    have hhead : es.head? = some e := h
    refine iff_of_false nofun ?_
    rintro rfl
    cases hhead

/-- A computation that reports the offences of the items of a list fails with that of the first item
that offends. -/
theorem Reports.eq_error_iff_first {ε α β : Type} {x : Except ε α} {items : List β}
    {offence : β → Option ε} (h : Reports x (items.filterMap offence)) {e : ε} :
    x = .error e ↔ ∃ front item back, items = front ++ item :: back ∧ offence item = some e ∧
      ∀ i ∈ front, offence i = none := by
  rw [h.eq_error_iff, List.head?_filterMap, List.findSome?_eq_some_iff]

/-! ## The offences of a tree -/

/-- The offence of a keyword that stands for no connective. -/
def Keyword.offence? (k : Keyword) : Option SemanticError :=
  if lower k.word ∈ ["and", "or", "andnot", "not"] then none
  else some (.unknownOperator k.word k.position)

/-- The offence of a comparison: an unknown operator or, behind a known one, a range that is open on
both sides. -/
def PlacedComparison.offence? (c : PlacedComparison) : Option SemanticError :=
  if c.operator ∈ [":", ":>", ":<"] then
    match c.value with
    | .range left right =>
      if unescapeText left = wildcard ∧ unescapeText right = wildcard then
        some (.wildcardRange c.field c.position)
      else none
    | .quoted _ | .unquoted _ | .number _ => none
  else some (.unknownAtomOperator c.operator c.position)

mutual

/-- The offences of an expression, from left to right. -/
def Expr.offences : Expr → List SemanticError
  | .comparison c => c.offence?.toList
  | .group q => q.offences

/-- The offences of a query, from left to right. -/
def Query.offences : Query → List SemanticError
  | .single e => e.offences
  | .chain e k rest => e.offences ++ (k.offence?.toList ++ rest.offences)

end

theorem Connective.ofKeyword?_eq_none_iff {word : String} :
    ofKeyword? word = none ↔ lower word ∉ ["and", "or", "andnot", "not"] := by
  simp only [ofKeyword?, List.find?_eq_none, List.mem_cons, List.not_mem_nil, or_false,
    forall_eq_or_imp, forall_eq, keyword, not_or]
  grind

theorem Comparator.ofOperator?_eq_none_iff {operator : String} :
    ofOperator? operator = none ↔ operator ∉ [":", ":>", ":<"] := by
  simp only [ofOperator?, List.mem_cons, List.not_mem_nil, or_false, not_or]
  grind

theorem Condition.ofRange?_eq_none_iff {field left right : String} :
    ofRange? field left right = none ↔ left = wildcard ∧ right = wildcard := by
  simp only [ofRange?]
  grind

/-- A keyword reports its offence. -/
theorem Keyword.reports_resolve (k : Keyword) : Reports k.resolve k.offence?.toList := by
  unfold Keyword.resolve Keyword.offence?
  cases hk : Connective.ofKeyword? k.word with
  | none =>
    rw [if_neg (Connective.ofKeyword?_eq_none_iff.1 hk)]
    rfl
  | some c =>
    rw [if_pos (by_contra fun hnot => nomatch hk ▸ Connective.ofKeyword?_eq_none_iff.2 hnot)]
    rfl

/-- A comparison reports its offence. -/
theorem PlacedComparison.reports_resolve (c : PlacedComparison) :
    Reports c.resolve c.offence?.toList := by
  unfold PlacedComparison.resolve PlacedComparison.offence?
  cases ho : Comparator.ofOperator? c.operator with
  | none =>
    rw [if_neg (Comparator.ofOperator?_eq_none_iff.1 ho)]
    rfl
  | some comparator =>
    rw [if_pos (by_contra fun hnot => nomatch ho ▸ Comparator.ofOperator?_eq_none_iff.2 hnot)]
    cases c.value with
    | quoted | unquoted | number => rfl
    | range left right =>
      simp only
      cases hr : Condition.ofRange? c.field (unescapeText left) (unescapeText right) with
      | none =>
        rw [if_pos (Condition.ofRange?_eq_none_iff.1 hr)]
        rfl
      | some condition =>
        rw [if_neg fun hopen => nomatch hr ▸ Condition.ofRange?_eq_none_iff.2 hopen]
        rfl

mutual

/-- An expression reports its first offence. -/
theorem Expr.reports_resolve : (e : Expr) → Reports e.resolve e.offences
  | .comparison c => by
    rw [Expr.resolve, Expr.offences, ← List.append_nil c.offence?.toList]
    exact c.reports_resolve.bind fun _ => .pure _
  | .group q => by
    rw [Expr.resolve, Expr.offences, ← List.append_nil q.offences]
    exact q.reports_resolve.bind fun _ => .pure _

/-- A query reports its first offence. -/
theorem Query.reports_resolve : (q : Query) → Reports q.resolve q.offences
  | .single e => by
    rw [Query.resolve, Query.offences, ← List.append_nil e.offences]
    exact e.reports_resolve.bind fun _ => .pure _
  | .chain e k rest => by
    rw [Query.resolve, Query.offences, ← List.append_nil rest.offences]
    exact e.reports_resolve.bind fun _ => k.reports_resolve.bind fun _ =>
      rest.reports_resolve.bind fun _ => .pure _

end

/-! ## Trees of the grammar -/

/-- A range that is open on both sides: each of its bounds, as written, is a star or a star behind a
backslash. -/
def PlacedComparison.IsOpen (c : PlacedComparison) : Prop :=
  ∃ left right, c.value = .range left right ∧ left ∈ ["*", "\\*"] ∧ right ∈ ["*", "\\*"]

/-- The texts of which the backslash rule makes a star. -/
theorem unescapeText_eq_wildcard_iff {s : String} :
    unescapeText s = wildcard ↔ s ∈ ["*", "\\*"] := by
  have hchars : unescape s.toList = ['*'] ↔ s.toList = ['*'] ∨ s.toList = ['\\', '*'] := by
    fun_cases unescape s.toList with
    | case1 => simp
    | case2 => simp
    | case3 d rest =>
      have hnil : unescape rest = [] ↔ rest = [] :=
        ⟨fun h => by_contra fun hne => unescape_ne_nil hne h, fun h => by rw [h, unescape]⟩
      simp [hnil]
    | case4 c d rest hc =>
      have hne := unescape_ne_nil (List.cons_ne_nil d rest)
      simp [hc, hne]
  rw [unescapeText, ← String.toList_inj, String.toList_ofList]
  simp only [List.mem_cons, List.not_mem_nil, or_false, ← String.toList_inj]
  exact hchars

/-- A derived comparison offends if it is a range that is open on both sides. -/
theorem Comparison.Derives.offence?_eq_some_iff {c : PlacedComparison} {text rest : List Char}
    (h : c.toComparison.Derives text rest) {e : SemanticError} :
    c.offence? = some e ↔ c.IsOpen ∧ e = .wildcardRange c.field c.position := by
  obtain ⟨-, ho, -⟩ := h
  have hop : c.operator ∈ [":", ":>", ":<"] := by
    rcases ho with ho | ho | ho
    · simp [ho]
    · simp [ho]
    · simp [ho.1]
  rw [PlacedComparison.offence?, if_pos hop, PlacedComparison.IsOpen]
  cases c.value with
  | quoted | unquoted | number => simp
  | range left right =>
    simp only [unescapeText_eq_wildcard_iff, Option.ite_none_right_eq_some, Option.some.injEq,
      Value.range.injEq, exists_and_left, exists_eq_left', and_assoc]
    grind

/-- A keyword of the grammar does not offend. -/
theorem Keyword.offence?_eq_none {k : Keyword} (h : IsKeyword k.word.toList) :
    k.offence? = none := by
  obtain ⟨c, hc, -⟩ := Keyword.ofKeyword?_of_isKeyword h
  rw [Keyword.offence?, if_pos]
  exact by_contra fun hnot => nomatch hc ▸ Connective.ofKeyword?_eq_none_iff.2 hnot

mutual

/-- The offences of a derived expression are those of its comparisons. -/
theorem Expr.Derives.offences_eq : ∀ {e : Expr} {text rest : List Char}, e.Derives text rest →
    e.offences = e.comparisons.filterMap PlacedComparison.offence?
  | .comparison c, _, _, _ => by
    rw [Expr.offences, Expr.comparisons]
    cases hc : c.offence? with
    | none => simp [hc]
    | some e => simp [hc]
  | .group _, _, _, .group h => Query.Derives.offences_eq h

/-- The offences of a derived query are those of its comparisons. -/
theorem Query.Derives.offences_eq : ∀ {q : Query} {text rest : List Char}, q.Derives text rest →
    q.offences = q.comparisons.filterMap PlacedComparison.offence?
  | .single _, _, _, .single h => Expr.Derives.offences_eq h
  | .chain e k q, _, _, .chain he _ hk _ hq => by
    rw [Query.offences, Query.comparisons, List.filterMap_append, Keyword.offence?_eq_none hk,
      Expr.Derives.offences_eq he, Query.Derives.offences_eq hq]
    rfl

end

mutual

/-- The comparisons of a derived expression are derived. -/
theorem Expr.Derives.exists_of_mem : ∀ {e : Expr} {text rest : List Char}, e.Derives text rest →
    ∀ c ∈ e.comparisons, ∃ text rest, c.toComparison.Derives text rest
  | .comparison c, text, rest, .comparison h, k, hk => by
    obtain rfl : k = c := List.mem_singleton.1 hk
    exact ⟨text, rest, h⟩
  | .group _, _, _, .group h, c, hc => Query.Derives.exists_of_mem h c hc

/-- The comparisons of a derived query are derived. -/
theorem Query.Derives.exists_of_mem : ∀ {q : Query} {text rest : List Char}, q.Derives text rest →
    ∀ c ∈ q.comparisons, ∃ text rest, c.toComparison.Derives text rest
  | .single _, _, _, .single h, c, hc => Expr.Derives.exists_of_mem h c hc
  | .chain _ _ _, _, _, .chain he _ _ _ hq, c, hc => by
    rcases List.mem_append.1 hc with hc | hc
    · exact Expr.Derives.exists_of_mem he c hc
    · exact Query.Derives.exists_of_mem hq c hc

end

/-- The leftmost comparison of a query that is a range open on both sides. -/
def Query.IsLeftmostOpen (q : Query) (c : PlacedComparison) : Prop :=
  c ∈ q.comparisons ∧ c.IsOpen ∧ ∀ c' ∈ q.comparisons, c'.IsOpen → c.position ≤ c'.position

/-- Of the ranges of a query that are open on both sides, one is the leftmost. -/
theorem Query.exists_isLeftmostOpen_iff {q : Query} :
    (∃ c, q.IsLeftmostOpen c) ↔ ∃ c ∈ q.comparisons, c.IsOpen := by
  refine ⟨?_, ?_⟩
  · intro ⟨c, hmem, hopen, _⟩
    exact ⟨c, hmem, hopen⟩
  · intro h
    obtain ⟨c, ⟨hmem, hopen⟩, hleast⟩ :=
      exists_minimalFor_of_wellFoundedLT (fun c => c ∈ q.comparisons ∧ c.IsOpen)
        PlacedComparison.position h
    refine ⟨c, hmem, hopen, fun c' hmem' hopen' => ?_⟩
    exact (Nat.le_total c.position c'.position).elim id (hleast ⟨hmem', hopen'⟩)

/-- A derived query whose offsets grow from left to right has no meaning if one of its ranges is
open on both sides, and the leftmost such range is to blame. -/
theorem Query.Derives.resolve_eq_error_iff {q : Query} {text rest : List Char}
    (h : q.Derives text rest) (hpos : q.comparisons.Pairwise (·.position < ·.position))
    {e : SemanticError} :
    q.resolve = .error e ↔
      ∃ c, q.IsLeftmostOpen c ∧ e = .wildcardRange c.field c.position := by
  have hoffence : ∀ c ∈ q.comparisons, ∀ {e}, c.offence? = some e ↔
      c.IsOpen ∧ e = .wildcardRange c.field c.position := by
    intro c hc e
    obtain ⟨text, rest, hd⟩ := h.exists_of_mem c hc
    exact hd.offence?_eq_some_iff
  have hreports := q.reports_resolve
  rw [h.offences_eq] at hreports
  rw [hreports.eq_error_iff_first]
  refine ⟨?_, ?_⟩
  · rintro ⟨front, c, back, heq, hc, hfront⟩
    have hmem : c ∈ q.comparisons := by simp [heq]
    obtain ⟨hopen, rfl⟩ := (hoffence c hmem).1 hc
    refine ⟨c, ⟨hmem, hopen, fun c' hmem' hopen' => ?_⟩, rfl⟩
    have hc' := (hoffence c' hmem').2 ⟨hopen', rfl⟩
    rw [heq] at hmem' hpos
    rcases List.mem_append.1 hmem' with hin | hin
    · rw [hfront c' hin] at hc'
      cases hc'
    · rcases List.mem_cons.1 hin with rfl | hin
      · exact Nat.le_refl _
      · exact Nat.le_of_lt
          ((List.pairwise_cons.1 (List.pairwise_append.1 hpos).2.1).1 c' hin)
  · rintro ⟨c, ⟨hmem, hopen, hleast⟩, rfl⟩
    obtain ⟨front, back, heq⟩ := List.append_of_mem hmem
    refine ⟨front, c, back, heq, (hoffence c hmem).2 ⟨hopen, rfl⟩, fun c' hin => ?_⟩
    have hmem' : c' ∈ q.comparisons := by simp [heq, hin]
    rw [heq] at hpos
    have hlt := (List.pairwise_append.1 hpos).2.2 c' hin c (.head _)
    refine Option.eq_none_iff_forall_ne_some.2 fun e he => ?_
    exact Nat.not_le.2 hlt (hleast c' hmem' ((hoffence c' hmem').1 he).1)

end FieldQuery
