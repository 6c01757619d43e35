import Mathlib.Tactic.FinCases
import FieldQuery.Proofs.Condition.Offence
import FieldQuery.Proofs.Surface.Source

/-!
# Meaningful trees

A tree need not come from a text, so its keywords, operators and ranges are arbitrary.
`Query.resolves_mirrored_or_first_offence` says what becomes of every such tree. It resolves if it
is meaningful, which is a condition on each of its marks alone. What it resolves to has its shape:
the expressions and connectives of a query stand at consecutive indices, and a group stands for the
sequence of its own query, at every depth. And a tree that is not meaningful is refused with the
offence of the first mark that offends, where a mark with a bad operator is blamed for that and not
for its range.

The walk fails where it first meets an offence, so what it reports is the head of the list of all
offences (`Query.reports_resolve`). Here that list is read off the marks of the tree, which are in
the order of the walk.
-/

namespace FieldQuery

open Text

/-! ## Marks that offend -/

/-- What a mark is blamed for. A parenthesis is blamed for nothing. -/
inductive Mark.Offends : Mark → SemanticError → Prop
  | keyword {k : Keyword} (h : lower k.word ∉ ["and", "or", "andnot", "not"]) :
    Offends (.keyword k) (.unknownOperator k.word k.position)
  | operator {c : PlacedComparison} (h : c.operator ∉ [":", ":>", ":<"]) :
    Offends (.comparison c) (.unknownAtomOperator c.operator c.position)
  | range {c : PlacedComparison} {left right : String} (ho : c.operator ∈ [":", ":>", ":<"])
    (hv : c.value = .range left right) (hl : unescapeText left = "*")
    (hr : unescapeText right = "*") :
    Offends (.comparison c) (.wildcardRange c.field c.position)

/-- The offence of a mark. -/
def Mark.offence? : Mark → Option SemanticError
  | comparison c => c.offence?
  | keyword k => k.offence?
  | opening _ | closing _ => none

theorem Keyword.offence?_eq_some_iff {k : Keyword} {e : SemanticError} :
    k.offence? = some e ↔ (Mark.keyword k).Offends e := by
  unfold offence?
  refine ⟨?_, ?_⟩
  · intro h
    split at h
    · cases h
    · next hw =>
      cases h
      exact .keyword hw
  · rintro ⟨hw⟩
    rw [if_neg hw]

theorem PlacedComparison.offence?_eq_some_iff {c : PlacedComparison} {e : SemanticError} :
    c.offence? = some e ↔ (Mark.comparison c).Offends e := by
  unfold offence?
  refine ⟨?_, ?_⟩
  · intro h
    split at h
    · next ho =>
      split at h
      · next left right hv =>
        split at h
        · next hopen =>
          cases h
          exact .range ho hv hopen.1 hopen.2
        · cases h
      · cases h
      · cases h
      · cases h
    · next ho =>
      cases h
      exact .operator ho
  · intro h
    cases h with
    | operator ho => rw [if_neg ho]
    | range ho hv hl hr =>
      rw [if_pos ho, hv]
      exact if_pos ⟨hl, hr⟩

theorem Mark.offends_iff {m : Mark} {e : SemanticError} : m.Offends e ↔ m.offence? = some e := by
  cases m with
  | comparison c => exact PlacedComparison.offence?_eq_some_iff.symm
  | keyword k => exact Keyword.offence?_eq_some_iff.symm
  | opening | closing => exact iff_of_false nofun nofun

mutual

/-- The offences of an expression are those of its marks. -/
theorem Expr.offences_eq : (e : Expr) → e.offences = e.marks.filterMap Mark.offence?
  | .comparison c => by
    rw [Expr.offences, Expr.marks, List.filterMap_cons, Mark.offence?]
    cases c.offence? <;> rfl
  | .group q => by
    rw [Expr.offences, Expr.marks, List.filterMap_cons_none rfl, List.filterMap_append,
      List.filterMap_cons_none rfl, List.filterMap_nil, List.append_nil, q.offences_eq]

/-- The offences of a query are those of its marks. -/
theorem Query.offences_eq : (q : Query) → q.offences = q.marks.filterMap Mark.offence?
  | .single e => e.offences_eq
  | .chain e k rest => by
    rw [Query.offences, Query.marks, List.filterMap_append, List.filterMap_cons, Mark.offence?,
      e.offences_eq, rest.offences_eq]
    cases k.offence? <;> rfl

end

/-- A tree in which every keyword stands for a connective, every operator for a comparator, and no
range is open on both sides. -/
structure Query.Meaningful (q : Query) : Prop where
  keywords : ∀ k, .keyword k ∈ q.marks → lower k.word ∈ ["and", "or", "andnot", "not"]
  operators : ∀ c, .comparison c ∈ q.marks → c.operator ∈ [":", ":>", ":<"]
  ranges : ∀ c left right, .comparison c ∈ q.marks → c.value = .range left right →
    ¬ (unescapeText left = "*" ∧ unescapeText right = "*")

/-- A tree is meaningful if none of its marks offends. -/
theorem Query.meaningful_iff {q : Query} :
    q.Meaningful ↔ ∀ m ∈ q.marks, ∀ e, ¬ m.Offends e := by
  refine ⟨?_, ?_⟩
  · rintro h m hm e (⟨hk⟩ | ⟨ho⟩ | ⟨-, hv, hl, hr⟩)
    · exact hk (h.keywords _ hm)
    · exact ho (h.operators _ hm)
    · exact h.ranges _ _ _ hm hv ⟨hl, hr⟩
  · intro h
    have hop : ∀ c, .comparison c ∈ q.marks → c.operator ∈ [":", ":>", ":<"] :=
      fun c hc => by_contra fun ho => h _ hc _ (.operator ho)
    refine ⟨fun k hk => by_contra fun hw => h _ hk _ (.keyword hw), hop, ?_⟩
    intro c left right hc hv ⟨hl, hr⟩
    exact h _ hc _ (.range (hop c hc) hv hl hr)

/-! ## The shape of what a tree resolves to -/

mutual

/-- A node that mirrors an expression: the condition of a comparison, or the group of a sequence
that mirrors the query in it. -/
inductive Expr.Mirrors : Expr → Node → Prop
  | comparison {c : PlacedComparison} {condition : Condition} (h : c.resolve = .ok condition) :
    Expr.Mirrors (.comparison c) (.condition condition)
  | group {q : Query} {nodes : List Node} (h : Query.Mirrors q nodes) :
    Expr.Mirrors (.group q) (.group nodes)

/-- A sequence that mirrors a query, with the connective that each keyword is a spelling of. -/
inductive Query.Mirrors : Query → List Node → Prop
  | single {e : Expr} {n : Node} (he : Expr.Mirrors e n) : Query.Mirrors (.single e) [n]
  | chain {e : Expr} {k : Keyword} {rest : Query} {n : Node} {c : Connective} {nodes : List Node}
    (he : Expr.Mirrors e n) (hk : c.keyword = lower k.word) (hrest : Query.Mirrors rest nodes) :
    Query.Mirrors (.chain e k rest) (n :: .connective c :: nodes)

end

/-- A word stands for the connective that it spells. -/
theorem Connective.ofKeyword?_eq_some_iff {word : String} {c : Connective} :
    ofKeyword? word = some c ↔ c.keyword = lower word := by
  refine ⟨fun h => by simpa using List.find?_some h, fun h => ?_⟩
  rw [ofKeyword?, ← h]
  cases c <;> decide

mutual

/-- An expression resolves to the nodes that mirror it. -/
theorem Expr.resolve_eq_ok_iff_mirrors : {e : Expr} → {n : Node} →
    (e.resolve = .ok n ↔ e.Mirrors n)
  | .comparison c, n => by
    rw [Expr.resolve_comparison_iff]
    refine ⟨?_, ?_⟩
    · rintro ⟨condition, hc, rfl⟩
      exact .comparison hc
    · intro h
      cases h with
      | comparison hc => exact ⟨_, hc, rfl⟩
  | .group q, n => by
    rw [Expr.resolve_group_iff]
    refine ⟨?_, ?_⟩
    · rintro ⟨nodes, hq, rfl⟩
      exact .group (Query.resolve_eq_ok_iff_mirrors.1 hq)
    · intro h
      cases h with
      | group hq => exact ⟨_, Query.resolve_eq_ok_iff_mirrors.2 hq, rfl⟩

/-- A query resolves to the sequences that mirror it. -/
theorem Query.resolve_eq_ok_iff_mirrors : {q : Query} → {nodes : List Node} →
    (q.resolve = .ok nodes ↔ q.Mirrors nodes)
  | .single e, nodes => by
    rw [Query.resolve_single_iff]
    refine ⟨?_, ?_⟩
    · rintro ⟨n, he, rfl⟩
      exact .single (Expr.resolve_eq_ok_iff_mirrors.1 he)
    · intro h
      cases h with
      | single he => exact ⟨_, Expr.resolve_eq_ok_iff_mirrors.2 he, rfl⟩
  | .chain e k rest, nodes => by
    rw [Query.resolve_chain_iff]
    simp only [Keyword.resolve_eq_ok_iff, Connective.ofKeyword?_eq_some_iff]
    refine ⟨?_, ?_⟩
    · rintro ⟨n, c, nodes, he, hk, hrest, rfl⟩
      exact .chain (Expr.resolve_eq_ok_iff_mirrors.1 he) hk
        (Query.resolve_eq_ok_iff_mirrors.1 hrest)
    · intro h
      cases h with
      | chain he hk hrest =>
        exact ⟨_, _, _, Expr.resolve_eq_ok_iff_mirrors.2 he, hk,
          Query.resolve_eq_ok_iff_mirrors.2 hrest, rfl⟩

end

/-- The first expression of a query stands at index 0 of a sequence, and every keyword with the
expression behind it at the next two indices. -/
structure Query.Aligned (Stands : Expr → Node → Prop) (q : Query) (nodes : List Node) : Prop where
  length : nodes.length = 2 * q.tail.length + 1
  head : ∃ n, nodes[0]? = some n ∧ Stands q.head n
  tail : ∀ i k e, q.tail[i]? = some (k, e) →
    ∃ c n, nodes[2 * i + 1]? = some (.connective c) ∧ c.keyword = lower k.word ∧
      nodes[2 * i + 2]? = some n ∧ Stands e n

section
variable {Stands : Expr → Node → Prop} {e : Expr} {k : Keyword} {rest : Query} {nodes : List Node}

theorem Query.aligned_single {n : Node} (h : Stands e n) :
    (Query.single e).Aligned Stands [n] :=
  ⟨rfl, ⟨n, rfl, h⟩, nofun⟩

theorem Query.Aligned.chain {n : Node} {c : Connective} (he : Stands e n)
    (hk : c.keyword = lower k.word) (h : rest.Aligned Stands nodes) :
    (Query.chain e k rest).Aligned Stands (n :: .connective c :: nodes) := by
  refine ⟨?_, ⟨n, rfl, he⟩, ?_⟩
  · simp only [Query.tail, List.length_cons, h.length]
    omega
  · intro i k' e' hi
    cases i with
    | zero =>
      obtain ⟨m, hm, hs⟩ := h.head
      cases hi
      exact ⟨c, m, rfl, hk, hm, hs⟩
    | succ i => exact h.tail i k' e' hi

end

/-- A sequence that mirrors a query has its parts at consecutive indices. -/
theorem Query.Mirrors.aligned : ∀ {q : Query} {nodes : List Node}, q.Mirrors nodes →
    q.Aligned Expr.Mirrors nodes
  | .single _, _, .single he => Query.aligned_single he
  | .chain _ _ _, _, .chain he hk hrest => hrest.aligned.chain he hk

/-! ## Every tree -/

/-- **What becomes of a tree.** It resolves if and only if it is meaningful. It resolves to the
sequences that mirror it, in which its parts stand at consecutive indices. It is refused with an
error if and only if that error is the offence of a mark before which no mark offends. -/
theorem Query.resolves_mirrored_or_first_offence (q : Query) :
    ((∃ nodes, q.resolve = .ok nodes) ↔ q.Meaningful) ∧
    (∀ nodes, q.resolve = .ok nodes ↔ q.Mirrors nodes) ∧
    (∀ nodes, q.resolve = .ok nodes → q.Aligned Expr.Mirrors nodes) ∧
    (∀ e, q.resolve = .error e ↔ ∃ front m back, q.marks = front ++ m :: back ∧ m.Offends e ∧
      ∀ m' ∈ front, ∀ e', ¬ m'.Offends e') := by
  have hreports := q.reports_resolve
  rw [q.offences_eq] at hreports
  refine ⟨?_, fun nodes => Query.resolve_eq_ok_iff_mirrors, ?_, fun e => ?_⟩
  · rw [hreports.exists_ok_iff, List.filterMap_eq_nil_iff, Query.meaningful_iff]
    simp only [Mark.offends_iff, Option.eq_none_iff_forall_ne_some, ne_eq]
  · exact fun nodes h => (Query.resolve_eq_ok_iff_mirrors.1 h).aligned
  · rw [hreports.eq_error_iff_first]
    simp only [Mark.offends_iff, Option.eq_none_iff_forall_ne_some, ne_eq]

/-- Three marks offend in `(a:1 AnD b=[*;\*]) XOR c:[*;*]`: a comparison in the group, the keyword
behind the group and a comparison at the end. The first is blamed, and not for its range but for the
operator in front of it. -/
theorem Query.resolves_mirrored_or_first_offence_competing :
    (Query.chain
      (.group (.chain (.comparison ⟨⟨"a", ":", .number "1"⟩, 1⟩) ⟨"AnD", 5⟩
        (.single (.comparison ⟨⟨"b", "=", .range "*" "\\*"⟩, 9⟩))))
      ⟨"XOR", 19⟩
      (.single (.comparison ⟨⟨"c", ":", .range "*" "*"⟩, 23⟩))).resolve =
        .error (.unknownAtomOperator "=" 9) := by
  refine ((resolves_mirrored_or_first_offence _).2.2.2 _).2
    ⟨[.opening _, .comparison ⟨⟨"a", ":", .number "1"⟩, 1⟩, .keyword ⟨"AnD", 5⟩],
      .comparison ⟨⟨"b", "=", .range "*" "\\*"⟩, 9⟩, _, rfl, .operator (by decide), ?_⟩
  intro m hm e he
  have hnone : m.offence? = none := by
    fin_cases hm <;> decide
  rw [Mark.offends_iff, hnone] at he
  cases he

end FieldQuery
