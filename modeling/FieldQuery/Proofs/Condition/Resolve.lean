import FieldQuery.Condition.Resolve
import FieldQuery.Proofs.Surface.Lexeme

/-!
# Resolving, taken apart

What has to hold of the parts of a tree for the tree to resolve to a given node or sequence, and
what a keyword of the grammar resolves to.
-/

namespace FieldQuery

open Text Grammar

/-- A computation of two steps succeeds if both steps do. -/
theorem Except.bind_eq_ok_iff {ε α β : Type} {x : Except ε α} {f : α → Except ε β} {b : β} :
    x >>= f = .ok b ↔ ∃ a, x = .ok a ∧ f a = .ok b := by
  cases x <;> simp [bind, Except.bind]

theorem Expr.resolve_comparison_iff {c : PlacedComparison} {n : Node} :
    (Expr.comparison c).resolve = .ok n ↔ ∃ condition, c.resolve = .ok condition ∧
      n = .condition condition := by
  rw [Expr.resolve, Except.bind_eq_ok_iff]
  simp [pure, Except.pure, eq_comm]

theorem Expr.resolve_group_iff {q : Query} {n : Node} :
    (Expr.group q).resolve = .ok n ↔ ∃ nodes, q.resolve = .ok nodes ∧ n = .group nodes := by
  rw [Expr.resolve, Except.bind_eq_ok_iff]
  simp [pure, Except.pure, eq_comm]

theorem Query.resolve_single_iff {e : Expr} {nodes : List Node} :
    (Query.single e).resolve = .ok nodes ↔ ∃ n, e.resolve = .ok n ∧ nodes = [n] := by
  rw [Query.resolve, Except.bind_eq_ok_iff]
  simp [pure, Except.pure, eq_comm]

theorem Query.resolve_chain_iff {e : Expr} {k : Keyword} {q : Query} {nodes : List Node} :
    (Query.chain e k q).resolve = .ok nodes ↔
      ∃ n c nodes', e.resolve = .ok n ∧ k.resolve = .ok c ∧ q.resolve = .ok nodes' ∧
        nodes = n :: .connective c :: nodes' := by
  rw [Query.resolve]
  simp only [Except.bind_eq_ok_iff, pure, Except.pure, Except.ok.injEq]
  grind

/-- A letter has the same small letter in either case. -/
theorem Text.toLower_either_case (c : Char) :
    c.toUpper.toLower = c.toLower ∧ c.toLower.toLower = c.toLower := by
  by_cases h : c.toNat < 128
  · have hascii : ∀ n < 128, (Char.ofNat n).toUpper.toLower = (Char.ofNat n).toLower ∧
        (Char.ofNat n).toLower.toLower = (Char.ofNat n).toLower := by decide
    rw [← Char.ofNat_toNat c]
    exact hascii c.toNat h
  · have hupper : c.toUpper = c := dif_neg fun hc =>
      h (Nat.lt_of_le_of_lt (UInt32.le_iff_toNat_le.1 hc.2) (by decide))
    have hlower : c.toLower = c := dif_neg fun hc =>
      h (Nat.lt_of_le_of_lt (UInt32.le_iff_toNat_le.1 hc.2) (by decide))
    simp only [hupper, hlower, and_self]

/-- A text and its capitals have the same small letters. -/
theorem Text.lower_eq (word : String) :
    lower word = .ofList ((word.toList.map Char.toUpper).map Char.toLower) := by
  simp only [lower, List.map_map, Function.comp_def, toLower_either_case]

theorem Text.lower_lower (word : String) : lower (lower word) = lower word := by
  simp only [lower, String.toList_ofList, List.map_map, Function.comp_def, toLower_either_case]

/-- The connectives that keywords of the grammar stand for. -/
theorem Keyword.ofKeyword?_of_isKeyword {word : String} (h : IsKeyword word.toList) :
    ∃ c, Connective.ofKeyword? word = some c ∧ c ≠ .not := by
  simp only [IsKeyword, List.mem_cons, List.not_mem_nil, or_false] at h
  rw [Connective.ofKeyword?, lower_eq]
  rcases h with h | h | h
  · exact ⟨.or, by rw [h]; decide, by decide⟩
  · exact ⟨.andNot, by rw [h]; decide, by decide⟩
  · exact ⟨.and, by rw [h]; decide, by decide⟩

/-- A keyword resolves to the connective that its word stands for. -/
theorem Keyword.resolve_eq_ok_iff {k : Keyword} {c : Connective} :
    k.resolve = .ok c ↔ Connective.ofKeyword? k.word = some c := by
  unfold Keyword.resolve
  cases Connective.ofKeyword? k.word <;> simp

/-- A keyword of the grammar resolves to a connective that joins two operands. -/
theorem Keyword.ne_not_of_resolve {k : Keyword} {c : Connective} (hk : IsKeyword k.word.toList)
    (h : k.resolve = .ok c) : c ≠ .not := by
  obtain ⟨c', hc', hne⟩ := Keyword.ofKeyword?_of_isKeyword hk
  rw [Keyword.resolve_eq_ok_iff, hc'] at h
  cases h
  exact hne

/-- What a comparison resolves to does not depend on its offset. -/
theorem PlacedComparison.resolve_eq_ok_congr {c : Comparison} {pos pos' : Nat}
    {condition : Condition} (h : (PlacedComparison.mk c pos).resolve = .ok condition) :
    (PlacedComparison.mk c pos').resolve = .ok condition := by
  unfold resolve at h ⊢
  dsimp only at h ⊢
  generalize Comparator.ofOperator? c.operator = comparator at h ⊢
  generalize c.value = v at h ⊢
  cases comparator with
  | none => cases h
  | some comparator =>
    cases v with
    | quoted text | unquoted text | number text => exact h
    | range left right =>
      dsimp only at h ⊢
      generalize Condition.ofRange? c.field (unescapeText left) (unescapeText right) = range at h ⊢
      cases range with
      | none => cases h
      | some range => exact h

mutual

/-- What an expression resolves to does not depend on its offsets. -/
theorem Expr.resolve_eq_ok_of_unplaced : ∀ {e e' : Expr} {n : Node}, e.unplaced = e'.unplaced →
    e.resolve = .ok n → e'.resolve = .ok n
  | .comparison ⟨c, _⟩, .comparison ⟨c', _⟩, n, heq, h => by
    obtain rfl : c = c' := by injection heq with heq; injection heq
    obtain ⟨condition, hc, rfl⟩ := Expr.resolve_comparison_iff.1 h
    exact Expr.resolve_comparison_iff.2 ⟨condition, PlacedComparison.resolve_eq_ok_congr hc, rfl⟩
  | .group q, .group q', n, heq, h => by
    obtain ⟨nodes, hq, rfl⟩ := Expr.resolve_group_iff.1 h
    injection heq with heq
    exact Expr.resolve_group_iff.2 ⟨nodes, Query.resolve_eq_ok_of_unplaced heq hq, rfl⟩

/-- What a query resolves to does not depend on its offsets. -/
theorem Query.resolve_eq_ok_of_unplaced : ∀ {q q' : Query} {nodes : List Node},
    q.unplaced = q'.unplaced → q.resolve = .ok nodes → q'.resolve = .ok nodes
  | .single e, .single e', nodes, heq, h => by
    obtain ⟨n, he, rfl⟩ := Query.resolve_single_iff.1 h
    injection heq with heq
    exact Query.resolve_single_iff.2 ⟨n, Expr.resolve_eq_ok_of_unplaced heq he, rfl⟩
  | .chain e k q, .chain e' k' q', nodes, heq, h => by
    obtain ⟨n, c, nodes, he, hk, hq, rfl⟩ := Query.resolve_chain_iff.1 h
    injection heq with heqe heqk heqq
    injection heqk with heqk
    rw [Keyword.resolve_eq_ok_iff, heqk, ← Keyword.resolve_eq_ok_iff] at hk
    exact Query.resolve_chain_iff.2 ⟨n, c, nodes, Expr.resolve_eq_ok_of_unplaced heqe he, hk,
      Query.resolve_eq_ok_of_unplaced heqq hq, rfl⟩

end

end FieldQuery
