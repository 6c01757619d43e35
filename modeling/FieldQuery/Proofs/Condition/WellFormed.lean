import FieldQuery.Condition.Resolve
import FieldQuery.Proofs.Surface.Grammar

/-!
# Well-formed sequences

The type of nodes holds more than canonical sequences. A sequence is well-formed for a nesting
limit if operands and connectives alternate in it, starting and ending with an operand, and each
operand is one: a condition with a field name and the values that its comparator takes, or a group
whose content is well-formed for a limit one lower.

`Alternates` states alternation by index; `Alternates.chainRec` turns it into an induction with one
case for a single operand and one for an operand, a connective and a shorter sequence.
-/

namespace FieldQuery

open Grammar

/-- A value that can be a bound of an interval: not empty, without separators, brackets and
semicolons, and not the wildcard. -/
def IsBound (v : String) : Prop :=
  IsRun Bound v.toList ∧ v ≠ wildcard

/-- A condition on a field name with two bounds, or with one value that is not empty. -/
structure Condition.WellFormed (c : Condition) : Prop where
  field : IsField c.field.toList
  values : match c.comparator with
    | .between => ∃ lower upper, c.values = [lower, upper] ∧ IsBound lower ∧ IsBound upper
    | .equal | .greater | .less => ∃ value, c.values = [value] ∧ value ≠ ""

/-- A well-formed condition has one value, or it has two bounds. -/
theorem Condition.WellFormed.single_or_between {c : Condition} (h : c.WellFormed) :
    (∃ field comparator value, c = ⟨field, comparator, [value]⟩ ∧ comparator ≠ .between ∧
      IsField field.toList ∧ value ≠ "") ∨
    ∃ field lower upper, c = ⟨field, .between, [lower, upper]⟩ ∧ IsField field.toList ∧
      IsBound lower ∧ IsBound upper := by
  obtain ⟨field, comparator, values⟩ := c
  obtain ⟨hf, hv⟩ := h
  cases comparator with
  | between =>
    obtain ⟨lower, upper, rfl, hl, hu⟩ := hv
    exact .inr ⟨field, lower, upper, rfl, hf, hl, hu⟩
  | equal | greater | less =>
    obtain ⟨value, rfl, hne⟩ := hv
    exact .inl ⟨field, _, value, rfl, by decide, hf, hne⟩

/-- A connective that a keyword stands for. -/
def Node.IsJoint (n : Node) : Prop :=
  ∃ c, n = .connective c ∧ c ≠ .not

/-- An odd number of nodes, operands at the even indices and connectives at the odd ones. -/
structure Alternates (Operand : Node → Prop) (nodes : List Node) : Prop where
  odd : nodes.length % 2 = 1
  operand : ∀ i n, i % 2 = 0 → nodes[i]? = some n → Operand n
  joint : ∀ i n, i % 2 = 1 → nodes[i]? = some n → n.IsJoint

/-- A well-formed condition, or a group that is well-formed inside. -/
def Node.IsOperand : Nat → Node → Prop
  | _, .condition c => c.WellFormed
  | _, .connective _ => False
  | 0, .group _ => False
  | depth + 1, .group nodes => Alternates (Node.IsOperand depth) nodes

/-- A sequence that is well-formed, with groups at most `depth` deep. -/
def WellFormed (depth : Nat) (nodes : List Node) : Prop :=
  Alternates (Node.IsOperand depth) nodes

@[simp] theorem Node.isOperand_condition {depth : Nat} {c : Condition} :
    (Node.condition c).IsOperand depth ↔ c.WellFormed := by
  cases depth <;> rfl

theorem Node.not_isOperand_connective {depth : Nat} {c : Connective} :
    ¬ (Node.connective c).IsOperand depth := by
  cases depth <;> exact id

section
variable {Operand : Node → Prop}

theorem alternates_singleton {n : Node} : Alternates Operand [n] ↔ Operand n := by
  refine ⟨?_, ?_⟩
  · exact fun h => h.operand 0 n rfl rfl
  · refine fun h => ⟨rfl, fun i m hi hm => ?_, fun i m hi hm => ?_⟩
    · obtain ⟨rfl, rfl⟩ : i = 0 ∧ n = m := by simpa [List.getElem?_singleton] using hm
      exact h
    · obtain ⟨rfl, rfl⟩ : i = 0 ∧ n = m := by simpa [List.getElem?_singleton] using hm
      cases hi

theorem alternates_cons {n m : Node} {nodes : List Node} :
    Alternates Operand (n :: m :: nodes) ↔ Operand n ∧ m.IsJoint ∧ Alternates Operand nodes := by
  refine ⟨?_, ?_⟩
  · intro h
    refine ⟨h.operand 0 n rfl rfl, h.joint 1 m rfl rfl, ?_, fun i k hi hk => ?_,
      fun i k hi hk => ?_⟩
    · have := h.odd
      simp only [List.length_cons] at this
      omega
    · exact h.operand (i + 2) k (by omega) (by simpa using hk)
    · exact h.joint (i + 2) k (by omega) (by simpa using hk)
  · rintro ⟨hn, hm, h⟩
    refine ⟨?_, fun i k hi hk => ?_, fun i k hi hk => ?_⟩
    · have := h.odd
      simp only [List.length_cons]
      omega
    · match i with
      | 0 => cases hk; exact hn
      | i + 2 => exact h.operand i k (by omega) (by simpa using hk)
    · match i with
      | 1 => cases hk; exact hm
      | i + 2 => exact h.joint i k (by omega) (by simpa using hk)

theorem not_alternates_nil : ¬ Alternates Operand [] :=
  fun h => nomatch h.odd

/-- Induction along an alternating sequence. -/
@[elab_as_elim]
theorem Alternates.chainRec {motive : ∀ nodes, Alternates Operand nodes → Prop}
    (single : ∀ n (hn : Operand n), motive [n] (alternates_singleton.2 hn))
    (chain : ∀ n c nodes (hn : Operand n) (hc : c ≠ .not) (h : Alternates Operand nodes),
      motive nodes h →
        motive (n :: .connective c :: nodes) (alternates_cons.2 ⟨hn, ⟨c, rfl, hc⟩, h⟩)) :
    ∀ {nodes} (h : Alternates Operand nodes), motive nodes h
  | [], h => absurd h not_alternates_nil
  | [n], h => single n (alternates_singleton.1 h)
  | n :: m :: nodes, h => by
    obtain ⟨hn, ⟨c, rfl, hc⟩, hnodes⟩ := alternates_cons.1 h
    exact chain n c nodes hn hc hnodes (chainRec single chain hnodes)

end

end FieldQuery
