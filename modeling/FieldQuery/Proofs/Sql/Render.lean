import FieldQuery.Proofs.Condition.Resolve
import FieldQuery.Proofs.Condition.WellFormed
import FieldQuery.Sql.Render

/-!
# Writing, taken apart

The text of a condition in terms of its parts, and what has to hold of the parts of a node or a
sequence for it to be written as a given text. A well-formed sequence can always be written
(`exists_render`).
-/

namespace FieldQuery.Sql

/-! ## Conditions -/

/-- What is written for a condition with one value. -/
theorem renderCondition_single (style : Style) (field value : String) {c : Comparator}
    (hc : c ≠ .between) :
    ∃ text, renderCondition style ⟨field, c, [value]⟩ = .ok text ∧
      text.toList = (style.quoting.identifier field).toList ++ ' ' :: c.symbol.toList ++
        ' ' :: (literal style.escaper value).toList := by
  cases c with
  | between => exact absurd rfl hc
  | equal | greater | less => exact ⟨_, rfl, by simp [Comparator.symbol]⟩

/-- What is written for a condition with two bounds. -/
theorem renderCondition_between (style : Style) (field lower upper : String) :
    ∃ text, renderCondition style ⟨field, .between, [lower, upper]⟩ = .ok text ∧
      text.toList = (style.quoting.identifier field).toList ++
        ' ' :: Comparator.between.symbol.toList ++ ' ' :: (literal style.escaper lower).toList ++
        " AND ".toList ++ (literal style.escaper upper).toList :=
  ⟨_, rfl, by simp [Comparator.symbol]⟩

/-- What is written for a well-formed condition starts with an identifier and a comparator. -/
theorem exists_of_renderCondition {style : Style} {c : Condition} {text : String}
    (hc : c.WellFormed) (ht : renderCondition style c = .ok text) :
    ∃ tail, text.toList = (style.quoting.identifier c.field).toList ++
      ' ' :: (c.comparator.symbol.toList ++ ' ' :: tail) := by
  rcases hc.single_or_between with ⟨field, comparator, value, rfl, hne, -, -⟩ |
    ⟨field, lower, upper, rfl, -, -, -⟩
  · obtain ⟨text', ht', hlist⟩ := renderCondition_single style field value hne
    obtain rfl : text' = text := Except.ok.inj (ht'.symm.trans ht)
    exact ⟨_, by simpa using hlist⟩
  · obtain ⟨text', ht', hlist⟩ := renderCondition_between style field lower upper
    obtain rfl : text' = text := Except.ok.inj (ht'.symm.trans ht)
    exact ⟨_, by simpa using hlist⟩

/-! ## Nodes and sequences -/

theorem renderNode_group_iff {style : Style} {nodes : List Node} {text : String} :
    renderNode style (.group nodes) = .ok text ↔
      ∃ parts, renderParts style nodes = .ok parts ∧
        text = "(" ++ " ".intercalate parts ++ ")" := by
  rw [renderNode_group, Except.bind_eq_ok_iff]
  simp [pure, Except.pure, eq_comm]

theorem renderParts_cons_iff {style : Style} {n : Node} {nodes : List Node} {parts : List String} :
    renderParts style (n :: nodes) = .ok parts ↔
      ∃ part parts', renderNode style n = .ok part ∧ renderParts style nodes = .ok parts' ∧
        parts = part :: parts' := by
  rw [renderParts_cons]
  simp only [Except.bind_eq_ok_iff, pure, Except.pure, Except.ok.injEq]
  grind

theorem render_eq_ok_iff {style : Style} {nodes : List Node} {sql : String} :
    render style nodes = .ok sql ↔
      ∃ parts, renderParts style nodes = .ok parts ∧ sql = " ".intercalate parts := by
  rw [render_eq, Except.bind_eq_ok_iff]
  simp [pure, Except.pure, eq_comm]

/-! ## What can be written -/

/-- A sequence can be written if each of its operands can. -/
theorem exists_renderParts {style : Style} {Operand : Node → Prop} {nodes : List Node}
    (hwrite : ∀ n, Operand n → ∃ text, renderNode style n = .ok text)
    (h : Alternates Operand nodes) : ∃ parts, renderParts style nodes = .ok parts := by
  induction h using Alternates.chainRec with
  | single n hn =>
    obtain ⟨text, ht⟩ := hwrite n hn
    exact ⟨[text], renderParts_cons_iff.2 ⟨text, [], ht, rfl, rfl⟩⟩
  | chain n c nodes hn _ _ ih =>
    obtain ⟨text, ht⟩ := hwrite n hn
    obtain ⟨parts, hparts⟩ := ih
    exact ⟨text :: c.symbol :: parts, renderParts_cons_iff.2 ⟨text, _, ht,
      renderParts_cons_iff.2 ⟨c.symbol, parts, rfl, hparts, rfl⟩, rfl⟩⟩

/-- Every operand can be written. -/
theorem exists_renderNode (style : Style) : ∀ {depth : Nat} {n : Node}, n.IsOperand depth →
    ∃ text, renderNode style n = .ok text
  | _, .condition c, h => by
    rcases (Node.isOperand_condition.1 h).single_or_between with
      ⟨field, comparator, value, rfl, hne, -, -⟩ | ⟨field, lower, upper, rfl, -, -, -⟩
    · obtain ⟨text, ht, -⟩ := renderCondition_single style field value hne
      exact ⟨text, ht⟩
    · obtain ⟨text, ht, -⟩ := renderCondition_between style field lower upper
      exact ⟨text, ht⟩
  | _, .connective _, h => absurd h Node.not_isOperand_connective
  | depth + 1, .group nodes, h => by
    obtain ⟨parts, hparts⟩ := exists_renderParts (fun _ => exists_renderNode style) h
    exact ⟨_, renderNode_group_iff.2 ⟨parts, hparts, rfl⟩⟩

/-- Every well-formed sequence can be written. -/
theorem exists_render (style : Style) {depth : Nat} {nodes : List Node}
    (h : WellFormed depth nodes) : ∃ sql, render style nodes = .ok sql := by
  obtain ⟨parts, hparts⟩ := exists_renderParts (fun _ => exists_renderNode style) h
  exact ⟨_, render_eq_ok_iff.2 ⟨parts, hparts, rfl⟩⟩

end FieldQuery.Sql
