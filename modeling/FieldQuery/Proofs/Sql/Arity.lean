import Mathlib.Data.List.Basic
import FieldQuery.Proofs.Condition.Offence
import FieldQuery.Proofs.Converter
import FieldQuery.Proofs.Sql.Render

/-!
# Sequences of any shape, written

A sequence that was put together by hand need not alternate, and its conditions may have any number
of values. `renderNodes_fails_iff_and_reports_first` says what becomes of every such sequence, with
any escaper. The writing fails if and only if some condition, in a group or not, has a number of
values that does not fit its comparator. The error then names the first such condition from left to
right, and the one event on the way is the report of that condition. Otherwise nothing is reported,
and the fragment is what is written without any escaping for the sequence in which each value has
been replaced by its escaped form: the escaper reaches every value once, and nothing else.

That the walk stops in time is the bind law of `Reports`, as for resolving. That the report is made
once follows from it, since a run made of writing has nothing to report but its own error
(`renderNodes_eq`). The second half is an equation between two walks, which differ only in what is
done at a condition (`Sql.write_mapValues`).
-/

namespace FieldQuery

open Sql

/-! ## Conditions that do not fit -/

/-- A condition with as many values as its comparator takes. -/
def Condition.Fits (c : Condition) : Prop :=
  c.values.length = c.comparator.arity

instance (c : Condition) : Decidable c.Fits :=
  inferInstanceAs (Decidable (_ = _))

/-- The error of a condition that does not fit. -/
def Condition.arityError (c : Condition) : ArityError :=
  ⟨c.field, c.comparator, c.values.length⟩

/-- The error of a condition, if it does not fit. -/
def Condition.misfit? (c : Condition) : Option ArityError :=
  if c.Fits then none else some c.arityError

mutual

/-- The conditions of a node, those of a group from left to right. -/
def Node.conditions : Node → List Condition
  | .condition c => [c]
  | .connective _ => []
  | .group nodes => conditionsOf nodes

/-- The conditions of a sequence, from left to right and at every depth. -/
def conditionsOf : List Node → List Condition
  | [] => []
  | n :: nodes => n.conditions ++ conditionsOf nodes

end

/-- A condition that fits has one value, or it has the two bounds of an interval. -/
theorem Condition.Fits.single_or_between {c : Condition} (h : c.Fits) :
    (∃ field comparator value, c = ⟨field, comparator, [value]⟩ ∧ comparator ≠ .between) ∨
    ∃ field lower upper, c = ⟨field, .between, [lower, upper]⟩ := by
  obtain ⟨field, comparator, values⟩ := c
  cases comparator with
  | between =>
    obtain ⟨lower, upper, rfl⟩ := List.length_eq_two.1 h
    exact .inr ⟨field, lower, upper, rfl⟩
  | equal | greater | less =>
    obtain ⟨value, rfl⟩ := List.length_eq_one_iff.1 h
    exact .inl ⟨field, _, value, rfl, by decide⟩

/-- A condition that does not fit cannot be written. -/
theorem Sql.renderCondition_of_not_fits (style : Style) {c : Condition} (h : ¬ c.Fits) :
    renderCondition style c = .error c.arityError := by
  unfold renderCondition
  split
  case h_5 => rfl
  all_goals
    next hc hv => exact absurd (by rw [Condition.Fits, hc, hv]; rfl) h

/-- A condition that fits can be written. -/
theorem Sql.exists_renderCondition_of_fits (style : Style) {c : Condition} (h : c.Fits) :
    ∃ text, renderCondition style c = .ok text := by
  rcases h.single_or_between with ⟨field, comparator, value, rfl, hne⟩ | ⟨field, lower, upper, rfl⟩
  · obtain ⟨text, ht, -⟩ := renderCondition_single style field value hne
    exact ⟨text, ht⟩
  · exact ⟨_, rfl⟩

/-! ## The first condition that does not fit -/

/-- A condition reports that it does not fit. -/
theorem Sql.reports_renderCondition (style : Style) (c : Condition) :
    Reports (renderCondition style c) c.misfit?.toList := by
  rw [Condition.misfit?]
  by_cases h : c.Fits
  · obtain ⟨text, ht⟩ := exists_renderCondition_of_fits style h
    rw [ht, if_pos h]
    exact .pure text
  · rw [renderCondition_of_not_fits style h, if_neg h]
    rfl

mutual

/-- A node reports its first condition that does not fit. -/
theorem Sql.reports_renderNode (style : Style) : (n : Node) →
    Reports (renderNode style n) (n.conditions.filterMap Condition.misfit?)
  | .condition c => by
    have hc := reports_renderCondition style c
    rw [Node.conditions, List.filterMap_cons]
    cases hm : c.misfit? with
    | none | some e => rwa [hm] at hc
  | .connective c => .pure c.symbol
  | .group nodes => by
    rw [renderNode_group, Node.conditions,
      ← List.append_nil ((conditionsOf nodes).filterMap Condition.misfit?)]
    exact (Sql.reports_renderParts style nodes).bind fun _ => .pure _

/-- The nodes of a sequence report the first condition that does not fit. -/
theorem Sql.reports_renderParts (style : Style) : (nodes : List Node) →
    Reports (renderParts style nodes) ((conditionsOf nodes).filterMap Condition.misfit?)
  | [] => .pure []
  | n :: nodes => by
    rw [renderParts_cons, conditionsOf, List.filterMap_append,
      ← List.append_nil ((conditionsOf nodes).filterMap Condition.misfit?)]
    exact (Sql.reports_renderNode style n).bind fun _ =>
      (Sql.reports_renderParts style nodes).bind fun _ => .pure _

end

/-- A sequence reports its first condition that does not fit. -/
theorem Sql.reports_render (style : Style) (nodes : List Node) :
    Reports (render style nodes) ((conditionsOf nodes).filterMap Condition.misfit?) := by
  rw [render_eq, ← List.append_nil ((conditionsOf nodes).filterMap Condition.misfit?)]
  exact (reports_renderParts style nodes).bind fun _ => .pure _

/-! ## Values replaced -/

/-- A condition with each of its values replaced. -/
def Condition.mapValues (f : String → String) (c : Condition) : Condition :=
  { c with values := c.values.map f }

mutual

/-- A node with each value in it replaced. -/
def Node.mapValues (f : String → String) : Node → Node
  | .condition c => .condition (c.mapValues f)
  | .connective c => .connective c
  | .group nodes => .group (mapValuesOf f nodes)

/-- A sequence with each value in it replaced. -/
def mapValuesOf (f : String → String) : List Node → List Node
  | [] => []
  | n :: nodes => n.mapValues f :: mapValuesOf f nodes

end

section
variable {m : Type → Type} [Monad m] (condition : Condition → m String) (f : String → String)

mutual

/-- Values may be replaced before a node is written or while it is. -/
theorem Sql.writeNode_mapValues : (n : Node) →
    writeNode condition (n.mapValues f) = writeNode (fun c => condition (c.mapValues f)) n
  | .condition _ | .connective _ => rfl
  | .group nodes => by
    rw [Node.mapValues, writeNode, writeNode, Sql.writeParts_mapValues nodes]

/-- Values may be replaced before the nodes of a sequence are written or while they are. -/
theorem Sql.writeParts_mapValues : (nodes : List Node) →
    writeParts condition (mapValuesOf f nodes) =
      writeParts (fun c => condition (c.mapValues f)) nodes
  | [] => rfl
  | n :: nodes => by
    rw [mapValuesOf, writeParts, writeParts, Sql.writeNode_mapValues n,
      Sql.writeParts_mapValues nodes]

end

/-- Values may be replaced before a sequence is written or while it is. -/
theorem Sql.write_mapValues (nodes : List Node) :
    write condition (mapValuesOf f nodes) = write (fun c => condition (c.mapValues f)) nodes := by
  rw [write, write, writeParts_mapValues]

end

/-- Replacing the values of a condition leaves its error as it is. -/
@[simp] theorem Condition.arityError_mapValues (f : String → String) (c : Condition) :
    (c.mapValues f).arityError = c.arityError := by
  simp [arityError, mapValues]

/-- Replacing the values of a condition does not change whether it fits. -/
@[simp] theorem Condition.fits_mapValues {f : String → String} {c : Condition} :
    (c.mapValues f).Fits ↔ c.Fits := by
  simp [Fits, mapValues]

/-- A condition is written as the condition with its values escaped is without any escaping. -/
theorem Sql.renderCondition_mapValues (style : Style) (c : Condition) :
    renderCondition ⟨id, style.quoting⟩ (c.mapValues style.escaper) = renderCondition style c := by
  by_cases h : c.Fits
  · rcases h.single_or_between with ⟨field, comparator, value, rfl, hne⟩ |
      ⟨field, lower, upper, rfl⟩
    · cases comparator with
      | between => exact absurd rfl hne
      | equal | greater | less => rfl
    · rfl
  · rw [renderCondition_of_not_fits style h,
      renderCondition_of_not_fits _ (mt Condition.fits_mapValues.1 h),
      Condition.arityError_mapValues]

/-- A sequence is written as the sequence with its values escaped is without any escaping. -/
theorem Sql.render_mapValues (style : Style) (nodes : List Node) :
    render ⟨id, style.quoting⟩ (mapValuesOf style.escaper nodes) = render style nodes := by
  rw [render, write_mapValues, render, funext (renderCondition_mapValues style)]

/-! ## Every sequence -/

/-- A condition has an error if it does not fit. -/
theorem Condition.misfit?_eq_some_iff {c : Condition} {e : ArityError} :
    c.misfit? = some e ↔ ¬ c.Fits ∧ e = c.arityError := by
  simp [misfit?, eq_comm]

theorem Condition.misfit?_eq_none_iff {c : Condition} : c.misfit? = none ↔ c.Fits := by
  simp [misfit?]

/-- **What becomes of a sequence of any shape.** It fails to be written if and only if some
condition in it does not have as many values as its comparator takes. Then the error is that of the
first such condition, and the report of that condition is the one event, on the level of errors.
Otherwise there is no event, and the fragment is that of the sequence with its values escaped
beforehand, written without any escaping. -/
theorem renderNodes_fails_iff_and_reports_first (style : Style) (nodes : List Node) :
    ((∃ e, (renderNodes style nodes).outcome = .error e) ↔
      ∃ c ∈ conditionsOf nodes, c.values.length ≠ c.comparator.arity) ∧
    (∀ e, (renderNodes style nodes).outcome = .error e →
      ∃ front c back, conditionsOf nodes = front ++ c :: back ∧
        (∀ c' ∈ front, c'.values.length = c'.comparator.arity) ∧
        c.values.length ≠ c.comparator.arity ∧
        e = .unwritable ⟨c.field, c.comparator, c.values.length⟩ ∧
        (renderNodes style nodes).log = [.unwritable ⟨c.field, c.comparator, c.values.length⟩] ∧
        (renderNodes style nodes).log.map Event.level = [.error]) ∧
    (∀ sql, (renderNodes style nodes).outcome = .ok sql →
      (renderNodes style nodes).log = [] ∧
      (renderNodes ⟨id, style.quoting⟩ (mapValuesOf style.escaper nodes)).outcome = .ok sql) := by
  have hreports := reports_render style nodes
  have hescaped : renderNodes ⟨id, style.quoting⟩ (mapValuesOf style.escaper nodes) =
      renderNodes style nodes := by
    rw [renderNodes_eq, renderNodes_eq, render_mapValues]
  rw [hescaped, renderNodes_eq]
  cases hr : render style nodes with
  | ok sql =>
    have hfit : ∀ c ∈ conditionsOf nodes, c.Fits := by
      have hnil := hreports.exists_ok_iff.1 ⟨sql, hr⟩
      exact fun c hc => Condition.misfit?_eq_none_iff.1 (List.filterMap_eq_nil_iff.1 hnil c hc)
    refine ⟨iff_of_false nofun ?_, nofun, fun _ h => ⟨rfl, h⟩⟩
    exact fun ⟨c, hc, hne⟩ => hne (hfit c hc)
  | error e =>
    obtain ⟨front, c, back, heq, hc, hfront⟩ := hreports.eq_error_iff_first.1 hr
    obtain ⟨hne, rfl⟩ := Condition.misfit?_eq_some_iff.1 hc
    refine ⟨iff_of_true ⟨_, rfl⟩ ⟨c, by simp [heq], hne⟩, ?_, nofun⟩
    rintro e he
    cases he
    exact ⟨front, c, back, heq, fun c' hc' => Condition.misfit?_eq_none_iff.1 (hfront c' hc'), hne,
      rfl, rfl, rfl⟩

/-- Two conditions do not fit in a sequence that does not alternate, and the one in the inner group
is the first. A sequence without any is written, with its value escaped. -/
theorem renderNodes_fails_iff_and_reports_first_nested :
    (renderNodes ⟨mysql, .ansi⟩ [.connective .or, .group [.group [.condition ⟨"a", .equal, ["1"]⟩,
      .condition ⟨"b", .between, ["4"]⟩]], .condition ⟨"c", .less, []⟩]).log =
        [.unwritable ⟨"b", .between, 1⟩] ∧
    (renderNodes ⟨id, .ansi⟩ [.connective .or,
      .group [.condition ⟨"a", .equal, ["it''s"]⟩]]).outcome = .ok "OR (a = 'it''s')" := by
  refine ⟨?_, ?_⟩
  · obtain ⟨front, c, back, -, -, -, he, hlog, -⟩ :=
      (renderNodes_fails_iff_and_reports_first ⟨mysql, .ansi⟩ [.connective .or,
        .group [.group [.condition ⟨"a", .equal, ["1"]⟩, .condition ⟨"b", .between, ["4"]⟩]],
        .condition ⟨"c", .less, []⟩]).2.1 (.unwritable ⟨"b", .between, 1⟩) (by decide)
    rw [hlog, ← Error.unwritable.inj he]
  · exact ((renderNodes_fails_iff_and_reports_first ⟨ansi, .ansi⟩
      [.connective .or, .group [.condition ⟨"a", .equal, ["it's"]⟩]]).2.2 _ (by decide)).2

end FieldQuery
