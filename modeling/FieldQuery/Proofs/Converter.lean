import FieldQuery.Converter
import FieldQuery.Proofs.Surface.Acceptance

/-!
# What a converter answers

The outcomes of a converter in terms of parsing, resolving and writing, without the events.
-/

namespace FieldQuery

/-- A computation succeeds with renamed errors if it succeeds without. -/
theorem Except.mapError_eq_ok_iff {ε ε' α : Type} {f : ε → ε'} {x : Except ε α} {a : α} :
    x.mapError f = .ok a ↔ x = .ok a := by
  cases x with
  | error e => exact ⟨nofun, nofun⟩
  | ok b => exact ⟨fun h => congrArg _ (Except.ok.inj h), fun h => congrArg _ (Except.ok.inj h)⟩

/-- The empty text is no query. -/
theorem Query.parse_empty {limit : Nat} {t : Query} : Query.parse limit "" ≠ .ok t := by
  intro h
  rcases Tokens.operand_step h with ⟨s, hs, -⟩ | ⟨c, rest, hc, -⟩
  · cases hs
  · cases hc

theorem readNodes_eq_ok_iff {config : Config} {query : String} {nodes : List Node} :
    readNodes config query = .ok nodes ↔
      ∃ t, Query.parse config.maxDepth query = .ok t ∧ t.resolve = .ok nodes := by
  unfold readNodes
  cases Query.parse config.maxDepth query with
  | error e => simp
  | ok t => cases ht : t.resolve <;> simp [ht]

/-! ## Writing as a run -/

/-- Two steps of writing, one after the other, are two runs, one after the other. -/
theorem Run.ofWriting_bind {α β : Type} (x : Except Sql.ArityError α)
    (f : α → Except Sql.ArityError β) :
    ofWriting (x >>= f) = ofWriting x >>= fun a => ofWriting (f a) := by
  cases x <;> rfl

section
variable (condition : Condition → Except Sql.ArityError String)

mutual

/-- A node that is written with reports is written as without, and what stops it is reported. -/
theorem Sql.writeNode_ofWriting (n : Node) :
    writeNode (fun c => Run.ofWriting (condition c)) n =
      Run.ofWriting (writeNode condition n) := by
  cases n with
  | condition | connective => rfl
  | group nodes =>
    rw [writeNode, writeNode, Run.ofWriting_bind, Sql.writeParts_ofWriting nodes]
    rfl

/-- The nodes of a sequence that is written with reports are written as without. -/
theorem Sql.writeParts_ofWriting (nodes : List Node) :
    writeParts (fun c => Run.ofWriting (condition c)) nodes =
      Run.ofWriting (writeParts condition nodes) := by
  cases nodes with
  | nil => rfl
  | cons n nodes =>
    rw [writeParts, writeParts, Run.ofWriting_bind, Sql.writeNode_ofWriting n]
    simp only [Run.ofWriting_bind, Sql.writeParts_ofWriting nodes]
    rfl

end

end

/-- A sequence is written as without reports, and what stops the writing is reported once. -/
theorem renderNodes_eq (style : Sql.Style) (nodes : List Node) :
    renderNodes style nodes = Run.ofWriting (Sql.render style nodes) := by
  rw [renderNodes, Sql.render, Sql.write, Sql.write, Run.ofWriting_bind, Sql.writeParts_ofWriting]
  rfl

/-! ## Outcomes -/

namespace Converter

/-- A text has a canonical sequence if it is empty or if it is a query that resolves. -/
theorem ast_eq_ok_iff {c : Converter} {query : String} {nodes : List Node} :
    (c.ast query).outcome = .ok nodes ↔ query = "" ∧ nodes = [] ∨
      ∃ t, Query.parse c.config.maxDepth query = .ok t ∧ t.resolve = .ok nodes := by
  by_cases hq : query = ""
  · subst hq
    simp only [ast, if_true, Run.silent, Query.parse_empty, false_and, exists_false, or_false,
      true_and, Except.ok.injEq]
    exact eq_comm
  · rw [← readNodes_eq_ok_iff, ast, if_neg hq]
    cases readNodes c.config query <;> simp [hq]

/-- A text that has a canonical sequence converts to the fragment of the sequence, if it can be
written, and a text that has none is refused for the same reason. -/
theorem convert_outcome (c : Converter) (query : String) :
    (c.convert query).outcome = match (c.ast query).outcome with
      | .ok nodes => (Sql.render c.style nodes).mapError .unwritable
      | .error e => .error e := by
  by_cases hq : query = ""
  · subst hq
    rfl
  · rw [convert, if_neg hq]
    simp only [bind, Run.bind, Run.emit, pure, Run.silent]
    cases (c.ast query).outcome with
    | error e => simp
    | ok nodes =>
      simp only [renderNodes_eq]
      cases Sql.render c.style nodes with
      | error e => rfl
      | ok sql => rfl

/-- A text has a fragment if it has a canonical sequence that can be written. -/
theorem convert_eq_ok_iff {c : Converter} {query sql : String} :
    (c.convert query).outcome = .ok sql ↔
      ∃ nodes, (c.ast query).outcome = .ok nodes ∧ Sql.render c.style nodes = .ok sql := by
  rw [convert_outcome]
  cases (c.ast query).outcome with
  | error e => simp
  | ok nodes => simp [Except.mapError_eq_ok_iff]

end Converter

end FieldQuery
