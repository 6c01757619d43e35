import Mathlib.Data.List.Basic
import FieldQuery.Proofs.Converter.Failure

/-!
# What is reported

The events of a conversion follow from its text and its outcome. The start is reported, and then
either the fragment or the refusal (`Converter.log_convert`); an error is reported by the stage that
finds it and by no stage after it, since a run that has failed does not go on
(`Run.log_bind_error`). The error of the library itself, a condition that cannot be written, is not
among the events: every canonical sequence can be written. `Converter.log_follows_outcome` puts this
together, in the words that are reported.
-/

namespace FieldQuery

/-- What is to be read in a log for an event. -/
def Event.line (event : Event) : Level × String :=
  (event.level, event.message)

/-! ## Events of a sequence of runs -/

namespace Run

variable {α β : Type} {r : Run α} {f : α → Run β}

/-- A run that goes on adds its events. -/
theorem log_bind_ok {a : α} (h : r.outcome = .ok a) : (r >>= f).log = r.log ++ (f a).log := by
  simp only [Bind.bind, bind, h]

/-- A run that fails does not go on. -/
theorem log_bind_error {e : Error} (h : r.outcome = .error e) : (r >>= f).log = r.log := by
  simp only [Bind.bind, bind, h]

end Run

/-- What can be written is written without any event. -/
theorem renderNodes_of_render {style : Sql.Style} {nodes : List Node} {sql : String}
    (h : Sql.render style nodes = .ok sql) : renderNodes style nodes = ⟨[], .ok sql⟩ := by
  rw [renderNodes_eq, h]
  rfl

/-! ## Events of a converter -/

namespace Converter

variable (c : Converter) {query : String}

/-- The canonical sequence of a text is given without any event, and a refusal is reported. -/
theorem log_ast (query : String) :
    (c.ast query).log = match (c.ast query).outcome with
      | .ok _ => []
      | .error e => [.rejected e] := by
  by_cases hq : query = ""
  · subst hq
    rfl
  · rw [ast, if_neg hq]
    cases readNodes c.config query with
    | error e => rfl
    | ok nodes => rfl

/-- The conversion of a text is reported at its start and at its end. -/
theorem log_convert (hq : query ≠ "") :
    (c.convert query).log = [.converting query.utf8ByteSize,
      match (c.convert query).outcome with
      | .ok sql => .converted sql
      | .error e => .rejected e] := by
  cases hast : (c.ast query).outcome with
  | error e =>
    rw [convert_eq_error_iff.2 hast, convert, if_neg hq, Run.log_bind_ok (a := ()) rfl,
      Run.log_bind_error hast, log_ast, hast]
    rfl
  | ok nodes =>
    obtain ⟨sql, hsql⟩ := exists_render_of_ast c.style hast
    rw [convert_eq_ok_iff.2 ⟨nodes, hast, hsql⟩, convert, if_neg hq, Run.log_bind_ok (a := ()) rfl,
      Run.log_bind_ok hast, log_ast, hast, renderNodes_of_render hsql]
    rfl

/-- No event of a canonical sequence is an error of the library. -/
theorem level_eq_debug_of_mem_log_ast {event : Event} (h : event ∈ (c.ast query).log) :
    event.level = .debug := by
  rw [log_ast] at h
  cases hast : (c.ast query).outcome with
  | error e =>
    rw [hast, List.mem_singleton] at h
    rw [h]
    rfl
  | ok nodes =>
    rw [hast] at h
    cases h

/-- No event of a conversion is an error of the library. -/
theorem level_eq_debug_of_mem_log_convert {event : Event} (h : event ∈ (c.convert query).log) :
    event.level = .debug := by
  by_cases hq : query = ""
  · subst hq
    cases h
  · rw [log_convert c hq, List.mem_pair] at h
    rcases h with rfl | rfl
    · rfl
    · cases (c.convert query).outcome with
      | error e => rfl
      | ok sql => rfl

end Converter

/-- **The log of a conversion follows its outcome.** Of the empty text nothing is reported. Of any
other, a conversion reports the start with the number of bytes, and then the fragment that it gives
or the wording of the error that it fails with; the canonical sequence is given without any event,
and an error is reported as by the conversion. All events are for debugging. -/
theorem Converter.log_follows_outcome (c : Converter) (query : String) :
    ((c.convert "").log = [] ∧ (c.ast "").log = []) ∧
    (query ≠ "" →
      (c.convert query).log.map Event.line =
        [(.debug, s!"Converting query ({query.utf8ByteSize} bytes)"),
          (.debug, match (c.convert query).outcome with
            | .ok sql => s!"Converted to SQL: {sql}"
            | .error e => s!"Rejected query: {e.message}")] ∧
      (c.ast query).log.map Event.line = match (c.ast query).outcome with
        | .ok _ => []
        | .error e => [(.debug, s!"Rejected query: {e.message}")]) ∧
    ∀ event ∈ (c.convert query).log ++ (c.ast query).log, event.level ≠ .error := by
  refine ⟨⟨rfl, rfl⟩, fun hq => ⟨?_, ?_⟩, ?_⟩
  · rw [log_convert c hq]
    cases (c.convert query).outcome with
    | error e => rfl
    | ok sql => rfl
  · rw [log_ast]
    cases (c.ast query).outcome with
    | error e => rfl
    | ok nodes => rfl
  · intro event hevent
    have hdebug : event.level = .debug := by
      rcases List.mem_append.1 hevent with h | h
      · exact level_eq_debug_of_mem_log_convert c h
      · exact level_eq_debug_of_mem_log_ast c h
    rw [hdebug]
    nofun

/-- Bytes are counted and not characters, and the wording of an error is that of the error in the
outcome. -/
theorem Converter.log_follows_outcome_bytes :
    (((Converter.mk Sql.mysql {}).convert "a:\"é\"").log.map Event.line =
      [(.debug, "Converting query (6 bytes)"), (.debug, "Converted to SQL: a = 'é'")]) ∧
    ((Converter.mk Sql.mysql {}).ast "a:[*;*]").log.map Event.line =
      [(.debug, "Rejected query: Semantic error: both sides of the range on field 'a' cannot be " ++
        "wildcard (position 0)")] := by
  obtain ⟨-, hconvert, -⟩ := Converter.log_follows_outcome (.mk Sql.mysql {}) "a:\"é\""
  obtain ⟨-, hast, -⟩ := Converter.log_follows_outcome (.mk Sql.mysql {}) "a:[*;*]"
  have hparse : Query.parse 64 "a:\"é\"" =
      .ok (.single (.comparison ⟨⟨"a", ":", .quoted "\"é\""⟩, 0⟩)) := by with_unfolding_all rfl
  have hsql : ((Converter.mk Sql.mysql {}).convert "a:\"é\"").outcome = .ok "a = 'é'" :=
    convert_eq_ok_iff.2 ⟨_, ast_eq_ok_iff.2 (.inr ⟨_, hparse, rfl⟩), rfl⟩
  have hrange : Query.parse 64 "a:[*;*]" =
      .ok (.single (.comparison ⟨⟨"a", ":", .range "*" "*"⟩, 0⟩)) := by with_unfolding_all rfl
  have herror : ((Converter.mk Sql.mysql {}).ast "a:[*;*]").outcome =
      .error (.meaningless (.wildcardRange "a" 0)) :=
    ast_eq_error_iff.2 ⟨by decide, by rw [readNodes, hrange]; rfl⟩
  rw [(hconvert (by decide)).1, (hast (by decide)).2, hsql, herror]
  exact ⟨rfl, rfl⟩

end FieldQuery
