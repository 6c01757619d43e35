import FieldQuery.Proofs.Condition.Offence
import FieldQuery.Proofs.Condition.Reachable
import FieldQuery.Proofs.Sql.Render
import FieldQuery.Proofs.Surface.Place

/-!
# Why a conversion fails

A conversion fails if and only if its text has no canonical sequence, and then for the same reason
(`Converter.convert_eq_error_iff`): a canonical sequence is well-formed, and well-formed sequences
can be written in every style. A text has no canonical sequence if it is no query, or if a range of
it is open on both sides (`Converter.ast_eq_error_iff`, `Converter.ast_eq_wildcardRange_iff`). Both
are for the text to answer for, so neither the escaper nor the style of identifiers has a part in
it. `Converter.convert_refused_only_for_text` puts this together.
-/

namespace FieldQuery

theorem readNodes_eq_error_iff {config : Config} {query : String} {e : Error} :
    readNodes config query = .error e ↔
      (∃ se, Query.parse config.maxDepth query = .error se ∧ e = .malformed se) ∨
      ∃ t me, Query.parse config.maxDepth query = .ok t ∧ t.resolve = .error me ∧
        e = .meaningless me := by
  unfold readNodes
  cases Query.parse config.maxDepth query with
  | error se => simp [eq_comm]
  | ok t =>
    cases ht : t.resolve with
    | error me => simp [ht, eq_comm]
    | ok nodes => simp [ht]

/-- A tree that parsing gives has no meaning if one of its ranges is open on both sides, and the
leftmost such range is to blame. -/
theorem Query.resolve_eq_error_iff_of_parse {limit : Nat} {s : String} {t : Query}
    (h : Query.parse limit s = .ok t) {e : SemanticError} :
    t.resolve = .error e ↔ ∃ k, t.IsLeftmostOpen k ∧ e = .wildcardRange k.field k.position :=
  (derives_of_parse h).1.resolve_eq_error_iff (reaches_and_laid_of_parse h).2.pairwise

/-- A comparison of a tree that parsing gives stands in the text at its offset. -/
theorem Query.exists_append_of_parse {limit : Nat} {s : String} {t : Query}
    (h : Query.parse limit s = .ok t) {k : PlacedComparison} (hk : k ∈ t.comparisons) :
    ∃ before after : String, s = before ++ k.text ++ after ∧ before.utf8ByteSize = k.position := by
  obtain ⟨before, after, hs, hpos⟩ := (reaches_and_laid_of_parse h).2.exists_append k hk
  refine ⟨.ofList before, .ofList after, ?_, ?_⟩
  · rw [← String.toList_inj, hs]
    simp
  · rw [hpos, Nat.zero_add]
    rfl

namespace Converter

variable {c : Converter} {query : String}

/-- A text that is not empty has no canonical sequence if it is no query or has no meaning. -/
theorem ast_eq_error_iff {e : Error} :
    (c.ast query).outcome = .error e ↔ query ≠ "" ∧ readNodes c.config query = .error e := by
  by_cases hq : query = ""
  · subst hq
    simp [ast, Run.silent]
  · rw [ast, if_neg hq]
    cases readNodes c.config query with
    | error e' => simp [hq]
    | ok nodes => simp

/-- Whether a text has a canonical sequence, and which, is decided by the text and the limit. -/
theorem ast_congr {c' : Converter} (h : c'.config.maxDepth = c.config.maxDepth) :
    (c'.ast query).outcome = (c.ast query).outcome := by
  have hread : readNodes c'.config query = readNodes c.config query := by
    rw [readNodes, readNodes, h]
  rw [ast, ast, hread]

/-- What a text is refused for: it is no query, or one of its ranges is open on both sides. -/
theorem malformed_or_wildcardRange_of_ast {e : Error} (h : (c.ast query).outcome = .error e) :
    (∃ se, Query.parse c.config.maxDepth query = .error se ∧ e = .malformed se) ∨
      ∃ field position, e = .meaningless (.wildcardRange field position) := by
  rcases readNodes_eq_error_iff.1 (ast_eq_error_iff.1 h).2 with hse | ⟨t, me, ht, hme, rfl⟩
  · exact .inl hse
  · obtain ⟨k, -, rfl⟩ := (Query.resolve_eq_error_iff_of_parse ht).1 hme
    exact .inr ⟨k.field, k.position, rfl⟩

/-- A text is refused for an open range if it is a query that has one, and it is the leftmost that
is reported, with its field and its offset. -/
theorem ast_eq_wildcardRange_iff {field : String} {position : Nat} :
    (c.ast query).outcome = .error (.meaningless (.wildcardRange field position)) ↔
      ∃ t k, Query.parse c.config.maxDepth query = .ok t ∧ t.IsLeftmostOpen k ∧
        k.field = field ∧ k.position = position := by
  rw [ast_eq_error_iff, readNodes_eq_error_iff]
  refine ⟨?_, ?_⟩
  · rintro ⟨-, ⟨se, -, he⟩ | ⟨t, me, ht, hme, he⟩⟩
    · cases he
    · cases he
      obtain ⟨k, hk, he⟩ := (Query.resolve_eq_error_iff_of_parse ht).1 hme
      cases he
      exact ⟨t, k, ht, hk, rfl, rfl⟩
  · rintro ⟨t, k, ht, hk, rfl, rfl⟩
    refine ⟨?_, .inr ⟨t, _, ht, (Query.resolve_eq_error_iff_of_parse ht).2 ⟨k, hk, rfl⟩, rfl⟩⟩
    rintro rfl
    exact Query.parse_empty ht

/-- A text is refused for an open range if it is a query that has one. -/
theorem exists_ast_eq_wildcardRange_iff :
    (∃ field position,
      (c.ast query).outcome = .error (.meaningless (.wildcardRange field position))) ↔
      ∃ t, Query.parse c.config.maxDepth query = .ok t ∧ ∃ k ∈ t.comparisons, k.IsOpen := by
  simp only [ast_eq_wildcardRange_iff]
  refine ⟨?_, ?_⟩
  · intro ⟨_, _, t, k, ht, hk, _⟩
    exact ⟨t, ht, Query.exists_isLeftmostOpen_iff.1 ⟨k, hk⟩⟩
  · intro ⟨t, ht, hopen⟩
    obtain ⟨k, hk⟩ := Query.exists_isLeftmostOpen_iff.2 hopen
    exact ⟨k.field, k.position, t, k, ht, hk, rfl, rfl⟩

/-- A canonical sequence can be written in every style. -/
theorem exists_render_of_ast {nodes : List Node} (style : Sql.Style)
    (h : (c.ast query).outcome = .ok nodes) : ∃ sql, Sql.render style nodes = .ok sql := by
  rcases eq_nil_or_wellFormed_of_ast h with rfl | hwf
  · exact ⟨_, rfl⟩
  · exact Sql.exists_render style hwf

/-- A conversion fails if the text has no canonical sequence, and for the same reason. -/
theorem convert_eq_error_iff {e : Error} :
    (c.convert query).outcome = .error e ↔ (c.ast query).outcome = .error e := by
  rw [convert_outcome]
  cases hast : (c.ast query).outcome with
  | error e' => simp
  | ok nodes =>
    obtain ⟨sql, hsql⟩ := exists_render_of_ast c.style hast
    simp [hsql, Except.mapError]

/-- A conversion succeeds if the text has a canonical sequence. -/
theorem exists_convert_iff : (∃ sql, (c.convert query).outcome = .ok sql) ↔
    ∃ nodes, (c.ast query).outcome = .ok nodes := by
  refine ⟨?_, ?_⟩
  · rintro ⟨sql, h⟩
    obtain ⟨nodes, hast, -⟩ := convert_eq_ok_iff.1 h
    exact ⟨nodes, hast⟩
  · rintro ⟨nodes, hast⟩
    obtain ⟨sql, hsql⟩ := exists_render_of_ast c.style hast
    exact ⟨sql, convert_eq_ok_iff.2 ⟨nodes, hast, hsql⟩⟩

end Converter

/-- **A conversion is refused for the text only.** It succeeds exactly on the texts that have a
canonical sequence, with what is written for the sequence, and otherwise it fails as the sequence
does. The reason depends on the text and the nesting limit alone: the text is no query, or it is one
with a range that is open on both sides. The second is the case whenever there is such a range, and
then the leftmost is reported with its field and the byte offset at which it stands. -/
theorem Converter.convert_refused_only_for_text (c : Converter) (query : String) :
    ((∃ sql, (c.convert query).outcome = .ok sql) ↔ ∃ nodes, (c.ast query).outcome = .ok nodes) ∧
    (∀ sql nodes, (c.convert query).outcome = .ok sql → (c.ast query).outcome = .ok nodes →
      Sql.render c.style nodes = .ok sql) ∧
    (∀ e, (c.convert query).outcome = .error e ↔ (c.ast query).outcome = .error e) ∧
    (∀ c' : Converter, c'.config.maxDepth = c.config.maxDepth → ∀ e,
      (c'.convert query).outcome = .error e ↔ (c.convert query).outcome = .error e) ∧
    (∀ e, (c.convert query).outcome = .error e → e.isUserError = true ∧
      ((∃ se, Query.parse c.config.maxDepth query = .error se ∧ e = .malformed se) ∨
        ∃ field position, e = .meaningless (.wildcardRange field position))) ∧
    ((∃ field position,
      (c.convert query).outcome = .error (.meaningless (.wildcardRange field position))) ↔
        ∃ t, Query.parse c.config.maxDepth query = .ok t ∧ ∃ k ∈ t.comparisons, k.IsOpen) ∧
    ∀ field position,
      (c.convert query).outcome = .error (.meaningless (.wildcardRange field position)) ↔
        ∃ t k, Query.parse c.config.maxDepth query = .ok t ∧ t.IsLeftmostOpen k ∧
          k.field = field ∧ k.position = position ∧
          ∃ before after : String, query = before ++ k.text ++ after ∧
            before.utf8ByteSize = position := by
  refine ⟨exists_convert_iff, ?_, fun _ => convert_eq_error_iff, ?_, ?_, ?_, ?_⟩
  · intro sql nodes hconvert hast
    obtain ⟨nodes', hast', hsql⟩ := convert_eq_ok_iff.1 hconvert
    rw [hast] at hast'
    cases hast'
    exact hsql
  · intro c' hlimit e
    rw [convert_eq_error_iff, convert_eq_error_iff, ast_congr hlimit]
  · intro e he
    have hreason := malformed_or_wildcardRange_of_ast (convert_eq_error_iff.1 he)
    refine ⟨?_, hreason⟩
    rcases hreason with ⟨se, -, rfl⟩ | ⟨field, position, rfl⟩
    · rfl
    · rfl
  · simp only [convert_eq_error_iff]
    exact exists_ast_eq_wildcardRange_iff
  · intro field position
    rw [convert_eq_error_iff, ast_eq_wildcardRange_iff]
    refine ⟨?_, ?_⟩
    · rintro ⟨t, k, ht, hk, hfield, rfl⟩
      exact ⟨t, k, ht, hk, hfield, rfl, Query.exists_append_of_parse ht hk.1⟩
    · rintro ⟨t, k, ht, hk, hfield, hposition, -⟩
      exact ⟨t, k, ht, hk, hfield, hposition⟩

/-- Of two open ranges the first is reported, the one in the group, whatever the escaper and the
style of identifiers. -/
theorem Converter.convert_refused_open_range :
    ((Converter.mk Sql.mysql {}).convert "(b:[*;\\*]) OR c:[*;*]").outcome =
      .error (.meaningless (.wildcardRange "b" 1)) ∧
    ∀ escaper quoting,
      ((Converter.mk escaper ⟨64, quoting⟩).convert "(b:[*;\\*]) OR c:[*;*]").outcome =
        .error (.meaningless (.wildcardRange "b" 1)) := by
  have hparse : Query.parse 64 "(b:[*;\\*]) OR c:[*;*]" =
      .ok (.chain (.group (.single (.comparison ⟨⟨"b", ":", .range "*" "\\*"⟩, 1⟩))) ⟨"OR", 11⟩
        (.single (.comparison ⟨⟨"c", ":", .range "*" "*"⟩, 14⟩))) := by with_unfolding_all rfl
  have h : ((Converter.mk Sql.mysql {}).convert "(b:[*;\\*]) OR c:[*;*]").outcome =
      .error (.meaningless (.wildcardRange "b" 1)) :=
    convert_eq_error_iff.2 (ast_eq_error_iff.2
      ⟨by decide, readNodes_eq_error_iff.2 (.inr ⟨_, _, hparse, rfl, rfl⟩)⟩)
  obtain ⟨-, -, -, hsame, -⟩ := Converter.convert_refused_only_for_text
    (.mk Sql.mysql {}) "(b:[*;\\*]) OR c:[*;*]"
  exact ⟨h, fun escaper quoting => (hsame ⟨escaper, ⟨64, quoting⟩⟩ rfl _).2 h⟩

end FieldQuery
