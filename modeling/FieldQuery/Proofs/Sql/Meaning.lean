import FieldQuery.Proofs.Condition.Precedence
import FieldQuery.Proofs.Sql.RoundTrip

/-!
# The meaning of fragments

A database evaluates a fragment by its own rules: `NOT` binds tighter than `AND`, and `AND` tighter
than `OR`. A query is meant in textual order. A fragment has the parentheses of its query and no
others, so the two have the same value only where the two orders agree, and
`Dialect.evaluate?_convert_iff` says of which queries that is true: of those in which, at no level,
`AND` or `AND NOT` stands behind `OR`. `Dialect.evaluate?_convert_or_and` is the shortest kind of
query of which it is not.
-/

namespace FieldQuery.Sql

/-- The truth value of a fragment for given truth values of its comparisons, if the text is a
fragment. -/
def Dialect.evaluate? (d : Dialect) (σ : Assignment) (sql : String) : Option Bool :=
  (d.read sql).map (evaluate byPrecedence σ)

/-- **The fragment of a query has the textual value of the query, whatever the truth values of its
conditions, if and only if no `AND` and no `AND NOT` stands behind an `OR`,** at the top level and
in each group. -/
theorem Dialect.evaluate?_convert_iff (d : Dialect) (config : Config) {query sql : String}
    (hquery : query ≠ "") (h : ((d.converter config).convert query).outcome = .ok sql) :
    ∃ nodes, ((d.converter config).ast query).outcome = .ok nodes ∧
      ((∀ σ, d.evaluate? σ sql = some (evaluate leftToRight σ nodes)) ↔ OrsLast nodes) := by
  obtain ⟨nodes, hast, hsql⟩ := Converter.convert_eq_ok_iff.1 h
  have hwf := Converter.wellFormed_of_ast hquery hast
  refine ⟨nodes, hast, ?_⟩
  rw [← hwf.evaluate_eq_iff_orsLast]
  simp only [evaluate?, read_of_ast hast hsql, Option.map_some, Option.some.injEq, eq_comm]

/-- In a group, `OR` keeps its place in front of `AND`: the fragment has the parentheses of the
query. -/
theorem Dialect.evaluate?_convert_group :
    ((Dialect.mysql.converter {}).convert "(a:1 OR b:2) AND c:3").outcome =
      .ok "(a = '1' OR b = '2') AND c = '3'" ∧
    ∃ nodes, ((Dialect.mysql.converter {}).ast "(a:1 OR b:2) AND c:3").outcome = .ok nodes ∧
      ∀ σ, Dialect.mysql.evaluate? σ "(a = '1' OR b = '2') AND c = '3'" =
        some (evaluate leftToRight σ nodes) := by
  have hparse : Query.parse 64 "(a:1 OR b:2) AND c:3" =
      .ok (.chain (.group (.chain (.comparison ⟨⟨"a", ":", .number "1"⟩, 1⟩) ⟨"OR", 5⟩
        (.single (.comparison ⟨⟨"b", ":", .number "2"⟩, 8⟩)))) ⟨"AND", 13⟩
          (.single (.comparison ⟨⟨"c", ":", .number "3"⟩, 17⟩))) := by
    with_unfolding_all rfl
  have hast : ((Dialect.mysql.converter {}).ast "(a:1 OR b:2) AND c:3").outcome =
      .ok [.group [.condition (.equalTo "a" "1"), .connective .or, .condition (.equalTo "b" "2")],
        .connective .and, .condition (.equalTo "c" "3")] :=
    Converter.ast_eq_ok_iff.2 (.inr ⟨_, hparse, rfl⟩)
  have hsql : ((Dialect.mysql.converter {}).convert "(a:1 OR b:2) AND c:3").outcome =
      .ok "(a = '1' OR b = '2') AND c = '3'" :=
    Converter.convert_eq_ok_iff.2 ⟨_, hast, rfl⟩
  obtain ⟨nodes, hnodes, hiff⟩ := Dialect.evaluate?_convert_iff .mysql {} (by decide) hsql
  refine ⟨hsql, nodes, hnodes, hiff.2 ?_⟩
  obtain rfl := Except.ok.inj (hnodes.symm.trans hast)
  refine orsLast_iff.2 ⟨by simp [Node.MayPrecede], fun inner hinner => ?_⟩
  obtain rfl : inner = [.condition (.equalTo "a" "1"), .connective .or,
      .condition (.equalTo "b" "2")] := by simpa using hinner
  exact orsLast_iff.2 ⟨by simp [Node.MayPrecede], by simp⟩

/-- Without the group, `AND` takes the right operand of `OR` away. Where the first condition alone
is true, the fragment is true and the query is not. -/
theorem Dialect.evaluate?_convert_or_and :
    ((Dialect.mysql.converter {}).convert "a:1 OR b:2 AND c:3").outcome =
      .ok "a = '1' OR b = '2' AND c = '3'" ∧
    ∃ nodes, ((Dialect.mysql.converter {}).ast "a:1 OR b:2 AND c:3").outcome = .ok nodes ∧
      Dialect.mysql.evaluate? (fun path => path = [0]) "a = '1' OR b = '2' AND c = '3'" =
        some true ∧
      evaluate leftToRight (fun path => path = [0]) nodes = false := by
  have hparse : Query.parse 64 "a:1 OR b:2 AND c:3" =
      .ok (.chain (.comparison ⟨⟨"a", ":", .number "1"⟩, 0⟩) ⟨"OR", 4⟩
        (.chain (.comparison ⟨⟨"b", ":", .number "2"⟩, 7⟩) ⟨"AND", 11⟩
          (.single (.comparison ⟨⟨"c", ":", .number "3"⟩, 15⟩)))) := by
    with_unfolding_all rfl
  have hast : ((Dialect.mysql.converter {}).ast "a:1 OR b:2 AND c:3").outcome =
      .ok [.condition (.equalTo "a" "1"), .connective .or, .condition (.equalTo "b" "2"),
        .connective .and, .condition (.equalTo "c" "3")] :=
    Converter.ast_eq_ok_iff.2 (.inr ⟨_, hparse, rfl⟩)
  have hsql : ((Dialect.mysql.converter {}).convert "a:1 OR b:2 AND c:3").outcome =
      .ok "a = '1' OR b = '2' AND c = '3'" :=
    Converter.convert_eq_ok_iff.2 ⟨_, hast, rfl⟩
  have hread : Dialect.mysql.read "a = '1' OR b = '2' AND c = '3'" =
      some [.condition (.equalTo "a" "1"), .connective .or, .condition (.equalTo "b" "2"),
        .connective .and, .condition (.equalTo "c" "3")] :=
    read_of_ast hast rfl
  refine ⟨hsql, _, hast, ?_, by decide⟩
  rw [evaluate?, hread]
  decide

end FieldQuery.Sql
