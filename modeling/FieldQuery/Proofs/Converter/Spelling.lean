import FieldQuery.Proofs.Converter.Composition
import FieldQuery.Proofs.Converter.Failure

/-!
# The spelling of keywords and of the blanks around them

A query may be written with other blanks around its keywords and with its keywords in another case:
`t.Respells text text'` says that `text'` is such another spelling of `text`, which `t` is written
as. All spellings of a query convert alike (`Converter.convert_respelled`).

A respelled text derives a tree of the same shape with the same comparisons
(`Query.Derives.exists_respelled`): where a comparison ends does not depend on what the blanks
behind it are. What the two trees have in common is `Query.plain`, the tree without offsets and with
keywords in small letters, and resolving a tree depends on that alone, but for what a refusal quotes
from the text (`Query.resolve_plain`).
-/

namespace FieldQuery

open Text Grammar

/-! ## Other spellings -/

/-- Two words with the same letters, in whatever case. -/
def Grammar.SameLetters (word word' : List Char) : Prop :=
  word.map Char.toUpper = word'.map Char.toUpper

instance (word word' : List Char) : Decidable (SameLetters word word') :=
  inferInstanceAs (Decidable (_ = _))

mutual

/-- Two texts of an expression that differ in blanks around keywords and in the case of keywords. -/
inductive Expr.Respells : Expr → List Char → List Char → Prop
  | comparison {c : PlacedComparison} :
      Expr.Respells (.comparison c) c.text.toList c.text.toList
  | group {q : Query} {text text' : List Char} (h : Query.Respells q text text') :
      Expr.Respells (.group q) ('(' :: text ++ [')']) ('(' :: text' ++ [')'])

/-- Two texts of a query that differ in blanks around keywords and in the case of keywords. -/
inductive Query.Respells : Query → List Char → List Char → Prop
  | single {e : Expr} {text text' : List Char} (h : Expr.Respells e text text') :
      Query.Respells (.single e) text text'
  | chain {e : Expr} {k : Keyword} {q : Query}
      {text text' before before' word after after' rest rest' : List Char}
      (he : Expr.Respells e text text') (hb : IsRun Blank before) (hb' : IsRun Blank before')
      (hk : SameLetters k.word.toList word) (ha : IsRun Blank after) (ha' : IsRun Blank after')
      (hq : Query.Respells q rest rest') :
      Query.Respells (.chain e k q) (text ++ before ++ k.word.toList ++ after ++ rest)
        (text' ++ before' ++ word ++ after' ++ rest')

end

mutual

/-- A laid out text is a spelling of itself. -/
theorem Expr.Laid.respells : ∀ {e : Expr} {pos : Nat} {text : List Char}, e.Laid pos text →
    e.Respells text text
  | .comparison _, _, _, .comparison => .comparison
  | .group _, _, _, .group h => .group (Query.Laid.respells h)

/-- A laid out text is a spelling of itself. -/
theorem Query.Laid.respells : ∀ {q : Query} {pos : Nat} {text : List Char}, q.Laid pos text →
    q.Respells text text
  | .single _, _, _, .single h => .single (Expr.Laid.respells h)
  | .chain _ _ _, _, _, .chain he hb _ ha hq =>
    .chain (Expr.Laid.respells he) hb hb rfl ha ha (Query.Laid.respells hq)

end

/-! ## Plain trees -/

mutual

/-- An expression without offsets and with keywords in small letters. -/
def Expr.plain : Expr → Expr
  | .comparison c => .comparison { c with position := 0 }
  | .group q => .group q.plain

/-- A query without offsets and with keywords in small letters. -/
def Query.plain : Query → Query
  | .single e => .single e.plain
  | .chain e k rest => .chain e.plain ⟨lower k.word, 0⟩ rest.plain

end

mutual

@[simp] theorem Expr.plain_unplaced : ∀ e : Expr, e.unplaced.plain = e.plain
  | .comparison _ => rfl
  | .group q => congrArg Expr.group q.plain_unplaced

@[simp] theorem Query.plain_unplaced : ∀ q : Query, q.unplaced.plain = q.plain
  | .single e => congrArg Query.single e.plain_unplaced
  | .chain e _ q => by
    rw [Query.unplaced, Query.plain, Query.plain, e.plain_unplaced, q.plain_unplaced]

end

mutual

@[simp] theorem Expr.depth_plain : ∀ e : Expr, e.plain.depth = e.depth
  | .comparison _ => rfl
  | .group q => congrArg (· + 1) q.depth_plain

@[simp] theorem Query.depth_plain : ∀ q : Query, q.plain.depth = q.depth
  | .single e => e.depth_plain
  | .chain e _ q => by
    rw [Query.plain, Query.depth, Query.depth, e.depth_plain, q.depth_plain]

end

/-! ## Derivations of other spellings -/

/-- Words with the same letters have the same small letters. -/
theorem Grammar.SameLetters.lower_eq {word : String} {word' : List Char}
    (h : SameLetters word.toList word') : lower (.ofList word') = lower word := by
  have h' : word.toList.map Char.toUpper = word'.map Char.toUpper := h
  rw [Text.lower_eq, Text.lower_eq, String.toList_ofList, h']

mutual

/-- Another spelling of a derived expression derives one that is plainly the same. -/
theorem Expr.Derives.exists_respelled :
    ∀ {e : Expr} {text rest written respelled rest' : List Char}, e.Derives text rest →
    e.Respells written respelled → Stops Bare rest' →
    ∃ e' : Expr, e'.Derives respelled rest' ∧ e'.plain = e.plain
  | .comparison c, _, _, _, _, _, .comparison hd, .comparison, hr => by
    refine ⟨.comparison c, .comparison ?_, rfl⟩
    rw [hd.text_eq]
    exact hd.follow fun _ => hr
  | .group q, _, _, _, _, rest', .group hd, .group hs, _ => by
    obtain ⟨q', hd', hplain⟩ := Query.Derives.exists_respelled hd hs (stops_bare_closing rest')
    exact ⟨.group q', .group hd', congrArg Expr.group hplain⟩

/-- Another spelling of a derived query derives one that is plainly the same. -/
theorem Query.Derives.exists_respelled :
    ∀ {q : Query} {text rest written respelled rest' : List Char},
    q.Derives text rest → q.Respells written respelled → Stops Bare rest' →
    ∃ q' : Query, q'.Derives respelled rest' ∧ q'.plain = q.plain
  | .single e, _, _, _, _, _, .single hd, .single hs, hr => by
    obtain ⟨e', hd', hplain⟩ := Expr.Derives.exists_respelled hd hs hr
    exact ⟨.single e', .single hd', congrArg Query.single hplain⟩
  | .chain e k q, _, _, _, _, rest', .chain he _ hk _ hq,
      @Query.Respells.chain _ _ _ _ _ _ before' word _ after' _ text' hse _ hb hword _ ha hsq,
      hr => by
    have hstop : Stops Bare (before' ++ word ++ after' ++ text' ++ rest') := by
      simpa only [List.append_assoc] using hb.stops_bare
    obtain ⟨e', hde, hplain⟩ := Expr.Derives.exists_respelled he hse hstop
    obtain ⟨q', hdq, hplain'⟩ := Query.Derives.exists_respelled hq hsq hr
    have hk' : IsKeyword (String.ofList word).toList := by
      rw [String.toList_ofList]
      exact Eq.subst (motive := (· ∈ _)) hword hk
    refine ⟨.chain e' ⟨.ofList word, k.position⟩ q', ?_, ?_⟩
    · have hchain := Query.Derives.chain (k := ⟨.ofList word, k.position⟩)
        (by simpa using hde) hb hk' ha hdq
      simpa using hchain
    · rw [Query.plain, Query.plain, hplain, hplain', hword.lower_eq]

end

/-! ## Resolving -/

/-- A refusal without what it quotes of the spelling: the offset and the case of a keyword. -/
def SemanticError.plain : SemanticError → SemanticError
  | unknownOperator keyword _ => unknownOperator (lower keyword) 0
  | unknownAtomOperator operator _ => unknownAtomOperator operator 0
  | wildcardRange field _ => wildcardRange field 0

/-- Renaming the errors of two steps renames those of each. -/
theorem Except.mapError_bind {ε ε' α β : Type} (f : ε → ε') (x : Except ε α)
    (g : α → Except ε β) :
    (x >>= g).mapError f = x.mapError f >>= fun a => (g a).mapError f := by
  cases x with
  | error e => rfl
  | ok a => rfl

/-- A keyword resolves as it does in small letters. -/
theorem Keyword.resolve_plain (k : Keyword) :
    (Keyword.mk (lower k.word) 0).resolve.mapError SemanticError.plain =
      k.resolve.mapError SemanticError.plain := by
  have hlower := lower_lower k.word
  have hk : Connective.ofKeyword? (lower k.word) = Connective.ofKeyword? k.word := by
    rw [Connective.ofKeyword?, Connective.ofKeyword?, hlower]
  unfold Keyword.resolve
  rw [hk]
  cases Connective.ofKeyword? k.word with
  | none => simp [Except.mapError, SemanticError.plain, hlower]
  | some c => rfl

/-- A comparison resolves as it does at any other offset. -/
theorem PlacedComparison.resolve_plain (c : PlacedComparison) :
    ({ c with position := 0 } : PlacedComparison).resolve.mapError SemanticError.plain =
      c.resolve.mapError SemanticError.plain := by
  unfold PlacedComparison.resolve
  dsimp only
  cases Comparator.ofOperator? c.operator with
  | none => rfl
  | some comparator =>
    cases c.value with
    | quoted | unquoted | number => rfl
    | range left right =>
      dsimp only
      cases Condition.ofRange? c.field (unescapeText left) (unescapeText right) with
      | none => rfl
      | some condition => rfl

mutual

/-- An expression resolves as it does in plain form. -/
theorem Expr.resolve_plain : ∀ e : Expr,
    e.plain.resolve.mapError SemanticError.plain = e.resolve.mapError SemanticError.plain
  | .comparison c => by
    rw [Expr.plain, Expr.resolve, Expr.resolve, Except.mapError_bind, Except.mapError_bind,
      c.resolve_plain]
  | .group q => by
    rw [Expr.plain, Expr.resolve, Expr.resolve, Except.mapError_bind, Except.mapError_bind,
      q.resolve_plain]

/-- A query resolves as it does in plain form. -/
theorem Query.resolve_plain : ∀ q : Query,
    q.plain.resolve.mapError SemanticError.plain = q.resolve.mapError SemanticError.plain
  | .single e => by
    rw [Query.plain, Query.resolve, Query.resolve, Except.mapError_bind, Except.mapError_bind,
      e.resolve_plain]
  | .chain e k q => by
    rw [Query.plain, Query.resolve, Query.resolve]
    simp only [Except.mapError_bind, e.resolve_plain, k.resolve_plain, q.resolve_plain]

end

section
variable {t t' : Query}

/-- Two trees that are plainly the same resolve to the same sequence. -/
theorem Query.resolve_eq_ok_iff_of_plain {nodes : List Node} (h : t'.plain = t.plain) :
    t'.resolve = .ok nodes ↔ t.resolve = .ok nodes := by
  have heq := t'.resolve_plain
  rw [h, t.resolve_plain] at heq
  rw [← Except.mapError_eq_ok_iff (f := SemanticError.plain), ← heq, Except.mapError_eq_ok_iff]

/-- Of two trees that are plainly the same, if one is refused for an open range then the other is
refused for one on the same field. -/
theorem Query.exists_wildcardRange_of_plain {field : String} {position : Nat}
    (h : t'.plain = t.plain) (ht : t.resolve = .error (.wildcardRange field position)) :
    ∃ position', t'.resolve = .error (.wildcardRange field position') := by
  have heq := t'.resolve_plain
  rw [h, t.resolve_plain, ht] at heq
  cases ht' : t'.resolve with
  | ok nodes =>
    rw [ht'] at heq
    cases heq
  | error e =>
    rw [ht'] at heq
    have hplain : SemanticError.wildcardRange field 0 = e.plain := Except.error.inj heq
    cases e with
    | unknownOperator | unknownAtomOperator => cases hplain
    | wildcardRange field' position' =>
      cases hplain
      exact ⟨position', rfl⟩

end

/-! ## Conversions -/

/-- Another spelling of a query is a query, and plainly the same one. -/
theorem Query.exists_parse_respelled {limit : Nat} {s s' : String} {t : Query}
    (h : Query.parse limit s = .ok t) (hs : t.Respells s.toList s'.toList) :
    ∃ t', Query.parse limit s' = .ok t' ∧ t'.plain = t.plain := by
  obtain ⟨hd, hdepth⟩ := derives_of_parse h
  obtain ⟨q, hq, hplain⟩ := hd.exists_respelled hs stops_nil
  have hdepth' : q.depth ≤ limit := by
    rw [← q.depth_plain, hplain, t.depth_plain]
    exact hdepth
  obtain ⟨t', ht', hunplaced⟩ := parse_of_derives hq hdepth'
  refine ⟨t', ht', ?_⟩
  rw [← t'.plain_unplaced, hunplaced, q.plain_unplaced, hplain]

/-- The canonical sequence of a query is what its tree resolves to. -/
theorem Converter.ast_of_parse {c : Converter} {query : String} {t : Query}
    (h : Query.parse c.config.maxDepth query = .ok t) :
    (c.ast query).outcome = t.resolve.mapError .meaningless := by
  have hne : query ≠ "" := by
    intro he
    exact Query.parse_empty (he ▸ h)
  rw [ast, if_neg hne, readNodes, h]
  dsimp only
  cases t.resolve with
  | error e => rfl
  | ok nodes => rfl

/-- **How blanks around keywords and keywords themselves are spelled does not matter.** A query is a
spelling of itself; and every other spelling of it is a query within the same limit, has the same
canonical sequence or is refused like it, for an open range on the same field, and has the same
fragment. -/
theorem Converter.convert_respelled (c : Converter) {query : String} {t : Query}
    (h : Query.parse c.config.maxDepth query = .ok t) :
    t.Respells query.toList query.toList ∧
    ∀ query' : String, t.Respells query.toList query'.toList →
      (∃ t', Query.parse c.config.maxDepth query' = .ok t') ∧
      ((∃ nodes, (c.ast query).outcome = .ok nodes ∧ (c.ast query').outcome = .ok nodes) ∨
        ∃ field position position',
          (c.ast query).outcome = .error (.meaningless (.wildcardRange field position)) ∧
          (c.ast query').outcome = .error (.meaningless (.wildcardRange field position'))) ∧
      ∀ sql, (c.convert query').outcome = .ok sql ↔ (c.convert query).outcome = .ok sql := by
  refine ⟨(reaches_and_laid_of_parse h).2.respells, ?_⟩
  intro query' hs
  obtain ⟨t', ht', hplain⟩ := Query.exists_parse_respelled h hs
  have hast (nodes : List Node) :
      (c.ast query').outcome = .ok nodes ↔ (c.ast query).outcome = .ok nodes := by
    rw [ast_of_parse ht', ast_of_parse h, Except.mapError_eq_ok_iff, Except.mapError_eq_ok_iff]
    exact Query.resolve_eq_ok_iff_of_plain hplain
  refine ⟨⟨t', ht'⟩, ?_, ?_⟩
  · cases hr : t.resolve with
    | ok nodes =>
      have hq : (c.ast query).outcome = .ok nodes := by rw [ast_of_parse h, hr]; rfl
      exact .inl ⟨nodes, hq, (hast nodes).2 hq⟩
    | error e =>
      -- A query is refused for an open range only.
      obtain ⟨k, -, rfl⟩ := (Query.resolve_eq_error_iff_of_parse h).1 hr
      obtain ⟨position', hr'⟩ := Query.exists_wildcardRange_of_plain hplain hr
      refine .inr ⟨k.field, k.position, position', ?_, ?_⟩
      · rw [ast_of_parse h, hr]
        rfl
      · rw [ast_of_parse ht', hr']
        rfl
  · intro sql
    simp only [convert_eq_ok_iff, hast]

/-- Other blanks and capitals for a keyword in front of a group; the same letters between blanks in
a quoted value stay as they are. -/
theorem Converter.convert_respelled_group :
    ((Converter.mk Sql.mysql ⟨1, .none⟩).convert "a:\"x or y\" or (b:1)").outcome =
      .ok "a = 'x or y' OR (b = '1')" ∧
    ((Converter.mk Sql.mysql ⟨1, .none⟩).convert "a:\"x or y\" \tOR\n(b:1)").outcome =
      .ok "a = 'x or y' OR (b = '1')" := by
  have hs : "a:\"x or y\" or (b:1)".toList = ['a', ':', '"', 'x', ' ', 'o', 'r', ' ', 'y', '"', ' ',
    'o', 'r', ' ', '(', 'b', ':', '1', ')'] := rfl
  have ha : Comparison.lex ['a', ':', '"', 'x', ' ', 'o', 'r', ' ', 'y', '"', ' ', 'o', 'r', ' ',
    '(', 'b', ':', '1', ')'] = .ok (⟨"a", ":", .quoted "\"x or y\""⟩,
      [' ', 'o', 'r', ' ', '(', 'b', ':', '1', ')']) := rfl
  have hparse : Query.parse 1 "a:\"x or y\" or (b:1)" =
      .ok (.chain (.comparison ⟨⟨"a", ":", .quoted "\"x or y\""⟩, 0⟩) ⟨"or", 11⟩
        (.single (.group (.single (.comparison ⟨⟨"b", ":", .number "1"⟩, 15⟩))))) := by
    rw [Query.parse, hs, Tokens.scan_comparison ha]
    with_unfolding_all rfl
  have hconvert : ((Converter.mk Sql.mysql ⟨1, .none⟩).convert "a:\"x or y\" or (b:1)").outcome =
      .ok "a = 'x or y' OR (b = '1')" :=
    convert_eq_ok_iff.2 ⟨_, ast_eq_ok_iff.2 (.inr ⟨_, hparse, rfl⟩), rfl⟩
  have hspace : IsRun Blank [' '] := ⟨by decide, by simp [Blank]⟩
  have htab : IsRun Blank [' ', '\t'] := ⟨by decide, by simp [Blank]⟩
  have hline : IsRun Blank ['\n'] := ⟨by decide, by simp [Blank]⟩
  have hspell := Query.Respells.chain (k := ⟨"or", 11⟩)
    (.comparison (c := ⟨⟨"a", ":", .quoted "\"x or y\""⟩, 0⟩)) hspace htab
    (show SameLetters "or".toList "OR".toList by decide) hspace hline
    (.single (.group (.single (.comparison (c := ⟨⟨"b", ":", .number "1"⟩, 15⟩)))))
  obtain ⟨-, hall⟩ := Converter.convert_respelled ⟨Sql.mysql, ⟨1, .none⟩⟩ hparse
  obtain ⟨-, -, hsame⟩ := hall "a:\"x or y\" \tOR\n(b:1)" hspell
  exact ⟨hconvert, (hsame _).2 hconvert⟩

end FieldQuery
