import FieldQuery.Proofs.Condition.Resolve
import FieldQuery.Proofs.Condition.WellFormed
import FieldQuery.Proofs.Converter
import FieldQuery.Proofs.Text.Backslash

/-!
# The sequences that queries give rise to

A sequence is the canonical sequence of some text if and only if it is empty or well-formed
(`exists_ast_iff_wellFormed`).

That what a query resolves to is well-formed goes by the shape of the derivation: each rule of the
grammar gives what the corresponding clause of `WellFormed` asks for. For the converse every
well-formed sequence is spelled: values in quotes and bounds of ranges, with a backslash before
each of their characters, and keywords in capitals between single spaces.
-/

namespace FieldQuery

open Text Grammar

/-! ## What resolves is well-formed -/

/-- One value that is not empty makes a well-formed condition with any comparator but one. -/
theorem Condition.wellFormed_single {field value : String} {comparator : Comparator}
    (hf : IsField field.toList) (hc : comparator ≠ .between) (hv : value ≠ "") :
    (Condition.mk field comparator [value]).WellFormed := by
  refine ⟨hf, ?_⟩
  cases comparator with
  | between => exact absurd rfl hc
  | equal | greater | less => exact ⟨value, rfl, hv⟩

/-- No operator stands for the comparator of an interval. -/
theorem Comparator.ne_between_of_ofOperator? {operator : String} {comparator : Comparator}
    (h : ofOperator? operator = some comparator) : comparator ≠ .between := by
  rintro rfl
  unfold ofOperator? at h
  split at h
  · cases h
  · split at h
    · cases h
    · split at h <;> cases h

/-- A bound keeps what makes it one when its backslashes are resolved. -/
theorem isRun_unescapeText {bound : List Char} (h : IsRun Bound bound) :
    IsRun Bound (unescapeText (.ofList bound)).toList := by
  simp only [unescapeText, String.toList_ofList]
  exact ⟨unescape_ne_nil h.1, fun c hc => h.2 c (mem_of_mem_unescape hc)⟩

/-- A range of bounds stands for a well-formed condition, unless it is open on both sides. -/
theorem Condition.wellFormed_of_ofRange? {field left right : String} {c : Condition}
    (hf : IsField field.toList) (hl : IsRun Bound left.toList) (hr : IsRun Bound right.toList)
    (h : ofRange? field left right = some c) : c.WellFormed := by
  have hne {v : String} (hv : IsRun Bound v.toList) : v ≠ "" := by
    rintro rfl
    exact hv.1 rfl
  unfold ofRange? at h
  split at h
  · split at h
    · cases h
    · cases h
      exact wellFormed_single hf (by decide) (hne hr)
  · split at h
    · cases h
      exact wellFormed_single hf (by decide) (hne hl)
    · next hleft hright =>
      cases h
      exact ⟨hf, left, right, rfl, ⟨hl, hleft⟩, hr, hright⟩

/-- A derived comparison resolves to a well-formed condition or not at all. -/
theorem PlacedComparison.wellFormed_of_resolve {c : PlacedComparison} {text rest : List Char}
    {condition : Condition} (hd : c.toComparison.Derives text rest)
    (h : c.resolve = .ok condition) : condition.WellFormed := by
  obtain ⟨hf, -, hv⟩ := hd
  unfold resolve at h
  split at h
  · cases h
  · next comparator hc =>
    have hne := Comparator.ne_between_of_ofOperator? hc
    generalize c.value = v at hv h
    cases hv with
    | range hl hr =>
      simp only at h
      split at h
      · next hrange =>
        cases h
        exact Condition.wellFormed_of_ofRange? hf (isRun_unescapeText hl) (isRun_unescapeText hr)
          hrange
      · cases h
    | @quoted items _ hitems =>
      cases h
      refine Condition.wellFormed_single hf hne ?_
      simpa [unescape_quoteBody, ← String.toList_inj] using hitems
    | number hrun =>
      cases h
      refine Condition.wellFormed_single hf hne ?_
      simpa [← String.toList_inj] using hrun.run.1
    | unquoted hrun =>
      cases h
      refine Condition.wellFormed_single hf hne ?_
      simpa [unescapeText, ← String.toList_inj] using unescape_ne_nil hrun.run.1

mutual

/-- A derived expression resolves to an operand, with groups as deep as its own. -/
theorem Expr.isOperand_of_resolve : ∀ {e : Expr} {text rest : List Char} {depth : Nat} {n : Node},
    e.Derives text rest → e.resolve = .ok n → e.depth ≤ depth → n.IsOperand depth
  | .comparison c, _, _, depth, n, .comparison hd, h, _ => by
    obtain ⟨condition, hc, rfl⟩ := Expr.resolve_comparison_iff.1 h
    exact Node.isOperand_condition.2 (PlacedComparison.wellFormed_of_resolve hd hc)
  | .group q, _, _, 0, n, _, _, hdepth => nomatch hdepth
  | .group q, _, _, depth + 1, n, .group hd, h, hdepth => by
    obtain ⟨nodes, hq, rfl⟩ := Expr.resolve_group_iff.1 h
    exact Query.wellFormed_of_resolve hd hq (Nat.le_of_succ_le_succ hdepth)

/-- A derived query resolves to a well-formed sequence, with groups as deep as its own. -/
theorem Query.wellFormed_of_resolve :
    ∀ {q : Query} {text rest : List Char} {depth : Nat} {nodes : List Node},
    q.Derives text rest → q.resolve = .ok nodes → q.depth ≤ depth → WellFormed depth nodes
  | .single e, _, _, depth, nodes, .single hd, h, hdepth => by
    obtain ⟨n, he, rfl⟩ := Query.resolve_single_iff.1 h
    exact alternates_singleton.2 (Expr.isOperand_of_resolve hd he hdepth)
  | .chain e k q, _, _, depth, nodes, .chain hd _ hk _ hq, h, hdepth => by
    obtain ⟨n, c, nodes, hn, hc, hnodes, rfl⟩ := Query.resolve_chain_iff.1 h
    have hdepth : e.depth ≤ depth ∧ q.depth ≤ depth := Nat.max_le.1 hdepth
    exact alternates_cons.2 ⟨Expr.isOperand_of_resolve hd hn hdepth.1,
      ⟨c, rfl, Keyword.ne_not_of_resolve hk hc⟩, Query.wellFormed_of_resolve hq hnodes hdepth.2⟩

end

/-- The canonical sequence of a text that is not empty is well-formed. -/
theorem Converter.wellFormed_of_ast {c : Converter} {query : String} {nodes : List Node}
    (hquery : query ≠ "") (h : (c.ast query).outcome = .ok nodes) :
    WellFormed c.config.maxDepth nodes := by
  rcases Converter.ast_eq_ok_iff.1 h with ⟨he, -⟩ | ⟨t, ht, hnodes⟩
  · exact absurd he hquery
  · obtain ⟨hd, hdepth⟩ := derives_of_parse ht
    exact Query.wellFormed_of_resolve hd hnodes hdepth

/-- The canonical sequence of a text is empty or well-formed. -/
theorem Converter.eq_nil_or_wellFormed_of_ast {c : Converter} {query : String} {nodes : List Node}
    (h : (c.ast query).outcome = .ok nodes) :
    nodes = [] ∨ WellFormed c.config.maxDepth nodes := by
  by_cases hquery : query = ""
  · subst hquery
    cases h
    exact .inl rfl
  · exact .inr (Converter.wellFormed_of_ast hquery h)

/-! ## What is well-formed can be spelled -/

/-- Every comparator but one has an operator, which can be read before a quote. -/
theorem Comparator.exists_operator {comparator : Comparator} (h : comparator ≠ .between) :
    ∃ operator, ofOperator? operator = some comparator ∧
      ∀ rest, IsOperator operator ('"' :: rest) := by
  cases comparator with
  | between => exact absurd rfl h
  | equal => exact ⟨":", by decide, fun _ => .inr (.inr ⟨rfl, by simp, by simp⟩)⟩
  | greater => exact ⟨":>", by decide, fun _ => .inl rfl⟩
  | less => exact ⟨":<", by decide, fun _ => .inr (.inl rfl)⟩

/-- A text that is not empty can be put in quotes and stands there for itself. -/
theorem Value.derives_protect {s : List Char} (hs : s ≠ []) (rest : List Char) :
    (Value.quoted (.ofList ('"' :: protect s ++ ['"']))).Derives ('"' :: protect s ++ ['"']) rest :=
  .quoted (by simpa using hs)

/-- A condition with one value can be spelled, with the value in quotes. -/
theorem Condition.exists_quoted {field value : String} {comparator : Comparator}
    (hf : IsField field.toList) (hc : comparator ≠ .between) (hv : value ≠ "") :
    ∃ (k : PlacedComparison) (text : List Char), (∀ rest, k.toComparison.Derives text rest) ∧
      k.resolve = .ok ⟨field, comparator, [value]⟩ := by
  obtain ⟨operator, ho, hop⟩ := Comparator.exists_operator hc
  have hs : value.toList ≠ [] := fun h => hv (String.toList_inj.1 h)
  refine ⟨⟨⟨field, operator, .quoted (.ofList ('"' :: protect value.toList ++ ['"']))⟩, 0⟩, _,
    fun rest => .intro hf (hop _) (Value.derives_protect hs rest), ?_⟩
  simp [PlacedComparison.resolve, ho]

/-- A bound can be protected and stays one. -/
theorem isRun_protect {s : List Char} (h : IsRun Bound s) : IsRun Bound (protect s) := by
  refine ⟨fun hnil => h.1 ?_, fun c hc => ?_⟩
  · rw [← unescape_protect s, hnil]
    rfl
  · rcases mem_of_mem_protect hc with rfl | hc
    · simp [Bound, Blank]
    · exact h.2 c hc

/-- A condition with two bounds can be spelled, as a range. -/
theorem Condition.exists_range {field lower upper : String} (hf : IsField field.toList)
    (hl : IsBound lower) (hu : IsBound upper) :
    ∃ (k : PlacedComparison) (text : List Char), (∀ rest, k.toComparison.Derives text rest) ∧
      k.resolve = .ok ⟨field, .between, [lower, upper]⟩ := by
  refine ⟨⟨⟨field, ":", .range (.ofList (protect lower.toList)) (.ofList (protect upper.toList))⟩,
    0⟩, _, fun rest => .intro hf ?_ (.range (isRun_protect hl.1) (isRun_protect hu.1)), ?_⟩
  · exact .inr (.inr ⟨rfl, by simp, by simp⟩)
  · have hrange : ofRange? field lower upper = some ⟨field, .between, [lower, upper]⟩ := by
      rw [ofRange?, if_neg hl.2, if_neg hu.2]
      rfl
    simp [PlacedComparison.resolve, Comparator.ofOperator?, unescapeText, hrange]

/-- Every well-formed condition can be spelled, whatever follows. -/
theorem Condition.WellFormed.exists_comparison {c : Condition} (h : c.WellFormed) :
    ∃ (k : PlacedComparison) (text : List Char), (∀ rest, k.toComparison.Derives text rest) ∧
      k.resolve = .ok c := by
  rcases h.single_or_between with ⟨field, comparator, value, rfl, hc, hf, hv⟩ |
    ⟨field, lower, upper, rfl, hf, hl, hu⟩
  · exact exists_quoted hf hc hv
  · exact exists_range hf hl hu

/-- Every connective but one has a keyword. -/
theorem Connective.exists_keyword {c : Connective} (h : c ≠ .not) :
    ∃ k : Keyword, IsKeyword k.word.toList ∧ k.resolve = .ok c := by
  cases c with
  | not => exact absurd rfl h
  | and => exact ⟨⟨"AND", 0⟩, by decide, rfl⟩
  | or => exact ⟨⟨"OR", 0⟩, by decide, rfl⟩
  | andNot => exact ⟨⟨"ANDNOT", 0⟩, by decide, rfl⟩

/-- A sequence can be spelled if each of its operands can. -/
theorem Alternates.exists_query {Operand : Node → Prop} {depth : Nat} {nodes : List Node}
    (hspell : ∀ n, Operand n → ∃ (e : Expr) (text : List Char), (∀ rest, e.Derives text rest) ∧
      e.resolve = .ok n ∧ e.depth ≤ depth) (h : Alternates Operand nodes) :
    ∃ (q : Query) (text : List Char), (∀ rest, q.Derives text rest) ∧
      q.resolve = .ok nodes ∧ q.depth ≤ depth := by
  have hspace : IsRun Blank [' '] := ⟨by simp, by simp [Blank]⟩
  induction h using Alternates.chainRec with
  | single n hn =>
    obtain ⟨e, text, he, hr, hdepth⟩ := hspell n hn
    exact ⟨.single e, text, fun rest => .single (he rest),
      Query.resolve_single_iff.2 ⟨n, hr, rfl⟩, hdepth⟩
  | chain n c nodes hn hc _ ih =>
    obtain ⟨e, text, he, hr, hdepth⟩ := hspell n hn
    obtain ⟨k, hk, hkr⟩ := Connective.exists_keyword hc
    obtain ⟨q, text', hq, hqr, hqdepth⟩ := ih
    exact ⟨.chain e k q, _, fun rest => .chain (he _) hspace hk hspace (hq rest),
      Query.resolve_chain_iff.2 ⟨n, c, nodes, hr, hkr, hqr, rfl⟩, Nat.max_le.2 ⟨hdepth, hqdepth⟩⟩

/-- Every operand can be spelled, with groups as deep as it may have them. -/
theorem Node.IsOperand.exists_expr : ∀ {depth : Nat} {n : Node}, n.IsOperand depth →
    ∃ (e : Expr) (text : List Char), (∀ rest, e.Derives text rest) ∧
      e.resolve = .ok n ∧ e.depth ≤ depth
  | depth, .condition c, h => by
    obtain ⟨k, text, hd, hr⟩ := (Node.isOperand_condition.1 h).exists_comparison
    exact ⟨.comparison k, text, fun rest => .comparison (hd rest),
      Expr.resolve_comparison_iff.2 ⟨c, hr, rfl⟩, Nat.zero_le _⟩
  | _, .connective _, h => absurd h Node.not_isOperand_connective
  | depth + 1, .group nodes, h => by
    obtain ⟨q, text, hd, hr, hdepth⟩ :=
      Alternates.exists_query (fun _ hn => Node.IsOperand.exists_expr hn) h
    exact ⟨.group q, _, fun rest => .group (hd _), Expr.resolve_group_iff.2 ⟨nodes, hr, rfl⟩,
      Nat.succ_le_succ hdepth⟩

/-- **Queries give rise to the well-formed sequences and no others,** apart from the empty one,
which belongs to the empty text. -/
theorem exists_ast_iff_wellFormed (c : Converter) (nodes : List Node) :
    (∃ query, (c.ast query).outcome = .ok nodes) ↔
      nodes = [] ∨ WellFormed c.config.maxDepth nodes := by
  refine ⟨?_, ?_⟩
  · rintro ⟨query, h⟩
    exact Converter.eq_nil_or_wellFormed_of_ast h
  · rintro (rfl | h)
    · exact ⟨"", Converter.ast_eq_ok_iff.2 (.inl ⟨rfl, rfl⟩)⟩
    · obtain ⟨t, text, hd, hr, hdepth⟩ := h.exists_query fun _ => Node.IsOperand.exists_expr
      obtain ⟨q, hq, heq⟩ := parse_of_derives (s := .ofList text) (by simpa using hd []) hdepth
      exact ⟨.ofList text, Converter.ast_eq_ok_iff.2
        (.inr ⟨q, hq, Query.resolve_eq_ok_of_unplaced heq.symm hr⟩)⟩

end FieldQuery
