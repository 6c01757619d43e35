import FieldQuery.Proofs.Condition.Reachable
import FieldQuery.Proofs.Sql.Render
import FieldQuery.Proofs.Surface.Place

/-!
# Conversion goes by the parts of the text

Two queries with a keyword between them convert to their fragments with the keyword's token between
these, and a query in parentheses converts to its fragment in parentheses
(`Converter.convert_join_and_group`).

The text behind a query matters to its last bare value alone, and neither a blank nor a closing
parenthesis goes on with one, so a derivation stays one where such a text is put behind it
(`Query.Derives.follow`). That lets derivations be joined (`Query.Derives.append`), and each stage
of a conversion takes the joined query to what it gives for the two parts, joined.
-/

namespace FieldQuery

open Text Grammar

/-! ## Derivations -/

mutual

/-- An expression stays one in front of another text, unless that goes on with a bare value. -/
theorem Expr.Derives.follow : ∀ {e : Expr} {text rest rest' : List Char}, e.Derives text rest →
    (Stops Bare rest → Stops Bare rest') → e.Derives text rest'
  | .comparison _, _, _, _, .comparison h, hr => .comparison (h.follow hr)
  | .group _, _, _, rest', .group h, _ =>
    .group (Query.Derives.follow h fun _ => stops_bare_closing rest')

/-- A query stays one in front of another text, unless that goes on with a bare value. -/
theorem Query.Derives.follow : ∀ {q : Query} {text rest rest' : List Char}, q.Derives text rest →
    (Stops Bare rest → Stops Bare rest') → q.Derives text rest'
  | .single _, _, _, _, .single h, hr => .single (Expr.Derives.follow h hr)
  | .chain _ _ _, _, _, _, .chain he hb hk ha hq, hr => by
    refine .chain (Expr.Derives.follow he fun _ => ?_) hb hk ha (Query.Derives.follow hq hr)
    simpa only [List.append_assoc] using hb.stops_bare

end

/-- A query, a keyword between blanks and a second query are a query. -/
theorem Query.Derives.append {q q' : Query} {k : Keyword} {text before after text' rest : List Char}
    (h : q.Derives text []) (hb : IsRun Blank before) (hk : IsKeyword k.word.toList)
    (ha : IsRun Blank after) (h' : q'.Derives text' rest) :
    (q.append k q').Derives (text ++ before ++ k.word.toList ++ after ++ text') rest := by
  cases h with
  | single he =>
    refine .chain (he.follow fun _ => ?_) hb hk ha h'
    simpa only [List.append_assoc] using hb.stops_bare
  | chain he hb₁ hk₁ ha₁ hq =>
    -- The text behind the first expression is longer now, but it still starts with a blank.
    have hjoin := Query.Derives.append hq hb hk ha h'
    have hchain := Query.Derives.chain (he.follow fun _ => ?_) hb₁ hk₁ ha₁ hjoin
    · simpa only [List.append_assoc, Query.append] using hchain
    · simpa only [List.append_assoc] using hb₁.stops_bare
termination_by q

/-- The groups of a joined query are those of its parts. -/
theorem Query.depth_append (q : Query) (k : Keyword) (q' : Query) :
    (q.append k q').depth = max q.depth q'.depth := by
  cases q with
  | single e => rfl
  | chain e k' q =>
    rw [Query.append, Query.depth, Query.depth, Query.depth_append q k q', Nat.max_assoc]
termination_by q

/-! ## Sequences -/

/-- A joined query resolves to the sequences of its parts, with the keyword's connective between
them. -/
theorem Query.resolve_append {q q' : Query} {k : Keyword} {c : Connective}
    {nodes nodes' : List Node} (h : q.resolve = .ok nodes) (hk : k.resolve = .ok c)
    (h' : q'.resolve = .ok nodes') :
    (q.append k q').resolve = .ok (nodes ++ .connective c :: nodes') := by
  cases q with
  | single e =>
    obtain ⟨n, hn, rfl⟩ := Query.resolve_single_iff.1 h
    exact Query.resolve_chain_iff.2 ⟨n, c, nodes', hn, hk, h', rfl⟩
  | chain e k₁ q =>
    obtain ⟨n, c₁, nodes, hn, hk₁, hq, rfl⟩ := Query.resolve_chain_iff.1 h
    exact Query.resolve_chain_iff.2 ⟨n, c₁, _, hn, hk₁, Query.resolve_append hq hk h', rfl⟩
termination_by q

/-- A keyword of the grammar, in any case, and the token that is written for it. -/
def Keyword.IsWrittenAs (word token : String) : Prop :=
  (word.toList.map Char.toUpper, token) ∈
    [("AND".toList, "AND"), ("OR".toList, "OR"), ("ANDNOT".toList, "AND NOT")]

instance (word token : String) : Decidable (Keyword.IsWrittenAs word token) :=
  inferInstanceAs (Decidable (_ ∈ _))

/-- A word that has a token is a keyword. -/
theorem Keyword.IsWrittenAs.isKeyword {word token : String} (h : IsWrittenAs word token) :
    IsKeyword word.toList := by
  simp only [IsWrittenAs, List.mem_cons, List.not_mem_nil, or_false, Prod.mk.injEq] at h
  rcases h with ⟨h, -⟩ | ⟨h, -⟩ | ⟨h, -⟩
  all_goals
    rw [IsKeyword, h]
    decide

/-- The token of a keyword is that of the connective that it stands for. -/
theorem Keyword.IsWrittenAs.exists_connective {word token : String} (h : IsWrittenAs word token) :
    ∃ c, Connective.ofKeyword? word = some c ∧ c.symbol = token := by
  simp only [IsWrittenAs, List.mem_cons, List.not_mem_nil, or_false, Prod.mk.injEq] at h
  rw [Connective.ofKeyword?, lower_eq]
  rcases h with ⟨h, rfl⟩ | ⟨h, rfl⟩ | ⟨h, rfl⟩
  · exact ⟨.and, by rw [h]; decide, rfl⟩
  · exact ⟨.or, by rw [h]; decide, rfl⟩
  · exact ⟨.andNot, by rw [h]; decide, rfl⟩

/-! ## Fragments -/

namespace Sql

variable {style : Style} {nodes nodes' : List Node}

/-- The nodes of two sequences are written one sequence after the other. -/
theorem renderParts_append {parts parts' : List String} (h : renderParts style nodes = .ok parts)
    (h' : renderParts style nodes' = .ok parts') :
    renderParts style (nodes ++ nodes') = .ok (parts ++ parts') := by
  induction nodes generalizing parts with
  | nil =>
    cases h
    exact h'
  | cons n nodes ih =>
    obtain ⟨part, parts, hn, hparts, rfl⟩ := renderParts_cons_iff.1 h
    exact renderParts_cons_iff.2 ⟨part, parts ++ parts', hn, ih hparts, rfl⟩

/-- What is written for a sequence that is not empty has parts. -/
theorem ne_nil_of_renderParts {parts : List String} (hne : nodes ≠ [])
    (h : renderParts style nodes = .ok parts) : parts ≠ [] := by
  obtain ⟨n, nodes, rfl⟩ := List.exists_cons_of_ne_nil hne
  obtain ⟨part, parts, -, -, rfl⟩ := renderParts_cons_iff.1 h
  exact List.cons_ne_nil part parts

/-- Two sequences with a connective between them are written with its token between them. -/
theorem render_connective {sql sql' : String} (c : Connective) (hne : nodes ≠ [])
    (hne' : nodes' ≠ []) (h : render style nodes = .ok sql) (h' : render style nodes' = .ok sql') :
    render style (nodes ++ .connective c :: nodes') =
      .ok (sql ++ " " ++ c.symbol ++ " " ++ sql') := by
  obtain ⟨parts, hparts, rfl⟩ := render_eq_ok_iff.1 h
  obtain ⟨parts', hparts', rfl⟩ := render_eq_ok_iff.1 h'
  have htail : renderParts style (.connective c :: nodes') = .ok (c.symbol :: parts') :=
    renderParts_cons_iff.2 ⟨c.symbol, parts', rfl, hparts', rfl⟩
  refine render_eq_ok_iff.2 ⟨_, renderParts_append hparts htail, ?_⟩
  rw [String.intercalate_append_of_ne_nil (ne_nil_of_renderParts hne hparts) (List.cons_ne_nil _ _),
    String.intercalate_cons_of_ne_nil (ne_nil_of_renderParts hne' hparts')]
  simp only [String.append_assoc]

/-- A group is written as its sequence in parentheses. -/
theorem render_group {sql : String} (h : render style nodes = .ok sql) :
    render style [.group nodes] = .ok ("(" ++ sql ++ ")") := by
  obtain ⟨parts, hparts, rfl⟩ := render_eq_ok_iff.1 h
  have hgroup := renderNode_group_iff.2 ⟨parts, hparts, rfl⟩
  exact render_eq_ok_iff.2 ⟨[_], renderParts_cons_iff.2 ⟨_, [], hgroup, rfl, rfl⟩, by simp⟩

end Sql

/-! ## Conversions -/

namespace Converter

variable {c : Converter} {q₁ q₂ : String} {nodes₁ nodes₂ : List Node}

/-- A text that is not empty has a canonical sequence if it derives a tree that resolves to it, with
groups nested within the limit. -/
theorem ast_eq_ok_iff_derives (hne : q₁ ≠ "") :
    (c.ast q₁).outcome = .ok nodes₁ ↔
      ∃ t : Query, t.Derives q₁.toList [] ∧ t.depth ≤ c.config.maxDepth ∧
        t.resolve = .ok nodes₁ := by
  rw [ast_eq_ok_iff]
  refine ⟨?_, ?_⟩
  · rintro (⟨rfl, -⟩ | ⟨t, ht, hr⟩)
    · exact absurd rfl hne
    · obtain ⟨hd, hdepth⟩ := derives_of_parse ht
      exact ⟨t, hd, hdepth, hr⟩
  · rintro ⟨t, hd, hdepth, hr⟩
    obtain ⟨q, hq, heq⟩ := parse_of_derives hd hdepth
    exact .inr ⟨q, hq, Query.resolve_eq_ok_of_unplaced heq.symm hr⟩

/-- The canonical sequence of two queries with a keyword between them. -/
theorem ast_join {before word after : String} {connective : Connective} (hne₁ : q₁ ≠ "")
    (hne₂ : q₂ ≠ "") (h₁ : (c.ast q₁).outcome = .ok nodes₁) (h₂ : (c.ast q₂).outcome = .ok nodes₂)
    (hb : IsRun Blank before.toList) (hk : IsKeyword word.toList)
    (hc : Connective.ofKeyword? word = some connective) (ha : IsRun Blank after.toList) :
    (c.ast (q₁ ++ before ++ word ++ after ++ q₂)).outcome =
      .ok (nodes₁ ++ .connective connective :: nodes₂) := by
  obtain ⟨t₁, hd₁, hdepth₁, hr₁⟩ := (ast_eq_ok_iff_derives hne₁).1 h₁
  obtain ⟨t₂, hd₂, hdepth₂, hr₂⟩ := (ast_eq_ok_iff_derives hne₂).1 h₂
  have hne : q₁ ++ before ++ word ++ after ++ q₂ ≠ "" := by simp [hne₁]
  refine (ast_eq_ok_iff_derives hne).2 ⟨t₁.append ⟨word, 0⟩ t₂, ?_, ?_, ?_⟩
  · simpa using hd₁.append (k := ⟨word, 0⟩) hb hk ha hd₂
  · rw [Query.depth_append]
    exact Nat.max_le.2 ⟨hdepth₁, hdepth₂⟩
  · exact Query.resolve_append hr₁ (Keyword.resolve_eq_ok_iff.2 hc) hr₂

/-- The canonical sequence of a query in parentheses, with one more level allowed. -/
theorem ast_group (hne : q₁ ≠ "") (h : (c.ast q₁).outcome = .ok nodes₁) :
    (({ c with config.maxDepth := c.config.maxDepth + 1 } : Converter).ast
      ("(" ++ q₁ ++ ")")).outcome = .ok [.group nodes₁] := by
  obtain ⟨t, hd, hdepth, hr⟩ := (ast_eq_ok_iff_derives hne).1 h
  have hd' := hd.follow fun _ => stops_bare_closing []
  refine (ast_eq_ok_iff_derives (by simp)).2 ⟨.single (.group t), ?_, Nat.succ_le_succ hdepth, ?_⟩
  · simpa using Query.Derives.single (.group hd')
  · exact Query.resolve_single_iff.2 ⟨_, Expr.resolve_group_iff.2 ⟨nodes₁, hr, rfl⟩, rfl⟩

/-- The canonical sequence of a text that is not empty is not empty. -/
theorem ne_nil_of_ast (hne : q₁ ≠ "") (h : (c.ast q₁).outcome = .ok nodes₁) : nodes₁ ≠ [] := by
  rintro rfl
  exact not_alternates_nil (wellFormed_of_ast hne h)

end Converter

/-- **Conversion goes by the parts of the text.** Two queries with a keyword of any case between
blanks convert to their fragments with the keyword's token between single spaces, and a query in
parentheses converts, with one more level of nesting allowed, to its fragment in parentheses. -/
theorem Converter.convert_join_and_group (c : Converter) {q₁ q₂ sql₁ sql₂ : String} (hne₁ : q₁ ≠ "")
    (hne₂ : q₂ ≠ "") (h₁ : (c.convert q₁).outcome = .ok sql₁)
    (h₂ : (c.convert q₂).outcome = .ok sql₂) :
    (∀ before word after token : String, IsRun Blank before.toList →
      Keyword.IsWrittenAs word token → IsRun Blank after.toList →
      (c.convert (q₁ ++ before ++ word ++ after ++ q₂)).outcome =
        .ok (sql₁ ++ " " ++ token ++ " " ++ sql₂)) ∧
    (({ c with config.maxDepth := c.config.maxDepth + 1 } : Converter).convert
      ("(" ++ q₁ ++ ")")).outcome = .ok ("(" ++ sql₁ ++ ")") := by
  obtain ⟨nodes₁, hast₁, hsql₁⟩ := convert_eq_ok_iff.1 h₁
  obtain ⟨nodes₂, hast₂, hsql₂⟩ := convert_eq_ok_iff.1 h₂
  refine ⟨?_, ?_⟩
  · intro before word after token hb hword ha
    obtain ⟨connective, hc, rfl⟩ := hword.exists_connective
    exact convert_eq_ok_iff.2 ⟨_, ast_join hne₁ hne₂ hast₁ hast₂ hb hword.isKeyword hc ha,
      Sql.render_connective connective (ne_nil_of_ast hne₁ hast₁) (ne_nil_of_ast hne₂ hast₂) hsql₁
        hsql₂⟩
  · exact convert_eq_ok_iff.2 ⟨_, ast_group hne₁ hast₁, Sql.render_group hsql₁⟩

/-- A bare value before a keyword in letters of both cases, and a group at the limit. -/
theorem Converter.convert_join_and_group_andNot :
    ((Converter.mk Sql.mysql ⟨1, .none⟩).convert "(b:[2;*]) or a:1").outcome =
      .ok "(b > '2') OR a = '1'" ∧
    ((Converter.mk Sql.mysql ⟨1, .none⟩).convert "c:3").outcome = .ok "c = '3'" ∧
    ((Converter.mk Sql.mysql ⟨1, .none⟩).convert "(b:[2;*]) or a:1\t aNdNoT c:3").outcome =
      .ok "(b > '2') OR a = '1' AND NOT c = '3'" ∧
    ((Converter.mk Sql.mysql ⟨2, .none⟩).convert "((b:[2;*]) or a:1)").outcome =
      .ok "((b > '2') OR a = '1')" := by
  have hparse₁ : Query.parse 1 "(b:[2;*]) or a:1" =
      .ok (.chain (.group (.single (.comparison ⟨⟨"b", ":", .range "2" "*"⟩, 1⟩))) ⟨"or", 10⟩
        (.single (.comparison ⟨⟨"a", ":", .number "1"⟩, 13⟩))) := by
    with_unfolding_all rfl
  have hparse₂ : Query.parse 1 "c:3" =
      .ok (.single (.comparison ⟨⟨"c", ":", .number "3"⟩, 0⟩)) := by with_unfolding_all rfl
  have h₁ : ((Converter.mk Sql.mysql ⟨1, .none⟩).convert "(b:[2;*]) or a:1").outcome =
      .ok "(b > '2') OR a = '1'" :=
    convert_eq_ok_iff.2 ⟨_, ast_eq_ok_iff.2 (.inr ⟨_, hparse₁, rfl⟩), rfl⟩
  have h₂ : ((Converter.mk Sql.mysql ⟨1, .none⟩).convert "c:3").outcome = .ok "c = '3'" :=
    convert_eq_ok_iff.2 ⟨_, ast_eq_ok_iff.2 (.inr ⟨_, hparse₂, rfl⟩), rfl⟩
  obtain ⟨hjoin, hgroup⟩ :=
    Converter.convert_join_and_group ⟨Sql.mysql, ⟨1, .none⟩⟩ (by decide) (by decide) h₁ h₂
  have htab : IsRun Blank "\t ".toList := ⟨by decide, by simp [Blank]⟩
  have hspace : IsRun Blank " ".toList := ⟨by decide, by simp [Blank]⟩
  have hword : Keyword.IsWrittenAs "aNdNoT" "AND NOT" := by decide
  exact ⟨h₁, h₂, hjoin "\t " "aNdNoT" " " "AND NOT" htab hword hspace, hgroup⟩

end FieldQuery
