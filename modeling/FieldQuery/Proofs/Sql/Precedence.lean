import Mathlib.Logic.ExistsUnique
import FieldQuery.Proofs.Condition.Precedence
import FieldQuery.Proofs.Condition.Reachable
import FieldQuery.Proofs.Sql.Render

/-!
# Precedence as a grammar

A database takes a fragment apart by a grammar: a disjunction of conjunctions of factors, where a
factor is a condition, a factor behind `NOT`, or a disjunction in parentheses. `words` is the list
of words that a sequence is written as, each condition with a truth value; put together again, they
are the fragment (`spell_of_render`). `Denotes` gives the value of a list of words by the grammar.

What is written for a well-formed sequence has exactly one value: the grammar gives it the value of
`byPrecedence` (`WellFormed.denotes`), and no list of words has two (`Denotes.unique`), since a pass
over the words computes the value whatever the derivation (`Denotes.passes`). So it is decided which
queries keep their textual value: `Converter.denotes_leftToRight_iff_orsLast`.
-/

namespace FieldQuery

namespace Sql

/-! ## Words -/

/-- A word of a fragment; a condition counts as one word and comes with a truth value. -/
inductive Word where
  | condition (c : Condition) (b : Bool)
  | and
  | or
  | not
  | opening
  | closing
deriving DecidableEq, Repr

/-- The operator that is written in a given way. -/
def Word.ofSymbol? (s : List Char) : Option Word :=
  if s = "AND".toList then some and
  else if s = "OR".toList then some or
  else if s = "NOT".toList then some not
  else none

/-- The words that are written for a connective. -/
def connectiveWords (c : Connective) : List Word :=
  (c.symbol.toList.splitOn ' ').filterMap Word.ofSymbol?

mutual

/-- The words that are written for a node, under an assignment. -/
def nodeWords (σ : Assignment) : Node → List Word
  | .condition c => [.condition c (σ [])]
  | .connective c => connectiveWords c
  | .group nodes => .opening :: (words σ nodes ++ [.closing])

/-- The words that are written for a sequence, under an assignment. -/
def words (σ : Assignment) : List Node → List Word
  | [] => []
  | n :: nodes => nodeWords σ.first n ++ words σ.later nodes

end

/-- Only one connective is written as two words. -/
@[simp] theorem connectiveWords_eq (c : Connective) :
    connectiveWords c = match c with
      | .and => [.and]
      | .or => [.or]
      | .andNot => [.and, .not]
      | .not => [.not] := by
  cases c <;> decide

/-! ## The words make up the fragment -/

/-- The text of a word. -/
def Word.text (style : Style) : Word → Except ArityError String
  | condition c _ => renderCondition style c
  | and => .ok "AND"
  | or => .ok "OR"
  | not => .ok "NOT"
  | opening => .ok "("
  | closing => .ok ")"

/-- What stands between a word and the next one: a space, but not inside a parenthesis. -/
def gap : Word → Option Word → String
  | .opening, _ => ""
  | _, none => ""
  | _, some .closing => ""
  | _, some _ => " "

/-- Writes words. -/
def spell (style : Style) : List Word → Except ArityError String
  | [] => .ok ""
  | w :: ws => do
    let text ← w.text style
    let rest ← spell style ws
    return text ++ gap w ws.head? ++ rest

/-- Words that have a space on each side when they stand between others. -/
structure Separate (ws : List Word) : Prop where
  head : ∃ w, ws.head? = some w ∧ w ≠ .closing
  last : ∃ w, ws.getLast? = some w ∧ w ≠ .opening

section
variable {style : Style} {w w' : Word} {ws ws' : List Word} {text text' : String}

theorem gap_eq_space (hw : w ≠ .opening) (hw' : w' ≠ .closing) : gap w (some w') = " " := by
  cases w with
  | opening => exact absurd rfl hw
  | condition | and | or | not | closing =>
    cases w' with
    | closing => exact absurd rfl hw'
    | condition | and | or | not | opening => rfl

@[simp] theorem gap_none : gap w none = "" := by
  cases w <;> rfl

theorem spell_cons_iff :
    spell style (w :: ws) = .ok text ↔
      ∃ first rest, w.text style = .ok first ∧ spell style ws = .ok rest ∧
        text = first ++ gap w ws.head? ++ rest := by
  rw [spell]
  simp only [Except.bind_eq_ok_iff, pure, Except.pure, Except.ok.injEq]
  grind

/-- Nothing stands before a closing parenthesis. -/
theorem spell_closing (h : spell style ws = .ok text) :
    spell style (ws ++ [.closing]) = .ok (text ++ ")") := by
  induction ws generalizing text with
  | nil =>
    cases h
    rfl
  | cons w ws ih =>
    obtain ⟨first, rest, hw, hws, rfl⟩ := spell_cons_iff.1 h
    have hgap : gap w (ws ++ [Word.closing]).head? = gap w ws.head? := by
      cases ws with
      | nil => cases w <;> rfl
      | cons w' ws => rfl
    rw [List.cons_append, spell_cons_iff]
    exact ⟨first, rest ++ ")", hw, ih hws, by rw [hgap, String.append_assoc]⟩

/-- One space stands between words that neither end nor go on inside a parenthesis. -/
theorem spell_append (h : spell style ws = .ok text) (h' : spell style ws' = .ok text')
    (hlast : ∃ w, ws.getLast? = some w ∧ w ≠ .opening)
    (hhead : ∃ w', ws'.head? = some w' ∧ w' ≠ .closing) :
    spell style (ws ++ ws') = .ok (text ++ " " ++ text') := by
  induction ws generalizing text with
  | nil =>
    obtain ⟨w, hw, -⟩ := hlast
    cases hw
  | cons w ws ih =>
    obtain ⟨first, rest, hw, hws, rfl⟩ := spell_cons_iff.1 h
    rw [List.cons_append, spell_cons_iff]
    cases ws with
    | nil =>
      obtain ⟨w₁, hw₁, hne⟩ := hlast
      obtain ⟨w₂, hw₂, hne'⟩ := hhead
      obtain rfl : w = w₁ := Option.some.inj hw₁
      cases hws
      refine ⟨first, text', hw, h', ?_⟩
      rw [List.nil_append, hw₂, gap_eq_space hne hne', List.head?_nil, gap_none,
        String.append_empty, String.append_empty]
    | cons w₁ ws =>
      rw [List.getLast?_cons_cons] at hlast
      refine ⟨first, rest ++ " " ++ text', hw, ih hws hlast, ?_⟩
      simp only [List.cons_append, List.head?_cons, String.append_assoc]

end

theorem separate_nodeWords (σ : Assignment) : ∀ n : Node, Separate (nodeWords σ n)
  | .condition c => ⟨⟨_, rfl, nofun⟩, ⟨_, rfl, nofun⟩⟩
  | .connective c => by
    rw [nodeWords, connectiveWords_eq]
    cases c <;> exact ⟨⟨_, rfl, nofun⟩, ⟨_, rfl, nofun⟩⟩
  | .group nodes => by
    refine ⟨⟨_, rfl, nofun⟩, ⟨.closing, ?_, nofun⟩⟩
    rw [nodeWords, ← List.cons_append, List.getLast?_concat]

theorem head?_words (σ : Assignment) (n : Node) (nodes : List Node) :
    ∃ w, (words σ (n :: nodes)).head? = some w ∧ w ≠ .closing := by
  obtain ⟨w, hw, hne⟩ := (separate_nodeWords σ.first n).head
  exact ⟨w, by rw [words, List.head?_append, hw, Option.some_or], hne⟩

section
variable {style : Style}

mutual

/-- The words of a node are what is written for it. -/
theorem spell_of_renderNode : ∀ (σ : Assignment) {n : Node} {text : String},
    renderNode style n = .ok text → spell style (nodeWords σ n) = .ok text
  | σ, .condition c, text, h =>
    spell_cons_iff.2 ⟨text, "", h, rfl, by simp⟩
  | σ, .connective c, text, h => by
    cases h
    rw [nodeWords, connectiveWords_eq]
    cases c <;> rfl
  | σ, .group nodes, text, h => by
    obtain ⟨parts, hparts, rfl⟩ := renderNode_group_iff.1 h
    rw [nodeWords, spell_cons_iff, String.append_assoc]
    exact ⟨"(", _, rfl, spell_closing (spell_of_renderParts σ hparts), rfl⟩

/-- The words of a sequence are what is written for it. -/
theorem spell_of_renderParts : ∀ (σ : Assignment) {nodes : List Node} {parts : List String},
    renderParts style nodes = .ok parts →
      spell style (words σ nodes) = .ok (" ".intercalate parts)
  | σ, [], parts, h => by
    cases h
    rfl
  | σ, [n], parts, h => by
    obtain ⟨part, parts', hn, hnil, rfl⟩ := renderParts_cons_iff.1 h
    cases hnil
    rw [words, words, List.append_nil, spell_of_renderNode σ.first hn, String.intercalate_singleton]
  | σ, n :: n' :: nodes, parts, h => by
    obtain ⟨part, parts', hn, hparts, rfl⟩ := renderParts_cons_iff.1 h
    have hrest := spell_of_renderParts σ.later hparts
    obtain ⟨part', parts'', -, -, rfl⟩ := renderParts_cons_iff.1 hparts
    rw [words, String.intercalate_cons_cons]
    exact spell_append (spell_of_renderNode σ.first hn) hrest (separate_nodeWords σ.first n).last
      (head?_words σ.later n' nodes)

end

/-- The words of a sequence make up its fragment. -/
theorem spell_of_render (σ : Assignment) {nodes : List Node} {sql : String}
    (h : render style nodes = .ok sql) : spell style (words σ nodes) = .ok sql := by
  obtain ⟨parts, hparts, rfl⟩ := render_eq_ok_iff.1 h
  exact spell_of_renderParts σ hparts

end

/-! ## The grammar -/

/-- The parts of a fragment, from the one that binds tightest. -/
inductive Level where
  | factor
  | conjunction
  | disjunction

/-- The value of a list of words as a part of a fragment. -/
inductive Denotes : Level → List Word → Bool → Prop
  | condition {c : Condition} {b : Bool} : Denotes .factor [.condition c b] b
  | not {ws : List Word} {b : Bool} (h : Denotes .factor ws b) :
      Denotes .factor (.not :: ws) (!b)
  | group {ws : List Word} {b : Bool} (h : Denotes .disjunction ws b) :
      Denotes .factor (.opening :: (ws ++ [.closing])) b
  | factor {ws : List Word} {b : Bool} (h : Denotes .factor ws b) : Denotes .conjunction ws b
  | and {ws ws' : List Word} {b b' : Bool} (h : Denotes .conjunction ws b)
      (h' : Denotes .factor ws' b') : Denotes .conjunction (ws ++ .and :: ws') (b && b')
  | conjunction {ws : List Word} {b : Bool} (h : Denotes .conjunction ws b) :
      Denotes .disjunction ws b
  | or {ws ws' : List Word} {b b' : Bool} (h : Denotes .disjunction ws b)
      (h' : Denotes .conjunction ws' b') : Denotes .disjunction (ws ++ .or :: ws') (b || b')

/-! ## A list of words has one value at most -/

/-- What has been read of a disjunction: the value of its complete conjunctions, the value of the
one being read, and whether the next factor is behind an odd number of `NOT`s. -/
structure Tally where
  done : Bool
  current : Bool
  negated : Bool

/-- The tally before the first word of a disjunction. -/
def Tally.start : Tally :=
  ⟨false, true, false⟩

/-- The tally behind a factor. -/
def Tally.factor (t : Tally) (b : Bool) : Tally :=
  ⟨t.done, t.current && (b != t.negated), false⟩

/-- Reads on with a tally for the disjunction being read and one for each disjunction around it. -/
def run (t : Tally) (outer : List Tally) : List Word → Option Bool
  | [] => if outer.isEmpty then some (t.done || t.current) else none
  | .condition _ b :: ws => run (t.factor b) outer ws
  | .and :: ws => run t outer ws
  | .or :: ws => run ⟨t.done || t.current, true, false⟩ outer ws
  | .not :: ws => run { t with negated := !t.negated } outer ws
  | .opening :: ws => run .start (t :: outer) ws
  | .closing :: ws =>
    match outer with
    | [] => none
    | around :: outer => run (around.factor (t.done || t.current)) outer ws

/-- How reading passes over a part of a fragment that has a given value. -/
def Level.Passes (ws : List Word) (b : Bool) : Level → Prop
  | .factor => ∀ t outer rest, run t outer (ws ++ rest) = run (t.factor b) outer rest
  | .conjunction => ∀ done current outer rest,
      run ⟨done, current, false⟩ outer (ws ++ rest) = run ⟨done, current && b, false⟩ outer rest
  | .disjunction => ∀ done outer rest, ∃ done' current', (done' || current') = (done || b) ∧
      run ⟨done, true, false⟩ outer (ws ++ rest) = run ⟨done', current', false⟩ outer rest

/-- A part of a fragment is passed over as its value says. -/
theorem Denotes.passes {l : Level} {ws : List Word} {b : Bool} (h : Denotes l ws b) :
    l.Passes ws b := by
  induction h with
  | condition => exact fun t outer rest => rfl
  | @not ws b _ ih =>
    intro t outer rest
    have hfactor : ({ t with negated := !t.negated } : Tally).factor b = t.factor (!b) := by
      simp [Tally.factor]
    rw [List.cons_append, run, ih, hfactor]
  | @group ws b _ ih =>
    intro t outer rest
    obtain ⟨done, current, hvalue, hrun⟩ := ih false (t :: outer) (.closing :: rest)
    rw [List.cons_append, List.append_assoc, run]
    show run ⟨false, true, false⟩ (t :: outer) (ws ++ .closing :: rest) = _
    rw [hrun, run, hvalue, Bool.false_or]
  | factor _ ih =>
    intro done current outer rest
    rw [ih]
    simp [Tally.factor]
  | and _ _ ih ih' =>
    intro done current outer rest
    rw [List.append_assoc, ih, List.cons_append, run, ih']
    simp [Tally.factor, Bool.and_assoc]
  | @conjunction ws b _ ih =>
    intro done outer rest
    exact ⟨done, b, rfl, by rw [ih, Bool.true_and]⟩
  | @or ws ws' b b' _ _ ih ih' =>
    intro done outer rest
    obtain ⟨done', current', hvalue, hrun⟩ := ih done outer (.or :: (ws' ++ rest))
    refine ⟨done || b, b', Bool.or_assoc _ _ _, ?_⟩
    rw [List.append_assoc, List.cons_append, hrun, run, ih', hvalue, Bool.true_and]

/-- A list of words has one value at most. -/
theorem Denotes.unique {ws : List Word} {b b' : Bool} (h : Denotes .disjunction ws b)
    (h' : Denotes .disjunction ws b') : b = b' := by
  have hrun {b : Bool} (h : Denotes .disjunction ws b) : run .start [] ws = some b := by
    obtain ⟨done, current, hvalue, hrun⟩ := h.passes false [] []
    rw [List.append_nil] at hrun
    rw [Tally.start, hrun, run, List.isEmpty_nil, if_pos rfl, hvalue, Bool.false_or]
  exact Option.some.inj ((hrun h).symm.trans (hrun h'))

/-! ## What is written has a value -/

/-- The words of a disjunction that is being read: complete conjunctions of one value, if there are
any, and a conjunction of another. -/
inductive Joins : List Word → Bool → Bool → Prop
  | first {ws : List Word} {current : Bool} (h : Denotes .conjunction ws current) :
      Joins ws false current
  | later {ws ws' : List Word} {done current : Bool} (hd : Denotes .disjunction ws done)
      (hc : Denotes .conjunction ws' current) : Joins (ws ++ .or :: ws') done current

section
variable {ws ws' : List Word} {done current b : Bool}

theorem Joins.denotes (h : Joins ws done current) :
    Denotes .disjunction ws (done || current) := by
  cases h with
  | first h => exact .conjunction h
  | later hd hc => exact .or hd hc

/-- A factor behind `OR` starts a new conjunction. -/
theorem Joins.or (h : Joins ws done current) (hf : Denotes .factor ws' b) :
    Joins (ws ++ .or :: ws') (done || current) b :=
  .later h.denotes (.factor hf)

/-- A factor behind `AND` goes on with the conjunction. -/
theorem Joins.and (h : Joins ws done current) (hf : Denotes .factor ws' b) :
    Joins (ws ++ .and :: ws') done (current && b) := by
  cases h with
  | first h => exact .first (.and h hf)
  | later hd hc =>
    rw [List.append_assoc, List.cons_append]
    exact .later hd (.and hc hf)

end

section
variable {depth : Nat} {tail : List Node}

/-- What follows the first operand of a sequence goes on with its disjunction, by precedence. -/
theorem denotes_of_follows
    (hop : ∀ n : Node, n.IsOperand depth → ∀ σ x, n.term byPrecedence σ = .value x →
      Denotes .factor (nodeWords σ n) x)
    (h : Follows depth tail) : ∀ (σ : Assignment) (ws : List Word) (done current : Bool),
    Joins ws done current →
      Denotes .disjunction (ws ++ words σ tail)
        (disjoinFrom done current (terms byPrecedence σ tail)) := by
  induction h with
  | nil =>
    intro σ ws done current hjoins
    rw [words, List.append_nil]
    exact hjoins.denotes
  | @cons c n tail hc hn _ ih =>
    intro σ ws done current hjoins
    obtain ⟨y, hy⟩ := hn.exists_value byPrecedence σ.later.first
    have hfactor := hop n hn σ.later.first y hy
    have hterms : terms byPrecedence σ (.connective c :: n :: tail) =
        .connective c :: .value y :: terms byPrecedence σ.later.later tail := by
      rw [terms, terms, hy]
      rfl
    rw [hterms, words, words, nodeWords, connectiveWords_eq, ← List.append_assoc,
      ← List.append_assoc]
    cases c with
    | not => exact absurd rfl hc
    | and =>
      have hnext := ih σ.later.later _ _ _ (hjoins.and hfactor)
      simpa [disjoinFrom, Connective.apply] using hnext
    | or =>
      have hnext := ih σ.later.later _ _ _ (hjoins.or hfactor)
      simpa [disjoinFrom] using hnext
    | andNot =>
      have hnext := ih σ.later.later _ _ _ (hjoins.and (.not hfactor))
      simpa [disjoinFrom, Connective.apply] using hnext

/-- A sequence has the value of precedence if each of its operands has. -/
theorem denotes_of_wellFormed {nodes : List Node}
    (hop : ∀ n : Node, n.IsOperand depth → ∀ σ x, n.term byPrecedence σ = .value x →
      Denotes .factor (nodeWords σ n) x)
    (h : WellFormed depth nodes) (σ : Assignment) :
    Denotes .disjunction (words σ nodes) (evaluate byPrecedence σ nodes) := by
  obtain ⟨n, tail, rfl, hn, htail⟩ := h.exists_follows
  obtain ⟨x, hx⟩ := hn.exists_value byPrecedence σ.first
  rw [htail.evaluate_byPrecedence hx, words]
  exact denotes_of_follows hop htail σ.later _ false x (.first (.factor (hop n hn _ x hx)))

/-- An operand has the value of precedence. -/
theorem denotes_of_isOperand : ∀ {depth : Nat} (n : Node), n.IsOperand depth → ∀ σ x,
    n.term byPrecedence σ = .value x → Denotes .factor (nodeWords σ n) x
  | _, .condition _, _, σ, x, hx => by
    cases hx
    exact .condition
  | _, .connective _, h, _, _, _ => absurd h Node.not_isOperand_connective
  | depth + 1, .group nodes, h, σ, x, hx => by
    cases hx
    exact .group (denotes_of_wellFormed (fun n => denotes_of_isOperand n) h σ)

end

end Sql

/-- What is written for a well-formed sequence has the value of precedence. -/
theorem WellFormed.denotes {depth : Nat} {nodes : List Node} (h : WellFormed depth nodes)
    (σ : Assignment) :
    Sql.Denotes .disjunction (Sql.words σ nodes) (evaluate byPrecedence σ nodes) :=
  Sql.denotes_of_wellFormed (fun n => Sql.denotes_of_isOperand n) h σ

/-- **Which queries keep their textual value under precedence.** For all truth values of its
conditions, the words of a query make up its fragment and have one value by the grammar. This is the
textual value of the query if and only if no `AND` and no `AND NOT` stands anywhere behind an `OR`
of the same level, at the top and in each group. -/
theorem Converter.denotes_leftToRight_iff_orsLast (c : Converter) {query : String}
    {nodes : List Node} (hquery : query ≠ "") (h : (c.ast query).outcome = .ok nodes) :
    (∃ sql, (c.convert query).outcome = .ok sql ∧
      ∀ σ, Sql.spell c.style (Sql.words σ nodes) = .ok sql) ∧
    (∀ σ, ∃! b, Sql.Denotes .disjunction (Sql.words σ nodes) b) ∧
    ((∀ σ, Sql.Denotes .disjunction (Sql.words σ nodes) (evaluate leftToRight σ nodes)) ↔
      OrsLast nodes) := by
  have hwf := Converter.wellFormed_of_ast hquery h
  refine ⟨?_, ?_, ?_⟩
  · obtain ⟨sql, hsql⟩ := Sql.exists_render c.style hwf
    exact ⟨sql, convert_eq_ok_iff.2 ⟨nodes, h, hsql⟩, fun σ => Sql.spell_of_render σ hsql⟩
  · intro σ
    exact ⟨_, hwf.denotes σ, fun b hb => hb.unique (hwf.denotes σ)⟩
  · rw [← hwf.evaluate_eq_iff_orsLast]
    refine forall_congr' fun σ => ⟨?_, ?_⟩
    · intro hd
      exact hd.unique (hwf.denotes σ)
    · intro heq
      rw [heq]
      exact hwf.denotes σ

/-- In a group, an `AND` behind an `OR`: for some truth values, what is written does not have the
textual value. -/
theorem Converter.denotes_leftToRight_iff_orsLast_group :
    ∃ nodes, ((Converter.mk Sql.mysql ⟨1, .none⟩).ast "(a:1 OR b:2 AND c:3)").outcome =
        .ok nodes ∧
      ∃ σ, Sql.Denotes .disjunction (Sql.words σ nodes) (evaluate byPrecedence σ nodes) ∧
        ¬ Sql.Denotes .disjunction (Sql.words σ nodes) (evaluate leftToRight σ nodes) := by
  have hparse : Query.parse 1 "(a:1 OR b:2 AND c:3)" =
      .ok (.single (.group (.chain (.comparison ⟨⟨"a", ":", .number "1"⟩, 1⟩) ⟨"OR", 5⟩
        (.chain (.comparison ⟨⟨"b", ":", .number "2"⟩, 8⟩) ⟨"AND", 12⟩
          (.single (.comparison ⟨⟨"c", ":", .number "3"⟩, 16⟩)))))) := by
    with_unfolding_all rfl
  have hast : ((Converter.mk Sql.mysql ⟨1, .none⟩).ast "(a:1 OR b:2 AND c:3)").outcome =
      .ok [.group [.condition (.equalTo "a" "1"), .connective .or,
        .condition (.equalTo "b" "2"), .connective .and, .condition (.equalTo "c" "3")]] :=
    Converter.ast_eq_ok_iff.2 (.inr ⟨_, hparse, rfl⟩)
  obtain ⟨-, -, hiff⟩ := Converter.denotes_leftToRight_iff_orsLast _ (by decide) hast
  have hwf := Converter.wellFormed_of_ast (by decide) hast
  have hnot : ¬ OrsLast [.group [.condition (.equalTo "a" "1"), .connective .or,
      .condition (.equalTo "b" "2"), .connective .and, .condition (.equalTo "c" "3")]] := by
    intro hlast
    have hgroup := hlast _ (.group (.head _) .self)
    exact (List.rel_of_pairwise_cons (List.pairwise_cons.1 hgroup).2 (.tail _ (.head _)) rfl).1 rfl
  obtain ⟨σ, hσ⟩ := Classical.not_forall.1 (mt hiff.1 hnot)
  exact ⟨_, hast, σ, hwf.denotes σ, hσ⟩

end FieldQuery
