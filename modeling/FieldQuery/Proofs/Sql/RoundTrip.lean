import FieldQuery.Proofs.Condition.Reachable
import FieldQuery.Proofs.Sql.Reader
import FieldQuery.Proofs.Sql.Render

/-!
# Fragments are read back

A fragment determines the sequence that it was written for: reading the fragment of a query gives
the canonical sequence of the query, each value with its original text (`Dialect.read_convert`).

Literals and names come first, one character at a time: what an escaper writes for a character is
read as that character, whatever follows (`readQuoted_flatMap`). Comparisons follow from their
parts. The word `NOT` behind `AND` is told apart by what stands behind it: no comparison has
another comparison or a parenthesis where its comparator is due (`Dialect.readCondition_not`).
Sequences follow by induction on nesting, and along the sequence within a group.
-/

namespace FieldQuery.Sql

open Text Grammar

/-! ## Quoted texts -/

section
variable {escapes : Bool} {quote : Char}

/-- A quote that is not doubled ends a quoted text. -/
theorem readQuoted_quote {rest : List Char} (h : rest.head? ≠ some quote) :
    readQuoted escapes quote (quote :: rest) = some ([], rest) := by
  cases rest with
  | nil => simp [readQuoted]
  | cons c rest =>
    have hc : c ≠ quote := by simpa using h
    simp [readQuoted, hc]

/-- A character that is not special stands for itself. -/
theorem readQuoted_plain {c : Char} (hq : c ≠ quote) (hb : ¬ (escapes ∧ c = '\\')) (s : List Char) :
    readQuoted escapes quote (c :: s) =
      (readQuoted escapes quote s).map fun (text, rest) => (c :: text, rest) := by
  cases s with
  | nil => simp [readQuoted, hq]
  | cons d s => rw [readQuoted, if_neg hq, if_neg hb]

/-- A text is read back if what is written for each of its characters is read as that character. -/
theorem readQuoted_flatMap {write : Char → List Char}
    (hwrite : ∀ c s, readQuoted escapes quote (write c ++ s) =
      (readQuoted escapes quote s).map fun (text, rest) => (c :: text, rest))
    (text : List Char) {rest : List Char} (h : rest.head? ≠ some quote) :
    readQuoted escapes quote (text.flatMap write ++ quote :: rest) = some (text, rest) := by
  induction text with
  | nil => exact readQuoted_quote h
  | cons c text ih => rw [List.flatMap_cons, List.append_assoc, hwrite, ih]; rfl

/-- A text whose quotes are doubled is read back. -/
theorem readQuoted_doubleChars (text : List Char) {rest : List Char}
    (h : rest.head? ≠ some quote) :
    readQuoted false quote (doubleChars quote text ++ quote :: rest) = some (text, rest) := by
  refine readQuoted_flatMap (fun c s => ?_) text h
  by_cases hc : c = quote
  · subst hc
    simp [readQuoted]
  · rw [if_neg hc]
    exact readQuoted_plain hc (by simp) s

end

/-- The backslash form of a character stands for the character. -/
theorem unescapeChar_of_mysqlEscape? {c d : Char} (h : mysqlEscape? c = some d) :
    unescapeChar d = c := by
  unfold mysqlEscape? at h
  split at h
  · cases h; subst c; rfl
  split at h
  · cases h; subst c; rfl
  split at h
  · cases h; subst c; rfl
  split at h
  · cases h; subst c; rfl
  split at h
  · next hc => cases h; rcases hc with rfl | rfl | rfl <;> rfl
  · cases h

/-- A character without a backslash form is neither a backslash nor a quote. -/
theorem ne_of_mysqlEscape? {c : Char} (h : mysqlEscape? c = none) : c ≠ '\\' ∧ c ≠ '\x27' := by
  constructor <;> rintro rfl <;> cases h

/-- A text with backslash escapes is read back. -/
theorem readQuoted_escapeMysqlChars (text : List Char) {rest : List Char}
    (h : rest.head? ≠ some '\x27') :
    readQuoted true '\x27' (escapeMysqlChars text ++ '\x27' :: rest) = some (text, rest) := by
  refine readQuoted_flatMap (fun c s => ?_) text h
  cases hc : mysqlEscape? c with
  | some d =>
    have hq : '\\' ≠ '\x27' := by decide
    simp only [List.cons_append, List.nil_append]
    rw [readQuoted, if_neg hq, if_pos ⟨rfl, rfl⟩, unescapeChar_of_mysqlEscape? hc]
  | none =>
    obtain ⟨hb, hq⟩ := ne_of_mysqlEscape? hc
    exact readQuoted_plain hq (fun h => hb h.2) s

/-- A literal is read back. -/
theorem Dialect.readLiteral_literal (d : Dialect) (value : String) {rest : List Char}
    (h : rest.head? ≠ some '\x27') :
    d.readLiteral ((literal d.escaper value).toList ++ rest) = some (value, rest) := by
  have ht : (literal d.escaper value).toList ++ rest =
      '\x27' :: ((d.escaper value).toList ++ '\x27' :: rest) := by
    simp [literal]
  rw [ht, readLiteral, if_pos rfl]
  cases d with
  | mysql =>
    have := readQuoted_escapeMysqlChars value.toList h
    simp [escaper, Sql.mysql, this]
  | ansi =>
    have := readQuoted_doubleChars value.toList h
    simp [escaper, Sql.ansi, this]

/-! ## Comparisons -/

/-- A name in quotes is read back. -/
theorem readName_quoted {quote : Char} (hquote : quote = '"' ∨ quote = '\x60') (name : String)
    (rest : List Char) :
    readName ((quoted quote name).toList ++ ' ' :: rest) = some (name, ' ' :: rest) := by
  have ht : (quoted quote name).toList ++ ' ' :: rest =
      quote :: (doubleChars quote name.toList ++ quote :: ' ' :: rest) := by
    simp [quoted]
  have hspace : (' ' :: rest).head? ≠ some quote := by
    rcases hquote with rfl | rfl <;> simp
  rw [ht, readName, if_pos hquote, readQuoted_doubleChars name.toList hspace]
  simp

/-- A plain field name is read back. -/
theorem readName_plain {name : String} (h : IsField name.toList) (rest : List Char) :
    readName (name.toList ++ ' ' :: rest) = some (name, ' ' :: rest) := by
  obtain ⟨hrun, hrest⟩ := (run_iff isFieldChar_iff (s := name.toList ++ ' ' :: rest)).2
    ⟨rfl, h.fieldChar, by rintro _ ⟨⟩; decide⟩
  obtain ⟨c, body, hname, hc⟩ := h
  have hstart : isFieldStart c = true := (isFieldStart_iff c).2 hc.1
  have hquote : ¬ (c = '"' ∨ c = '\x60') := by
    rintro (rfl | rfl) <;> cases hstart
  rw [hname, List.cons_append] at hrun hrest ⊢
  rw [readName, if_neg hquote, if_pos hstart, hrun, hrest, ← hname, String.ofList_toList]

/-- The identifier of a field name is read as the name. -/
theorem readName_identifier {name : String} (h : IsField name.toList) (q : Quoting)
    (rest : List Char) :
    readName ((q.identifier name).toList ++ ' ' :: rest) = some (name, ' ' :: rest) := by
  unfold Quoting.identifier
  split
  · cases q with
    | none => exact readName_plain h rest
    | ansi => exact readName_quoted (.inl rfl) name rest
    | backtick => exact readName_quoted (.inr rfl) name rest
  · exact readName_plain h rest

/-- A comparator is read back. -/
theorem readComparator_symbol (c : Comparator) (rest : List Char) :
    readComparator (' ' :: c.symbol.toList ++ ' ' :: rest) = some (c, rest) := by
  cases c <;> simp [readComparator, List.dropPrefix?, Comparator.symbol]

/-- A comparison with one value is read back. -/
theorem Dialect.readCondition_single (d : Dialect) (q : Quoting) {c : Comparator}
    {field value : String} (hf : IsField field.toList) (hc : c ≠ .between) {rest : List Char}
    (h : rest.head? ≠ some '\x27') :
    d.readCondition ((q.identifier field).toList ++ ' ' :: c.symbol.toList ++
      ' ' :: (literal d.escaper value).toList ++ rest) = some (⟨field, c, [value]⟩, rest) := by
  simp only [readCondition, List.append_assoc, List.cons_append, readName_identifier hf]
  rw [Option.bind_eq_bind, Option.bind_some, ← List.cons_append, readComparator_symbol]
  rw [Option.bind_eq_bind, Option.bind_some, d.readLiteral_literal value h]
  cases c with
  | between => exact absurd rfl hc
  | equal | greater | less => rfl

/-- A comparison with two bounds is read back. -/
theorem Dialect.readCondition_between (d : Dialect) (q : Quoting) {field lower upper : String}
    (hf : IsField field.toList) {rest : List Char} (h : rest.head? ≠ some '\x27') :
    d.readCondition ((q.identifier field).toList ++ ' ' :: Comparator.between.symbol.toList ++
      ' ' :: (literal d.escaper lower).toList ++ " AND ".toList ++
      (literal d.escaper upper).toList ++ rest) = some (.between field lower upper, rest) := by
  have hand : (" AND ".toList ++ ((literal d.escaper upper).toList ++ rest)).head? ≠
      some '\x27' := by
    simp
  simp only [readCondition, List.append_assoc, List.cons_append, readName_identifier hf]
  rw [Option.bind_eq_bind, Option.bind_some, ← List.cons_append, readComparator_symbol]
  rw [Option.bind_eq_bind, Option.bind_some, d.readLiteral_literal lower hand]
  rw [Option.bind_eq_bind, Option.bind_some]
  dsimp only
  rw [List.dropPrefix?_append_of_beq _ (BEq.refl _), Option.bind_some,
    d.readLiteral_literal upper h]
  rfl

/-- What is written for a well-formed condition is read back. -/
theorem Dialect.readCondition_render {d : Dialect} {q : Quoting} {c : Condition} {text : String}
    {rest : List Char} (hc : c.WellFormed) (ht : renderCondition ⟨d.escaper, q⟩ c = .ok text)
    (h : rest.head? ≠ some '\x27') : d.readCondition (text.toList ++ rest) = some (c, rest) := by
  rcases hc.single_or_between with ⟨field, comparator, value, rfl, hne, hf, -⟩ |
    ⟨field, lower, upper, rfl, hf, -, -⟩
  · obtain ⟨text', ht', hlist⟩ := renderCondition_single ⟨d.escaper, q⟩ field value hne
    obtain rfl : text' = text := Except.ok.inj (ht'.symm.trans ht)
    rw [hlist]
    exact d.readCondition_single q hf hne h
  · obtain ⟨text', ht', hlist⟩ := renderCondition_between ⟨d.escaper, q⟩ field lower upper
    obtain rfl : text' = text := Except.ok.inj (ht'.symm.trans ht)
    rw [hlist]
    exact d.readCondition_between q hf h

/-! ## Connectives -/

/-- A text is cut at its first space in one way only. -/
theorem append_space_inj {a b s t : List Char} (ha : ' ' ∉ a) (hb : ' ' ∉ b)
    (h : a ++ ' ' :: s = b ++ ' ' :: t) : a = b ∧ s = t := by
  have hp (c : Char) : (c != ' ') = true ↔ c ≠ ' ' := bne_iff_ne
  have hs := (run_iff hp (s := a ++ ' ' :: s)).2
    ⟨rfl, fun c hc => ne_of_mem_of_not_mem hc ha, by rintro _ ⟨⟩ h; exact h rfl⟩
  have ht := (run_iff hp (s := a ++ ' ' :: s)).2
    ⟨h, fun c hc => ne_of_mem_of_not_mem hc hb, by rintro _ ⟨⟩ h; exact h rfl⟩
  exact ⟨hs.1.symm.trans ht.1, List.tail_eq_of_cons_eq (hs.2.symm.trans ht.2)⟩

/-- An identifier holds no space. -/
theorem space_notMem_identifier {name : String} (h : IsField name.toList) (q : Quoting) :
    ' ' ∉ (q.identifier name).toList := by
  have hname : ' ' ∉ name.toList := fun hs => by
    have := h.fieldChar _ hs
    revert this
    decide
  have hquoted {quote : Char} (hq : ' ' ≠ quote) : ' ' ∉ (quoted quote name).toList := by
    simp only [quoted, doubleChars, String.toList_ofList, List.mem_append, List.mem_cons,
      List.mem_flatMap, List.not_mem_nil, or_false, not_or, not_exists, not_and]
    refine ⟨⟨hq, fun c hc => ?_⟩, hq⟩
    have := ne_of_mem_of_not_mem hc hname
    split <;> simp [this.symm]
  unfold Quoting.identifier
  split
  · cases q with
    | none => exact hname
    | ansi => exact hquoted (by decide)
    | backtick => exact hquoted (by decide)
  · exact hname

/-- A comparator that is read where an identifier stands takes up all of it. -/
theorem eq_of_readComparator {name : String} (h : IsField name.toList) {q : Quoting}
    {c : Comparator} {s rest : List Char}
    (hr : readComparator (' ' :: (q.identifier name).toList ++ ' ' :: s) = some (c, rest)) :
    rest = s := by
  obtain ⟨c', -, hc⟩ := List.exists_of_findSome?_eq_some hr
  obtain ⟨r, hdrop, he⟩ := Option.map_eq_some_iff.1 hc
  cases he
  obtain ⟨word, hword, hbeq⟩ := List.dropPrefix?_eq_some_iff.1 hdrop
  have hsymbol : ' ' ∉ c.symbol.toList := by cases c <;> decide
  have heq : (q.identifier name).toList ++ ' ' :: s = c.symbol.toList ++ ' ' :: rest := by
    simpa [eq_of_beq hbeq] using hword
  exact (append_space_inj (space_notMem_identifier h q) hsymbol heq).2.symm

/-- A text that does not start with a quote is no literal. -/
theorem Dialect.readLiteral_eq_none {d : Dialect} {s : List Char} (h : s.head? ≠ some '\x27') :
    d.readLiteral s = none := by
  cases s with
  | nil => rfl
  | cons c s =>
    have hc : c ≠ '\x27' := by simpa using h
    rw [readLiteral, if_neg hc]

/-- A name is no comparison if no comparator that stands behind it is followed by a quote. -/
theorem Dialect.readCondition_eq_none {d : Dialect} {name : String} {s : List Char}
    (hname : IsField name.toList)
    (h : ∀ c rest, readComparator (' ' :: s) = some (c, rest) → rest.head? ≠ some '\x27') :
    d.readCondition (name.toList ++ ' ' :: s) = none := by
  simp only [readCondition, readName_plain hname, Option.bind_eq_bind, Option.bind_some]
  cases hr : readComparator (' ' :: s) with
  | none => rfl
  | some found =>
    obtain ⟨c, rest⟩ := found
    rw [Option.bind_some, readLiteral_eq_none (h c rest hr)]
    rfl

/-- What is written for an operand is no comparator with a literal behind it, so `NOT` in front of
it is no field. -/
theorem Dialect.readCondition_not {d : Dialect} {style : Style} {depth : Nat} {n : Node}
    {text : String} (hn : n.IsOperand depth) (ht : renderNode style n = .ok text)
    (rest : List Char) : d.readCondition ("NOT".toList ++ ' ' :: (text.toList ++ rest)) = none := by
  have hnot : IsField "NOT".toList := by
    show IsField ['N', 'O', 'T']
    exact isField_cons_iff.2 ⟨rfl, List.all_eq_true.1 rfl⟩
  refine readCondition_eq_none hnot fun c rest' hr => ?_
  cases n with
  | connective c => exact absurd hn Node.not_isOperand_connective
  | group nodes =>
    obtain ⟨parts, -, rfl⟩ := renderNode_group_iff.1 ht
    simp [readComparator, List.dropPrefix?, Comparator.symbol] at hr
  | condition condition =>
    have hwf := Node.isOperand_condition.1 hn
    obtain ⟨tail, htail⟩ := exists_of_renderCondition hwf ht
    rw [htail, List.append_assoc, List.cons_append] at hr
    rw [eq_of_readComparator hwf.field hr]
    cases condition.comparator <;> simp [Comparator.symbol]

/-- A connective is read back in front of an operand. -/
theorem Dialect.readConnective_symbol {d : Dialect} {q : Quoting} {depth : Nat} {n : Node}
    {c : Connective} {text : String} {rest : List Char} (hc : c ≠ .not) (hn : n.IsOperand depth)
    (ht : renderNode ⟨d.escaper, q⟩ n = .ok text) (h : rest.head? ≠ some '\x27') :
    d.readConnective (' ' :: c.symbol.toList ++ ' ' :: (text.toList ++ rest)) =
      some (c, text.toList ++ rest) := by
  cases c with
  | not => exact absurd rfl hc
  | or => simp [readConnective, List.dropPrefix?, Connective.symbol]
  | andNot =>
    have hcond : d.readCondition ('N' :: 'O' :: 'T' :: ' ' :: (text.toList ++ rest)) = none :=
      readCondition_not hn ht rest
    simp [readConnective, List.dropPrefix?, Connective.symbol, hcond]
  | and =>
    cases hnot : (text.toList ++ rest).dropPrefix? ['N', 'O', 'T', ' '] with
    | none => simp [readConnective, List.dropPrefix?, Connective.symbol, hnot]
    | some s =>
      cases n with
      | connective c => exact absurd hn Node.not_isOperand_connective
      | group nodes =>
        obtain ⟨parts, -, rfl⟩ := renderNode_group_iff.1 ht
        simp [List.dropPrefix?] at hnot
      | condition condition =>
        have hcond := readCondition_render (Node.isOperand_condition.1 hn) ht h
        simp [readConnective, List.dropPrefix?, Connective.symbol, hnot, hcond]

/-! ## Sequences -/

/-- What is written for an operand leads the reader past the operand. -/
def Dialect.Passes (d : Dialect) (q : Quoting) (n : Node) : Prop :=
  ∀ text rest nodes outer, renderNode ⟨d.escaper, q⟩ n = .ok text → rest.head? ≠ some '\x27' →
    d.readOperand (text.toList ++ rest) nodes outer = d.readJoint rest (n :: nodes) outer

/-- What is written for a condition leads the reader past it. -/
theorem Dialect.passes_condition {d : Dialect} {q : Quoting} {c : Condition} (hc : c.WellFormed) :
    d.Passes q (.condition c) := by
  intro text rest nodes outer ht h
  have hread := d.readCondition_render hc ht h
  cases hs : text.toList ++ rest with
  | nil =>
    rw [hs] at hread
    cases hread
  | cons b s =>
    rw [hs] at hread
    have hb : b ≠ '(' := by rintro rfl; cases hread
    rw [readOperand, if_neg hb]
    split
    · next he => rw [hread] at he; cases he
    · next he => rw [hread] at he; cases he; rfl

/-- A connective leads the reader to the operand behind it. -/
theorem Dialect.readJoint_connective {d : Dialect} {q : Quoting} {depth : Nat} {n : Node}
    {c : Connective} {text : String} {rest : List Char} (hc : c ≠ .not) (hn : n.IsOperand depth)
    (ht : renderNode ⟨d.escaper, q⟩ n = .ok text) (h : rest.head? ≠ some '\x27')
    (nodes : List Node) (outer : List (List Node)) :
    d.readJoint (' ' :: (c.symbol.toList ++ ' ' :: (text.toList ++ rest))) nodes outer =
      d.readOperand (text.toList ++ rest) (.connective c :: nodes) outer := by
  have hread := readConnective_symbol hc hn ht h
  rw [List.cons_append] at hread
  rw [readJoint.eq_def]
  simp only
  rw [if_neg (by decide)]
  split
  · next he => rw [hread] at he; cases he
  · next he => rw [hread] at he; cases he; rfl

/-- What is written for a sequence starts with what is written for its first operand, and no quote
follows there. -/
theorem exists_of_renderParts {style : Style} {depth : Nat} {nodes : List Node}
    {parts : List String} {rest : List Char} (h : WellFormed depth nodes)
    (hparts : renderParts style nodes = .ok parts) (hrest : rest.head? ≠ some '\x27') :
    ∃ n part rest', n.IsOperand depth ∧ renderNode style n = .ok part ∧
      (" ".intercalate parts).toList ++ rest = part.toList ++ rest' ∧
      rest'.head? ≠ some '\x27' := by
  cases h using Alternates.chainRec with
  | single n hn =>
    obtain ⟨part, _, hpart, hnil, rfl⟩ := renderParts_cons_iff.1 hparts
    cases hnil
    exact ⟨n, part, rest, hn, hpart, by simp, hrest⟩
  | chain n c nodes hn =>
    obtain ⟨part, _, hpart, hjoint, rfl⟩ := renderParts_cons_iff.1 hparts
    obtain ⟨symbol, parts, -, -, rfl⟩ := renderParts_cons_iff.1 hjoint
    refine ⟨n, part, ' ' :: ((" ".intercalate (symbol :: parts)).toList ++ rest), hn, hpart, ?_,
      by simp⟩
    rw [String.intercalate_cons_cons]
    simp

/-- A sequence is passed as a whole if each of its operands is. -/
theorem Dialect.readOperand_sequence {d : Dialect} {q : Quoting} {depth : Nat} {nodes : List Node}
    (hpass : ∀ n : Node, n.IsOperand depth → d.Passes q n) (h : WellFormed depth nodes) :
    ∀ {parts : List String} {rest : List Char} (before : List Node) (outer : List (List Node)),
      renderParts ⟨d.escaper, q⟩ nodes = .ok parts → rest.head? ≠ some '\x27' →
      d.readOperand ((" ".intercalate parts).toList ++ rest) before outer =
        d.readJoint rest (nodes.reverse ++ before) outer := by
  induction h using Alternates.chainRec with
  | single n hn =>
    intro parts rest before outer hparts hrest
    obtain ⟨part, _, hpart, hnil, rfl⟩ := renderParts_cons_iff.1 hparts
    cases hnil
    exact hpass n hn part rest before outer hpart hrest
  | chain n c nodes hn hc hnodes ih =>
    intro parts rest before outer hparts hrest
    obtain ⟨part, _, hpart, hjoint, rfl⟩ := renderParts_cons_iff.1 hparts
    obtain ⟨_, parts, hsymbol, htail, rfl⟩ := renderParts_cons_iff.1 hjoint
    cases hsymbol
    obtain ⟨n', part', rest', hn', hpart', htext, hrest'⟩ :=
      exists_of_renderParts hnodes htail hrest
    have hne : parts ≠ [] := by
      rintro rfl
      cases hnodes using Alternates.chainRec <;> simp [renderParts_cons_iff] at htail
    have ht : (" ".intercalate (part :: c.symbol :: parts)).toList ++ rest =
        part.toList ++ ' ' :: (c.symbol.toList ++
          ' ' :: ((" ".intercalate parts).toList ++ rest)) := by
      rw [String.intercalate_cons_cons, String.intercalate_cons_of_ne_nil hne]
      simp
    calc d.readOperand ((" ".intercalate (part :: c.symbol :: parts)).toList ++ rest) before outer
      _ = d.readJoint (' ' :: (c.symbol.toList ++ ' ' :: (part'.toList ++ rest')))
            (n :: before) outer := by
        rw [ht, hpass n hn part _ before outer hpart (by simp), htext]
      _ = d.readOperand (part'.toList ++ rest') (.connective c :: n :: before) outer :=
        readJoint_connective hc hn' hpart' hrest' _ _
      _ = d.readJoint rest (nodes.reverse ++ .connective c :: n :: before) outer := by
        rw [← htext, ih _ _ htail hrest]
      _ = d.readJoint rest ((n :: .connective c :: nodes).reverse ++ before) outer := by
        simp

/-- What is written for an operand leads the reader past it. -/
theorem Dialect.passes_of_isOperand (d : Dialect) (q : Quoting) : ∀ {depth : Nat} {n : Node},
    n.IsOperand depth → d.Passes q n
  | _, .condition _, h => passes_condition (Node.isOperand_condition.1 h)
  | _, .connective _, h => absurd h Node.not_isOperand_connective
  | depth + 1, .group nodes, h => by
    intro text rest before outer ht hrest
    obtain ⟨parts, hparts, rfl⟩ := renderNode_group_iff.1 ht
    have hgroup := readOperand_sequence (fun _ => d.passes_of_isOperand q) h
      [] (before :: outer) hparts (show (')' :: rest).head? ≠ _ by simp)
    have ht : ("(" ++ " ".intercalate parts ++ ")").toList ++ rest =
        '(' :: ((" ".intercalate parts).toList ++ ')' :: rest) := by
      simp
    rw [ht, readOperand, if_pos rfl, hgroup, readJoint.eq_def]
    simp

/-- What is written for a well-formed sequence is read back. -/
theorem Dialect.read_render {d : Dialect} {q : Quoting} {depth : Nat} {nodes : List Node}
    {sql : String} (h : nodes = [] ∨ WellFormed depth nodes)
    (hsql : render ⟨d.escaper, q⟩ nodes = .ok sql) : d.read sql = some nodes := by
  obtain ⟨parts, hparts, rfl⟩ := render_eq_ok_iff.1 hsql
  rcases h with rfl | h
  · cases hparts
    rfl
  · have hread := readOperand_sequence (fun _ => d.passes_of_isOperand q) h
      [] [] hparts (show ([] : List Char).head? ≠ _ by simp)
    rw [List.append_nil, List.append_nil, readJoint.eq_def] at hread
    have hne : " ".intercalate parts ≠ "" := by
      intro he
      rw [he, readOperand.eq_def] at hread
      cases hread
    rw [read, if_neg hne, hread]
    simp

/-! ## Fragments of queries -/

/-- The converter that writes literals of a dialect. -/
def Dialect.converter (d : Dialect) (config : Config) : Converter :=
  ⟨d.escaper, config⟩

/-- What is written for the canonical sequence of a query is read back. -/
theorem Dialect.read_of_ast {d : Dialect} {config : Config} {query sql : String}
    {nodes : List Node} (hast : ((d.converter config).ast query).outcome = .ok nodes)
    (hsql : render (d.converter config).style nodes = .ok sql) : d.read sql = some nodes :=
  read_render (Converter.eq_nil_or_wellFormed_of_ast hast) hsql

/-- **The fragment of a query is read back as its canonical sequence,** each value with its original
text. So two queries have the same fragment if and only if they have the same sequence. -/
theorem Dialect.read_convert (d : Dialect) (config : Config) {query sql : String}
    (h : ((d.converter config).convert query).outcome = .ok sql) :
    (∃ nodes, ((d.converter config).ast query).outcome = .ok nodes ∧ d.read sql = some nodes) ∧
    ∀ query' sql', ((d.converter config).convert query').outcome = .ok sql' →
      (sql = sql' ↔
        ((d.converter config).ast query).outcome = ((d.converter config).ast query').outcome) := by
  obtain ⟨nodes, hast, hsql⟩ := Converter.convert_eq_ok_iff.1 h
  refine ⟨⟨nodes, hast, read_of_ast hast hsql⟩, fun query' sql' h' => ?_⟩
  obtain ⟨nodes', hast', hsql'⟩ := Converter.convert_eq_ok_iff.1 h'
  rw [hast, hast']
  refine ⟨?_, ?_⟩
  · rintro rfl
    have hread := (read_of_ast hast hsql).symm.trans (read_of_ast hast' hsql')
    rw [Option.some.inj hread]
  · intro hnodes
    rw [Except.ok.inj hnodes, hsql'] at hsql
    exact (Except.ok.inj hsql).symm

/-- A field that is spelled `NOT` and a value that is a quote, told apart from the empty query. -/
theorem Dialect.read_convert_not :
    ((Dialect.mysql.converter {}).convert "a:1 AND NOT:\"'\"").outcome =
      .ok "a = '1' AND NOT = '\\''" ∧
    (∃ nodes, ((Dialect.mysql.converter {}).ast "a:1 AND NOT:\"'\"").outcome = .ok nodes ∧
      Dialect.mysql.read "a = '1' AND NOT = '\\''" = some nodes) ∧
    ((Dialect.mysql.converter {}).ast "a:1 AND NOT:\"'\"").outcome ≠
      ((Dialect.mysql.converter {}).ast "").outcome := by
  have hs : "a:1 AND NOT:\"'\"".toList = ['a', ':', '1', ' ', 'A', 'N', 'D', ' ', 'N', 'O', 'T',
    ':', '"', '\x27', '"'] := rfl
  have hone : Comparison.lex ['a', ':', '1', ' ', 'A', 'N', 'D', ' ', 'N', 'O', 'T', ':', '"',
    '\x27', '"'] = .ok (⟨"a", ":", .number "1"⟩,
      [' ', 'A', 'N', 'D', ' ', 'N', 'O', 'T', ':', '"', '\x27', '"']) := rfl
  have hand : Link.lex [' ', 'A', 'N', 'D', ' ', 'N', 'O', 'T', ':', '"', '\x27', '"'] =
    some (⟨" ", "AND", " "⟩, ['N', 'O', 'T', ':', '"', '\x27', '"']) := rfl
  have hnot : Comparison.lex ['N', 'O', 'T', ':', '"', '\x27', '"'] =
    .ok (⟨"NOT", ":", .quoted "\"'\""⟩, []) := rfl
  have hparse : Query.parse 64 "a:1 AND NOT:\"'\"" =
      .ok (.chain (.comparison ⟨⟨"a", ":", .number "1"⟩, 0⟩) ⟨"AND", 4⟩
        (.single (.comparison ⟨⟨"NOT", ":", .quoted "\"'\""⟩, 8⟩))) := by
    rw [Query.parse, hs, Tokens.scan_comparison hone, Tokens.scan_link hand,
      Tokens.scan_comparison hnot, Tokens.scan_done]
    simp only [Tokens.parse, Frame.close]
    rfl
  have h : ((Dialect.mysql.converter {}).convert "a:1 AND NOT:\"'\"").outcome =
      .ok "a = '1' AND NOT = '\\''" :=
    Converter.convert_eq_ok_iff.2 ⟨_, Converter.ast_eq_ok_iff.2 (.inr ⟨_, hparse, rfl⟩), rfl⟩
  obtain ⟨hread, hsame⟩ := Dialect.read_convert .mysql {} h
  exact ⟨h, hread, fun he => absurd ((hsame "" "" rfl).2 he) (by decide)⟩

end FieldQuery.Sql
