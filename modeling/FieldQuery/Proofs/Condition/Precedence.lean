import FieldQuery.Proofs.Condition.WellFormed

/-!
# Textual order and precedence

A sequence can be evaluated in two ways. Its own reading is textual: connectives apply one after
the other, from left to right. A database that reads the same connectives lets `NOT` bind tighter
than `AND`, and `AND` tighter than `OR`. The two agree on every assignment of truth values to the
conditions if and only if, in the sequence and in each of its groups, no `AND` or `AND NOT` stands
behind an `OR` (`evaluate_eq_iff_orsLast`).

Both readings go through a sequence once. The textual one carries one value; the other carries the
value of the disjuncts that are complete and the value of the disjunct being read. That they agree
is an invariant of the two runs. That they can be made to differ rests on `exists_neutral`: from any
point on there are truth values that change nothing, so a difference, once reached, lasts.
-/

namespace FieldQuery

/-! ## Assignments -/

/-- Truth values for the occurrences of conditions in a sequence, by the indices that lead to an
occurrence: its index in the sequence, or that of its group and then the path inside the group. -/
abbrev Assignment := List Nat → Bool

namespace Assignment

/-- The truth values inside the first node. -/
def first (σ : Assignment) : Assignment :=
  fun path => σ (0 :: path)

/-- The truth values behind the first node. -/
def later (σ : Assignment) : Assignment
  | [] => σ []
  | i :: path => σ ((i + 1) :: path)

/-- The assignment with given truth values inside the first node and behind it. -/
def cons (σ τ : Assignment) : Assignment
  | [] => τ []
  | 0 :: path => σ path
  | (i + 1) :: path => τ (i :: path)

@[simp] theorem first_cons (σ τ : Assignment) : (cons σ τ).first = σ :=
  rfl

@[simp] theorem later_cons (σ τ : Assignment) : (cons σ τ).later = τ := by
  funext path
  cases path <;> rfl

end Assignment

/-! ## Two readings -/

/-- A node of a sequence whose groups have been evaluated. -/
inductive Term where
  | value (b : Bool)
  | connective (c : Connective)
deriving DecidableEq, Repr

mutual

/-- A node under an assignment, its groups evaluated by `reading`. -/
def Node.term (reading : List Term → Bool) (σ : Assignment) : Node → Term
  | .condition _ => .value (σ [])
  | .connective c => .connective c
  | .group nodes => .value (reading (terms reading σ nodes))

/-- The nodes of a sequence under an assignment, their groups evaluated by `reading`. -/
def terms (reading : List Term → Bool) (σ : Assignment) : List Node → List Term
  | [] => []
  | n :: nodes => n.term reading σ.first :: terms reading σ.later nodes

end

/-- The value of a sequence under an assignment. -/
def evaluate (reading : List Term → Bool) (σ : Assignment) (nodes : List Node) : Bool :=
  reading (terms reading σ nodes)

theorem Node.term_group (reading : List Term → Bool) (σ : Assignment) (nodes : List Node) :
    (Node.group nodes).term reading σ = .value (evaluate reading σ nodes) :=
  rfl

/-- What a connective makes of two values. -/
def Connective.apply : Connective → Bool → Bool → Bool
  | and, x, y => x && y
  | or, x, y => x || y
  | andNot, x, y => x && !y
  | not, _, y => !y

/-- Applies the connectives of a sequence to a value, one after the other. -/
def applyFrom (x : Bool) : List Term → Bool
  | .connective c :: .value y :: ts => applyFrom (c.apply x y) ts
  | _ => x

/-- The textual reading: from left to right, without precedence. -/
def leftToRight : List Term → Bool
  | .value x :: ts => applyFrom x ts
  | _ => false

/-- The value of a part without `OR`, in which `NOT` applies to the value behind it. -/
def conjunction : List Term → Bool
  | [] => true
  | .value x :: ts => x && conjunction ts
  | .connective .andNot :: .value x :: ts => !x && conjunction ts
  | .connective _ :: ts => conjunction ts

/-- The reading of a database: `OR` is applied last. -/
def byPrecedence (ts : List Term) : Bool :=
  (ts.splitOn (.connective .or)).any conjunction

/-! ## Precedence in one pass -/

/-- Reads on by precedence behind a value, with the value of the complete disjuncts and of the one
being read. -/
def disjoinFrom (done current : Bool) : List Term → Bool
  | .connective c :: .value y :: ts =>
    if c = .or then disjoinFrom (done || current) y ts
    else disjoinFrom done (c.apply current y) ts
  | _ => done || current

/-- What stands behind a value: connectives, each with a value. -/
inductive IsTail : List Term → Prop
  | nil : IsTail []
  | cons {c : Connective} {y : Bool} {ts : List Term} (hc : c ≠ .not) (h : IsTail ts) :
      IsTail (.connective c :: .value y :: ts)

/-- One pass gives the value of the first part, joined to the current disjunct, and of all other
parts. -/
theorem IsTail.disjoinFrom_eq {ts : List Term} (h : IsTail ts) : ∀ done current : Bool,
    ∃ part parts, ts.splitOn (.connective .or) = part :: parts ∧
      disjoinFrom done current ts =
        (done || current && conjunction part || parts.any conjunction) := by
  induction h with
  | nil => exact fun done current => ⟨[], [], rfl, by simp [disjoinFrom, conjunction]⟩
  | @cons c y ts hc h ih =>
    intro done current
    by_cases hor : c = .or
    · subst hor
      obtain ⟨part, parts, hsplit, hvalue⟩ := ih (done || current) y
      refine ⟨[], (.value y :: part) :: parts, ?_, ?_⟩
      · simp [List.splitOn_cons_eq_if_modifyHead, hsplit]
      · simp [disjoinFrom, hvalue, conjunction, Bool.or_assoc]
    · obtain ⟨part, parts, hsplit, hvalue⟩ := ih done (c.apply current y)
      refine ⟨.connective c :: .value y :: part, parts, ?_, ?_⟩
      · simp [List.splitOn_cons_eq_if_modifyHead, hsplit, hor]
      · cases c with
        | or => exact absurd rfl hor
        | not => exact absurd rfl hc
        | and | andNot =>
          simp only [Connective.apply] at hvalue
          simp [disjoinFrom, hvalue, conjunction, Connective.apply, Bool.and_assoc]

/-- Reading by precedence takes one pass. -/
theorem IsTail.byPrecedence_cons {ts : List Term} (h : IsTail ts) (x : Bool) :
    byPrecedence (.value x :: ts) = disjoinFrom false x ts := by
  obtain ⟨part, parts, hsplit, hvalue⟩ := h.disjoinFrom_eq false x
  simp [byPrecedence, List.splitOn_cons_eq_if_modifyHead, hsplit, hvalue, conjunction]

/-! ## Operands and what follows them -/

/-- An operand has a value under every assignment. -/
theorem Node.IsOperand.exists_value {depth : Nat} {n : Node} (h : n.IsOperand depth)
    (reading : List Term → Bool) (σ : Assignment) : ∃ x, n.term reading σ = .value x := by
  cases n with
  | condition c => exact ⟨_, rfl⟩
  | connective c => exact absurd h Node.not_isOperand_connective
  | group nodes => exact ⟨_, rfl⟩

/-- What follows the first operand of a sequence: connectives, each with an operand. -/
inductive Follows (depth : Nat) : List Node → Prop
  | nil : Follows depth []
  | cons {c : Connective} {n : Node} {tail : List Node} (hc : c ≠ .not) (hn : n.IsOperand depth)
      (h : Follows depth tail) : Follows depth (.connective c :: n :: tail)

/-- A well-formed sequence is an operand with a tail behind it. -/
theorem WellFormed.exists_follows {depth : Nat} {nodes : List Node} (h : WellFormed depth nodes) :
    ∃ n tail, nodes = n :: tail ∧ n.IsOperand depth ∧ Follows depth tail := by
  induction h using Alternates.chainRec with
  | single n hn => exact ⟨n, [], rfl, hn, .nil⟩
  | chain n c nodes hn hc _ ih =>
    obtain ⟨m, tail, rfl, hm, htail⟩ := ih
    exact ⟨n, _, rfl, hn, .cons hc hm htail⟩

section
variable {depth : Nat} {n : Node} {tail : List Node}

/-- A tail holds operands and connectives only. -/
theorem Follows.isOperand_or_of_mem (h : Follows depth tail) {m : Node} (hm : m ∈ tail) :
    m.IsOperand depth ∨ ∃ c, m = .connective c := by
  induction h with
  | nil => cases hm
  | cons hc hn h ih =>
    rcases List.mem_cons.1 hm with rfl | hm
    · exact .inr ⟨_, rfl⟩
    · rcases List.mem_cons.1 hm with rfl | hm
      · exact .inl hn
      · exact ih hm

theorem Follows.isTail (h : Follows depth tail) (reading : List Term → Bool) :
    ∀ σ, IsTail (terms reading σ tail) := by
  induction h with
  | nil => exact fun σ => .nil
  | @cons c n tail hc hn h ih =>
    intro σ
    obtain ⟨y, hy⟩ := hn.exists_value reading σ.later.first
    rw [terms, terms, hy]
    exact .cons hc (ih _)

/-- The textual value of a sequence, as a run behind its first operand. -/
theorem evaluate_leftToRight {σ : Assignment} {x : Bool}
    (hx : n.term leftToRight σ.first = .value x) :
    evaluate leftToRight σ (n :: tail) = applyFrom x (terms leftToRight σ.later tail) := by
  rw [evaluate, terms, hx, leftToRight]

/-- The value of a sequence by precedence, as a run behind its first operand. -/
theorem Follows.evaluate_byPrecedence (h : Follows depth tail) {σ : Assignment} {x : Bool}
    (hx : n.term byPrecedence σ.first = .value x) :
    evaluate byPrecedence σ (n :: tail) =
      disjoinFrom false x (terms byPrecedence σ.later tail) := by
  rw [evaluate, terms, hx, (h.isTail _ _).byPrecedence_cons]

/-- The tail of a sequence under an assignment that is put together from its parts. -/
theorem terms_cons (reading : List Term → Bool) (c : Connective) (σ τ : Assignment) :
    terms reading (.cons σ (.cons σ τ)) (.connective c :: n :: tail) =
      .connective c :: n.term reading σ :: terms reading τ tail := by
  simp only [terms, Assignment.first_cons, Assignment.later_cons]
  rfl

/-! ## Truth values that change nothing -/

/-- There is an assignment under which the two readings give a node the two values. -/
def Node.Attains (n : Node) (x y : Bool) : Prop :=
  ∃ σ, n.term leftToRight σ = .value x ∧ n.term byPrecedence σ = .value y

/-- The value that a connective with it leaves every value as it is. -/
def Connective.neutral : Connective → Bool
  | and => true
  | or | andNot | not => false

theorem Connective.apply_neutral {c : Connective} (hc : c ≠ .not) (x : Bool) :
    c.apply x c.neutral = x := by
  cases c with
  | not => exact absurd rfl hc
  | and | or | andNot => simp [Connective.apply, Connective.neutral]

/-- The tail of a sequence can be given truth values that change nothing, in either reading. -/
theorem Follows.exists_neutral (hop : ∀ n : Node, n.IsOperand depth → ∀ b, n.Attains b b)
    (h : Follows depth tail) :
    ∃ σ, (∀ x, applyFrom x (terms leftToRight σ tail) = x) ∧
      ∀ done current, disjoinFrom done current (terms byPrecedence σ tail) = (done || current) := by
  induction h with
  | nil => exact ⟨fun _ => false, fun x => rfl, fun done current => rfl⟩
  | @cons c n tail hc hn h ih =>
    obtain ⟨σ, hl, hp⟩ := hop n hn c.neutral
    obtain ⟨τ, hleft, hprec⟩ := ih
    refine ⟨.cons σ (.cons σ τ), fun x => ?_, fun done current => ?_⟩
    · rw [terms_cons, hl, applyFrom, c.apply_neutral hc, hleft]
    · rw [terms_cons, hp, disjoinFrom]
      split
      · next hor => rw [hprec, hor, Connective.neutral, Bool.or_false]
      · rw [hprec, c.apply_neutral hc]

/-- A sequence attains a pair of values if its first operand does. -/
theorem attains_group (hop : ∀ n : Node, n.IsOperand depth → ∀ b, n.Attains b b)
    (h : Follows depth tail) {x y : Bool} (hn : n.Attains x y) :
    (Node.group (n :: tail)).Attains x y := by
  obtain ⟨σ, hl, hp⟩ := hn
  obtain ⟨τ, hleft, hprec⟩ := h.exists_neutral hop
  refine ⟨.cons σ τ, ?_, ?_⟩
  · rw [Node.term_group, evaluate_leftToRight (σ := .cons σ τ) hl,
      Assignment.later_cons, hleft]
  · rw [Node.term_group, h.evaluate_byPrecedence (σ := .cons σ τ) hp,
      Assignment.later_cons, hprec, Bool.false_or]

end

/-- An operand can be made true and made false, in both readings at once. -/
theorem Node.IsOperand.attains : ∀ {depth : Nat} {n : Node}, n.IsOperand depth →
    ∀ b, n.Attains b b
  | _, .condition _, _, b => ⟨fun _ => b, rfl, rfl⟩
  | _, .connective _, h, _ => absurd h Node.not_isOperand_connective
  | depth + 1, .group nodes, h, b => by
    obtain ⟨n, tail, rfl, hn, htail⟩ := WellFormed.exists_follows h
    exact attains_group (fun _ => Node.IsOperand.attains) htail (hn.attains b)

/-! ## Where the readings differ -/

/-- Whether a node may stand somewhere behind another one: no `AND` and no `AND NOT` behind `OR`. -/
def Node.MayPrecede (m n : Node) : Prop :=
  m = .connective .or → n ≠ .connective .and ∧ n ≠ .connective .andNot

/-- The sequences that a sequence is made of: itself, and those of its groups. -/
inductive Encloses : List Node → List Node → Prop
  | self {nodes : List Node} : Encloses nodes nodes
  | group {nodes inner found : List Node} (h : Node.group inner ∈ nodes)
      (hf : Encloses inner found) : Encloses nodes found

/-- In the sequence and in each of its groups, at any depth, no `AND` and no `AND NOT` stands behind
an `OR`. -/
def OrsLast (nodes : List Node) : Prop :=
  ∀ found, Encloses nodes found → found.Pairwise Node.MayPrecede

theorem orsLast_iff {nodes : List Node} :
    OrsLast nodes ↔
      nodes.Pairwise Node.MayPrecede ∧ ∀ inner, Node.group inner ∈ nodes → OrsLast inner := by
  refine ⟨?_, ?_⟩
  · exact fun h => ⟨h _ .self, fun inner hi found hf => h found (.group hi hf)⟩
  · rintro ⟨hself, hgroups⟩ found hf
    cases hf with
    | self => exact hself
    | group hi hf => exact hgroups _ hi found hf

section
variable {depth : Nat} {n : Node} {tail : List Node}

/-- An operand may stand before every node. -/
theorem Node.IsOperand.mayPrecede (h : n.IsOperand depth) (m : Node) : n.MayPrecede m := by
  rintro rfl
  exact absurd h Node.not_isOperand_connective

/-- An operand is no connective, so it is not among those of a tail. -/
theorem Node.IsOperand.connective_mem_iff (h : n.IsOperand depth) {c c' : Connective} :
    Node.connective c ∈ .connective c' :: n :: tail ↔ c = c' ∨ Node.connective c ∈ tail := by
  have hne : Node.connective c ≠ n := by
    rintro rfl
    exact Node.not_isOperand_connective h
  simp [hne]

/-- The connectives of a tail are those that keywords stand for. -/
theorem Follows.ne_not (h : Follows depth tail) {c : Connective}
    (hmem : Node.connective c ∈ tail) : c ≠ .not := by
  induction h with
  | nil => cases hmem
  | cons hc hn h ih =>
    rcases hn.connective_mem_iff.1 hmem with rfl | hmem
    · exact hc
    · exact ih hmem

/-- Behind an `OR` there may only be further ones. -/
theorem Follows.pairwise_or_cons_iff (hn : n.IsOperand depth) (h : Follows depth tail) :
    (.connective .or :: n :: tail).Pairwise Node.MayPrecede ↔
      ∀ c, Node.connective c ∈ tail → c = .or := by
  refine ⟨?_, ?_⟩
  · intro hp c hmem
    have hmay := List.rel_of_pairwise_cons hp (.tail _ hmem) rfl
    cases c with
    | or => rfl
    | and => exact absurd rfl hmay.1
    | andNot => exact absurd rfl hmay.2
    | not => exact absurd rfl (h.ne_not hmem)
  · intro hall
    refine List.pairwise_of_forall_mem_list fun k _ m hm _ => ⟨?_, ?_⟩
    · rintro rfl
      rcases hn.connective_mem_iff.1 hm with he | hm
      · cases he
      · cases hall _ hm
    · rintro rfl
      rcases hn.connective_mem_iff.1 hm with he | hm
      · cases he
      · cases hall _ hm

/-- Behind another connective there may be what may be there without it. -/
theorem pairwise_cons_iff {c : Connective} (hc : c ≠ .or) (hn : n.IsOperand depth) :
    (.connective c :: n :: tail).Pairwise Node.MayPrecede ↔ tail.Pairwise Node.MayPrecede := by
  rw [List.pairwise_cons, List.pairwise_cons]
  refine ⟨?_, ?_⟩
  · exact fun h => h.2.2
  · refine fun h => ⟨fun m _ he => ?_, fun m _ => hn.mayPrecede m, h⟩
    cases he
    exact absurd rfl hc

/-- A tail can be made to differ if what follows its first operand can, behind a pair of values
that the operand attains. -/
theorem Node.Attains.exists_ne {x y v done current : Bool} {c : Connective} (hn : n.Attains x y)
    (h : ∃ τ, applyFrom (c.apply v x) (terms leftToRight τ tail) ≠
      if c = .or then disjoinFrom (done || current) y (terms byPrecedence τ tail)
      else disjoinFrom done (c.apply current y) (terms byPrecedence τ tail)) :
    ∃ σ, applyFrom v (terms leftToRight σ (.connective c :: n :: tail)) ≠
      disjoinFrom done current (terms byPrecedence σ (.connective c :: n :: tail)) := by
  obtain ⟨σ, hl, hp⟩ := hn
  obtain ⟨τ, hne⟩ := h
  refine ⟨.cons σ (.cons σ τ), ?_⟩
  rw [terms_cons, terms_cons, hl, hp]
  exact hne

/-- A tail in which `AND` or `AND NOT` occurs can be made to differ if it stands behind a disjunct
that is true: such a connective makes the textual value false, but not the disjunction. -/
theorem Follows.exists_ne_of_done (h : Follows depth tail) :
    ¬ (∀ c, Node.connective c ∈ tail → c = .or) → ∀ current,
    ∃ σ, applyFrom true (terms leftToRight σ tail) ≠
      disjoinFrom true current (terms byPrecedence σ tail) := by
  induction h with
  | nil => exact fun hnot => absurd (fun _ hmem => nomatch hmem) hnot
  | @cons c n tail hc hn h ih =>
    intro hnot current
    by_cases hor : c = .or
    · subst hor
      have htail : ¬ ∀ c, Node.connective c ∈ tail → c = .or := by
        refine fun hall => hnot fun c hmem => ?_
        rcases hn.connective_mem_iff.1 hmem with rfl | hmem
        · rfl
        · exact hall c hmem
      exact (hn.attains true).exists_ne (ih htail true)
    · have happly (x : Bool) : c.apply x (!c.neutral) = false := by
        cases c with
        | or => exact absurd rfl hor
        | not => exact absurd rfl hc
        | and | andNot => simp [Connective.apply, Connective.neutral]
      obtain ⟨τ, hleft, hprec⟩ := h.exists_neutral fun _ => Node.IsOperand.attains
      refine (hn.attains (!c.neutral)).exists_ne ⟨τ, ?_⟩
      rw [if_neg hor, happly, happly, hleft, hprec]
      decide

/-- A tail in which `AND` or `AND NOT` stands behind `OR` can be made to differ behind a true
operand: the `OR` completes a true disjunct. -/
theorem Follows.exists_ne_of_not_pairwise (h : Follows depth tail) :
    ¬ tail.Pairwise Node.MayPrecede →
    ∃ σ, applyFrom true (terms leftToRight σ tail) ≠
      disjoinFrom false true (terms byPrecedence σ tail) := by
  induction h with
  | nil => exact fun hnot => absurd .nil hnot
  | @cons c n tail hc hn h ih =>
    intro hnot
    by_cases hor : c = .or
    · subst hor
      rw [h.pairwise_or_cons_iff hn] at hnot
      exact (hn.attains true).exists_ne (h.exists_ne_of_done hnot true)
    · rw [pairwise_cons_iff hor hn] at hnot
      obtain ⟨τ, hne⟩ := ih hnot
      refine (hn.attains c.neutral).exists_ne ⟨τ, ?_⟩
      rw [if_neg hor, c.apply_neutral hc]
      exact hne

/-- A tail with an operand that can be made to differ can be made to differ itself, behind a first
operand of a suitable value. -/
theorem Follows.exists_ne_of_mem (h : Follows depth tail) {m : Node} {x : Bool}
    (hm : m.Attains x (!x)) : m ∈ tail →
    ∃ v σ, applyFrom v (terms leftToRight σ tail) ≠
      disjoinFrom false v (terms byPrecedence σ tail) := by
  induction h with
  | nil => exact fun hmem => nomatch hmem
  | @cons c n tail hc hn h ih =>
    intro hmem
    rcases List.mem_cons.1 hmem with rfl | hmem
    · obtain ⟨σ, hl, -⟩ := hm
      cases hl
    rcases List.mem_cons.1 hmem with rfl | hmem
    · -- The value in front is the one that lets this operand decide.
      obtain ⟨τ, hleft, hprec⟩ := h.exists_neutral fun _ => Node.IsOperand.attains
      refine ⟨decide (c ≠ .or), hm.exists_ne ⟨τ, ?_⟩⟩
      rw [hleft, hprec, hprec]
      cases c with
      | not => exact absurd rfl hc
      | and | or | andNot => cases x <;> decide
    · obtain ⟨v, τ, hne⟩ := ih hmem
      by_cases hor : c = .or
      · subst hor
        exact ⟨false, (hn.attains v).exists_ne ⟨τ, hne⟩⟩
      · refine ⟨v, (hn.attains c.neutral).exists_ne ⟨τ, ?_⟩⟩
        rw [if_neg hor, c.apply_neutral hc]
        exact hne

/-! ## Where the readings agree -/

/-- Behind an `OR`, while there are only further ones, the textual value is the disjunction. -/
theorem Follows.applyFrom_eq_of_ors (h : Follows depth tail) :
    (∀ c, Node.connective c ∈ tail → c = .or) →
    (∀ n ∈ tail, ∀ σ, n.term leftToRight σ = n.term byPrecedence σ) →
    ∀ (σ : Assignment) (done current : Bool),
      applyFrom (done || current) (terms leftToRight σ tail) =
        disjoinFrom done current (terms byPrecedence σ tail) := by
  induction h with
  | nil => exact fun _ _ σ done current => rfl
  | @cons c n tail hc hn h ih =>
    intro hall hagree σ done current
    obtain rfl : c = .or := hall c (.head _)
    obtain ⟨x, hx⟩ := hn.exists_value leftToRight σ.later.first
    have hy : n.term byPrecedence σ.later.first = .value x := by
      rw [← hagree n (.tail _ (.head _)), hx]
    simp only [terms, Node.term, hx, hy]
    exact ih (fun c hc => hall c (.tail _ (.tail _ hc)))
      (fun m hm => hagree m (.tail _ (.tail _ hm))) σ.later.later (done || current) x

/-- While no `OR` has been read, the textual value is that of the only disjunct. -/
theorem Follows.applyFrom_eq (h : Follows depth tail) :
    tail.Pairwise Node.MayPrecede →
    (∀ n ∈ tail, ∀ σ, n.term leftToRight σ = n.term byPrecedence σ) →
    ∀ (σ : Assignment) (v : Bool),
      applyFrom v (terms leftToRight σ tail) =
        disjoinFrom false v (terms byPrecedence σ tail) := by
  induction h with
  | nil => exact fun _ _ σ v => rfl
  | @cons c n tail hc hn h ih =>
    intro hp hagree σ v
    obtain ⟨x, hx⟩ := hn.exists_value leftToRight σ.later.first
    have hy : n.term byPrecedence σ.later.first = .value x := by
      rw [← hagree n (.tail _ (.head _)), hx]
    have htail : ∀ m ∈ tail, ∀ σ, m.term leftToRight σ = m.term byPrecedence σ :=
      fun m hm => hagree m (.tail _ (.tail _ hm))
    simp only [terms, Node.term, hx, hy, applyFrom, disjoinFrom]
    by_cases hor : c = .or
    · subst hor
      rw [h.pairwise_or_cons_iff hn] at hp
      exact h.applyFrom_eq_of_ors hp htail σ.later.later v x
    · rw [pairwise_cons_iff hor hn] at hp
      rw [if_neg hor]
      exact ih hp htail σ.later.later (c.apply v x)

/-- An operand that the two readings do not agree on attains opposite values in them. -/
theorem Node.IsOperand.exists_attains (h : n.IsOperand depth)
    (hne : ¬ ∀ σ, n.term leftToRight σ = n.term byPrecedence σ) : ∃ x, n.Attains x (!x) := by
  obtain ⟨σ, hσ⟩ := Classical.not_forall.1 hne
  obtain ⟨x, hx⟩ := h.exists_value leftToRight σ
  obtain ⟨y, hy⟩ := h.exists_value byPrecedence σ
  have hyx : y = !x := Bool.eq_not.2 fun he => hσ (by rw [hx, hy, he])
  exact ⟨x, σ, hx, hyx ▸ hy⟩

/-- The two readings of a sequence differ if those of its tail do, behind a pair of values that its
first operand attains. -/
theorem Follows.exists_evaluate_ne (h : Follows depth tail) {x y : Bool} (hn : n.Attains x y)
    (hne : ∃ τ, applyFrom x (terms leftToRight τ tail) ≠
      disjoinFrom false y (terms byPrecedence τ tail)) :
    ∃ σ, evaluate leftToRight σ (n :: tail) ≠ evaluate byPrecedence σ (n :: tail) := by
  obtain ⟨σ, hl, hp⟩ := hn
  obtain ⟨τ, hne⟩ := hne
  refine ⟨.cons σ τ, ?_⟩
  rw [evaluate_leftToRight (σ := .cons σ τ) hl, h.evaluate_byPrecedence (σ := .cons σ τ) hp,
    Assignment.later_cons]
  exact hne

/-- The two readings of a sequence agree if and only if they agree on each operand and no `AND` or
`AND NOT` of the sequence itself stands behind an `OR`. -/
theorem Follows.evaluate_eq_iff (hn : n.IsOperand depth) (h : Follows depth tail) :
    (∀ σ, evaluate leftToRight σ (n :: tail) = evaluate byPrecedence σ (n :: tail)) ↔
      (n :: tail).Pairwise Node.MayPrecede ∧
        ∀ m ∈ n :: tail, ∀ σ, m.term leftToRight σ = m.term byPrecedence σ := by
  refine ⟨?_, ?_⟩
  · intro heq
    have hagree {x y : Bool} (hxy : n.Attains x y) (τ : Assignment) :
        applyFrom x (terms leftToRight τ tail) = disjoinFrom false y (terms byPrecedence τ tail) :=
      Classical.byContradiction fun hne => by
        obtain ⟨σ, hσ⟩ := h.exists_evaluate_ne hxy ⟨τ, hne⟩
        exact hσ (heq σ)
    refine ⟨.cons (fun m _ => hn.mayPrecede m) ?_, fun m hm => ?_⟩
    · refine Classical.byContradiction fun hnot => ?_
      obtain ⟨τ, hne⟩ := h.exists_ne_of_not_pairwise hnot
      exact hne (hagree (hn.attains true) τ)
    · refine Classical.byContradiction fun hne => ?_
      rcases List.mem_cons.1 hm with rfl | hm
      · obtain ⟨x, hx⟩ := hn.exists_attains hne
        obtain ⟨τ, hleft, hprec⟩ := h.exists_neutral fun _ => Node.IsOperand.attains
        have := hagree hx τ
        rw [hleft, hprec] at this
        cases x <;> cases this
      · obtain hm' | ⟨c, rfl⟩ := h.isOperand_or_of_mem hm
        · obtain ⟨x, hx⟩ := hm'.exists_attains hne
          obtain ⟨v, τ, hτ⟩ := h.exists_ne_of_mem hx hm
          exact hτ (hagree (hn.attains v) τ)
        · exact hne fun _ => rfl
  · rintro ⟨hp, hagree⟩ σ
    obtain ⟨x, hx⟩ := hn.exists_value leftToRight σ.first
    have hy : n.term byPrecedence σ.first = .value x := by rw [← hagree n (.head _), hx]
    rw [evaluate_leftToRight hx, h.evaluate_byPrecedence hy]
    exact h.applyFrom_eq (List.pairwise_cons.1 hp).2 (fun m hm => hagree m (.tail _ hm)) _ _

end

/-- A group in a well-formed sequence is well-formed inside, for a lower limit. -/
theorem WellFormed.of_group_mem {depth : Nat} {nodes inner : List Node} (h : WellFormed depth nodes)
    (hmem : Node.group inner ∈ nodes) : ∃ d, depth = d + 1 ∧ WellFormed d inner := by
  obtain ⟨n, tail, rfl, hn, htail⟩ := h.exists_follows
  have hop : (Node.group inner).IsOperand depth := by
    rcases List.mem_cons.1 hmem with rfl | hmem
    · exact hn
    · obtain hop | ⟨c, hc⟩ := htail.isOperand_or_of_mem hmem
      · exact hop
      · cases hc
  cases depth with
  | zero => exact hop.elim
  | succ d => exact ⟨d, rfl, hop⟩

/-- **The two readings of a well-formed sequence agree on all assignments if and only if no `AND`
and no `AND NOT` stands behind an `OR`,** in the sequence and in each of its groups. -/
theorem WellFormed.evaluate_eq_iff_orsLast {depth : Nat} {nodes : List Node}
    (h : WellFormed depth nodes) :
    (∀ σ, evaluate leftToRight σ nodes = evaluate byPrecedence σ nodes) ↔ OrsLast nodes := by
  induction depth using Nat.strongRecOn generalizing nodes with
  | ind depth ih =>
    have hgroup {inner : List Node} (hi : Node.group inner ∈ nodes) :
        (∀ σ, (Node.group inner).term leftToRight σ = (Node.group inner).term byPrecedence σ) ↔
          OrsLast inner := by
      obtain ⟨d, rfl, hinner⟩ := h.of_group_mem hi
      rw [← ih d (Nat.lt_succ_self d) hinner]
      simp only [Node.term_group, Term.value.injEq]
    obtain ⟨n, tail, rfl, hn, htail⟩ := h.exists_follows
    rw [htail.evaluate_eq_iff hn, orsLast_iff]
    refine and_congr_right fun _ => ⟨fun hagree inner hi => (hgroup hi).1 (hagree _ hi), ?_⟩
    intro hlast m hm
    cases m with
    | condition c => exact fun _ => rfl
    | connective c => exact fun _ => rfl
    | group inner => exact (hgroup hm).2 (hlast inner hm)

end FieldQuery
