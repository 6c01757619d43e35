import FieldQuery.Proofs.Surface.Place

/-!
# What stands behind a query and a keyword

Behind a query and a keyword, a text is read as if it stood alone: its tree becomes the end of the
tree of the whole, and its refusal the refusal of the whole, with all offsets moved on by the bytes
before it (`Query.parse_join`).

Two passes over the text of the second query are compared, the one that reads it alone and the one
that reads it behind the first. They take the same tokens, so what they have read differs in the
offsets and in what the outermost frame holds from before (`Reading.Behind`). Each token keeps it
that way, and so does the whole pass (`Tokens.parse_behind`).
-/

namespace FieldQuery

open Text Grammar Tokens

/-! ## Offsets moved on -/

/-- A keyword with its offset moved on. -/
def Keyword.shift (m : Nat) (k : Keyword) : Keyword :=
  { k with position := m + k.position }

mutual

/-- An expression with all offsets moved on. -/
def Expr.shift (m : Nat) : Expr → Expr
  | .comparison c => .comparison { c with position := m + c.position }
  | .group q => .group (q.shift m)

/-- A query with all offsets moved on. -/
def Query.shift (m : Nat) : Query → Query
  | .single e => .single (e.shift m)
  | .chain e k rest => .chain (e.shift m) (k.shift m) (rest.shift m)

end

/-- A refusal with its offset moved on. -/
def SyntaxError.shift (m : Nat) (e : SyntaxError) : SyntaxError :=
  { e with position := m + e.position }

/-- A frame with all offsets moved on. -/
def Frame.shift (m : Nat) (frame : Frame) : Frame :=
  frame.map fun (e, k) => (e.shift m, k.shift m)

/-- Moving offsets on goes by the parts of a query. -/
theorem Frame.shift_enclose (m : Nat) (frame : Frame) (q : Query) :
    (frame.enclose q).shift m = (frame.shift m).enclose (q.shift m) := by
  induction frame generalizing q with
  | nil => rfl
  | cons part frame ih => exact ih (.chain part.1 part.2 q)

/-- A frame on top of another encloses first. -/
theorem Frame.enclose_append (frame base : Frame) (q : Query) :
    Frame.enclose (frame ++ base) q = base.enclose (frame.enclose q) :=
  List.foldl_append

/-! ## One text, read alone and behind another -/

section
variable {m : Nat} {base frame frame' : Frame} {outer outer' : List Frame}

/-- Two stacks of frames for one text. In the second one all offsets are moved on, and the outermost
frame lies on top of a frame from before. -/
inductive Frame.Behind (m : Nat) (base : Frame) : Frame → List Frame → Frame → List Frame → Prop
  | outermost {frame : Frame} : Behind m base frame [] (frame.shift m ++ base) []
  | inner {frame around around' : Frame} {outer outer' : List Frame}
      (h : Behind m base around outer around' outer') :
      Behind m base frame (around :: outer) (frame.shift m) (around' :: outer')

/-- What two passes over one text have read, the second one behind another text. -/
inductive Reading.Behind (m : Nat) (base : Frame) : {p : Place} → Reading p → Reading p → Prop
  | due {frame frame' : Frame} {outer outer' : List Frame}
      (h : Frame.Behind m base frame outer frame' outer') :
      Behind m base (.due frame outer) (.due frame' outer')
  | ended {last : Expr} {frame frame' : Frame} {outer outer' : List Frame}
      (h : Frame.Behind m base frame outer frame' outer') :
      Behind m base (.ended last frame outer) (.ended (last.shift m) frame' outer')

/-- The groups that are open are those of the text itself. -/
theorem Frame.Behind.length_eq (h : Frame.Behind m base frame outer frame' outer') :
    outer'.length = outer.length := by
  induction h with
  | outermost => rfl
  | inner _ ih => exact congrArg (· + 1) ih

/-- The innermost frames go on alike. -/
theorem Frame.Behind.cons (h : Frame.Behind m base frame outer frame' outer') (e : Expr)
    (k : Keyword) :
    Frame.Behind m base ((e, k) :: frame) outer ((e.shift m, k.shift m) :: frame') outer' := by
  cases h with
  | outermost => exact .outermost
  | inner h => exact .inner h

/-- **A pass over a text behind another one goes as the pass over the text alone,** with all offsets
moved on, and what was read before encloses its tree. -/
theorem Tokens.parse_behind {limit : Nat} {p : Place} (ts : Tokens p) {pos : Nat}
    {r r' : Reading p} (h : Reading.Behind m base r r') :
    ts.parse limit (m + pos) r' =
      ((ts.parse limit pos r).map fun q => base.enclose (q.shift m)).mapError
        (SyntaxError.shift m) := by
  induction ts generalizing pos with
  | opening rest ih =>
    cases h with
    | @due frame frame' outer outer' h =>
      have hinner : Frame.Behind m base [] (frame :: outer) [] (frame' :: outer') := .inner h
      rw [Tokens.parse, Tokens.parse, h.length_eq, Nat.add_assoc]
      split
      · exact ih (.due hinner)
      · rfl
  | comparison c rest ih =>
    cases h with
    | due h =>
      rw [Tokens.parse, Tokens.parse, Nat.add_assoc]
      exact ih (.ended h)
  | closing rest ih =>
    cases h with
    | @ended last frame _ _ _ h =>
      cases h with
      | outermost => rfl
      | inner h =>
        have hgroup : (Expr.group (frame.close last)).shift m =
            .group ((frame.shift m).close (last.shift m)) :=
          congrArg Expr.group (frame.shift_enclose m (.single last))
        have hended : Reading.Behind m base (.ended (.group (frame.close last)) _ _) _ := .ended h
        rw [hgroup] at hended
        rw [Tokens.parse, Tokens.parse, Nat.add_assoc]
        exact ih hended
  | link l rest ih =>
    cases h with
    | @ended last frame _ _ _ h =>
      rw [Tokens.parse, Tokens.parse, Nat.add_assoc, Nat.add_assoc]
      exact ih (.due (h.cons last ⟨l.word, pos + l.before.utf8ByteSize⟩))
  | done =>
    cases h with
    | @ended last frame _ _ _ h =>
      cases h with
      | outermost =>
        have hclose : Frame.close (frame.shift m ++ base) (last.shift m) =
            base.enclose ((frame.close last).shift m) := by
          rw [Frame.close, Frame.close, ← Frame.enclose, ← Frame.enclose, frame.shift_enclose m,
            Frame.enclose_append]
          rfl
        rw [Tokens.parse, Tokens.parse, hclose]
        rfl
      | inner h => rfl
  | fault f =>
    rw [Tokens.parse.eq_def, Tokens.parse.eq_def]
    refine congrArg Except.error ?_
    simp [SyntaxError.shift, Nat.add_assoc]

end

/-! ## Joined trees -/

/-- A query that a frame encloses is followed by what follows it. -/
theorem Frame.append_enclose (frame : Frame) (q : Query) (k : Keyword) (q' : Query) :
    (frame.enclose q).append k q' = frame.enclose (q.append k q') := by
  induction frame generalizing q with
  | nil => rfl
  | cons part frame ih => exact ih (.chain part.1 part.2 q)

@[simp] theorem Query.head_append (q : Query) (k : Keyword) (q' : Query) :
    (q.append k q').head = q.head := by
  cases q with
  | single e => rfl
  | chain e k' rest => rfl

/-- The tail of a joined query: the first tail, the keyword with the expression after it, and the
second tail. -/
@[simp] theorem Query.tail_append : (q : Query) → (k : Keyword) → (q' : Query) →
    (q.append k q').tail = q.tail ++ (k, q'.head) :: q'.tail
  | .single _, _, _ => rfl
  | .chain _ k' rest, k, q' => by
    rw [Query.append, Query.tail, Query.tail, rest.tail_append, rest.head_append, List.cons_append]

/-- A joined query by its first expression and its tail. -/
theorem Query.append_eq_ofTail (q : Query) (k : Keyword) (q' : Query) :
    q.append k q' = .ofTail q.head (q.tail ++ (k, q'.head) :: q'.tail) := by
  rw [← (q.append k q').ofTail_head_tail, Query.head_append, Query.tail_append]

/-! ## What parsing gives -/

/-- Behind a query and a link, a text is parsed as it is alone, with all offsets moved on. -/
theorem Query.parse_link {limit : Nat} {q₁ q₂ : String} {t₁ : Query} {l : Link}
    (h : Query.parse limit q₁ = .ok t₁) (hl : l.Derives q₂.toList) :
    Query.parse limit (q₁ ++ l.text ++ q₂) =
      ((Query.parse limit q₂).map fun t₂ =>
        t₁.append ⟨l.word, (q₁ ++ l.before).utf8ByteSize⟩
          (t₂.shift (q₁ ++ l.text).utf8ByteSize)).mapError
        (SyntaxError.shift (q₁ ++ l.text).utf8ByteSize) := by
  -- What the pass has read where the first query ends is the same whatever follows.
  obtain ⟨r, hr, -, hrest⟩ := (reaches_and_laid_of_parse h).1.exists_reading
  cases r with
  | ended last frame outer =>
    obtain rfl : outer = [] := List.length_eq_zero_iff.1 hr
    have halone := hrest [] id
    rw [List.append_nil, String.ofList_toList, scan_done, Tokens.parse, h] at halone
    obtain rfl : t₁ = frame.close last := Except.ok.inj halone
    have hblank : Stops Bare (l.text.toList ++ q₂.toList) := by
      simpa [Link.text] using hl.before.stops_bare
    have hjoined := hrest (l.text.toList ++ q₂.toList) fun _ => hblank
    rw [scan_link hl.lex, Tokens.parse, bytes_toList, ← String.utf8ByteSize_append,
      ← String.utf8ByteSize_append] at hjoined
    let base : Frame := (last, ⟨l.word, (q₁ ++ l.before).utf8ByteSize⟩) :: frame
    have hbehind : Reading.Behind (q₁ ++ l.text).utf8ByteSize base (.due [] []) (.due base []) :=
      .due .outermost
    have hshift : (scan .operand q₂.toList).parse limit ((q₁ ++ l.text).utf8ByteSize + 0)
        (.due base []) = _ := Tokens.parse_behind _ hbehind
    have hcut : q₁ ++ l.text ++ q₂ = .ofList (q₁.toList ++ (l.text.toList ++ q₂.toList)) := by
      simp [← String.toList_inj]
    have happend (q : Query) : (frame.close last).append ⟨l.word, (q₁ ++ l.before).utf8ByteSize⟩ q =
        base.enclose q :=
      frame.append_enclose (.single last) _ q
    simp only [happend]
    rw [hcut, hjoined]
    exact hshift

/-- **Behind a query and a keyword, a text is read as if it stood alone.** It is refused if and only
if the text alone is, for the same reason, and the offset of the refusal is moved on by the bytes
before the text. Otherwise the tree is that of the query before, and its tail goes on with the
keyword at its offset and with the tree of the text, all of whose offsets are moved on. -/
theorem Query.parse_join {limit : Nat} {q₁ before word after q₂ : String} {t₁ : Query}
    (h : Query.parse limit q₁ = .ok t₁) (hb : IsRun Blank before.toList)
    (hk : IsKeyword word.toList) (ha : IsRun Blank after.toList) (hq : Stops Blank q₂.toList) :
    (∀ e, Query.parse limit (q₁ ++ before ++ word ++ after ++ q₂) = .error e ↔
      ∃ e₂, Query.parse limit q₂ = .error e₂ ∧
        e = ⟨(q₁ ++ before ++ word ++ after).utf8ByteSize + e₂.position, e₂.reason⟩) ∧
    ∀ t, Query.parse limit (q₁ ++ before ++ word ++ after ++ q₂) = .ok t ↔
      ∃ t₂ t₂', Query.parse limit q₂ = .ok t₂ ∧
        t₂' = t₂.shift (q₁ ++ before ++ word ++ after).utf8ByteSize ∧
        t = .ofTail t₁.head
          (t₁.tail ++ (⟨word, (q₁ ++ before).utf8ByteSize⟩, t₂'.head) :: t₂'.tail) := by
  have hl : (Link.mk before word after).Derives q₂.toList := ⟨hb, hk, ha, hq⟩
  have hjoin := Query.parse_link h hl
  have htext : q₁ ++ (Link.mk before word after).text = q₁ ++ before ++ word ++ after := by
    simp only [Link.text, String.append_assoc]
  rw [htext] at hjoin
  rw [hjoin]
  simp only [Query.append_eq_ofTail]
  cases Query.parse limit q₂ with
  | error e₂ =>
    show (∀ e, Except.error (e₂.shift _) = .error e ↔ _) ∧ ∀ t, Except.error _ = .ok t ↔ _
    simp [SyntaxError.shift, eq_comm]
  | ok t₂ =>
    show (∀ e, Except.ok _ = .error e ↔ _) ∧ ∀ t, Except.ok _ = .ok t ↔ _
    simp [eq_comm]

/-- Behind a group with a character of two bytes, a range that breaks off and a group. -/
theorem Query.parse_join_range :
    Query.parse 1 "(a:é)" =
      .ok (.single (.group (.single (.comparison ⟨⟨"a", ":", .unquoted "é"⟩, 1⟩)))) ∧
    Query.parse 1 "b:[1;" = .error ⟨5, .malformedRange⟩ ∧
    Query.parse 1 "(a:é) aNd\t b:[1;" = .error ⟨17, .malformedRange⟩ ∧
    Query.parse 1 "(b:2)" =
      .ok (.single (.group (.single (.comparison ⟨⟨"b", ":", .number "2"⟩, 1⟩)))) ∧
    Query.parse 1 "(a:é) aNd\t (b:2)" =
      .ok (.chain (.group (.single (.comparison ⟨⟨"a", ":", .unquoted "é"⟩, 1⟩))) ⟨"aNd", 7⟩
        (.single (.group (.single (.comparison ⟨⟨"b", ":", .number "2"⟩, 13⟩))))) := by
  have hfirst : Query.parse 1 "(a:é)" =
      .ok (.single (.group (.single (.comparison ⟨⟨"a", ":", .unquoted "é"⟩, 1⟩)))) := by
    with_unfolding_all rfl
  have hrange : Query.parse 1 "b:[1;" = .error ⟨5, .malformedRange⟩ := by with_unfolding_all rfl
  have hgroup : Query.parse 1 "(b:2)" =
      .ok (.single (.group (.single (.comparison ⟨⟨"b", ":", .number "2"⟩, 1⟩)))) := by
    with_unfolding_all rfl
  have hspace : IsRun Blank " ".toList := ⟨by decide, by simp [Blank]⟩
  have htab : IsRun Blank "\t ".toList := ⟨by decide, by simp [Blank]⟩
  have hand : IsKeyword "aNd".toList := by decide
  have hb : Stops Blank "b:[1;".toList := by simp [Stops, Blank]
  have hopen : Stops Blank "(b:2)".toList := by simp [Stops, Blank]
  obtain ⟨hrefused, -⟩ := Query.parse_join hfirst hspace hand htab hb
  obtain ⟨-, hparsed⟩ := Query.parse_join hfirst hspace hand htab hopen
  exact ⟨hfirst, hrange, (hrefused _).2 ⟨_, hrange, rfl⟩, hgroup,
    (hparsed _).2 ⟨_, _, hgroup, rfl, rfl⟩⟩

end FieldQuery
