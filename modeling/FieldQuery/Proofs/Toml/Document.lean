import FieldQuery.Toml.Document
import FieldQuery.Proofs.Toml.Reading

/-!
# Documents are read as what they say

A document is read as its assignments, in their order, and refused if a value among them is
(`statements?_text`). Before its lines are read one by one (`line?_text`), a byte order mark is
dropped, of which there is none (`dropMark_joinLines`), and each end of a line becomes a line feed.
Nothing else changes, as a line holds no carriage return but that of its end (`return_notMem_line`).

Assignments of single keys can be carried out if and only if no key is assigned twice
(`execute_statements_eq_ok_iff`).
-/

namespace FieldQuery.Toml

/-! ## Lines -/

/-- What an assignment adds to a table, unless its value is refused. -/
def binding? (said : String × Scalar) : Option (String × Value) :=
  said.2.value?.map fun value => (said.1, value)

/-- An assignment is read as the statement that it makes. -/
theorem statement?_text (a : Assignment) {rest : List Char} (h : EndsValue rest) :
    statement? (a.text ++ rest) =
      (binding? a.said).map fun (key, value) => (.assignment [key] value, rest) := by
  obtain ⟨c, s, hk, -, hbracket, -⟩ := a.key.exists_cons
  obtain ⟨d, t, hv, hblank, -⟩ := a.value.exists_cons
  have hpath := path?_text a.key a.before (a.after.text ++ (a.value.text ++ rest))
  have hafter : (a.after.text ++ (a.value.text ++ rest)).dropWhile isBlank = a.value.text ++ rest :=
    a.after.dropWhile_append (by simp [hv, hblank])
  have ht : a.text ++ rest =
      a.key.text ++ (a.before.text ++ '=' :: (a.after.text ++ (a.value.text ++ rest))) := by
    simp [Assignment.text]
  rw [ht, statement?.eq_def]
  split
  · next he =>
    rw [hk] at he
    exact absurd (List.cons.inj he).1 hbracket
  · rw [hpath]
    simp only [Option.bind_eq_bind, Option.bind_some, hafter, value?_text a.value h]
    cases hvalue : a.value.scalar.value? with
    | none => simp [binding?, Assignment.said, hvalue]
    | some value => simp [binding?, Assignment.said, hvalue]

/-- What may stand behind the text of a line: its end, or nothing. -/
def EndsLine (rest : List Char) : Prop :=
  ∀ c ∈ rest.head?, c = '\n'

/-- What may stand behind the blanks after a statement: a comment, an end of a line, or nothing. -/
def EndsStatement (rest : List Char) : Prop :=
  ∀ c ∈ rest.head?, c = '#' ∨ c = '\n'

theorem EndsLine.endsStatement {rest : List Char} (h : EndsLine rest) (comment? : Option Comment) :
    EndsStatement (comment?.elim [] Comment.text ++ rest) := by
  intro c hc
  cases comment? with
  | none => exact .inr (h c hc)
  | some comment => exact .inl (Option.some.inj hc).symm

theorem EndsStatement.isBlank {rest : List Char} (h : EndsStatement rest) :
    ∀ c ∈ rest.head?, isBlank c = false := by
  intro c hc
  rcases h c hc with rfl | rfl <;> rfl

theorem EndsStatement.endsValue {rest : List Char} (h : EndsStatement rest) (b : Blanks) :
    EndsValue (b.text ++ rest) := by
  intro c hc
  cases hb : b.text with
  | nil =>
    rw [hb] at hc
    rcases h c hc with rfl | rfl <;> simp
  | cons d t =>
    rw [hb] at hc
    obtain rfl := Option.some.inj hc
    rcases b.blank d (hb ▸ .head _) with rfl | rfl <;> simp

/-- A comment is skipped up to the end of its line. -/
theorem dropWhile_comment (comment? : Option Comment) {rest : List Char} (h : EndsLine rest) :
    (if (comment?.elim [] Comment.text ++ rest).head? = some '#' then
      (comment?.elim [] Comment.text ++ rest).dropWhile isTextChar
    else comment?.elim [] Comment.text ++ rest) = rest := by
  cases comment? with
  | none => exact if_neg fun hq => absurd (h _ hq) (by decide)
  | some c =>
    have hbody : ∀ d ∈ c.text, isTextChar d = true := by
      intro d hd
      rcases List.mem_cons.1 hd with rfl | hd
      · rfl
      · exact (c.printable d hd).isTextChar
    have hstop : ∀ d ∈ rest.head?, isTextChar d = false := by
      intro d hd
      rw [h d hd]
      rfl
    exact (if_pos rfl).trans (cut_run hbody hstop).2

/-- The rest of a line after its statement is skipped. -/
theorem lineEnd?_text (b : Blanks) (comment? : Option Comment) {rest : List Char}
    (h : EndsLine rest) :
    lineEnd? (b.text ++ (comment?.elim [] Comment.text ++ rest)) = some rest.tail := by
  rw [lineEnd?, b.dropWhile_append (h.endsStatement comment?).isBlank, dropWhile_comment comment? h]
  cases rest with
  | nil => rfl
  | cons c rest => exact if_pos (h c rfl)

/-- What a line says, unless its value is refused. -/
def Line.statement? (l : Line) : Option (Option Statement) :=
  match l.assignment? with
  | none => some none
  | some a => (binding? a.said).map fun (key, value) => some (.assignment [key] value)

theorem Line.text_append (l : Line) (rest : List Char) :
    l.text ++ rest = l.indent.text ++ (l.assignment?.elim [] Assignment.text ++
      (l.trailing.text ++ (l.comment?.elim [] Comment.text ++ rest))) := by
  simp [Line.text]

/-- A line is read as what it says, up to the end of the line or of the text. -/
theorem line?_text (l : Line) {rest : List Char} (h : EndsLine rest) :
    line? (l.text ++ rest) = l.statement?.map fun statement => (statement, rest.tail) := by
  have hbehind := h.endsStatement l.comment?
  cases ha : l.assignment? with
  | none =>
    have hindent :
        (l.text ++ rest).dropWhile isBlank = l.comment?.elim [] Comment.text ++ rest := by
      rw [l.text_append, ha, Option.elim_none, List.nil_append,
        List.dropWhile_append_of_pos l.indent.isBlank, l.trailing.dropWhile_append hbehind.isBlank]
    have hend := lineEnd?_text {} l.comment? h
    rw [List.nil_append] at hend
    rw [line?, hindent]
    cases hs : l.comment?.elim [] Comment.text ++ rest with
    | nil =>
      obtain rfl : rest = [] := (List.append_eq_nil_iff.1 hs).2
      simp [Line.statement?, ha]
    | cons c s =>
      rw [hs] at hend
      have hc : c = '\n' ∨ c = '#' := (hbehind c (by rw [hs]; rfl)).symm
      simp [Line.statement?, ha, hc, hend]
  | some a =>
    obtain ⟨c, s, hk, hkey, -, hhash, hline, -⟩ := a.key.exists_cons
    obtain ⟨t, ht⟩ : ∃ t, a.text ++ (l.trailing.text ++ (l.comment?.elim [] Comment.text ++ rest)) =
        c :: t := ⟨_, by rw [Assignment.text, hk]; rfl⟩
    have hindent : (l.text ++ rest).dropWhile isBlank = c :: t := by
      rw [l.text_append, ha, Option.elim_some, ht, l.indent.dropWhile_append (by simpa using hkey)]
    rw [line?, hindent]
    simp only [hline, hhash, or_self, if_false]
    rw [← ht, statement?_text a (hbehind.endsValue l.trailing)]
    cases hb : binding? a.said with
    | none => simp [Line.statement?, ha, hb]
    | some entry => simp [Line.statement?, ha, hb, lineEnd?_text l.trailing l.comment? h]

/-! ## Ends of lines -/

theorem not_printable_return : ¬ Printable '\r' := by
  decide

theorem return_notMem_basicBody (items : List BasicItem) : '\r' ∉ basicBody items := by
  intro h
  obtain ⟨item, -, hc⟩ := List.mem_flatMap.1 h
  cases item with
  | plain c hchar =>
    rw [BasicItem.text, List.mem_singleton] at hc
    exact not_printable_return (hc ▸ hchar.1)
  | letter mark c hletter =>
    have hmarks : ∀ x ∈ letters, '\r' ∉ ['\\', x.1] := by decide
    exact hmarks _ hletter hc
  | code long digits c hcode =>
    have hdigit (d : HexDigit) : d.char ≠ '\r' := by
      obtain ⟨v, capital⟩ := d
      revert v capital
      decide
    cases long <;> simp [BasicItem.text, hdigit] at hc

theorem return_notMem_key (k : WrittenKey) : '\r' ∉ k.text := by
  cases k with
  | bare name h => exact fun hc => WordChar.ne (.inl (h.2 _ hc)) '\r' (by decide) rfl
  | basic items => simp [WrittenKey.text, return_notMem_basicBody]
  | literal name h =>
    have hname : '\r' ∉ name := fun hc => not_printable_return (h _ hc).1
    simp [WrittenKey.text, hname]

theorem return_notMem_value (v : WrittenValue) : '\r' ∉ v.text := by
  cases v with
  | word w h => exact fun hc => (h.2 _ hc).ne '\r' (by decide) rfl
  | basic items => simp [WrittenValue.text, return_notMem_basicBody]

/-- A line holds no carriage return but that of its end. -/
theorem return_notMem_line (l : Line) : '\r' ∉ l.text := by
  have hblank (b : Blanks) : '\r' ∉ b.text := fun h => absurd (b.blank _ h) (by decide)
  have hassignment : '\r' ∉ l.assignment?.elim [] Assignment.text := by
    cases l.assignment? with
    | none => exact List.not_mem_nil
    | some a => simp [Assignment.text, return_notMem_key, return_notMem_value, hblank]
  have hcomment : '\r' ∉ l.comment?.elim [] Comment.text := by
    cases l.comment? with
    | none => exact List.not_mem_nil
    | some c =>
      have hbody : '\r' ∉ c.body := fun h => not_printable_return (c.printable _ h)
      simp [Comment.text, hbody]
  simp [Line.text, hblank, hassignment, hcomment]

theorem lineEnds?_cons {c : Char} (hc : c ≠ '\r') (s : List Char) :
    lineEnds? (c :: s) = (lineEnds? s).map (c :: ·) := by
  rw [lineEnds?.eq_def]
  exact if_neg hc

/-- In front of the first end of a line nothing changes. -/
theorem lineEnds?_append {s : List Char} (h : '\r' ∉ s) (t : List Char) :
    lineEnds? (s ++ t) = (lineEnds? t).map (s ++ ·) := by
  induction s with
  | nil => simp
  | cons c s ih =>
    have hc : c ≠ '\r' := fun he => h (he ▸ .head _)
    rw [List.cons_append, lineEnds?_cons hc, ih fun hs => h (.tail _ hs), Option.map_map]
    rfl

/-- Either end of a line is read as a line feed. -/
theorem lineEnds?_text_append (e : LineEnd) (t : List Char) :
    lineEnds? (e.text ++ t) = (lineEnds? t).map ('\n' :: ·) := by
  cases e with
  | lf => exact lineEnds?_cons (by decide) t
  | crlf => simp [LineEnd.text, lineEnds?]

theorem lineEnds?_joinLines (closed : Bool) (ls : List Line) :
    lineEnds? (joinLines closed (fun l => l.lineEnd.text) ls) =
      some (joinLines closed (fun _ => ['\n']) ls) := by
  fun_induction joinLines closed (fun l => l.lineEnd.text) ls with
  | case1 => rfl
  | case2 l =>
    rw [lineEnds?_append (return_notMem_line l), joinLines]
    cases closed with
    | false => rfl
    | true => cases l.lineEnd <;> rfl
  | case3 l ls hls ih =>
    rw [lineEnds?_append (return_notMem_line l), lineEnds?_text_append, ih, joinLines]
    · rfl
    · exact hls

/-! ## Starts of documents -/

theorem head?_append_ne {c : Char} {s t : List Char} (hs : s.head? ≠ some c)
    (ht : t.head? ≠ some c) : (s ++ t).head? ≠ some c := by
  cases s with
  | nil => exact ht
  | cons d s => exact hs

/-- No line starts with a byte order mark. -/
theorem Line.head?_append_ne (l : Line) {rest : List Char} (h : rest.head? ≠ some '\ufeff') :
    (l.text ++ rest).head? ≠ some '\ufeff' := by
  have hblank (b : Blanks) : b.text.head? ≠ some '\ufeff' := fun hb =>
    absurd (b.blank _ (List.mem_of_head? hb)) (by decide)
  have hassignment : (l.assignment?.elim [] Assignment.text).head? ≠ some '\ufeff' := by
    cases l.assignment? with
    | none => exact nofun
    | some a =>
      obtain ⟨c, s, hk, -, -, -, -, hmark⟩ := a.key.exists_cons
      simpa [Assignment.text, hk] using hmark
  have hcomment : (l.comment?.elim [] Comment.text).head? ≠ some '\ufeff' := by
    cases l.comment? with
    | none => exact nofun
    | some c => simp [Comment.text]
  rw [l.text_append]
  exact Toml.head?_append_ne (hblank _) (Toml.head?_append_ne hassignment
    (Toml.head?_append_ne (hblank _) (Toml.head?_append_ne hcomment h)))

theorem dropMark_joinLines (closed : Bool) (ls : List Line) :
    dropMark (joinLines closed (fun l => l.lineEnd.text) ls) =
      joinLines closed (fun l => l.lineEnd.text) ls := by
  have hend (e : LineEnd) (s : List Char) : (e.text ++ s).head? ≠ some '\ufeff' := by
    cases e <;> simp [LineEnd.text]
  have hmark : (joinLines closed (fun l => l.lineEnd.text) ls).head? ≠ some '\ufeff' := by
    fun_cases joinLines closed (fun l => l.lineEnd.text) ls with
    | case1 => exact nofun
    | case2 l =>
      refine l.head?_append_ne ?_
      cases closed with
      | false => exact nofun
      | true => simpa using hend l.lineEnd []
    | case3 l ls => exact l.head?_append_ne (hend _ _)
  cases hs : joinLines closed (fun l => l.lineEnd.text) ls with
  | nil => rfl
  | cons c s =>
    rw [hs] at hmark
    exact if_neg fun hc => hmark (congrArg some hc)

/-! ## Documents -/

/-- The statements that make entries, one for each. -/
def Entries.statements (entries : Entries) : List Statement :=
  entries.map fun (key, value) => .assignment [key] value

/-- A document is read line by line. -/
theorem lines?_eq (s : List Char) :
    lines? s =
      (line? s).bind fun (statement, rest) => (lines? rest).map (statement.toList ++ ·) := by
  cases s with
  | nil => simp [lines?, line?]
  | cons c s =>
    rw [lines?]
    split
    · next h => simp [h]
    · next h => simp [h]

/-- Behind the text of a line there is its end, and the lines after it behind that. -/
theorem joinLines_cons (closed : Bool) (l : Line) (ls : List Line) :
    ∃ rest, joinLines closed (fun _ => ['\n']) (l :: ls) = l.text ++ rest ∧
      EndsLine rest ∧ rest.tail = joinLines closed (fun _ => ['\n']) ls := by
  cases ls with
  | nil =>
    refine ⟨if closed then ['\n'] else [], rfl, ?_, ?_⟩
    · cases closed <;> simp [EndsLine]
    · cases closed <;> rfl
  | cons l' ls => exact ⟨_, rfl, by simp [EndsLine], rfl⟩

/-- Lines are read as what they say. -/
theorem lines?_joinLines (closed : Bool) (ls : List Line) :
    lines? (joinLines closed (fun _ => ['\n']) ls) =
      ((ls.filterMap Line.said?).mapM binding?).map Entries.statements := by
  induction ls with
  | nil => simp [joinLines, lines?, Entries.statements]
  | cons l ls ih =>
    obtain ⟨rest, hjoin, hstop, hrest⟩ := joinLines_cons closed l ls
    rw [hjoin, lines?_eq, line?_text l hstop]
    cases ha : l.assignment? with
    | none =>
      rw [List.filterMap_cons_none (by rw [Line.said?, ha]; rfl), ← ih, ← hrest]
      simp [Line.statement?, ha]
    | some a =>
      rw [List.filterMap_cons_some (by rw [Line.said?, ha]; rfl), List.mapM_cons]
      cases hb : binding? a.said with
      | none => simp [Line.statement?, ha, hb]
      | some entry =>
        simp only [Line.statement?, ha, hb, Option.map_some, Option.bind_some, hrest, ih]
        cases (ls.filterMap Line.said?).mapM binding? with
        | none => rfl
        | some entries => rfl

/-- **A document is read as what it says**, and refused if one of its words is no integer. -/
theorem statements?_text (d : Document) :
    statements? d.text = (d.assignments.mapM binding?).map Entries.statements := by
  rw [statements?, Document.text, String.toList_ofList, dropMark_joinLines, lineEnds?_joinLines]
  exact lines?_joinLines d.closed d.lines

/-! ## Tables -/

namespace Entries

/-- A key can be assigned once. -/
theorem assign?_single (value : Value) (key : String) (entries : Entries) :
    entries.assign? value [key] =
      if key ∈ entries.map Prod.fst then none else some (entries ++ [(key, value)]) := by
  rw [assign?]
  induction entries with
  | nil => rfl
  | cons entry entries ih =>
    obtain ⟨k, v⟩ := entry
    rw [alter?]
    by_cases hk : k = key
    · simp [hk]
    · rw [if_neg hk, ih]
      by_cases hmem : key ∈ entries.map Prod.fst
      · rw [if_pos hmem, if_pos (.tail _ hmem)]
        rfl
      · rw [if_neg hmem, if_neg (by simpa [Ne.symm hk] using hmem)]
        rfl

end Entries

/-- Assignments of single keys are carried out if no key is assigned twice, and only then. -/
theorem execute_statements_eq_ok_iff {entries new final : Entries}
    (h : (entries.map Prod.fst).Nodup) :
    execute [] entries new.statements = .ok final ↔
      ((entries ++ new).map Prod.fst).Nodup ∧ final = entries ++ new := by
  induction new generalizing entries with
  | nil => simpa [Entries.statements, execute, eq_comm] using fun _ => h
  | cons entry new ih =>
    obtain ⟨key, value⟩ := entry
    rw [Entries.statements, List.map_cons, execute, Entries.within?, Entries.assign?_single]
    by_cases hkey : key ∈ entries.map Prod.fst
    · rw [if_pos hkey]
      refine ⟨nofun, fun ⟨hnodup, _⟩ => ?_⟩
      rw [List.map_append, List.nodup_append] at hnodup
      exact absurd rfl (hnodup.2.2 key hkey key (.head _))
    · have hnext : ((entries ++ [(key, value)]).map Prod.fst).Nodup := by
        rw [List.map_append, List.nodup_append]
        refine ⟨h, by simp, ?_⟩
        intro k hk l hl hkl
        obtain rfl : l = key := List.mem_singleton.1 hl
        exact hkey (hkl ▸ hk)
      have happend : entries ++ (key, value) :: new = entries ++ [(key, value)] ++ new := by simp
      rw [if_neg hkey, happend]
      exact ih hnext

end FieldQuery.Toml
