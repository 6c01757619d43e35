import FieldQuery.Toml.Document
import FieldQuery.Proofs.Surface.Lexeme
import FieldQuery.Proofs.Toml.Layout

/-!
# Keys and values are read as what they say

Each part of a line is read by a reader of its own, which stops where the part ends; so each lemma
is about a part with any text behind it that cannot go on with it. Keys (`path?_text`) and texts
between double quotes (`basic?_basicBody`) are always read. A word can be refused, as it need not be
an integer (`value?_text`).
-/

namespace FieldQuery.Toml

open Text Grammar

/-! ## Classes -/

theorem Blanks.isBlank (b : Blanks) : ∀ c ∈ b.text, isBlank c = true := by
  intro c hc
  rcases b.blank c hc with rfl | rfl <;> rfl

theorem Printable.isTextChar {c : Char} (h : Printable c) : isTextChar c = true := by
  simpa [Toml.isTextChar, Printable] using h

/-- Characters that no word holds. -/
def delimiters : List Char :=
  [' ', '\t', '\n', '\r', '#', '"', '\x27', '[', ']', '{', '}', ',', '\ufeff']

theorem not_wordChar_of_mem_delimiters : ∀ c ∈ delimiters, ¬ WordChar c := by
  decide

theorem WordChar.ne {c : Char} (h : WordChar c) (d : Char) (hd : d ∈ delimiters := by decide) :
    c ≠ d := by
  rintro rfl
  exact not_wordChar_of_mem_delimiters c hd h

theorem WordChar.not_endsWord {c : Char} (h : WordChar c) : endsWord c = false := by
  simp [endsWord, Toml.isBlank, h.ne ' ', h.ne '\t', h.ne '\n', h.ne '#', h.ne ',', h.ne ']',
    h.ne '}']

theorem BareChar.isKeyChar {c : Char} (h : BareChar c) : isKeyChar c = true := by
  simpa [Toml.isKeyChar, BareChar, or_assoc] using h

/-- A run of a class is cut off in front of a text that cannot go on with it. -/
theorem cut_run {p : Char → Bool} {run rest : List Char} (hrun : ∀ c ∈ run, p c = true)
    (hrest : ∀ c ∈ rest.head?, p c = false) :
    (run ++ rest).takeWhile p = run ∧ (run ++ rest).dropWhile p = rest :=
  (run_iff fun _ => Iff.rfl).2 ⟨rfl, hrun, fun c hc => by simp [hrest c hc]⟩

theorem Blanks.dropWhile_append (b : Blanks) {s : List Char}
    (h : ∀ c ∈ s.head?, Toml.isBlank c = false) : (b.text ++ s).dropWhile Toml.isBlank = s :=
  (cut_run b.isBlank h).2

/-! ## Texts between double quotes -/

/-- A digit is read as its value. -/
theorem digit?_char (d : HexDigit) : digit? 16 d.char = some d.value := by
  obtain ⟨v, capital⟩ := d
  revert v capital
  decide

/-- A digit needs no backslash. -/
theorem HexDigit.char_ne (d : HexDigit) : d.char ≠ '\\' ∧ d.char ≠ '"' := by
  obtain ⟨v, capital⟩ := d
  revert v capital
  decide

/-- An item is a sequence of the items that are looked at for the closing quote. -/
theorem BasicItem.exists_quoteBody (item : BasicItem) :
    ∃ items : List QuoteItem, item.text = quoteBody items := by
  cases item with
  | plain c h => exact ⟨[.plain c ⟨h.2.2, h.2.1⟩], rfl⟩
  | letter mark c h => exact ⟨[.escaped mark], rfl⟩
  | code long digits c h =>
    refine ⟨.escaped (if long then 'U' else 'u') :: digits.map fun d => .plain d.char d.char_ne, ?_⟩
    rw [BasicItem.text, quoteBody, List.flatMap_cons, List.flatMap_map, List.map_eq_flatMap]
    rfl

theorem exists_quoteBody_basicBody (items : List BasicItem) :
    ∃ items' : List QuoteItem, basicBody items = quoteBody items' := by
  induction items with
  | nil => exact ⟨[], rfl⟩
  | cons item items ih =>
    obtain ⟨first, hfirst⟩ := item.exists_quoteBody
    obtain ⟨others, hothers⟩ := ih
    refine ⟨first ++ others, ?_⟩
    rw [basicBody, List.flatMap_cons, hfirst, ← basicBody, hothers, quoteBody, quoteBody, quoteBody,
      List.flatMap_append]

/-- The letter of an escape is read as its character. -/
theorem decode_letter {p : Char → Bool} {mark c : Char} (h : (mark, c) ∈ letters) (s : List Char) :
    decode p .backslash (mark :: s) = (decode p .plain s).map (c :: ·) := by
  simp only [letters, List.mem_cons, Prod.mk.injEq, List.not_mem_nil, or_false] at h
  rcases h with ⟨rfl, rfl⟩ | ⟨rfl, rfl⟩ | ⟨rfl, rfl⟩ | ⟨rfl, rfl⟩ | ⟨rfl, rfl⟩ | ⟨rfl, rfl⟩ |
    ⟨rfl, rfl⟩ <;> simp [decode, isBlank, escaped?]

/-- The last digits of a code are read as the character whose code they complete. -/
theorem decode_digits {p : Char → Bool} {digits : List HexDigit} {value : Nat} {c : Char}
    (hne : digits ≠ [])
    (hc : digits.foldl (fun n d => n * 16 + d.value.val) value = c.toNat) (s : List Char) :
    decode p (.code digits.length value) (digits.map HexDigit.char ++ s) =
      (decode p .plain s).map (c :: ·) := by
  induction digits generalizing value with
  | nil => exact absurd rfl hne
  | cons d digits ih =>
    rw [List.map_cons, List.cons_append, decode, digit?_char]
    cases digits with
    | nil =>
      rw [List.foldl_cons, List.foldl_nil] at hc
      have hvalid : c.toNat.isValidChar := c.valid
      have hcode : ofCode? (value * 16 + d.value.val) = some c := by
        rw [ofCode?, hc, if_pos hvalid, Char.ofNat_toNat]
      simp [hcode]
    | cons d' digits =>
      simpa using ih (by simp) hc

/-- An item is decoded as its character, whatever follows. -/
theorem decode_item (item : BasicItem) (s : List Char) :
    decode Toml.isTextChar .plain (item.text ++ s) =
      (decode Toml.isTextChar .plain s).map (item.char :: ·) := by
  cases item with
  | plain c h => simp [BasicItem.text, BasicItem.char, decode, h.1.isTextChar, h.2.2]
  | letter mark c h =>
    rw [BasicItem.text, List.cons_append, decode, if_pos rfl]
    exact decode_letter h s
  | code long digits c h =>
    have hne : digits ≠ [] := by
      rintro rfl
      cases long <;> cases h.1
    have hdigits := decode_digits (p := Toml.isTextChar) hne h.2 s
    rw [h.1] at hdigits
    cases long <;> simpa [BasicItem.text, BasicItem.char, decode] using hdigits

theorem decode_basicBody (items : List BasicItem) :
    decode Toml.isTextChar .plain (basicBody items) = some (items.map BasicItem.char) := by
  induction items with
  | nil => rfl
  | cons item items ih =>
    rw [basicBody, List.flatMap_cons, decode_item, ← basicBody, ih]
    rfl

/-- A text between double quotes is read as what its items stand for. -/
theorem basic?_basicBody (items : List BasicItem) (rest : List Char) :
    basic? (basicBody items ++ '"' :: rest) = some (basicValue items, rest) := by
  obtain ⟨items', hitems⟩ := exists_quoteBody_basicBody items
  have hclose : closeQuote (basicBody items ++ '"' :: rest) = some (basicBody items, rest) :=
    closeQuote_eq_some_iff.2 ⟨items', hitems, by rw [hitems]⟩
  rw [basic?, hclose]
  simp [decode_basicBody, basicValue]

/-! ## Keys -/

/-- A text between single quotes is read as it stands. -/
theorem literal?_text {name : List Char} (h : ∀ c ∈ name, Printable c ∧ c ≠ '\x27')
    (rest : List Char) : literal? (name ++ '\x27' :: rest) = some (.ofList name, rest) := by
  have hquote : ∀ c ∈ name, (c != '\x27') = true := fun c hc => by simpa using (h c hc).2
  have hstop : ∀ c ∈ ('\x27' :: rest).head?, (c != '\x27') = false := by simp
  obtain ⟨htake, hdrop⟩ := cut_run hquote hstop
  have hclose : closeLiteral '\x27' (name ++ '\x27' :: rest) = some (name, rest) := by
    rw [closeLiteral, hdrop, htake]
  have hchar : name.all isTextChar = true :=
    List.all_eq_true.2 fun c hc => (h c hc).1.isTextChar
  rw [literal?, hclose]
  exact if_pos hchar

/-- What may stand behind a key: nothing that a bare key could go on with. -/
theorem key?_text (k : WrittenKey) {rest : List Char} (h : ∀ c ∈ rest.head?, isKeyChar c = false) :
    key? (k.text ++ rest) = some (k.name, rest) := by
  cases k with
  | bare name hname =>
    cases name with
    | nil => exact absurd rfl hname.1
    | cons c name =>
      have hkey : ∀ d ∈ c :: name, isKeyChar d = true := fun d hd => (hname.2 d hd).isKeyChar
      have hc : WordChar c := .inl (hname.2 c (.head _))
      obtain ⟨htake, hdrop⟩ := cut_run hkey h
      rw [WrittenKey.text, List.cons_append, key?, if_neg (hc.ne '"'), if_neg (hc.ne '\x27'),
        if_pos (hkey c (.head _)), ← List.cons_append, htake, hdrop]
      rfl
  | basic items =>
    have := basic?_basicBody items rest
    simpa [WrittenKey.text, WrittenKey.name, key?] using this
  | literal name hname =>
    have := literal?_text hname rest
    simpa [WrittenKey.text, WrittenKey.name, key?] using this

/-- A key starts with a character that starts neither a header nor a line without a statement. -/
theorem WrittenKey.exists_cons (k : WrittenKey) :
    ∃ c s, k.text = c :: s ∧ isBlank c = false ∧ c ≠ '[' ∧ c ≠ '#' ∧ c ≠ '\n' ∧ c ≠ '\ufeff' := by
  cases k with
  | bare name hname =>
    cases name with
    | nil => exact absurd rfl hname.1
    | cons c name =>
      have hc : WordChar c := .inl (hname.2 c (.head _))
      have hblank : isBlank c = false := by simp [isBlank, hc.ne ' ', hc.ne '\t']
      exact ⟨c, name, rfl, hblank, hc.ne '[', hc.ne '#', hc.ne '\n', hc.ne '\ufeff'⟩
  | basic items => exact ⟨'"', _, rfl, by decide⟩
  | literal name _ => exact ⟨'\x27', _, rfl, by decide⟩

/-- A single key in front of an equals sign is read as a path of one key. -/
theorem path?_text (k : WrittenKey) (before : Blanks) (s : List Char) :
    path? (k.text ++ (before.text ++ '=' :: s)) = some ([k.name], '=' :: s) := by
  have hequals : ∀ c ∈ ('=' :: s).head?, isBlank c = false := by simp [isBlank]
  have hstop : ∀ c ∈ (before.text ++ '=' :: s).head?, isKeyChar c = false := by
    cases hb : before.text with
    | nil => simp [isKeyChar]
    | cons c b =>
      rcases before.blank c (hb ▸ .head _) with rfl | rfl <;> simp [isKeyChar]
  obtain ⟨c, t, hk, hblank, -⟩ := k.exists_cons
  have hkey : key? ((k.text ++ (before.text ++ '=' :: s)).dropWhile isBlank) =
      some (k.name, before.text ++ '=' :: s) := by
    rw [hk, List.cons_append, List.dropWhile_cons_of_neg (by simp [hblank]), ← List.cons_append,
      ← hk, key?_text k hstop]
  rw [path?]
  split
  · next h => rw [hkey] at h; cases h
  · next h =>
    rw [hkey] at h
    cases h
    split
    · next h => rw [before.dropWhile_append hequals] at h; cases h
    · next h =>
      rw [before.dropWhile_append hequals] at h
      cases h
      rfl

/-! ## Values -/

/-- The value that a scalar is read as, if it is a text or an integer. -/
def Scalar.value? : Scalar → Option Value
  | word w => (integer? w).map .integer
  | text s => some (.text s)

/-- A value starts with a character that starts neither an array nor a table. -/
theorem WrittenValue.exists_cons (v : WrittenValue) :
    ∃ c s, v.text = c :: s ∧ isBlank c = false ∧ c ≠ '[' ∧ c ≠ '{' := by
  cases v with
  | word w hw =>
    cases w with
    | nil => exact absurd rfl hw.1
    | cons c w =>
      have hc := hw.2 c (.head _)
      have hblank : isBlank c = false := by simp [isBlank, hc.ne ' ', hc.ne '\t']
      exact ⟨c, w, rfl, hblank, hc.ne '[', hc.ne '{'⟩
  | basic items => exact ⟨'"', _, rfl, by decide⟩

/-- A text between double quotes, with anything but a quote behind it, does not start with three
quotes. -/
theorem basicBody_append_ne (items : List BasicItem) {rest : List Char} (h : rest.head? ≠ some '"')
    (s : List Char) : basicBody items ++ '"' :: rest ≠ '"' :: '"' :: s := by
  obtain ⟨items', hitems⟩ := exists_quoteBody_basicBody items
  rw [hitems]
  intro he
  by_cases hne : items' = []
  · subst hne
    obtain rfl : rest = '"' :: s := (List.cons.inj he).2
    exact h rfl
  · exact head?_quoteBody_append hne (congrArg List.head? he)

/-- A text that goes on behind a value: with nothing, a blank, a comment or the end of the line. -/
def EndsValue (rest : List Char) : Prop :=
  ∀ c ∈ rest.head?, c ∈ [' ', '\t', '#', '\n']

/-- A value is read as what it says, unless it is a word and no integer. -/
theorem scalar?_text (v : WrittenValue) {rest : List Char} (h : EndsValue rest) :
    scalar? (v.text ++ rest) = v.scalar.value?.map fun value => (value, rest) := by
  cases v with
  | word w hw =>
    have hword : ∀ c ∈ w, (!endsWord c) = true := fun c hc => by simp [(hw.2 c hc).not_endsWord]
    have hends : ∀ c ∈ rest.head?, (!endsWord c) = false := by
      intro c hc
      have : ∀ c ∈ [' ', '\t', '#', '\n'], (!endsWord c) = false := by decide
      exact this c (h c hc)
    obtain ⟨htake, hdrop⟩ := cut_run hword hends
    cases w with
    | nil => exact absurd rfl hw.1
    | cons c w =>
      have hc := hw.2 c (.head _)
      rw [WrittenValue.text, scalar?.eq_def]
      dsimp only
      split
      · next he => exact absurd (List.cons.inj he).1 (hc.ne '"')
      · next he => exact absurd (List.cons.inj he).1 (hc.ne '"')
      · next he => exact absurd (List.cons.inj he).1 (hc.ne '\x27')
      · next he => exact absurd (List.cons.inj he).1 (hc.ne '\x27')
      · rw [htake, hdrop]
        cases hi : integer? (c :: w) with
        | none => simp [WrittenValue.scalar, Scalar.value?, hi]
        | some n => simp [WrittenValue.scalar, Scalar.value?, hi]
  | basic items =>
    have hrest : rest.head? ≠ some '"' := fun hq => absurd (h _ hq) (by decide)
    have hbasic := basic?_basicBody items rest
    rw [WrittenValue.text, List.cons_append, List.append_assoc, List.singleton_append,
      scalar?.eq_def]
    dsimp only
    split
    · next he => exact absurd (List.cons.inj he).2 (basicBody_append_ne items hrest _)
    · next he =>
      obtain rfl := (List.cons.inj he).2
      rw [hbasic]
      rfl
    · next he => exact absurd (List.cons.inj he).1 (by decide)
    · next he => exact absurd (List.cons.inj he).1 (by decide)
    · next hne _ _ => exact absurd rfl (hne _)

theorem value?_text (v : WrittenValue) {rest : List Char} (h : EndsValue rest) :
    value? (v.text ++ rest) = v.scalar.value?.map fun value => (value, rest) := by
  obtain ⟨c, s, hv, -, hbracket, hbrace⟩ := v.exists_cons
  rw [value?, readValue, scalar?_text v h]
  · intro t he
    rw [hv] at he
    exact hbracket (List.cons.inj he).1
  · intro t he
    rw [hv] at he
    exact hbrace (List.cons.inj he).1

end FieldQuery.Toml
