import FieldQuery.Toml.Integer

/-!
# Reading decimal numerals

The decimal numeral of a number is read as the number, unless it has more than 64 bits with a sign
(`integer?_toString`).
-/

namespace FieldQuery.Toml

/-- A decimal digit is read as its value. -/
theorem digit?_of_isDigit {c : Char} (h : c.isDigit = true) :
    digit? 10 c = some (c.toNat - '0'.toNat) := by
  have hc : 48 ≤ c.toNat ∧ c.toNat ≤ 57 := by
    simpa [Char.isDigit, UInt32.le_iff_toNat_le] using h
  have hlt : c.toNat - 48 < 10 := by omega
  simp [digit?, h, hlt]

/-- Decimal digits are read one by one. -/
theorem digits?_of_isDigit {s : List Char} (hne : s ≠ []) (h : ∀ c ∈ s, c.isDigit = true) :
    digits? 10 s = some (s.map fun c => c.toNat - '0'.toNat) := by
  fun_induction digits? 10 s with
  | case1 => exact absurd rfl hne
  | case2 c => simp [digit?_of_isDigit (h c (.head _))]
  | case3 c d s ih => exact absurd (h '_' (by simp)) (by decide)
  | case4 c d s hd ih =>
    rw [digit?_of_isDigit (h c (.head _)), ih (by simp) fun e he => h e (.tail _ he)]
    rfl

theorem isDigit_of_mem_toDigits {n : Nat} : ∀ c ∈ Nat.toDigits 10 n, c.isDigit = true :=
  fun _ hc => Nat.isDigit_of_mem_toDigits (by decide) (by decide) hc

/-- The digits of a number are read as the number. -/
theorem natural?_toDigits (n : Nat) : natural? 10 (Nat.toDigits 10 n) = some n := by
  have hvalue : ofDigits 10 ((Nat.toDigits 10 n).map fun c => c.toNat - '0'.toNat) = n := by
    have hn : Nat.ofDigitChars 10 (Nat.toDigits 10 n) 0 = n :=
      Nat.ofDigitChars_toDigits (by decide) (by decide)
    rw [Nat.ofDigitChars] at hn
    simpa only [ofDigits, List.foldl_map, Nat.mul_comm] using hn
  rw [natural?, digits?_of_isDigit Nat.toDigits_ne_nil isDigit_of_mem_toDigits, Option.map_some,
    hvalue]

/-- The numeral of a positive number does not start with a zero. -/
theorem head?_toDigits_ne {n : Nat} (hn : 0 < n) : (Nat.toDigits 10 n).head? ≠ some '0' := by
  induction n using Nat.strongRecOn with
  | ind n ih =>
    by_cases hlt : n < 10
    · have hdigit : ∀ n < 10, 0 < n → Nat.digitChar n ≠ '0' := by decide
      rw [Nat.toDigits_of_lt_base hlt]
      exact fun h => hdigit n hlt hn (Option.some.inj h)
    · have hhead := ih (n / 10) (by omega) (by omega)
      rw [Nat.toDigits_of_base_le (by decide) (by omega)]
      obtain ⟨c, s, hs⟩ := List.exists_cons_of_ne_nil (@Nat.toDigits_ne_nil (n / 10) 10)
      rw [hs] at hhead ⊢
      exact hhead

theorem decimal?_toDigits (n : Nat) : decimal? (Nat.toDigits 10 n) = some n := by
  have hzero : ¬ ((Nat.toDigits 10 n).head? = some '0' ∧ (Nat.toDigits 10 n).length ≠ 1) := by
    rintro ⟨hhead, hlength⟩
    rcases Nat.eq_zero_or_pos n with rfl | hn
    · exact hlength rfl
    · exact head?_toDigits_ne hn hhead
  rw [decimal?, if_neg hzero, natural?_toDigits]

/-- **A decimal numeral is read as its number** if the number has 64 bits with a sign, and refused
if it has more. -/
theorem integer?_toString (n : Nat) :
    integer? (toString n).toList = if n ≤ 9223372036854775807 then some (n : Int) else none := by
  have htext : (toString n).toList = Nat.toDigits 10 n := Nat.toList_repr
  have hdecimal := decimal?_toDigits n
  have hdigit := @isDigit_of_mem_toDigits n
  rw [htext]
  -- All forms but the last have a character that is no digit.
  unfold integer?
  dsimp only
  split
  · next h => exact absurd (hdigit '+' (by simp [h])) (by decide)
  · next h => exact absurd (hdigit '-' (by simp [h])) (by decide)
  · next h => exact absurd (hdigit 'x' (by simp [h])) (by decide)
  · next h => exact absurd (hdigit 'o' (by simp [h])) (by decide)
  · next h => exact absurd (hdigit 'b' (by simp [h])) (by decide)
  · have hfits : fits n = true ↔ n ≤ 9223372036854775807 := by
      simp only [fits, Bool.and_eq_true, decide_eq_true_eq]
      omega
    rw [hdecimal]
    show Option.filter fits (some (n : Int)) = _
    simp only [Option.filter_some, hfits]

end FieldQuery.Toml
