import NamedSchemas.Number.Binary64
import NamedSchemas.Text.Decimal
/-!
# Numerals read back

The digits that are written of a number denote it again, whatever the padding, and a positive number
is written without a zero in front.
-/

namespace NamedSchemas.Numeral

theorem digitValue?_digitChar : ∀ d, d < 36 → digitValue? (digitChar d) = some d := by decide

theorem isDecimal_digitChar : ∀ d, d < 10 → isDecimal (digitChar d) = true := by decide

theorem isHex_digitChar : ∀ d, d < 16 → isHex (digitChar d) = true := by decide

theorem digitChar_ne_zero : ∀ d, d < 36 → 0 < d → digitChar d ≠ '0' := by decide

/-- Reading goes on from `n` where the digits of `n` end. -/
theorem foldl_digitsOnto {base : Nat} (hbase : 2 ≤ base) (hdigits : base ≤ 36) (fuel n : Nat)
    (rest : List Char) (hn : n < base ^ fuel) :
    (digitsOnto base fuel n rest).foldl (fun n c => n * base + (digitValue? c).getD 0) 0 =
      rest.foldl (fun n c => n * base + (digitValue? c).getD 0) n := by
  induction fuel generalizing n rest with
  | zero =>
    have hzero : n = 0 := by simpa using hn
    rw [hzero, digitsOnto]
  | succ fuel ih =>
    have hmod : n % base < base := Nat.mod_lt _ (by omega)
    have hdigit := digitValue?_digitChar (n % base) (by omega)
    rw [digitsOnto]
    by_cases hdiv : n / base = 0
    · have hsmall : n % base = n := by
        have := Nat.div_add_mod n base
        rw [hdiv] at this
        omega
      rw [hsmall] at hdigit
      simp only [hdiv, if_true, List.foldl_cons, hsmall, hdigit, Option.getD_some, Nat.zero_mul,
        Nat.zero_add]
    · have hlt : n / base < base ^ fuel := by
        rw [Nat.div_lt_iff_lt_mul (by omega), ← Nat.pow_succ]
        exact hn
      have hsum : n / base * base + n % base = n := by
        rw [Nat.mul_comm]
        exact Nat.div_add_mod n base
      simp only [hdiv, if_false, ih _ _ hlt, List.foldl_cons, hdigit, Option.getD_some, hsum]

private theorem lt_pow_log2 {base : Nat} (hbase : 2 ≤ base) (n : Nat) :
    n < base ^ (n.log2 + 1) :=
  Nat.lt_of_lt_of_le Nat.lt_log2_self (Nat.pow_le_pow_left hbase _)

theorem value_digits {base : Nat} (hbase : 2 ≤ base) (hdigits : base ≤ 36) (n : Nat) :
    value base (digits base n) = n :=
  foldl_digitsOnto hbase hdigits _ n [] (lt_pow_log2 hbase n)

theorem mem_digitsOnto {base : Nat} (hbase : 0 < base) {fuel n : Nat} {rest : List Char} {c : Char}
    (hc : c ∈ digitsOnto base fuel n rest) : c ∈ rest ∨ ∃ d, d < base ∧ c = digitChar d := by
  induction fuel generalizing n rest with
  | zero => exact Or.inl hc
  | succ fuel ih =>
    have hmod : n % base < base := Nat.mod_lt _ hbase
    rw [digitsOnto] at hc
    have hcons : c ∈ digitChar (n % base) :: rest ∨ ∃ d, d < base ∧ c = digitChar d := by
      by_cases hdiv : n / base = 0
      · exact Or.inl (by simpa only [hdiv, if_true] using hc)
      · exact ih (by simpa only [hdiv, if_false] using hc)
    rcases hcons with hcons | hdigit
    · rcases List.mem_cons.1 hcons with rfl | hrest
      · exact Or.inr ⟨_, hmod, rfl⟩
      · exact Or.inl hrest
    · exact Or.inr hdigit

theorem exists_digit_of_mem {base n : Nat} (hbase : 0 < base) {c : Char} (hc : c ∈ digits base n) :
    ∃ d, d < base ∧ c = digitChar d := by
  rcases mem_digitsOnto hbase hc with h | h
  · exact absurd h (List.not_mem_nil)
  · exact h

/-- A positive number is written with a positive digit in front. -/
theorem digitsOnto_head {base : Nat} (hbase : 2 ≤ base) (fuel n : Nat) (rest : List Char)
    (hpos : 0 < n) (hn : n < base ^ fuel) :
    ∃ d ds, 0 < d ∧ d < base ∧ digitsOnto base fuel n rest = digitChar d :: ds := by
  induction fuel generalizing n rest with
  | zero =>
    have hone : n < 1 := by simpa using hn
    omega
  | succ fuel ih =>
    rw [digitsOnto]
    by_cases hdiv : n / base = 0
    · have hsmall := Nat.div_add_mod n base
      rw [hdiv] at hsmall
      exact ⟨n % base, rest, by omega, Nat.mod_lt _ (by omega), by simp only [hdiv, if_true]⟩
    · have hlt : n / base < base ^ fuel := by
        rw [Nat.div_lt_iff_lt_mul (by omega), ← Nat.pow_succ]
        exact hn
      obtain ⟨d, ds, hd, hlast, heq⟩ :=
        ih (n / base) (digitChar (n % base) :: rest) (Nat.pos_of_ne_zero hdiv) hlt
      exact ⟨d, ds, hd, hlast, by simp only [hdiv, if_false, heq]⟩

theorem digits_head {base n : Nat} (hbase : 2 ≤ base) (hpos : 0 < n) :
    ∃ d ds, 0 < d ∧ d < base ∧ digits base n = digitChar d :: ds :=
  digitsOnto_head hbase _ n [] hpos (lt_pow_log2 hbase n)

theorem length_digitsOnto_le {base : Nat} (hbase : 2 ≤ base) (fuel n k : Nat) (rest : List Char)
    (hk : 0 < k) (hn : n < base ^ k) :
    (digitsOnto base fuel n rest).length ≤ rest.length + k := by
  induction fuel generalizing n k rest with
  | zero => simp [digitsOnto]
  | succ fuel ih =>
    rw [digitsOnto]
    by_cases hdiv : n / base = 0
    · simp only [hdiv, if_true, List.length_cons]
      omega
    · have hkone : 1 < k := by
        refine Nat.lt_of_le_of_ne hk fun hone => hdiv ?_
        rw [← hone, Nat.pow_one] at hn
        exact Nat.div_eq_of_lt hn
      have hlt : n / base < base ^ (k - 1) := by
        rw [Nat.div_lt_iff_lt_mul (by omega), ← Nat.pow_succ, Nat.succ_eq_add_one,
          Nat.sub_add_cancel hk]
        exact hn
      have hlength := ih (n / base) (k - 1) (digitChar (n % base) :: rest) (by omega) hlt
      simp only [hdiv, if_false]
      rw [List.length_cons] at hlength
      omega

theorem length_digits_le {base n k : Nat} (hbase : 2 ≤ base) (hk : 0 < k) (hn : n < base ^ k) :
    (digits base n).length ≤ k := by
  simpa [digits] using length_digitsOnto_le hbase (n.log2 + 1) n k [] hk hn

theorem digits_ne_nil {base : Nat} (hbase : 2 ≤ base) (n : Nat) : digits base n ≠ [] := by
  rcases Nat.eq_zero_or_pos n with rfl | hpos
  · simp [digits, digitsOnto]
  · obtain ⟨d, ds, -, -, heq⟩ := digits_head hbase hpos
    simp [heq]

/-! ### Decimal -/

theorem natural_zero : natural 0 = ['0'] := rfl

theorem isDecimal_of_mem_natural {n : Nat} {c : Char} (hc : c ∈ natural n) : isDecimal c = true := by
  obtain ⟨d, hd, rfl⟩ := exists_digit_of_mem (by decide) hc
  exact isDecimal_digitChar d hd

theorem value_natural (n : Nat) : value 10 (natural n) = n :=
  value_digits (by decide) (by decide) n

/-! ### Values of digit lists -/

private theorem foldl_digits (base n : Nat) (ds : List Char) :
    ds.foldl (fun n c => n * base + (digitValue? c).getD 0) n =
      n * base ^ ds.length + value base ds := by
  induction ds generalizing n with
  | nil => simp [value]
  | cons d ds ih =>
    have hcons : value base (d :: ds) = (digitValue? d).getD 0 * base ^ ds.length + value base ds := by
      rw [value, List.foldl_cons, ih, Nat.zero_mul, Nat.zero_add]
    rw [List.foldl_cons, ih, hcons, List.length_cons, Nat.pow_succ', Nat.add_mul, Nat.mul_assoc,
      Nat.add_assoc]

theorem value_append (base : Nat) (ds es : List Char) :
    value base (ds ++ es) = value base ds * base ^ es.length + value base es := by
  rw [value, List.foldl_append, foldl_digits]
  rfl

theorem value_replicate_zero (base k : Nat) : value base (List.replicate k '0') = 0 := by
  induction k with
  | zero => rfl
  | succ k ih =>
    rw [List.replicate_succ, ← List.singleton_append, value_append, ih]
    simp [value, show digitValue? '0' = some 0 from rfl]

theorem value_zeros_append (base k : Nat) (ds : List Char) :
    value base (List.replicate k '0' ++ ds) = value base ds := by
  rw [value_append, value_replicate_zero, Nat.zero_mul, Nat.zero_add]

theorem value_append_zeros (base k : Nat) (ds : List Char) :
    value base (ds ++ List.replicate k '0') = value base ds * base ^ k := by
  rw [value_append, value_replicate_zero, List.length_replicate, Nat.add_zero]

theorem value_padded {base : Nat} (hbase : 2 ≤ base) (hdigits : base ≤ 36) (width n : Nat) :
    value base (padded base width n) = n := by
  rw [padded, value_zeros_append, value_digits hbase hdigits]

theorem exists_digit_of_mem_padded {base width n : Nat} (hbase : 0 < base) {c : Char}
    (hc : c ∈ padded base width n) : ∃ d, d < base ∧ c = digitChar d := by
  rcases List.mem_append.1 hc with hzero | hdigit
  · exact ⟨0, hbase, (List.mem_replicate.1 hzero).2⟩
  · exact exists_digit_of_mem hbase hdigit

theorem length_padded {base width n : Nat} (hbase : 2 ≤ base) (hwidth : 0 < width)
    (hn : n < base ^ width) : (padded base width n).length = width := by
  have hle := length_digits_le hbase hwidth hn
  simp only [padded, List.length_append, List.length_replicate]
  omega

end NamedSchemas.Numeral
