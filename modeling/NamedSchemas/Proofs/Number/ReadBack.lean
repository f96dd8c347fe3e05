import NamedSchemas.Number.Shortest
import NamedSchemas.Proofs.Text.Numeral
/-!
# Decimals that denote a binary number

A decimal denotes the rank nearest to it. Equal quotients have the same nearest rank, so what a
decimal denotes does not change when digits are moved into its exponent. The shortest decimal of a
rank denotes that rank, and so does every other form of it.
-/

namespace NamedSchemas.Binary64

/-! ### Ranks and their magnitudes -/

theorem units_lt_units_succ (rank : Nat) : units rank < units (rank + 1) := by
  by_cases hnext : rank + 1 < 2 ^ 52
  · have hrank : rank < 2 ^ 52 := by omega
    simp only [units, hnext, hrank, if_true, Nat.lt_succ_self]
  · by_cases hrank : rank < 2 ^ 52
    · have hedge : rank + 1 = 2 ^ 52 := by omega
      have hleast : units (2 ^ 52) = 2 ^ 52 := by decide +kernel
      rw [hedge, hleast, units, if_pos hrank]
      exact hrank
    · simp only [units, hrank, hnext, if_false]
      by_cases hcarry : rank % 2 ^ 52 + 1 < 2 ^ 52
      · have hmod : (rank + 1) % 2 ^ 52 = rank % 2 ^ 52 + 1 := by omega
        have hdiv : (rank + 1) / 2 ^ 52 = rank / 2 ^ 52 := by omega
        rw [hmod, hdiv]
        exact Nat.mul_lt_mul_of_pos_right (by omega) (Nat.two_pow_pos _)
      · have hmod : (rank + 1) % 2 ^ 52 = 0 := by omega
        have hdiv : (rank + 1) / 2 ^ 52 - 1 = (rank / 2 ^ 52 - 1) + 1 := by omega
        have hdouble : ∀ k, (2 ^ 52 + 0) * 2 ^ (k + 1) = 2 ^ 53 * 2 ^ k := fun k => by
          rw [Nat.pow_succ]
          omega
        rw [hmod, hdiv, hdouble]
        exact Nat.mul_lt_mul_of_pos_right (by omega) (Nat.two_pow_pos _)

private theorem log2_scaled {m : Nat} (hleast : 2 ^ 52 ≤ m) (hlast : m < 2 ^ 53) (k : Nat) :
    (m * 2 ^ k).log2 = 52 + k := by
  have hpos : m * 2 ^ k ≠ 0 := Nat.mul_ne_zero (by omega) (Nat.ne_of_gt (Nat.two_pow_pos k))
  rw [Nat.log2_eq_iff hpos]
  constructor
  · rw [Nat.pow_add]
    exact Nat.mul_le_mul_right _ hleast
  · rw [show 52 + k + 1 = 53 + k by omega, Nat.pow_add]
    exact Nat.mul_lt_mul_of_pos_right hlast (Nat.two_pow_pos k)

theorem rankBelow_units (rank : Nat) : rankBelow (units rank) = rank := by
  by_cases hrank : rank < 2 ^ 52
  · have hsmall : rank < 2 ^ 53 := by omega
    simp only [units, rankBelow, hrank, hsmall, if_true]
  · have hquotient : 1 ≤ rank / 2 ^ 52 := by omega
    have hfraction : rank % 2 ^ 52 < 2 ^ 52 := Nat.mod_lt _ (by decide)
    by_cases hone : rank / 2 ^ 52 = 1
    · have hunits : (2 ^ 52 + rank % 2 ^ 52) * 2 ^ (rank / 2 ^ 52 - 1) = rank := by
        rw [hone, Nat.sub_self, Nat.pow_zero]
        omega
      have hsmall : rank < 2 ^ 53 := by omega
      simp only [units, rankBelow, hrank, if_false, hunits, hsmall, if_true]
    · have hpow : 2 ≤ 2 ^ (rank / 2 ^ 52 - 1) := by
        calc 2 = 2 ^ 1 := rfl
          _ ≤ 2 ^ (rank / 2 ^ 52 - 1) := Nat.pow_le_pow_right (by decide) (by omega)
      have hlarge : ¬ (2 ^ 52 + rank % 2 ^ 52) * 2 ^ (rank / 2 ^ 52 - 1) < 2 ^ 53 := by
        have := Nat.mul_le_mul (Nat.le_add_right (2 ^ 52) (rank % 2 ^ 52)) hpow
        omega
      have hlog := log2_scaled (Nat.le_add_right (2 ^ 52) (rank % 2 ^ 52)) (by omega)
        (rank / 2 ^ 52 - 1)
      have hexponent : 52 + (rank / 2 ^ 52 - 1) - 52 = rank / 2 ^ 52 - 1 := by omega
      simp only [units, rankBelow, hrank, if_false, hlarge, hlog, hexponent,
        Nat.mul_div_cancel _ (Nat.two_pow_pos _)]
      omega

theorem finiteRanks_le_rankBelow {n k : Nat} (hk : 2098 ≤ k) (hn : 2 ^ k ≤ n) :
    finiteRanks ≤ rankBelow n := by
  have hne : n ≠ 0 := by
    rintro rfl
    exact absurd hn (Nat.not_le_of_lt (Nat.two_pow_pos _))
  have hlog : k ≤ n.log2 := (Nat.le_log2 hne).2 hn
  have hsmall : ¬ n < 2 ^ 53 := by
    have := (Nat.le_log2 hne).1 (show 53 ≤ n.log2 by omega)
    omega
  have hquotient : 2 ^ 52 ≤ n / 2 ^ (n.log2 - 52) := by
    rw [Nat.le_div_iff_mul_le (Nat.two_pow_pos _), ← Nat.pow_add,
      show 52 + (n.log2 - 52) = n.log2 by omega]
    exact Nat.log2_self_le hne
  simp only [rankBelow, hsmall, if_false, finiteRanks]
  omega

/-! ### The nearest rank -/

theorem rankBelow_le_nearestRank (num den : Nat) : rankBelow (num / den) ≤ nearestRank num den := by
  simp only [nearestRank]
  split
  · exact Nat.le_refl _
  · split <;> omega

/-- The nearest rank depends on the quotient alone. -/
theorem nearestRank_congr {num den num' den' : Nat} (hden : 0 < den) (hden' : 0 < den')
    (h : num * den' = num' * den) : nearestRank num den = nearestRank num' den' := by
  have hfloor : num / den = num' / den' := by
    rw [← Nat.mul_div_mul_right num den hden', h, Nat.mul_comm den den',
      Nat.mul_div_mul_right num' den' hden]
  have hbelow : ∀ middle, 2 * num < middle * den ↔ 2 * num' < middle * den' := by
    intro middle
    rw [← Nat.mul_lt_mul_right hden', Nat.mul_assoc 2, h, Nat.mul_right_comm, ← Nat.mul_assoc,
      Nat.mul_lt_mul_right hden]
  have habove : ∀ middle, middle * den < 2 * num ↔ middle * den' < 2 * num' := by
    intro middle
    rw [← Nat.mul_lt_mul_right hden', Nat.mul_assoc 2, h, Nat.mul_right_comm, ← Nat.mul_assoc,
      Nat.mul_lt_mul_right hden]
  simp only [nearestRank, hfloor, hbelow, habove]

theorem nearestRank_units_mul (rank : Nat) {den : Nat} (hden : 0 < den) :
    nearestRank (units rank * den) den = rank := by
  have hfloor : rankBelow (units rank * den / den) = rank := by
    rw [Nat.mul_div_cancel _ hden, rankBelow_units]
  have hbelow : 2 * (units rank * den) < (units rank + units (rank + 1)) * den := by
    rw [← Nat.mul_assoc]
    have := units_lt_units_succ rank
    exact Nat.mul_lt_mul_of_pos_right (by omega) hden
  simp only [nearestRank, hfloor, hbelow, if_true]

theorem nearestRank_eq_zero {num den : Nat} (h : 2 * num < den) : nearestRank num den = 0 := by
  have hfloor : num / den = 0 := Nat.div_eq_of_lt (by omega)
  have hbelow : 2 * num < (units 0 + units 1) * den := by
    have : (units 0 + units 1) * den = den := by simp [units]
    omega
  have hzero : rankBelow 0 = 0 := rfl
  simp only [nearestRank, hfloor, hzero, Nat.zero_add, hbelow, if_true]

/-! ### What a decimal denotes -/

/-- The rank nearest to the decimal is the given one. -/
def Decimal.Denotes (d : Decimal) (rank : Nat) : Prop :=
  nearestRank (d.digits * 10 ^ d.exponent.toNat * unitsPerOne) (10 ^ (-d.exponent).toNat) = rank

/-- Zeros may be moved from the exponent into the digits. -/
theorem Decimal.denotes_shift {n : Nat} {e : Int} {rank : Nat} (k : Nat) :
    Decimal.Denotes ⟨n * 10 ^ k, e - k⟩ rank ↔ Decimal.Denotes ⟨n, e⟩ rank := by
  have hexponents : k + (e - k).toNat + (-e).toNat = e.toNat + (-(e - k)).toNat := by omega
  have hpowers : 10 ^ k * 10 ^ (e - k).toNat * 10 ^ (-e).toNat =
      10 ^ e.toNat * 10 ^ (-(e - k)).toNat := by
    rw [← Nat.pow_add, ← Nat.pow_add, ← Nat.pow_add, hexponents]
  have hcross : n * 10 ^ k * 10 ^ (e - k).toNat * unitsPerOne * 10 ^ (-e).toNat =
      n * 10 ^ e.toNat * unitsPerOne * 10 ^ (-(e - k)).toNat := by
    rw [Nat.mul_right_comm _ unitsPerOne, Nat.mul_right_comm _ unitsPerOne, Nat.mul_assoc n,
      Nat.mul_assoc n, hpowers, ← Nat.mul_assoc n]
  have hsame := nearestRank_congr (Nat.pow_pos (by decide)) (Nat.pow_pos (by decide)) hcross
  simp only [Decimal.Denotes, hsame]

theorem exactDecimal_denotes (rank : Nat) : (exactDecimal rank).Denotes rank := by
  have hscaled : ∀ k, nearestRank (units rank * 5 ^ k * 2 ^ k) (10 ^ k) = rank := fun k => by
    rw [Nat.mul_assoc, ← Nat.mul_pow]
    exact nearestRank_units_mul rank (Nat.pow_pos (by decide))
  have hunit : (10 : Nat) ^ (-1074 : Int).toNat = 1 := rfl
  have hpower : (-(-1074 : Int)).toNat = 1074 := rfl
  simpa only [Decimal.Denotes, exactDecimal, hunit, hpower, Nat.mul_one, unitsPerOne] using
    hscaled 1074

/-! ### Reading a decimal

Large and small exponents are settled before anything is computed. That agrees with what the decimal
denotes, since a settled decimal is beyond the finite ranks or next to zero. -/

/-- The exponent is kept apart, so that the power is not computed. -/
private theorem unitsPerOne_eq : ∃ k, unitsPerOne = 2 ^ k ∧ k = 1074 := by
  simp only [unitsPerOne]
  exact ⟨_, Eq.refl _, rfl⟩

private theorem two_pow_le_ten_pow {j k : Nat} (hk : k ≤ 3 * j) : 2 ^ k ≤ 10 ^ j := by
  calc 2 ^ k ≤ 2 ^ (3 * j) := Nat.pow_le_pow_right (by decide) hk
    _ = (2 ^ 3) ^ j := Nat.pow_mul ..
    _ ≤ 10 ^ j := Nat.pow_le_pow_left (by decide) _

private theorem ten_pow_log2_le {digits : Nat} (hdigits : digits ≠ 0) :
    10 ^ (digits.log2 / 4) ≤ digits := by
  calc 10 ^ (digits.log2 / 4) ≤ (2 ^ 4) ^ (digits.log2 / 4) := Nat.pow_le_pow_left (by decide) _
    _ = 2 ^ (4 * (digits.log2 / 4)) := (Nat.pow_mul ..).symm
    _ ≤ 2 ^ digits.log2 := Nat.pow_le_pow_right (by decide) (by omega)
    _ ≤ digits := Nat.log2_self_le hdigits

theorem finiteRanks_le_of_large {digits e : Nat} (hdigits : digits ≠ 0)
    (hlarge : 400 < digits.log2 / 4 + e) :
    finiteRanks ≤ nearestRank (digits * 10 ^ e * unitsPerOne) 1 := by
  have hvalue : 2 ^ (3 * (digits.log2 / 4 + e)) ≤ digits * 10 ^ e := by
    calc 2 ^ (3 * (digits.log2 / 4 + e)) ≤ 10 ^ (digits.log2 / 4 + e) :=
          two_pow_le_ten_pow (Nat.le_refl _)
      _ = 10 ^ (digits.log2 / 4) * 10 ^ e := Nat.pow_add ..
      _ ≤ digits * 10 ^ e := Nat.mul_le_mul_right _ (ten_pow_log2_le hdigits)
  have hscaled : ∀ k, 2 ^ (3 * (digits.log2 / 4 + e) + k) ≤ digits * 10 ^ e * 2 ^ k := fun k => by
    rw [Nat.pow_add]
    exact Nat.mul_le_mul_right _ hvalue
  refine Nat.le_trans ?_ (rankBelow_le_nearestRank _ _)
  obtain ⟨k, hunits, hk⟩ := unitsPerOne_eq
  rw [Nat.div_one, hunits]
  exact finiteRanks_le_rankBelow (by omega) (hscaled k)

theorem nearestRank_eq_zero_of_small {digits e : Nat} (hsmall : digits.log2 + 401 < e) :
    nearestRank (digits * unitsPerOne) (10 ^ e) = 0 := by
  have hdigits : digits < 10 ^ (digits.log2 + 1) :=
    Nat.lt_of_lt_of_le Nat.lt_log2_self (Nat.pow_le_pow_left (by decide) _)
  have hscaled : ∀ k, k < 3 * (e - (digits.log2 + 1)) → 2 * (digits * 2 ^ k) < 10 ^ e := by
    intro k hk
    calc 2 * (digits * 2 ^ k) = digits * 2 ^ (k + 1) := by rw [Nat.pow_succ]; ac_rfl
      _ < 10 ^ (digits.log2 + 1) * 2 ^ (k + 1) :=
        Nat.mul_lt_mul_of_pos_right hdigits (Nat.two_pow_pos _)
      _ ≤ 10 ^ (digits.log2 + 1) * 10 ^ (e - (digits.log2 + 1)) :=
        Nat.mul_le_mul_left _ (two_pow_le_ten_pow hk)
      _ = 10 ^ (digits.log2 + 1 + (e - (digits.log2 + 1))) := (Nat.pow_add ..).symm
      _ = 10 ^ e := by rw [Nat.add_sub_cancel' (by omega)]
  obtain ⟨k, hunits, hk⟩ := unitsPerOne_eq
  rw [hunits]
  exact nearestRank_eq_zero (hscaled k (by omega))

theorem Decimal.digits_ne_zero_of_denotes {d : Decimal} {rank : Nat} (h : d.Denotes rank)
    (hpos : 0 < rank) : d.digits ≠ 0 := by
  intro hzero
  have hsmall : 2 * (d.digits * 10 ^ d.exponent.toNat * unitsPerOne) <
      10 ^ (-d.exponent).toNat := by
    simp only [hzero, Nat.zero_mul, Nat.mul_zero]
    exact Nat.pow_pos (by decide)
  have hrank := nearestRank_eq_zero hsmall
  rw [h] at hrank
  omega

theorem ofDecimal_of_denotes {digits : Nat} {e : Int} {rank : Nat} (negative : Bool)
    (h : Decimal.Denotes ⟨digits, e⟩ rank) (hpos : 0 < rank) (hrank : rank < finiteRanks) :
    ofDecimal negative digits e = .finite negative ⟨rank, hrank⟩ := by
  have hdigits : digits ≠ 0 := Decimal.digits_ne_zero_of_denotes h hpos
  simp only [Decimal.Denotes] at h
  have hofRank : ofRank negative rank = .finite negative ⟨rank, hrank⟩ := dif_pos hrank
  simp only [ofDecimal, hdigits, if_false]
  by_cases hexponent : 0 ≤ e
  · have hden : (-e).toNat = 0 := by omega
    rw [hden, Nat.pow_zero] at h
    have hmagnitude : ¬ 400 < (digits.log2 : Int) / 4 + e := by
      intro hlarge
      have := finiteRanks_le_of_large (e := e.toNat) hdigits (by omega)
      omega
    simp only [hexponent, if_true, hmagnitude, if_false, ofQuotient, h, hofRank]
  · have hnum : e.toNat = 0 := by omega
    rw [hnum, Nat.pow_zero, Nat.mul_one] at h
    have hmagnitude : ¬ (digits.log2 : Int) + 1 + e < -400 := by
      intro hsmall
      have hlarge : digits.log2 + 401 < (-e).toNat := by omega
      have := nearestRank_eq_zero_of_small hlarge
      omega
    simp only [hexponent, hmagnitude, if_false, ofQuotient, h, hofRank]

private theorem val_of_ofRank {negative sign : Bool} {n : Nat} {r : Fin finiteRanks}
    (h : ofRank negative n = .finite sign r) : r.val = n := by
  unfold ofRank at h
  split at h
  · rw [← (Binary64.finite.inj h).2]
  · exact nomatch h

theorem Decimal.denotes_of_readsAs {d : Decimal} {rank : Nat} (hpos : 0 < rank)
    (h : d.readsAs rank = true) : d.Denotes rank := by
  obtain ⟨digits, e⟩ := d
  obtain ⟨sign, r, hread, hr⟩ : ∃ sign r, ofDecimal false digits e = .finite sign r ∧
      r.val = rank := by
    unfold Decimal.readsAs at h
    split at h
    · next sign r hread => exact ⟨sign, r, hread, by simpa using h⟩
    · exact nomatch h
  simp only [Decimal.Denotes, ← hr]
  simp only [ofDecimal] at hread
  split at hread
  · have := val_of_ofRank hread
    omega
  · split at hread
    · split at hread
      · exact nomatch hread
      · have hden : (-e).toNat = 0 := by omega
        rw [hden, Nat.pow_zero]
        exact (val_of_ofRank hread).symm
    · split at hread
      · have := val_of_ofRank hread
        omega
      · have hnum : e.toNat = 0 := by omega
        rw [hnum, Nat.pow_zero, Nat.mul_one]
        exact (val_of_ofRank hread).symm

theorem readsAs_of_nearestOn {e : Int} {rank : Nat} {d : Decimal}
    (h : nearestOn e rank = some d) : d.readsAs rank = true := by
  simp only [nearestOn] at h
  exact List.find?_some (p := fun d : Decimal => d.readsAs rank) h

theorem shortestDecimal_denotes {rank : Nat} (hpos : 0 < rank) :
    (shortestDecimal rank).Denotes rank := by
  unfold shortestDecimal
  cases hfound : (List.range 17).findSome? fun (n : Nat) =>
      nearestOn (decimalScale rank - (n + 1)) rank with
  | none =>
    simp only [hfound, Option.getD_none]
    exact exactDecimal_denotes rank
  | some d =>
    obtain ⟨n, -, hn⟩ := List.exists_of_findSome?_eq_some hfound
    simp only [hfound, Option.getD_some]
    exact Decimal.denotes_of_readsAs hpos (readsAs_of_nearestOn hn)

/-! ### Significant digits -/

/-- Digits without a zero in front. -/
def HasLead (ds : List Char) : Prop :=
  (∀ c ∈ ds, Numeral.isDecimal c = true) ∧ ∃ d rest, d ≠ '0' ∧ ds = d :: rest

theorem hasLead_natural {n : Nat} (hpos : 0 < n) : HasLead (Numeral.natural n) := by
  obtain ⟨d, ds, hd, hlast, heq⟩ := Numeral.digits_head (show 2 ≤ 10 by decide) hpos
  exact ⟨fun c hc => Numeral.isDecimal_of_mem_natural hc,
    Numeral.digitChar d, ds, Numeral.digitChar_ne_zero d (by omega) hd, heq⟩

/-- What is stripped from the end of a list of digits are zeros. -/
theorem exists_stripped (ds : List Char) :
    ∃ k, ds = (ds.reverse.dropWhile (· == '0')).reverse ++ List.replicate k '0' := by
  refine ⟨(ds.reverse.takeWhile (· == '0')).length, ?_⟩
  have hzeros : ds.reverse.takeWhile (· == '0') =
      List.replicate (ds.reverse.takeWhile (· == '0')).length '0' := by
    refine List.eq_replicate_iff.2 ⟨rfl, fun c hc => ?_⟩
    simpa using List.all_eq_true.1 List.all_takeWhile c hc
  have hsplit := congrArg List.reverse
    (List.takeWhile_append_dropWhile (p := (· == '0')) (l := ds.reverse))
  rw [List.reverse_append, List.reverse_reverse, hzeros, List.reverse_replicate] at hsplit
  exact hsplit.symm

/-- The significant digits of a decimal denote the same rank, and start with a positive one. -/
theorem Decimal.significant_denotes {d : Decimal} {rank : Nat} (h : d.Denotes rank)
    (hpos : 0 < rank) : HasLead d.significant.1 ∧
      Decimal.Denotes ⟨Numeral.value 10 d.significant.1,
        d.significant.2 - d.significant.1.length⟩ rank := by
  obtain ⟨k, hk⟩ := exists_stripped (Numeral.natural d.digits)
  have hlead := hasLead_natural (Nat.pos_of_ne_zero (digits_ne_zero_of_denotes h hpos))
  have hvalue := Numeral.value_natural d.digits
  simp only [Decimal.significant]
  generalize hds : ((Numeral.natural d.digits).reverse.dropWhile (· == '0')).reverse = ds at hk ⊢
  constructor
  · obtain ⟨hall, c, rest, hc, hcons⟩ := hlead
    refine ⟨fun c hc => hall c (hk ▸ List.mem_append_left _ hc), ?_⟩
    cases ds with
    | nil =>
      rw [List.nil_append, hcons] at hk
      exact absurd (List.eq_replicate_iff.1 hk).2 (fun hzero => hc (hzero c (by simp)))
    | cons first ds =>
      rw [hcons, List.cons_append] at hk
      exact ⟨first, ds, (List.cons.inj hk).1 ▸ hc, rfl⟩
  · rw [hk, Numeral.value_append_zeros] at hvalue
    have hlength : ((Numeral.natural d.digits).length : Int) = ds.length + k := by
      rw [hk]
      simp
    rw [← Decimal.denotes_shift k, hvalue, hlength,
      show (ds.length + k + d.exponent - ds.length - k : Int) = d.exponent by omega]
    exact h

end NamedSchemas.Binary64
