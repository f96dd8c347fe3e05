import NamedSchemas.Json.Reader
import NamedSchemas.Json.Writer
import NamedSchemas.Proofs.Number.ReadBack
import NamedSchemas.Proofs.Text.Numeral
/-!
# Numbers in JSON text

The text of an integer and of a binary floating point number reads back as that number, whatever
follows it, as long as that cannot be part of a number. So one text stands for one number, and no
text for both an integer and a floating point number.
-/

namespace NamedSchemas.Json

open Numeral

/-- The text does not go on with anything that a number could have next. -/
def EndsNumber (rest : List Char) : Prop :=
  ∀ c ∈ rest.head?, isDecimal c = false ∧ c ≠ '.' ∧ c ≠ 'e' ∧ c ≠ 'E'

theorem endsNumber_nil : EndsNumber [] := by
  intro c hc
  exact absurd hc (by simp)

theorem EndsNumber.not_isDecimal {rest : List Char} (h : EndsNumber rest) :
    ∀ c ∈ rest.head?, isDecimal c = false := fun c hc => (h c hc).1

theorem spanDigits_append {ds rest : List Char} (hds : ∀ c ∈ ds, isDecimal c = true)
    (hrest : ∀ c ∈ rest.head?, isDecimal c = false) : spanDigits (ds ++ rest) = (ds, rest) := by
  have htake : rest.takeWhile isDecimal = [] := by
    cases rest with
    | nil => rfl
    | cons c rest => simp [hrest c (by simp)]
  have hdrop : rest.dropWhile isDecimal = rest := by
    cases rest with
    | nil => rfl
    | cons c rest => simp [hrest c (by simp)]
  rw [spanDigits, List.takeWhile_append_of_pos hds, List.dropWhile_append_of_pos hds, htake, hdrop,
    List.append_nil]

/-- Digits that can be the whole part of a number: a zero, or digits without a zero in front. -/
def IsWhole (ds : List Char) : Prop := ds = ['0'] ∨ Binary64.HasLead ds

theorem isWhole_natural (n : Nat) : IsWhole (natural n) := by
  rcases Nat.eq_zero_or_pos n with rfl | hpos
  · exact Or.inl natural_zero
  · exact Or.inr (Binary64.hasLead_natural hpos)

theorem readMagnitude_parts (negative : Bool) (start : List Char) {ds afterWhole afterFraction rest}
    {fraction : Option (List Char)} {exponent : Option Int} (hds : IsWhole ds)
    (hwhole : ∀ c ∈ afterWhole.head?, isDecimal c = false)
    (hfraction : readFraction afterWhole = (fraction, afterFraction))
    (hexponent : readExponent afterFraction = (exponent, rest)) :
    readMagnitude negative start (ds ++ afterWhole) =
      if fraction.isNone && exponent.isNone then
        if ds.length ≤ digitLimit then
          .ok (.scalar (.int (if negative then -(value 10 ds : Int) else value 10 ds)), rest)
        else .error (.longInteger ds.length)
      else .ok (.scalar (.float (Binary64.ofDecimal negative (value 10 (ds ++ fraction.getD []))
        (exponent.getD 0 - (fraction.getD []).length))), rest) := by
  rcases hds with rfl | ⟨hall, d, ds, hd, rfl⟩
  · simp only [readMagnitude, List.cons_append, List.nil_append, hfraction, hexponent]
  · have hspan := spanDigits_append hall hwhole
    rw [List.cons_append] at hspan
    unfold readMagnitude
    split
    · next heq => exact absurd (List.cons.inj heq).1 hd
    · simp only [List.cons_append, hspan, hfraction, hexponent]

theorem readFraction_of_endsNumber {rest : List Char} (h : EndsNumber rest) :
    readFraction rest = (none, rest) := by
  cases rest with
  | nil => rfl
  | cons c rest =>
    have hpoint : c ≠ '.' := (h c (by simp)).2.1
    unfold readFraction
    split
    · next heq => exact absurd (List.cons.inj heq).1 hpoint
    · rfl

theorem readExponent_of_endsNumber {rest : List Char} (h : EndsNumber rest) :
    readExponent rest = (none, rest) := by
  cases rest with
  | nil => rfl
  | cons c rest =>
    have hletter : ¬ (c = 'e' ∨ c = 'E') := by
      rintro (hc | hc)
      · exact (h c (by simp)).2.2.1 hc
      · exact (h c (by simp)).2.2.2 hc
    simp only [readExponent, hletter, if_false]

/-! ### Integers -/

theorem readMagnitude_natural (negative : Bool) (start : List Char) {n : Nat} {rest : List Char}
    (hn : n < 10 ^ digitLimit) (hrest : EndsNumber rest) :
    readMagnitude negative start (natural n ++ rest) =
      .ok (.scalar (.int (if negative then -(n : Int) else n)), rest) := by
  have hlength : (natural n).length ≤ digitLimit := length_digits_le (by decide) (by decide) hn
  rw [readMagnitude_parts negative start (isWhole_natural n) hrest.not_isDecimal
    (readFraction_of_endsNumber hrest) (readExponent_of_endsNumber hrest)]
  simp only [Option.isNone_none, Bool.and_self, if_true, hlength, value_natural]

/-! ### Floating point numbers -/

theorem readFraction_point {fs rest : List Char} (hfs : ∀ c ∈ fs, isDecimal c = true)
    (hne : fs ≠ []) (hrest : ∀ c ∈ rest.head?, isDecimal c = false) :
    readFraction ('.' :: (fs ++ rest)) = (some fs, rest) := by
  simp only [readFraction, spanDigits_append hfs hrest]

theorem readExponent_exponentText (e : Int) {rest : List Char}
    (hrest : ∀ c ∈ rest.head?, isDecimal c = false) :
    readExponent ('e' :: (Binary64.exponentText e ++ rest)) = (some e, rest) := by
  have hdigits : ∀ c ∈ padded 10 2 e.natAbs, isDecimal c = true := by
    intro c hc
    obtain ⟨d, hd, rfl⟩ := exists_digit_of_mem_padded (by decide) hc
    exact isDecimal_digitChar d hd
  have hne : padded 10 2 e.natAbs ≠ [] := by
    intro hnil
    exact digits_ne_nil (by decide) e.natAbs (List.append_eq_nil_iff.1 hnil).2
  have hspan := spanDigits_append hdigits hrest
  have hvalue : value 10 (padded 10 2 e.natAbs) = e.natAbs :=
    value_padded (by decide) (by decide) 2 e.natAbs
  by_cases hneg : e < 0
  · simp only [Binary64.exponentText, hneg, if_true, List.cons_append, readExponent, true_or, hspan,
      hvalue]
    rw [show -(e.natAbs : Int) = e by omega]
  · simp only [Binary64.exponentText, hneg, if_false, List.cons_append, readExponent, true_or,
      if_true, hspan, hvalue]
    rw [if_neg (by decide), show (e.natAbs : Int) = e by omega]

/-- A decimal is read back from its text when the parts of the text are those of a decimal that
denotes the rank. -/
theorem readMagnitude_of_denotes {rank : Nat} (negative : Bool) (start : List Char)
    {ds fs afterWhole afterFraction rest} {fraction : Option (List Char)} {exponent : Option Int}
    (hpos : 0 < rank) (hrank : rank < Binary64.finiteRanks) (hds : IsWhole ds)
    (hwhole : ∀ c ∈ afterWhole.head?, isDecimal c = false)
    (hfraction : readFraction afterWhole = (fraction, afterFraction))
    (hexponent : readExponent afterFraction = (exponent, rest))
    (hfloat : (fraction.isNone && exponent.isNone) = false) (hfs : fraction.getD [] = fs)
    (h : Binary64.Decimal.Denotes ⟨value 10 (ds ++ fs), exponent.getD 0 - fs.length⟩ rank) :
    readMagnitude negative start (ds ++ afterWhole) =
      .ok (.scalar (.float (.finite negative ⟨rank, hrank⟩)), rest) := by
  rw [readMagnitude_parts negative start hds hwhole hfraction hexponent, hfs, hfloat,
    if_neg (by decide), Binary64.ofDecimal_of_denotes negative h hpos hrank]

private theorem isDecimal_replicate_zero (k : Nat) :
    ∀ c ∈ List.replicate k '0', isDecimal c = true := by
  intro c hc
  rw [(List.mem_replicate.1 hc).2]
  decide

/-- Significant digits after the point: `0.00ds`. -/
private theorem readMagnitude_below_one {rank : Nat} {point : Int} {ds rest : List Char}
    (negative : Bool) (start : List Char) (hpos : 0 < rank) (hrank : rank < Binary64.finiteRanks)
    (hlead : Binary64.HasLead ds) (hpoint : point ≤ 0) (hrest : EndsNumber rest)
    (h : Binary64.Decimal.Denotes ⟨value 10 ds, point - ds.length⟩ rank) :
    readMagnitude negative start
        ("0.".toList ++ List.replicate (-point).toNat '0' ++ ds ++ rest) =
      .ok (.scalar (.float (.finite negative ⟨rank, hrank⟩)), rest) := by
  have hdigits : ∀ c ∈ List.replicate (-point).toNat '0' ++ ds, isDecimal c = true := by
    intro c hc
    rcases List.mem_append.1 hc with hzero | hd
    · exact isDecimal_replicate_zero _ c hzero
    · exact hlead.1 c hd
  have hne : List.replicate (-point).toNat '0' ++ ds ≠ [] := by
    obtain ⟨-, d, tail, -, rfl⟩ := hlead
    simp
  have htext : "0.".toList ++ List.replicate (-point).toNat '0' ++ ds ++ rest =
      ['0'] ++ '.' :: ((List.replicate (-point).toNat '0' ++ ds) ++ rest) := by
    simp
  rw [htext]
  refine readMagnitude_of_denotes negative start hpos hrank (Or.inl rfl) (by simp; decide)
    (readFraction_point hdigits hne hrest.not_isDecimal) (readExponent_of_endsNumber hrest)
    rfl (Option.getD_some ..) ?_
  have hvalue : value 10 (['0'] ++ (List.replicate (-point).toNat '0' ++ ds)) = value 10 ds := by
    rw [show ['0'] = List.replicate 1 '0' from rfl, value_zeros_append, value_zeros_append]
  have hexponent : (none : Option Int).getD 0 -
      ((List.replicate (-point).toNat '0' ++ ds).length : Int) = point - ds.length := by
    simp only [Option.getD_none, List.length_append, List.length_replicate]
    omega
  rw [hvalue, hexponent]
  exact h

/-- Digits denote the same with a point among them, or with zeros behind them up to the point. -/
private theorem denotes_pointed {rank k : Nat} {ds : List Char}
    (h : Binary64.Decimal.Denotes ⟨value 10 ds, (k : Int) - ds.length⟩ rank) :
    Binary64.Decimal.Denotes ⟨value 10 (ds.take k ++ List.replicate (k - ds.length) '0' ++
      (if (ds.drop k).isEmpty then ['0'] else ds.drop k)),
      0 - ((if (ds.drop k).isEmpty then ['0'] else ds.drop k).length : Int)⟩ rank := by
  by_cases hfew : ds.length ≤ k
  · -- the zero behind the point is one more of the zeros behind the digits
    have hzeros : ds ++ List.replicate (k - ds.length) '0' ++ ['0'] =
        ds ++ List.replicate (k - ds.length + 1) '0' := by
      rw [List.append_assoc, ← List.replicate_succ']
    have hexponent : 0 - (['0'].length : Int) =
        (k : Int) - ds.length - (k - ds.length + 1 : Nat) := by
      rw [List.length_singleton]
      omega
    rw [List.drop_eq_nil_of_le hfew, List.take_of_length_le hfew, List.isEmpty_nil,
      if_pos (Eq.refl true), hzeros, value_append_zeros, hexponent, Binary64.Decimal.denotes_shift]
    exact h
  · have hdrop : (ds.drop k).isEmpty = false := by
      simp only [List.isEmpty_eq_false_iff, ne_eq, List.drop_eq_nil_iff]
      exact hfew
    have hnone : k - ds.length = 0 := by omega
    have hexponent : 0 - ((ds.drop k).length : Int) = (k : Int) - ds.length := by
      rw [List.length_drop]
      omega
    rw [hdrop, if_neg (by decide), hnone, List.replicate_zero, List.append_nil,
      List.take_append_drop, hexponent]
    exact h

/-- Significant digits before the point, with zeros up to it when they are fewer. -/
private theorem readMagnitude_positional {rank : Nat} {point : Int} {ds rest : List Char}
    (negative : Bool) (start : List Char) (hpos : 0 < rank) (hrank : rank < Binary64.finiteRanks)
    (hlead : Binary64.HasLead ds) (hpoint : 0 < point) (hrest : EndsNumber rest)
    (h : Binary64.Decimal.Denotes ⟨value 10 ds, point - ds.length⟩ rank) :
    readMagnitude negative start
        (ds.take point.toNat ++ List.replicate (point.toNat - ds.length) '0' ++ '.' ::
          (if (ds.drop point.toNat).isEmpty then ['0'] else ds.drop point.toNat) ++ rest) =
      .ok (.scalar (.float (.finite negative ⟨rank, hrank⟩)), rest) := by
  obtain ⟨k, rfl⟩ : ∃ k : Nat, point = (k + 1 : Nat) := ⟨point.toNat - 1, by omega⟩
  rw [Int.toNat_natCast]
  have hwhole : IsWhole (ds.take (k + 1) ++ List.replicate (k + 1 - ds.length) '0') := by
    obtain ⟨hall, d, tail, hd, rfl⟩ := hlead
    refine Or.inr ⟨fun c hc => ?_, d, _, hd, rfl⟩
    rcases List.mem_append.1 hc with htake | hzero
    · exact hall c (List.mem_of_mem_take htake)
    · exact isDecimal_replicate_zero _ c hzero
  have hfs : ∀ c ∈ (if (ds.drop (k + 1)).isEmpty then ['0'] else ds.drop (k + 1)),
      isDecimal c = true := by
    intro c hc
    split at hc
    · rw [List.mem_singleton.1 hc]
      decide
    · exact hlead.1 c (List.mem_of_mem_drop hc)
  have hne : (if (ds.drop (k + 1)).isEmpty then ['0'] else ds.drop (k + 1)) ≠ [] := by
    split
    · simp
    · next hdrop => simpa using hdrop
  rw [List.append_assoc _ ('.' :: _) rest, List.cons_append]
  exact readMagnitude_of_denotes negative start hpos hrank hwhole (by simp; decide)
    (readFraction_point hfs hne hrest.not_isDecimal) (readExponent_of_endsNumber hrest)
    rfl (Option.getD_some ..) (denotes_pointed h)

/-- One significant digit before the point, and an exponent. -/
private theorem readMagnitude_exponential {rank : Nat} {point : Int} {ds rest : List Char}
    (negative : Bool) (start : List Char) (hpos : 0 < rank) (hrank : rank < Binary64.finiteRanks)
    (hlead : Binary64.HasLead ds) (hrest : EndsNumber rest)
    (h : Binary64.Decimal.Denotes ⟨value 10 ds, point - ds.length⟩ rank) :
    readMagnitude negative start
        (ds.take 1 ++ (match ds.drop 1 with | [] => [] | fs => '.' :: fs) ++
          'e' :: Binary64.exponentText (point - 1) ++ rest) =
      .ok (.scalar (.float (.finite negative ⟨rank, hrank⟩)), rest) := by
  obtain ⟨hall, d, tail, hd, rfl⟩ := hlead
  have hwhole : IsWhole [d] := by
    refine Or.inr ⟨fun c hc => ?_, d, [], hd, rfl⟩
    rw [List.mem_singleton.1 hc]
    exact hall d (by simp)
  have hexponent := readExponent_exponentText (point - 1) hrest.not_isDecimal
  cases tail with
  | nil =>
    have htext : [d].take 1 ++ (match [d].drop 1 with | [] => [] | fs => '.' :: fs) ++
        'e' :: Binary64.exponentText (point - 1) ++ rest =
        [d] ++ 'e' :: (Binary64.exponentText (point - 1) ++ rest) := by
      simp
    rw [htext]
    have hnone : readFraction ('e' :: (Binary64.exponentText (point - 1) ++ rest)) =
        (none, 'e' :: (Binary64.exponentText (point - 1) ++ rest)) := rfl
    refine readMagnitude_of_denotes negative start hpos hrank hwhole (by simp; decide)
      hnone hexponent rfl rfl ?_
    simpa using h
  | cons f fs =>
    have htext : (d :: f :: fs).take 1 ++ (match (d :: f :: fs).drop 1 with
        | [] => [] | fs => '.' :: fs) ++ 'e' :: Binary64.exponentText (point - 1) ++ rest =
        [d] ++ '.' :: ((f :: fs) ++ 'e' :: (Binary64.exponentText (point - 1) ++ rest)) := by
      simp
    rw [htext]
    refine readMagnitude_of_denotes negative start hpos hrank hwhole (by simp; decide)
      (readFraction_point (fun c hc => hall c (List.mem_cons_of_mem _ hc)) (by simp)
        (by simp; decide)) hexponent rfl (Option.getD_some ..) ?_
    have hsum : (some (point - 1)).getD 0 - ((f :: fs).length : Int) =
        point - (d :: f :: fs).length := by
      simp only [Option.getD_some, List.length_cons]
      omega
    rw [hsum, List.singleton_append]
    exact h

theorem readMagnitude_magnitudeText {rank : Nat} {rest : List Char} (negative : Bool)
    (start : List Char) (hpos : 0 < rank) (hrank : rank < Binary64.finiteRanks)
    (hrest : EndsNumber rest) :
    readMagnitude negative start (Binary64.magnitudeText rank ++ rest) =
      .ok (.scalar (.float (.finite negative ⟨rank, hrank⟩)), rest) := by
  obtain ⟨hlead, hdenotes⟩ :=
    Binary64.Decimal.significant_denotes (Binary64.shortestDecimal_denotes hpos) hpos
  unfold Binary64.magnitudeText
  split
  next ds point hparts =>
  rw [hparts] at hlead hdenotes
  split
  · split
    · next hpoint =>
      exact readMagnitude_below_one negative start hpos hrank hlead hpoint hrest hdenotes
    · next hpoint =>
      exact readMagnitude_positional negative start hpos hrank hlead (by omega) hrest hdenotes
  · exact readMagnitude_exponential negative start hpos hrank hlead hrest hdenotes

end NamedSchemas.Json
