import NamedSchemas.Json.Reader
import NamedSchemas.Json.Writer
import NamedSchemas.Proofs.Text.Numeral
/-!
# Strings in JSON text

A string reads back as the text it was written from, unless the text holds the two halves of a
surrogate pair next to each other: those are read as one code point. A text that was read never
holds them.
-/

namespace NamedSchemas

/-- No first half of a surrogate pair is directly followed by a second half. -/
def Text.unpaired : Text → Bool
  | p :: q :: rest => !(p.isHighSurrogate && q.isLowSurrogate) && unpaired (q :: rest)
  | _ => true

theorem CodePoint.not_high_of_lt {p : CodePoint} (h : p.toNat < 0xD800) :
    p.isHighSurrogate = false := by
  simp only [isHighSurrogate, Bool.and_eq_false_iff, decide_eq_false_iff_not]
  omega

namespace Text

theorem ofChars_injective {cs ds : List Char} (h : ofChars cs = ofChars ds) : cs = ds :=
  List.map_inj_right (fun _ _ heq => Char.toNat_inj.1 (congrArg CodePoint.toNat heq)) |>.1 h

theorem unpaired_tail {p : CodePoint} {t : Text} (h : unpaired (p :: t) = true) :
    unpaired t = true := by
  cases t with
  | nil => rfl
  | cons q t =>
    simp only [unpaired, Bool.and_eq_true] at h
    exact h.2

theorem unpaired_of_no_surrogates {t : Text} (h : ∀ p ∈ t, p.isHighSurrogate = false) :
    unpaired t = true := by
  induction t with
  | nil => rfl
  | cons p t ih =>
    have htail := ih fun q hq => h q (List.mem_cons_of_mem p hq)
    cases t with
    | nil => rfl
    | cons q t => simp only [unpaired, h p (by simp), Bool.false_and, Bool.not_false, htail,
        Bool.and_self]

end Text

namespace Json

theorem joined_of_not_high {p : CodePoint} (h : p.isHighSurrogate = false) (t : Text) :
    joined p t = p :: t := by
  cases t with
  | nil => rfl
  | cons q t => simp only [joined, h, Bool.false_and, Bool.false_eq_true, if_false]

theorem joined_of_unpaired {p : CodePoint} {t : Text} (h : Text.unpaired (p :: t) = true) :
    joined p t = p :: t := by
  cases t with
  | nil => rfl
  | cons q t =>
    simp only [Text.unpaired, Bool.and_eq_true, Bool.not_eq_true'] at h
    simp only [joined, h.1, Bool.false_eq_true, if_false]

theorem foldr_joined_of_unpaired {t : Text} (h : t.unpaired = true) : t.foldr joined [] = t := by
  induction t with
  | nil => rfl
  | cons p t ih => rw [List.foldr_cons, ih (Text.unpaired_tail h), joined_of_unpaired h]

/-! ### Escapes -/

theorem hex4?_lowerHex {n : Nat} (hn : n < 16 ^ 4) :
    ∃ a b c d, Numeral.lowerHex 4 n = [a, b, c, d] ∧ hex4? a b c d = some n := by
  have hlength : (Numeral.lowerHex 4 n).length = 4 :=
    Numeral.length_padded (by decide) (by decide) hn
  obtain ⟨a, b, c, d, hdigits⟩ : ∃ a b c d, Numeral.lowerHex 4 n = [a, b, c, d] := by
    match hlist : Numeral.lowerHex 4 n, hlength with
    | [a, b, c, d], _ => exact ⟨a, b, c, d, rfl⟩
  have hall : [a, b, c, d].all Numeral.isHex = true := by
    rw [List.all_eq_true, ← hdigits]
    intro x hx
    obtain ⟨k, hk, rfl⟩ := Numeral.exists_digit_of_mem_padded (by decide) hx
    exact Numeral.isHex_digitChar k hk
  have hvalue : Numeral.value 16 [a, b, c, d] = n := by
    rw [← hdigits]
    exact Numeral.value_padded (by decide) (by decide) 4 n
  exact ⟨a, b, c, d, hdigits, by rw [hex4?, hall, if_pos rfl, hvalue]⟩

theorem readString_unitEscape (opening : List Char) {n : Nat} {rest : List Char} (hn : n < 16 ^ 4)
    (hrest : rest ≠ []) :
    readString opening (unitEscape n ++ rest) =
      (readString opening rest).map fun r => (joined (codePoint n) r.1, r.2) := by
  obtain ⟨a, b, c, d, hdigits, hread⟩ := hex4?_lowerHex hn
  obtain ⟨e, rest, rfl⟩ := List.exists_cons_of_ne_nil hrest
  simp only [unitEscape, hdigits, List.cons_append, List.nil_append, readString, hread]

theorem codePoint_toNat (p : CodePoint) : codePoint p.toNat = p := by
  obtain ⟨n, hn⟩ := p
  simp only [codePoint, Nat.mod_eq_of_lt hn]

private theorem toNat_ofNat : ∀ n, n < 0x7F → (Char.ofNat n).toNat = n := by decide

/-- Beyond 16 bits the two units of an escape are read as one code point. -/
private theorem joined_halves {p : CodePoint} (hp : 0x10000 ≤ p.toNat) (t : Text) :
    joined (codePoint (0xD800 + (p.toNat - 0x10000) / 0x400))
      (joined (codePoint (0xDC00 + (p.toNat - 0x10000) % 0x400)) t) = p :: t := by
  obtain ⟨n, hn⟩ := p
  simp only at hp ⊢
  have hhalf : (n - 0x10000) / 0x400 < 0x400 := by omega
  have hhigh : (codePoint (0xD800 + (n - 0x10000) / 0x400)).toNat =
      0xD800 + (n - 0x10000) / 0x400 := Nat.mod_eq_of_lt (by omega)
  have hlow : (codePoint (0xDC00 + (n - 0x10000) % 0x400)).toNat =
      0xDC00 + (n - 0x10000) % 0x400 := Nat.mod_eq_of_lt (by omega)
  have hishigh : (codePoint (0xD800 + (n - 0x10000) / 0x400)).isHighSurrogate = true := by
    simp only [CodePoint.isHighSurrogate, hhigh, Bool.and_eq_true, decide_eq_true_eq]
    omega
  have hislow : (codePoint (0xDC00 + (n - 0x10000) % 0x400)).isLowSurrogate = true := by
    simp only [CodePoint.isLowSurrogate, hlow, Bool.and_eq_true, decide_eq_true_eq]
    omega
  have hnothigh : (codePoint (0xDC00 + (n - 0x10000) % 0x400)).isHighSurrogate = false := by
    simp only [CodePoint.isHighSurrogate, hlow, Bool.and_eq_false_iff, decide_eq_false_iff_not]
    omega
  rw [joined_of_not_high hnothigh]
  simp only [joined, hishigh, hislow, Bool.and_self, if_true, hhigh, hlow]
  rw [show 0x10000 + (0xD800 + (n - 0x10000) / 0x400 - 0xD800) * 0x400 +
    (0xDC00 + (n - 0x10000) % 0x400 - 0xDC00) = n by omega]
  simp only [codePoint, Nat.mod_eq_of_lt hn]

private theorem eq_ofChar_of_toNat {p : CodePoint} {c : Char} (h : p.toNat = c.toNat) :
    p = CodePoint.ofChar c := by
  obtain ⟨n, hn⟩ := p
  simp only at h
  subst h
  rfl

private theorem readString_letter (opening : List Char) {letter c : Char} (rest : List Char)
    (hletter : escaped? letter = some c) (hu : letter ≠ 'u') (hc : c.toNat < 0xD800) :
    readString opening ('\\' :: letter :: rest) =
      (readString opening rest).map fun r => (joined (CodePoint.ofChar c) r.1, r.2) := by
  have hread : readString opening ('\\' :: letter :: rest) =
      (readString opening rest).map fun r => (CodePoint.ofChar c :: r.1, r.2) := by
    simp [readString, hletter]
  rw [hread]
  congr 1
  funext r
  rw [joined_of_not_high (CodePoint.not_high_of_lt hc)]

private theorem readString_plain (opening : List Char) {c : Char} (rest : List Char)
    (hlow : 0x20 ≤ c.toNat) (hhigh : c.toNat < 0xD800) (hquote : c ≠ '"')
    (hbackslash : c ≠ '\\') :
    readString opening (c :: rest) =
      (readString opening rest).map fun r => (joined (CodePoint.ofChar c) r.1, r.2) := by
  have hcontrol : ¬ c.toNat < 0x20 := by omega
  have hread : readString opening (c :: rest) =
      (readString opening rest).map fun r => (CodePoint.ofChar c :: r.1, r.2) := by
    simp [readString, hbackslash, hcontrol]
  rw [hread]
  congr 1
  funext r
  rw [joined_of_not_high (CodePoint.not_high_of_lt hhigh)]

/-- Beyond 16 bits the two escapes together are read as the code point. -/
private theorem readString_pair (opening : List Char) {p : CodePoint} {rest : List Char}
    (hp : 0x10000 ≤ p.toNat) (hrest : rest ≠ []) :
    readString opening (unitEscape (0xD800 + (p.toNat - 0x10000) / 0x400) ++
        (unitEscape (0xDC00 + (p.toNat - 0x10000) % 0x400) ++ rest)) =
      (readString opening rest).map fun r => (joined p r.1, r.2) := by
  have hlt := p.lt
  have hne : unitEscape (0xDC00 + (p.toNat - 0x10000) % 0x400) ++ rest ≠ [] :=
    List.cons_ne_nil _ _
  have hnothigh : p.isHighSurrogate = false := by
    simp only [CodePoint.isHighSurrogate, Bool.and_eq_false_iff, decide_eq_false_iff_not]
    omega
  rw [readString_unitEscape opening (by omega) hne,
    readString_unitEscape opening (by omega) hrest]
  cases readString opening rest with
  | error fault => simp only [Except.map]
  | ok r => simp only [Except.map, joined_halves hp, joined_of_not_high hnothigh]

/-- What a code point is written as is read as that code point, which is joined to what follows. -/
theorem readString_writePoint (opening : List Char) (p : CodePoint) {rest : List Char}
    (hrest : rest ≠ []) :
    readString opening (writePoint p ++ rest) =
      (readString opening rest).map fun r => (joined p r.1, r.2) := by
  unfold writePoint
  split
  · next h => rw [h]; exact readString_letter opening rest rfl (by decide) (by decide)
  split
  · next h => rw [h]; exact readString_letter opening rest rfl (by decide) (by decide)
  split
  · next h => rw [h]; exact readString_letter opening rest rfl (by decide) (by decide)
  split
  · next h => rw [h]; exact readString_letter opening rest rfl (by decide) (by decide)
  split
  · next h => rw [h]; exact readString_letter opening rest rfl (by decide) (by decide)
  split
  · next h =>
    rw [eq_ofChar_of_toNat (c := '\x08') h]
    exact readString_letter opening rest rfl (by decide) (by decide)
  split
  · next h =>
    rw [eq_ofChar_of_toNat (c := '\x0c') h]
    exact readString_letter opening rest rfl (by decide) (by decide)
  split
  · next hquote hbackslash _ _ _ _ _ h =>
    have hnat := toNat_ofNat p.toNat (by omega)
    have hp : p = CodePoint.ofChar (Char.ofNat p.toNat) := eq_ofChar_of_toNat hnat.symm
    have hq : Char.ofNat p.toNat ≠ '"' := fun heq => hquote (by rw [hp, heq])
    have hb : Char.ofNat p.toNat ≠ '\\' := fun heq => hbackslash (by rw [hp, heq])
    have hread := readString_plain opening rest (by omega) (by omega) hq hb
    rw [← hp] at hread
    exact hread
  split
  · next h => rw [readString_unitEscape opening (by omega) hrest, codePoint_toNat]
  · next h => rw [List.append_assoc]; exact readString_pair opening (by omega) hrest

theorem readString_flatMap (opening : List Char) (t : Text) (rest : List Char) :
    readString opening (t.flatMap writePoint ++ '"' :: rest) =
      .ok (t.foldr joined [], rest) := by
  induction t with
  | nil => simp [readString]
  | cons p t ih =>
    have hne : t.flatMap writePoint ++ '"' :: rest ≠ [] := by simp
    rw [List.flatMap_cons, List.append_assoc, readString_writePoint opening p hne, ih]
    rfl

theorem readString_writeText (opening : List Char) {t : Text} (ht : t.unpaired = true)
    (rest : List Char) :
    readString opening (t.flatMap writePoint ++ '"' :: rest) = .ok (t, rest) := by
  rw [readString_flatMap, foldr_joined_of_unpaired ht]

end Json

end NamedSchemas
