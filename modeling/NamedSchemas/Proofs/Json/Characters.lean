import NamedSchemas.Proofs.Json.Decoding
/-!
# The characters of JSON text

JSON text is printable ASCII, apart from the line feeds of the indented layout. It has more than one
character for every two units of fuel that reading it takes.
-/

namespace NamedSchemas.Json

/-- Is the character one of those that JSON text is written in? -/
def isWritten (c : Char) : Bool := (0x20 ≤ c.toNat && c.toNat ≤ 0x7E) || c == '\n'

theorem isWritten_of_isPlain {c : Char} (h : isPlain c = true) : isWritten c = true := by
  simp only [isPlain, Bool.and_eq_true] at h
  simp only [isWritten, Bool.or_eq_true, Bool.and_eq_true]
  exact Or.inl h.1.1

/-! ### Strings and scalars -/

theorem all_isWritten_unitEscape (n : Nat) : (unitEscape n).all isWritten = true := by
  have hdigits : ∀ d, d < 16 → isWritten (Numeral.digitChar d) = true := by decide
  have hhex : (Numeral.lowerHex 4 n).all isWritten = true := by
    rw [List.all_eq_true]
    intro c hc
    obtain ⟨d, hd, rfl⟩ := Numeral.exists_digit_of_mem_padded (by decide) hc
    exact hdigits d hd
  simp only [unitEscape, List.all_cons, hhex, Bool.and_true]
  decide

theorem all_isWritten_writePoint (p : CodePoint) : (writePoint p).all isWritten = true := by
  have hprintable : ∀ n, n ≤ 0x7E → 0x20 ≤ n → isWritten (Char.ofNat n) = true := by decide
  rw [writePoint]
  repeat' split
  all_goals try decide
  · next hrange => simp only [List.all_cons, List.all_nil, Bool.and_true,
      hprintable _ hrange.2 hrange.1]
  · exact all_isWritten_unitEscape _
  · rw [List.all_append, all_isWritten_unitEscape, all_isWritten_unitEscape, Bool.and_self]

theorem all_isWritten_writeText (t : Text) : (writeText t).all isWritten = true := by
  have hpoints : (t.flatMap writePoint).all isWritten = true := by
    rw [List.all_flatMap, List.all_eq_true]
    exact fun p _ => all_isWritten_writePoint p
  simp only [writeText, List.cons_append, List.all_cons, List.all_append, hpoints]
  decide

theorem all_isWritten_writeScalar {s : Scalar} {cs : List Char} (h : writeScalar s = .ok cs) :
    cs.all isWritten = true := by
  cases s with
  | null => cases h; decide
  | bool b => cases h; cases b <;> decide
  | int i =>
    rw [writeScalar, writeInt] at h
    split at h
    · cases h
      exact List.all_eq_true.2 fun c hc =>
        isWritten_of_isPlain (isPlain_of_isNumeric (isNumeric_of_mem_integer hc))
    · cases h
  | float x =>
    cases h
    exact List.all_eq_true.2 fun c hc => isWritten_of_isPlain (isPlain_of_mem_float x c hc)
  | text t => cases h; exact all_isWritten_writeText t
  | date d => cases h; exact all_isWritten_writeText _
  | dateTime t => cases h; exact all_isWritten_writeText _

/-! ### Collections -/

theorem all_isWritten_lineStart (depth : Nat) : (lineStart depth).all isWritten = true := by
  have hspaces : (List.replicate (2 * depth) ' ').all isWritten = true := by
    rw [List.all_replicate]
    split <;> decide
  rw [lineStart, List.all_cons, hspaces]
  decide

theorem all_isWritten_intercalate {separator : Pieces}
    (hseparator : separator.flatten.all isWritten = true) {parts : List Pieces}
    (h : ∀ part ∈ parts, part.flatten.all isWritten = true) :
    (separator.intercalate parts).flatten.all isWritten = true := by
  rw [List.intercalate]
  induction parts with
  | nil => rfl
  | cons part rest ih =>
    rw [List.forall_mem_cons] at h
    cases rest with
    | nil => simpa using h.1
    | cons next rest =>
      have hrest := ih h.2
      simp only [List.intersperse, List.flatten_cons, List.flatten_append, List.all_append,
        h.1, hseparator, Bool.true_and] at hrest ⊢
      exact hrest

theorem exists_flatten_bracketed_cons (layout : Layout) (depth : Nat) (opening closing : Char)
    (part : Pieces) (rest : List Pieces) : ∃ first between last : List Char,
      first.all isWritten = true ∧ between.all isWritten = true ∧ last.all isWritten = true ∧
        (bracketed layout depth opening closing (part :: rest)).flatten = opening ::
          (first ++ (([',' :: between].intercalate (part :: rest)).flatten ++ (last ++ [closing]))) := by
  have hline := all_isWritten_lineStart
  cases layout with
  | compact => exact ⟨[], [' '], [], rfl, by decide, rfl, by simp [bracketed]⟩
  | canonical => exact ⟨[], [], [], rfl, rfl, rfl, by simp [bracketed]⟩
  | pretty => exact ⟨lineStart (depth + 1), lineStart (depth + 1), lineStart depth, hline _, hline _,
      hline _, by simp [bracketed]⟩

/-- Brackets, commas and blank space are all that a collection adds to its parts. -/
theorem all_isWritten_bracketed (layout : Layout) (depth : Nat) {opening closing : Char}
    (hopening : isWritten opening = true) (hclosing : isWritten closing = true)
    {parts : List Pieces} (h : ∀ part ∈ parts, part.flatten.all isWritten = true) :
    (bracketed layout depth opening closing parts).flatten.all isWritten = true := by
  cases parts with
  | nil => simp only [bracketed, List.flatten_cons, List.flatten_nil, List.append_nil, List.all_cons,
      List.all_nil, hopening, hclosing, Bool.and_self]
  | cons part rest =>
    obtain ⟨first, between, last, hfirst, hbetween, hlast, heq⟩ :=
      exists_flatten_bracketed_cons layout depth opening closing part rest
    have hcomma : ([',' :: between] : Pieces).flatten.all isWritten = true := by
      rw [List.flatten_cons, List.flatten_nil, List.append_nil, List.all_cons, hbetween]
      decide
    simp only [heq, List.all_cons, List.all_append, List.all_nil, hopening, hfirst,
      all_isWritten_intercalate hcomma h, hlast, hclosing, Bool.and_self]

mutual

theorem all_isWritten_write (layout : Layout) : ∀ (d : Document) {depth : Nat} {ps : Pieces},
    write layout depth d = .ok ps → ps.flatten.all isWritten = true
  | .scalar s, depth, ps, h => by
    obtain ⟨cs, hcs, heq⟩ := write_scalar_eq_ok h
    rw [heq]
    exact all_isWritten_writeScalar hcs
  | .list items, depth, ps, h => by
    obtain ⟨parts, hparts, rfl⟩ := write_list_eq_ok h
    exact all_isWritten_bracketed layout depth (by decide) (by decide)
      (all_isWritten_writeItems layout items hparts)
  | .map entries, depth, ps, h => by
    obtain ⟨parts, hparts, rfl⟩ := write_map_eq_ok h
    exact all_isWritten_bracketed layout depth (by decide) (by decide)
      (all_isWritten_writeEntries layout entries hparts)

theorem all_isWritten_writeItems (layout : Layout) : ∀ (items : List Document) {depth : Nat}
    {parts : List Pieces}, writeItems layout depth items = .ok parts →
      ∀ part ∈ parts, part.flatten.all isWritten = true
  | [], _, parts, h => by
    cases h
    exact List.forall_mem_nil _
  | item :: rest, _, parts, h => by
    obtain ⟨part, others, hpart, hothers, rfl⟩ := writeItems_cons_eq_ok h
    exact List.forall_mem_cons.2
      ⟨all_isWritten_write layout item hpart, all_isWritten_writeItems layout rest hothers⟩

theorem all_isWritten_writeEntries (layout : Layout) : ∀ (entries : Entries Empty) {depth : Nat}
    {parts : List Pieces}, writeEntries layout depth entries = .ok parts →
      ∀ part ∈ parts, part.flatten.all isWritten = true
  | [], _, parts, h => by
    cases h
    exact List.forall_mem_nil _
  | (key, value) :: rest, _, parts, h => by
    obtain ⟨pieces, others, hvalue, hothers, rfl⟩ := writeEntries_cons_eq_ok h
    refine List.forall_mem_cons.2 ⟨?_, all_isWritten_writeEntries layout rest hothers⟩
    have hseparator : (keySeparator layout).all isWritten = true := by cases layout <;> decide
    simp only [List.flatten_cons, List.all_append, all_isWritten_writeText, hseparator,
      all_isWritten_write layout value hvalue, Bool.and_self]

end

/-! ### Length -/

theorem length_le_intercalate (separator : Pieces) (parts : List Pieces) :
    parts.flatten.flatten.length ≤ (separator.intercalate parts).flatten.length := by
  rw [List.intercalate]
  induction parts with
  | nil => exact Nat.zero_le _
  | cons part rest ih =>
    cases rest with
    | nil => simp
    | cons next rest =>
      rw [List.flatten_cons, List.flatten_append]
      simp only [List.intersperse, List.flatten_cons, List.flatten_append, List.length_append]
        at ih ⊢
      omega

theorem length_add_two_le (layout : Layout) (depth : Nat) (opening closing : Char)
    (parts : List Pieces) : parts.flatten.flatten.length + 2 ≤
      (bracketed layout depth opening closing parts).flatten.length := by
  cases parts with
  | nil => exact Nat.le_refl 2
  | cons part rest =>
    obtain ⟨first, between, last, -, -, -, heq⟩ :=
      exists_flatten_bracketed_cons layout depth opening closing part rest
    have hparts := length_le_intercalate [',' :: between] (part :: rest)
    simp only [heq, List.length_cons, List.length_append, List.length_nil]
    omega

mutual

theorem readingFuel_lt_of_write (layout : Layout) : ∀ (d : Document) {depth : Nat} {ps : Pieces},
    write layout depth d = .ok ps → d.readingFuel < 2 * ps.flatten.length
  | .scalar s, depth, ps, h => by
    obtain ⟨cs, hcs, heq⟩ := write_scalar_eq_ok h
    obtain ⟨c, rest, hstart, -⟩ := (readsBack_shown hcs).starts
    rw [heq, hstart, List.length_cons, Value.readingFuel]
    omega
  | .list items, depth, ps, h => by
    obtain ⟨parts, hparts, rfl⟩ := write_list_eq_ok h
    have hitems := itemsFuel_le_of_writeItems layout items hparts
    have hlength := length_add_two_le layout depth '[' ']' parts
    rw [Value.readingFuel]
    omega
  | .map entries, depth, ps, h => by
    obtain ⟨parts, hparts, rfl⟩ := write_map_eq_ok h
    have hentries := entriesFuel_le_of_writeEntries layout entries hparts
    have hlength := length_add_two_le layout depth '\x7b' '\x7d' parts
    rw [Value.readingFuel]
    omega

theorem itemsFuel_le_of_writeItems (layout : Layout) : ∀ (items : List Document) {depth : Nat}
    {parts : List Pieces}, writeItems layout depth items = .ok parts →
      Value.itemsFuel items ≤ 2 * parts.flatten.flatten.length
  | [], _, _, _ => Nat.zero_le _
  | item :: rest, _, parts, h => by
    obtain ⟨part, others, hpart, hothers, rfl⟩ := writeItems_cons_eq_ok h
    have hitem := readingFuel_lt_of_write layout item hpart
    have hrest := itemsFuel_le_of_writeItems layout rest hothers
    rw [Value.itemsFuel, List.flatten_cons, List.flatten_append, List.length_append]
    omega

theorem entriesFuel_le_of_writeEntries (layout : Layout) : ∀ (entries : Entries Empty) {depth : Nat}
    {parts : List Pieces}, writeEntries layout depth entries = .ok parts →
      Value.entriesFuel entries ≤ 2 * parts.flatten.flatten.length
  | [], _, _, _ => Nat.zero_le _
  | (key, value) :: rest, _, parts, h => by
    obtain ⟨pieces, others, hvalue, hothers, rfl⟩ := writeEntries_cons_eq_ok h
    have hfuel := readingFuel_lt_of_write layout value hvalue
    have hrest := entriesFuel_le_of_writeEntries layout rest hothers
    rw [Value.entriesFuel, List.flatten_cons, List.flatten_append, List.length_append,
      List.flatten_cons, List.flatten_cons, List.length_append, List.length_append]
    omega

end

end NamedSchemas.Json
