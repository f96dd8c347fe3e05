import NamedSchemas.Proofs.Json.Shown
import NamedSchemas.Proofs.Json.Writable
/-!
# Documents with the same JSON text

What is written of a document can be taken apart again, down to its scalars, which read back as what
is shown of them. So documents show the same when they have the same text.
-/

namespace NamedSchemas.Json

/-! ### Keys -/

theorem writePoint_ofChar {c : Char} (h : isPlain c = true) : writePoint (CodePoint.ofChar c) = [c] := by
  simp only [isPlain, Bool.and_eq_true, decide_eq_true_eq, bne_iff_ne] at h
  obtain ⟨⟨⟨hlow, hhigh⟩, hquote⟩, hbackslash⟩ := h
  have hnat : (CodePoint.ofChar c).toNat = c.toNat := rfl
  have hne : ∀ d : Char, c ≠ d → CodePoint.ofChar c ≠ CodePoint.ofChar d := fun d hd heq =>
    hd (Char.toNat_inj.1 (congrArg CodePoint.toNat heq))
  have hcontrol : ∀ d : Char, d.toNat < 0x20 → CodePoint.ofChar c ≠ CodePoint.ofChar d :=
    fun d hd => hne d fun heq => by rw [heq] at hlow; omega
  rw [writePoint, if_neg (hne _ hquote), if_neg (hne _ hbackslash),
    if_neg (hcontrol '\n' (by decide)), if_neg (hcontrol '\r' (by decide)),
    if_neg (hcontrol '\t' (by decide)), if_neg (by omega), if_neg (by omega), if_pos ⟨hlow, hhigh⟩,
    hnat, Char.ofNat_toNat]

/-- Plain characters are written as a string when they stand between quotes. -/
theorem writeText_ofChars {cs : List Char} (h : ∀ c ∈ cs, isPlain c = true) :
    writeText (Text.ofChars cs) = '"' :: cs ++ ['"'] := by
  have hpoints : (Text.ofChars cs).flatMap writePoint = cs := by
    rw [Text.ofChars, List.flatMap_map]
    exact (List.flatMap_congr fun c hc => writePoint_ofChar (h c hc)).trans (List.flatMap_singleton' cs)
  rw [writeText, hpoints]

theorem writeKey_eq {layout : Layout} {key : Scalar} {cs : List Char}
    (h : writeKey layout key = .ok cs) : cs = writeText key.keyText := by
  cases key with
  | text t => exact (Except.ok.inj h).symm
  | date d => cases h
  | dateTime t => cases h
  | null => exact (Except.ok.inj h).symm
  | bool b =>
    rw [← Except.ok.inj h]
    exact (writeText_ofChars (List.all_eq_true.1 (by cases b <;> decide))).symm
  | int i =>
    rw [Scalar.keyText, writeText_ofChars fun c hc => isPlain_of_isNumeric (isNumeric_of_mem_integer hc)]
    have hint : (do pure ('"' :: (← writeInt i) ++ ['"']) : Except WriteFault (List Char)) = .ok cs := h
    rw [writeInt] at hint
    split at hint
    · exact (Except.ok.inj hint).symm
    · cases hint
  | float x =>
    rw [← Except.ok.inj h]
    exact (writeText_ofChars (isPlain_of_mem_float x)).symm

/-! ### What is read back -/

theorem readsBack_shown {s : Scalar} {cs : List Char} (h : writeScalar s = .ok cs) :
    ReadsBack (.scalar s.shown) cs := by
  have hjson : s.isJson = true → ReadsBack (.scalar s) cs := by
    intro hs
    obtain ⟨pieces, hwrite, hread⟩ := exists_write .canonical (.scalar s) 0 hs
    rw [write, h] at hwrite
    rw [← Except.ok.inj hwrite] at hread
    simpa using hread
  cases s with
  | text t =>
    rw [← Except.ok.inj h]
    exact readsBack_writeText t
  | date d =>
    have hback := readsBack_writeText (Text.ofChars d.text)
    rw [foldr_joined_of_unpaired (Text.unpaired_ofChars _)] at hback
    rw [← Except.ok.inj h]
    exact hback
  | dateTime t =>
    have hback := readsBack_writeText (Text.ofChars (t.text ' '))
    rw [foldr_joined_of_unpaired (Text.unpaired_ofChars _)] at hback
    rw [← Except.ok.inj h]
    exact hback
  | int i => exact hjson ((exists_writeScalar_iff (.int i)).1 ⟨cs, h⟩)
  | null => exact hjson rfl
  | bool b => exact hjson rfl
  | float x => exact hjson rfl

theorem ReadsBack.not_collection {s : Scalar} {c : Char} {cs : List Char}
    (h : ReadsBack (.scalar s) (c :: cs)) : c ≠ '[' ∧ c ≠ '\x7b' := by
  have hread : readValue 1 (c :: cs ++ []) = .ok (.scalar s, []) :=
    h.read endsNumber_nil (Nat.le_refl 1)
  rw [List.append_nil] at hread
  constructor
  · rintro rfl
    simp only [readValue, readItems, Except.map] at hread
    split at hread <;> cases hread
  · rintro rfl
    simp only [readValue, readMembers, Except.map] at hread
    split at hread <;> cases hread

/-! ### Collections -/

def furtherParts (closing : Char) (parts : List Pieces) (after : List Char) : List Char :=
  parts.flatMap (fun part => ',' :: part.flatten) ++ closing :: after

theorem furtherParts_cons (closing : Char) (part : Pieces) (rest : List Pieces) (after : List Char) :
    furtherParts closing (part :: rest) after =
      ',' :: (part.flatten ++ furtherParts closing rest after) := by
  simp [furtherParts]

theorem endsNumber_furtherParts {closing : Char} (hclosing : closing = ']' ∨ closing = '\x7d')
    (parts : List Pieces) (after : List Char) : EndsNumber (furtherParts closing parts after) := by
  cases parts with
  | nil =>
    rcases hclosing with rfl | rfl <;>
      exact endsNumber_cons (by decide) (by decide) (by decide) (by decide) after
  | cons part rest =>
    rw [furtherParts_cons]
    exact endsNumber_cons (by decide) (by decide) (by decide) (by decide) _

theorem flatten_bracketed_canonical (depth : Nat) (opening closing : Char) (part : Pieces)
    (rest : List Pieces) (after : List Char) :
    (bracketed .canonical depth opening closing (part :: rest)).flatten ++ after =
      opening :: (part.flatten ++ furtherParts closing rest after) := by
  have hparts : ∀ part : Pieces, ([[',']].intercalate (part :: rest)).flatten =
      part.flatten ++ (rest.flatMap fun part => ',' :: part.flatten) := by
    induction rest with
    | nil => simp [List.intercalate]
    | cons next rest ih =>
      intro part
      have hnext := ih next
      simp only [List.intercalate] at hnext ⊢
      simp [List.intersperse, hnext]
  simp [bracketed, hparts, furtherParts]

/-- Whether collections are empty can be told from their texts. -/
theorem bracketed_canonical_cases {k l : Nat} {opening closing : Char} {parts others : List Pieces}
    {after behind : List Char} (hparts : ∀ part ∈ parts, ∃ c cs, part.flatten = c :: cs ∧ c ≠ closing)
    (hothers : ∀ part ∈ others, ∃ c cs, part.flatten = c :: cs ∧ c ≠ closing)
    (h : (bracketed .canonical k opening closing parts).flatten ++ after =
      (bracketed .canonical l opening closing others).flatten ++ behind) :
    furtherParts closing parts after = furtherParts closing others behind := by
  cases parts with
  | nil =>
    cases others with
    | nil => exact (List.cons.inj h).2
    | cons other others =>
      rw [flatten_bracketed_canonical] at h
      obtain ⟨c, cs, hstart, hne⟩ := hothers other (List.mem_cons_self ..)
      rw [hstart] at h
      exact absurd (List.cons.inj (List.cons.inj h).2).1.symm hne
  | cons part parts =>
    rw [flatten_bracketed_canonical] at h
    cases others with
    | nil =>
      obtain ⟨c, cs, hstart, hne⟩ := hparts part (List.mem_cons_self ..)
      rw [hstart] at h
      exact absurd (List.cons.inj (List.cons.inj h).2).1 hne
    | cons other others =>
      rw [flatten_bracketed_canonical] at h
      rw [furtherParts_cons, furtherParts_cons, (List.cons.inj h).2]

theorem exists_flatten_bracketed (k : Nat) (opening closing : Char) (parts : List Pieces) :
    ∃ tail, (bracketed .canonical k opening closing parts).flatten = opening :: tail := by
  cases parts <;> exact ⟨_, rfl⟩

theorem write_scalar_eq_ok {layout : Layout} {k : Nat} {s : Scalar} {ps : Pieces}
    (h : write layout k (.scalar s) = .ok ps) : ∃ cs, writeScalar s = .ok cs ∧ ps.flatten = cs := by
  rw [write] at h
  cases hs : writeScalar s with
  | error fault =>
    rw [hs] at h
    cases h
  | ok cs =>
    rw [hs] at h
    exact ⟨cs, rfl, by rw [← Except.ok.inj h]; simp⟩

theorem write_list_eq_ok {layout : Layout} {k : Nat} {items : List Document} {ps : Pieces}
    (h : write layout k (.list items) = .ok ps) :
    ∃ parts, writeItems layout (k + 1) items = .ok parts ∧ ps = bracketed layout k '[' ']' parts := by
  rw [write] at h
  cases hitems : writeItems layout (k + 1) items with
  | error fault =>
    rw [hitems] at h
    cases h
  | ok parts =>
    rw [hitems] at h
    exact ⟨parts, rfl, (Except.ok.inj h).symm⟩

theorem write_map_eq_ok {layout : Layout} {k : Nat} {entries : Entries Empty} {ps : Pieces}
    (h : write layout k (.map entries) = .ok ps) : ∃ parts,
      writeEntries layout (k + 1) entries = .ok parts ∧
        ps = bracketed layout k '\x7b' '\x7d' parts := by
  rw [write] at h
  cases hentries : writeEntries layout (k + 1) entries with
  | error fault =>
    rw [hentries] at h
    cases h
  | ok parts =>
    rw [hentries] at h
    exact ⟨parts, rfl, (Except.ok.inj h).symm⟩

theorem writeItems_cons_eq_ok {layout : Layout} {k : Nat} {item : Document} {rest : List Document}
    {parts : List Pieces} (h : writeItems layout k (item :: rest) = .ok parts) :
    ∃ part others, write layout k item = .ok part ∧ writeItems layout k rest = .ok others ∧
      parts = part :: others := by
  rw [writeItems] at h
  cases hitem : write layout k item with
  | error fault =>
    rw [hitem] at h
    cases h
  | ok part =>
    cases hrest : writeItems layout k rest with
    | error fault =>
      rw [hitem, hrest] at h
      cases h
    | ok others =>
      rw [hitem, hrest] at h
      exact ⟨part, others, rfl, rfl, (Except.ok.inj h).symm⟩

theorem writeEntries_cons_eq_ok {layout : Layout} {k : Nat} {key : Scalar} {value : Document}
    {rest : Entries Empty} {parts : List Pieces}
    (h : writeEntries layout k ((key, value) :: rest) = .ok parts) : ∃ pieces others,
      write layout k value = .ok pieces ∧ writeEntries layout k rest = .ok others ∧
        parts = (writeText key.keyText :: keySeparator layout :: pieces) :: others := by
  rw [writeEntries] at h
  cases hkey : writeKey layout key with
  | error fault =>
    rw [hkey] at h
    cases h
  | ok cs =>
    cases hvalue : write layout k value with
    | error fault =>
      rw [hkey, hvalue] at h
      cases h
    | ok pieces =>
      cases hrest : writeEntries layout k rest with
      | error fault =>
        rw [hkey, hvalue, hrest] at h
        cases h
      | ok others =>
        rw [hkey, hvalue, hrest] at h
        exact ⟨pieces, others, rfl, rfl, by rw [← writeKey_eq hkey, ← Except.ok.inj h]⟩

/-- What is written of a value begins as a value does, and tells whether it is a collection. -/
theorem startsValue_of_write {k : Nat} {d : Document} {ps : Pieces}
    (h : write .canonical k d = .ok ps) : StartsValue ps.flatten := by
  cases d with
  | scalar s =>
    obtain ⟨cs, hcs, heq⟩ := write_scalar_eq_ok h
    exact heq ▸ (readsBack_shown hcs).starts
  | list items =>
    obtain ⟨parts, -, rfl⟩ := write_list_eq_ok h
    obtain ⟨tail, htail⟩ := exists_flatten_bracketed k '[' ']' parts
    exact ⟨'[', tail, htail, by decide, by decide, by decide⟩
  | map entries =>
    obtain ⟨parts, -, rfl⟩ := write_map_eq_ok h
    obtain ⟨tail, htail⟩ := exists_flatten_bracketed k '\x7b' '\x7d' parts
    exact ⟨'\x7b', tail, htail, by decide, by decide, by decide⟩
  | ref label => exact label.elim

theorem startsValue_of_mem_writeItems {k : Nat} {items : List Document} {parts : List Pieces}
    (h : writeItems .canonical k items = .ok parts) :
    ∀ part ∈ parts, ∃ c cs, part.flatten = c :: cs ∧ c ≠ ']' := by
  induction items generalizing parts with
  | nil =>
    rw [← Except.ok.inj h]
    exact fun _ hpart => absurd hpart List.not_mem_nil
  | cons item rest ih =>
    obtain ⟨part, others, hitem, hrest, rfl⟩ := writeItems_cons_eq_ok h
    obtain ⟨c, cs, hstart, -, hne, -⟩ := startsValue_of_write hitem
    exact List.forall_mem_cons.2 ⟨⟨c, cs, hstart, hne⟩, ih hrest⟩

theorem starts_of_mem_writeEntries {k : Nat} {entries : Entries Empty} {parts : List Pieces}
    (h : writeEntries .canonical k entries = .ok parts) :
    ∀ part ∈ parts, ∃ c cs, part.flatten = c :: cs ∧ c ≠ '\x7d' := by
  induction entries generalizing parts with
  | nil =>
    rw [← Except.ok.inj h]
    exact fun _ hpart => absurd hpart List.not_mem_nil
  | cons entry rest ih =>
    obtain ⟨pieces, others, -, hrest, rfl⟩ := writeEntries_cons_eq_ok h
    exact List.forall_mem_cons.2 ⟨⟨'"', _, rfl, by decide⟩, ih hrest⟩

theorem not_written_alike {s : Scalar} {k : Nat} {opening closing : Char}
    (hopening : opening = '[' ∨ opening = '\x7b') {cs : List Char} (hcs : writeScalar s = .ok cs)
    (parts : List Pieces) (after behind : List Char) :
    cs ++ after ≠ (bracketed .canonical k opening closing parts).flatten ++ behind := by
  obtain ⟨tail, htail⟩ := exists_flatten_bracketed k opening closing parts
  have hread := readsBack_shown hcs
  obtain ⟨c, rest, rfl, -⟩ := hread.starts
  rw [htail]
  intro h
  have hc : c = opening := (List.cons.inj h).1
  rcases hopening with rfl | rfl
  · exact hread.not_collection.1 hc
  · exact hread.not_collection.2 hc

theorem bracketed_not_alike {k l : Nat} {opening opening' closing closing' : Char}
    (hne : opening ≠ opening') (parts further : List Pieces) (after behind : List Char) :
    (bracketed .canonical k opening closing parts).flatten ++ after ≠
      (bracketed .canonical l opening' closing' further).flatten ++ behind := by
  obtain ⟨tail, htail⟩ := exists_flatten_bracketed k opening closing parts
  obtain ⟨tail', htail'⟩ := exists_flatten_bracketed l opening' closing' further
  rw [htail, htail']
  exact fun h => hne (List.cons.inj h).1

/-! ### Documents with the same text -/

mutual

/-- From what is written of a document, with anything behind it that does not go on with a number,
it can be told what is shown of it, and where it ends. -/
theorem shown_eq_of_write : ∀ (d e : Document) {k l : Nat} {ps qs : Pieces} {after behind : List Char},
    write .canonical k d = .ok ps → write .canonical l e = .ok qs → EndsNumber after →
      EndsNumber behind → ps.flatten ++ after = qs.flatten ++ behind →
        d.shown = e.shown ∧ after = behind
  | .scalar s, e, k, l, ps, qs, after, behind, hd, he, hafter, hbehind, h => by
    obtain ⟨cs, hcs, rfl⟩ := write_scalar_eq_ok hd
    cases e with
    | scalar t =>
      obtain ⟨ds, hds, rfl⟩ := write_scalar_eq_ok he
      have hfirst := (readsBack_shown hcs).read hafter (Nat.le_refl 1)
      have hsecond := (readsBack_shown hds).read hbehind (Nat.le_refl 1)
      rw [h, hsecond] at hfirst
      obtain ⟨hshown, hrest⟩ := Prod.mk.inj (Except.ok.inj hfirst)
      exact ⟨hshown.symm, hrest.symm⟩
    | list items =>
      obtain ⟨parts, -, rfl⟩ := write_list_eq_ok he
      exact absurd h (not_written_alike (Or.inl rfl) hcs parts after behind)
    | map entries =>
      obtain ⟨parts, -, rfl⟩ := write_map_eq_ok he
      exact absurd h (not_written_alike (Or.inr rfl) hcs parts after behind)
    | ref label => exact label.elim
  | .list items, e, k, l, ps, qs, after, behind, hd, he, hafter, hbehind, h => by
    obtain ⟨parts, hparts, rfl⟩ := write_list_eq_ok hd
    cases e with
    | scalar t =>
      obtain ⟨ds, hds, rfl⟩ := write_scalar_eq_ok he
      exact absurd h.symm (not_written_alike (Or.inl rfl) hds parts behind after)
    | list others =>
      obtain ⟨further, hfurther, rfl⟩ := write_list_eq_ok he
      obtain ⟨hshown, hrest⟩ := shownItems_eq_of_writeItems items others hparts hfurther
        (bracketed_canonical_cases (startsValue_of_mem_writeItems hparts)
          (startsValue_of_mem_writeItems hfurther) h)
      exact ⟨congrArg Value.list hshown, hrest⟩
    | map entries =>
      obtain ⟨further, -, rfl⟩ := write_map_eq_ok he
      exact absurd h (bracketed_not_alike (by decide) parts further after behind)
    | ref label => exact label.elim
  | .map entries, e, k, l, ps, qs, after, behind, hd, he, hafter, hbehind, h => by
    obtain ⟨parts, hparts, rfl⟩ := write_map_eq_ok hd
    cases e with
    | scalar t =>
      obtain ⟨ds, hds, rfl⟩ := write_scalar_eq_ok he
      exact absurd h.symm (not_written_alike (Or.inr rfl) hds parts behind after)
    | list items =>
      obtain ⟨further, -, rfl⟩ := write_list_eq_ok he
      exact absurd h (bracketed_not_alike (by decide) parts further after behind)
    | map others =>
      obtain ⟨further, hfurther, rfl⟩ := write_map_eq_ok he
      obtain ⟨hshown, hrest⟩ := shownEntries_eq_of_writeEntries entries others hparts hfurther
        (bracketed_canonical_cases (starts_of_mem_writeEntries hparts)
          (starts_of_mem_writeEntries hfurther) h)
      exact ⟨congrArg Value.map hshown, hrest⟩
    | ref label => exact label.elim
  | .ref label, _, _, _, _, _, _, _, _, _, _, _, _ => label.elim

theorem shownItems_eq_of_writeItems : ∀ (items others : List Document) {k l : Nat}
    {parts further : List Pieces} {after behind : List Char},
    writeItems .canonical k items = .ok parts → writeItems .canonical l others = .ok further →
      furtherParts ']' parts after = furtherParts ']' further behind →
        Value.shownItems items = Value.shownItems others ∧ after = behind
  | [], others, k, l, parts, further, after, behind, hparts, hfurther, h => by
    cases hparts
    cases others with
    | nil =>
      cases hfurther
      exact ⟨rfl, (List.cons.inj h).2⟩
    | cons other others =>
      obtain ⟨part, rest, -, -, rfl⟩ := writeItems_cons_eq_ok hfurther
      rw [furtherParts_cons] at h
      exact absurd (List.cons.inj h).1 (by decide)
  | item :: items, others, k, l, parts, further, after, behind, hparts, hfurther, h => by
    obtain ⟨part, rest, hitem, hitems, rfl⟩ := writeItems_cons_eq_ok hparts
    rw [furtherParts_cons] at h
    cases others with
    | nil =>
      cases hfurther
      exact absurd (List.cons.inj h).1 (by decide)
    | cons other others =>
      obtain ⟨part', rest', hother, hothers, rfl⟩ := writeItems_cons_eq_ok hfurther
      rw [furtherParts_cons] at h
      obtain ⟨hfirst, hbehind⟩ := shown_eq_of_write item other hitem hother
        (endsNumber_furtherParts (Or.inl rfl) _ _) (endsNumber_furtherParts (Or.inl rfl) _ _)
        (List.cons.inj h).2
      obtain ⟨hrest, hafter⟩ := shownItems_eq_of_writeItems items others hitems hothers hbehind
      exact ⟨by rw [Value.shownItems, Value.shownItems, hfirst, hrest], hafter⟩

theorem shownEntries_eq_of_writeEntries : ∀ (entries others : Entries Empty) {k l : Nat}
    {parts further : List Pieces} {after behind : List Char},
    writeEntries .canonical k entries = .ok parts → writeEntries .canonical l others = .ok further →
      furtherParts '\x7d' parts after = furtherParts '\x7d' further behind →
        Value.shownEntries entries = Value.shownEntries others ∧ after = behind
  | [], others, k, l, parts, further, after, behind, hparts, hfurther, h => by
    cases hparts
    cases others with
    | nil =>
      cases hfurther
      exact ⟨rfl, (List.cons.inj h).2⟩
    | cons other others =>
      obtain ⟨part, rest, -, -, rfl⟩ := writeEntries_cons_eq_ok hfurther
      rw [furtherParts_cons] at h
      exact absurd (List.cons.inj h).1 (by decide)
  | (key, value) :: entries, others, k, l, parts, further, after, behind, hparts, hfurther, h => by
    obtain ⟨pieces, rest, hvalue, hentries, rfl⟩ := writeEntries_cons_eq_ok hparts
    rw [furtherParts_cons] at h
    cases others with
    | nil =>
      cases hfurther
      exact absurd (List.cons.inj h).1 (by decide)
    | cons other others =>
      obtain ⟨other, w⟩ := other
      obtain ⟨pieces', rest', hother, hothers, rfl⟩ := writeEntries_cons_eq_ok hfurther
      rw [furtherParts_cons] at h
      have hread : ∀ (t : Text) (cs : List Char), readString []
          (t.flatMap writePoint ++ '"' :: cs) = .ok (t.paired, cs) := readString_flatMap []
      have hstrings := congrArg (fun cs => readString [] cs.tail) (List.cons.inj h).2
      simp only [writeText, keySeparator, List.flatten_cons, List.cons_append, List.append_assoc,
        List.nil_append, List.tail_cons, hread] at hstrings
      obtain ⟨hkey, hvalues⟩ := Prod.mk.inj (Except.ok.inj hstrings)
      obtain ⟨hfirst, hbehind⟩ := shown_eq_of_write value w hvalue hother
        (endsNumber_furtherParts (Or.inr rfl) _ _) (endsNumber_furtherParts (Or.inr rfl) _ _)
        (List.cons.inj hvalues).2
      obtain ⟨hrest, hafter⟩ := shownEntries_eq_of_writeEntries entries others hentries hothers
        hbehind
      exact ⟨by rw [Value.shownEntries, Value.shownEntries, hkey, hfirst, hrest], hafter⟩

end

/-- Documents with the same canonical text show the same. -/
theorem shown_eq_of_canonical {d e : Document} {cs : List Char} (hd : canonical d = .ok cs)
    (he : canonical e = .ok cs) : d.shown = e.shown := by
  rw [canonical, text] at hd he
  cases hps : write .canonical 0 d with
  | error fault =>
    rw [hps] at hd
    cases hd
  | ok ps =>
    cases hqs : write .canonical 0 e with
    | error fault =>
      rw [hqs] at he
      cases he
    | ok qs =>
      rw [hps] at hd
      rw [hqs] at he
      have htext : ps.flatten = qs.flatten := (Except.ok.inj hd).trans (Except.ok.inj he).symm
      refine (shown_eq_of_write d e hps hqs endsNumber_nil endsNumber_nil ?_).1
      rw [List.append_nil, List.append_nil, htext]

end NamedSchemas.Json
