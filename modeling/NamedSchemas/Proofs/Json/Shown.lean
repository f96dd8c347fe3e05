import NamedSchemas.Proofs.Json.RoundTrip
import NamedSchemas.Proofs.Naming.Characters
import NamedSchemas.Proofs.Value.References
/-!
# What JSON text shows

JSON text does not show all of a document. Dates and times are shown as texts, and so is a key that
is no text. The halves of a surrogate pair that stand next to each other are shown as one code
point. What is shown is a document again, and refers to the components that the document refers to.
-/

namespace NamedSchemas

variable {ρ σ : Type}

/-- A text with the halves of a surrogate pair that stand next to each other as one code point. -/
def Text.paired (t : Text) : Text := t.foldr Json.joined []

namespace Scalar

def keyText : Scalar → Text
  | .null => "null"
  | .bool b => Text.ofChars (Json.writeBool b)
  | .int i => Text.ofChars (Numeral.integer i)
  | .float x => Text.ofChars (x.text Json.spelling)
  | .text t => t
  | .date d => Text.ofChars d.text
  | .dateTime t => Text.ofChars (t.text ' ')

/-- What JSON text shows of a scalar. -/
def shown : Scalar → Scalar
  | .text t => .text t.paired
  | .date d => .text (Text.ofChars d.text)
  | .dateTime t => .text (Text.ofChars (t.text ' '))
  | s => s

end Scalar

namespace Value

mutual

/-- What JSON text shows of a value. References are shown as they are. -/
def shown : Value ρ → Value ρ
  | .scalar s => .scalar s.shown
  | .list items => .list (shownItems items)
  | .map entries => .map (shownEntries entries)
  | .ref label => .ref label

def shownItems : List (Value ρ) → List (Value ρ)
  | [] => []
  | item :: rest => shown item :: shownItems rest

/-- What is shown of the entries of a map. Different keys may be shown alike. -/
def shownEntries : Entries ρ → Entries ρ
  | [] => []
  | (key, value) :: rest => (.text key.keyText.paired, shown value) :: shownEntries rest

end

end Value

/-! ### Texts -/

theorem Text.paired_of_unpaired {t : Text} (h : t.unpaired = true) : t.paired = t :=
  Json.foldr_joined_of_unpaired h

theorem Text.unpaired_ofChars (cs : List Char) : (Text.ofChars cs).unpaired = true := by
  refine unpaired_of_no_surrogates fun p hp => ?_
  obtain ⟨c, -, rfl⟩ := List.mem_map.1 hp
  have hvalid : c.val.toNat < 0xD800 ∨ 0xDFFF < c.val.toNat ∧ c.val.toNat < 0x110000 := c.valid
  have hnat : (CodePoint.ofChar c).toNat = c.val.toNat := rfl
  simp only [CodePoint.isHighSurrogate, hnat, Bool.and_eq_false_iff, decide_eq_false_iff_not]
  omega

theorem Text.paired_ofChars (cs : List Char) : (Text.ofChars cs).paired = Text.ofChars cs :=
  paired_of_unpaired (unpaired_ofChars cs)

namespace Json

/-! ### Numbers and words as keys -/

def isPlain (c : Char) : Bool := 0x20 ≤ c.toNat && c.toNat ≤ 0x7E && c != '"' && c != '\\'

def isNumeric (c : Char) : Bool := Numeral.isDecimal c || c ∈ ['-', '+', '.', 'e']

theorem isPlain_of_isNumeric {c : Char} (h : isNumeric c = true) : isPlain c = true := by
  rw [isNumeric, Bool.or_eq_true] at h
  rcases h with h | h
  · simp only [Numeral.isDecimal, Bool.and_eq_true, decide_eq_true_eq, Char.le_def,
      UInt32.le_iff_toNat_le] at h
    have hlow : 48 ≤ c.toNat := h.1
    have hhigh : c.toNat ≤ 57 := h.2
    simp only [isPlain, Bool.and_eq_true, decide_eq_true_eq, bne_iff_ne]
    refine ⟨⟨⟨by omega, by omega⟩, ?_⟩, ?_⟩
    · rintro rfl
      exact absurd hlow (by decide)
    · rintro rfl
      exact absurd hhigh (by decide)
  · have hsigns : ∀ d ∈ ['-', '+', '.', 'e'], isPlain d = true :=
      List.all_eq_true.1 (by decide)
    exact hsigns c (of_decide_eq_true h)

theorem isNumeric_of_mem_natural {n : Nat} {c : Char} (hc : c ∈ Numeral.natural n) :
    isNumeric c = true :=
  Bool.or_eq_true_iff.2 (Or.inl (Numeral.isDecimal_of_mem_natural hc))

theorem isNumeric_of_mem_integer {i : Int} {c : Char} (hc : c ∈ Numeral.integer i) :
    isNumeric c = true := by
  rw [Numeral.integer] at hc
  split at hc
  · rcases List.mem_cons.1 hc with rfl | hc
    · decide
    · exact isNumeric_of_mem_natural hc
  · exact isNumeric_of_mem_natural hc

theorem isNumeric_of_mem_significant {d : Binary64.Decimal} {c : Char} (hc : c ∈ d.significant.1) :
    isNumeric c = true := by
  obtain ⟨k, hk⟩ := Binary64.exists_stripped (Numeral.natural d.digits)
  refine isNumeric_of_mem_natural (n := d.digits) ?_
  rw [hk]
  exact List.mem_append_left _ hc

theorem isNumeric_of_mem_exponentText {e : Int} {c : Char} (hc : c ∈ Binary64.exponentText e) :
    isNumeric c = true := by
  rcases List.mem_cons.1 hc with rfl | hc
  · split <;> decide
  · obtain ⟨d, hd, rfl⟩ := Numeral.exists_digit_of_mem_padded (by decide) hc
    exact Bool.or_eq_true_iff.2 (Or.inl (Numeral.isDecimal_digitChar d hd))

theorem isNumeric_of_mem_replicate {n : Nat} {c : Char} (hc : c ∈ List.replicate n '0') :
    isNumeric c = true := by
  rw [(List.mem_replicate.1 hc).2]
  decide

theorem isNumeric_of_mem_magnitudeText (rank : Nat) :
    ∀ c ∈ Binary64.magnitudeText rank, isNumeric c = true := by
  have hds : ∀ c ∈ (Binary64.shortestDecimal rank).significant.1, isNumeric c = true :=
    fun c hc => isNumeric_of_mem_significant hc
  rw [Binary64.magnitudeText]
  generalize (Binary64.shortestDecimal rank).significant = p at hds ⊢
  obtain ⟨ds, point⟩ := p
  dsimp only at hds ⊢
  have htake : ∀ n, ∀ c ∈ ds.take n, isNumeric c = true := fun n c hc => hds c (List.mem_of_mem_take hc)
  have hdrop : ∀ n, ∀ c ∈ ds.drop n, isNumeric c = true := fun n c hc => hds c (List.mem_of_mem_drop hc)
  split
  · split
    · refine List.forall_mem_append.2 ⟨List.forall_mem_append.2 ⟨List.all_eq_true.1 (by decide), ?_⟩, hds⟩
      exact fun c hc => isNumeric_of_mem_replicate hc
    · refine List.forall_mem_append.2 ⟨List.forall_mem_append.2 ⟨htake _, ?_⟩, ?_⟩
      · exact fun c hc => isNumeric_of_mem_replicate hc
      · refine List.forall_mem_cons.2 ⟨by decide, ?_⟩
        split
        · exact List.all_eq_true.1 (by decide)
        · exact hdrop _
  · refine List.forall_mem_append.2 ⟨List.forall_mem_append.2 ⟨htake 1, ?_⟩, ?_⟩
    · split
      · exact fun c hc => absurd hc List.not_mem_nil
      · exact List.forall_mem_cons.2 ⟨by decide, hdrop 1⟩
    · exact List.forall_mem_cons.2 ⟨by decide, fun c hc => isNumeric_of_mem_exponentText hc⟩

theorem isNumeric_of_mem_finiteText (negative : Bool) (rank : Nat) :
    ∀ c ∈ Binary64.finiteText negative rank, isNumeric c = true := by
  refine List.forall_mem_append.2 ⟨?_, ?_⟩
  · cases negative <;> exact List.all_eq_true.1 (by decide)
  · split
    · exact List.all_eq_true.1 (by decide)
    · exact isNumeric_of_mem_magnitudeText _

theorem isPlain_of_mem_float (x : Binary64) : ∀ c ∈ x.text spelling, isPlain c = true := by
  match x with
  | .nan => exact List.all_eq_true.1 (by decide)
  | .infinite false => exact List.all_eq_true.1 (by decide)
  | .infinite true => exact List.all_eq_true.1 (by decide)
  | .finite negative rank =>
    exact fun c hc => isPlain_of_isNumeric (isNumeric_of_mem_finiteText negative rank c hc)

end Json

/-! ### Addresses -/

/-- A text without code points beyond 16 bits is shown for itself only. -/
theorem Text.eq_of_paired {t u : Text} (h : t.paired = u) (hu : ∀ p ∈ u, p.toNat < 0x10000) :
    t = u := by
  induction t generalizing u with
  | nil => exact h
  | cons p t ih =>
    have hstep : Json.joined p (Text.paired t) = u := h
    cases hrest : Text.paired t with
    | nil =>
      rw [hrest] at hstep
      rw [← hstep, ih hrest fun _ hq => absurd hq List.not_mem_nil]
      rfl
    | cons q rest =>
      rw [hrest, Json.joined] at hstep
      subst hstep
      split at hu
      · next hhalves =>
        simp only [CodePoint.isHighSurrogate, CodePoint.isLowSurrogate, Bool.and_eq_true,
          decide_eq_true_eq] at hhalves
        have hpoint := hu _ (List.mem_cons_self ..)
        simp only [Json.codePoint] at hpoint
        omega
      · next hapart =>
        rw [if_neg hapart, ih hrest fun r hr => hu r (List.mem_cons_of_mem p hr)]

theorem Scalar.eq_addressKey {key : Scalar} (h : key.keyText.paired = Text.ofString "$ref") :
    key = addressKey := by
  have hkey : key.keyText = Text.ofString "$ref" := Text.eq_of_paired h (by decide +kernel)
  have hnumber : ∀ cs : List Char, (∀ c ∈ cs, Json.isNumeric c = true) →
      Text.ofChars cs ≠ Text.ofString "$ref" := by
    intro cs hcs heq
    have hdollar : '$' ∈ cs := by
      rw [Text.ofChars_injective heq]
      decide
    exact absurd (hcs _ hdollar) (by decide)
  have hdate : ∀ (d : Date) (rest : List Char),
      Text.ofChars (d.text ++ rest) ≠ Text.ofString "$ref" := by
    intro d rest heq
    have hhyphen : '-' ∈ d.text ++ rest := by simp [Date.text]
    rw [Text.ofChars_injective heq] at hhyphen
    exact absurd hhyphen (by decide)
  cases key with
  | text t => exact congrArg Scalar.text hkey
  | null => exact absurd hkey (by decide +kernel)
  | bool b => exact absurd hkey (by cases b <;> decide +kernel)
  | int i => exact absurd hkey (hnumber _ fun c hc => Json.isNumeric_of_mem_integer hc)
  | float x =>
    match x, hkey with
    | .nan, hkey => exact absurd hkey (by decide +kernel)
    | .infinite false, hkey => exact absurd hkey (by decide +kernel)
    | .infinite true, hkey => exact absurd hkey (by decide +kernel)
    | .finite negative rank, hkey =>
      exact absurd hkey (hnumber _ (Json.isNumeric_of_mem_finiteText negative rank))
  | date d =>
    have hempty := hdate d []
    rw [List.append_nil] at hempty
    exact absurd hkey hempty
  | dateTime t =>
    rw [Scalar.keyText, DateTime.text, List.append_assoc, List.append_assoc] at hkey
    simp only [List.append_assoc, List.cons_append] at hkey
    exact absurd hkey (hdate t.date _)

theorem Date.exists_digit (d : Date) :
    ∃ c rest, d.text = c :: rest ∧ Numeral.isDecimal c = true := by
  have hyear : d.year < 10 ^ 4 := Nat.lt_of_le_of_lt d.year_range.2 (by decide)
  have hlength := Numeral.length_padded (show 2 ≤ 10 by decide) (show 0 < 4 by decide) hyear
  match hdigits : Numeral.padded 10 4 d.year, hlength with
  | c :: rest, _ =>
    have hc : c ∈ Numeral.padded 10 4 d.year := by
      rw [hdigits]
      exact List.mem_cons_self ..
    obtain ⟨k, hk, rfl⟩ := Numeral.exists_digit_of_mem_padded (by decide) hc
    exact ⟨_, _, by rw [Date.text, hdigits]; rfl, Numeral.isDecimal_digitChar k hk⟩

theorem Value.text?_of_shown {v : Value ρ} {name : Text}
    (h : v.shown.text? = some (componentAddress name)) (hname : ∀ p ∈ name, p.isNamePoint = true) :
    v.text? = some (componentAddress name) := by
  have hlow : ∀ p ∈ componentAddress name, p.toNat < 0x10000 := by
    refine List.forall_mem_append.2 ⟨by decide +kernel, fun p hp => ?_⟩
    exact Nat.lt_trans (CodePoint.lt_of_isNamePoint (hname p hp)) (by decide)
  have hdate : ∀ (d : Date) (rest : List Char),
      Text.ofChars (d.text ++ rest) ≠ componentAddress name := by
    intro d rest heq
    obtain ⟨c, tail, htext, hc⟩ := d.exists_digit
    rw [htext] at heq
    have hhead : CodePoint.ofChar c = CodePoint.ofChar '#' := (List.cons.inj heq).1
    rw [Char.toNat_inj.1 (congrArg CodePoint.toNat hhead)] at hc
    exact absurd hc (by decide)
  cases v with
  | scalar s =>
    cases s with
    | text t => rw [Value.text?, Text.eq_of_paired (Option.some.inj h) hlow]
    | date d =>
      have hempty := hdate d []
      rw [List.append_nil] at hempty
      exact absurd (Option.some.inj h) hempty
    | dateTime t =>
      have htext : Text.ofChars (t.text ' ') = componentAddress name := Option.some.inj h
      rw [DateTime.text] at htext
      simp only [List.append_assoc, List.cons_append] at htext
      exact absurd htext (hdate t.date _)
    | _ => cases h
  | _ => cases h

namespace Value

/-! ### References -/

mutual

/-- What is shown of a shown address names what the address names, when that is a name. -/
theorem mem_refNames_of_shown {name : Text} (hname : ∀ p ∈ name, p.isNamePoint = true) :
    ∀ v : Value ρ, name ∈ v.shown.refNames → name ∈ v.refNames
  | .scalar _, h => h
  | .list items, h => mem_itemRefNames_of_shown hname items h
  | .map entries, h => mem_entryRefNames_of_shown hname entries h
  | .ref _, h => h

theorem mem_itemRefNames_of_shown {name : Text} (hname : ∀ p ∈ name, p.isNamePoint = true) :
    ∀ items : List (Value ρ), name ∈ itemRefNames (shownItems items) → name ∈ itemRefNames items
  | [], h => h
  | item :: rest, h => by
    rw [shownItems, itemRefNames] at h
    rcases List.mem_append.1 h with h | h
    · exact List.mem_append_left _ (mem_refNames_of_shown hname item h)
    · exact List.mem_append_right _ (mem_itemRefNames_of_shown hname rest h)

theorem mem_entryRefNames_of_shown {name : Text} (hname : ∀ p ∈ name, p.isNamePoint = true) :
    ∀ entries : Entries ρ, name ∈ entryRefNames (shownEntries entries) →
      name ∈ entryRefNames entries
  | [], h => h
  | (key, value) :: rest, h => by
    rw [shownEntries, entryRefNames] at h
    rw [entryRefNames]
    rcases List.mem_append.1 h with hown | h
    · refine List.mem_append_left _ ?_
      split at hown
      · next hkey =>
        obtain ⟨address, haddress, hrefers⟩ := Option.bind_eq_some_iff.1 (Option.mem_toList.1 hown)
        rw [nameOfAddress?_eq_some.1 hrefers] at haddress
        rw [if_pos (Scalar.eq_addressKey (Scalar.text.inj hkey)), text?_of_shown haddress hname,
          Option.bind_some, nameOfAddress?_componentAddress]
        exact List.mem_singleton.2 rfl
      · cases hown
    · rcases List.mem_append.1 h with h | h
      · exact List.mem_append_right _ (List.mem_append_left _ (mem_refNames_of_shown hname value h))
      · exact List.mem_append_right _
          (List.mem_append_right _ (mem_entryRefNames_of_shown hname rest h))

end

mutual

theorem labels_shown : ∀ v : Value ρ, v.shown.labels = v.labels
  | .scalar _ => rfl
  | .list items => itemLabels_shownItems items
  | .map entries => entryLabels_shownEntries entries
  | .ref _ => rfl

theorem itemLabels_shownItems : ∀ items : List (Value ρ),
    itemLabels (shownItems items) = itemLabels items
  | [] => rfl
  | item :: rest => by
    rw [shownItems, itemLabels, itemLabels, labels_shown item, itemLabels_shownItems rest]

theorem entryLabels_shownEntries : ∀ entries : Entries ρ,
    entryLabels (shownEntries entries) = entryLabels entries
  | [] => rfl
  | (key, value) :: rest => by
    rw [shownEntries, entryLabels, entryLabels, labels_shown value, entryLabels_shownEntries rest]

end

mutual

/-- What is shown of a substituted value is what is shown of the value and of what was put in. -/
theorem shown_subst (f : ρ → Value σ) : ∀ v : Value ρ,
    (v.subst f).shown = v.shown.subst fun label => (f label).shown
  | .scalar _ => rfl
  | .list items => by rw [subst, shown, shown, subst, shownItems_substItems f items]
  | .map entries => by rw [subst, shown, shown, subst, shownEntries_substEntries f entries]
  | .ref _ => rfl

theorem shownItems_substItems (f : ρ → Value σ) : ∀ items : List (Value ρ),
    shownItems (substItems f items) = substItems (fun label => (f label).shown) (shownItems items)
  | [] => rfl
  | item :: rest => by
    rw [substItems, shownItems, shownItems, substItems, shown_subst f item,
      shownItems_substItems f rest]

theorem shownEntries_substEntries (f : ρ → Value σ) : ∀ entries : Entries ρ,
    shownEntries (substEntries f entries) =
      substEntries (fun label => (f label).shown) (shownEntries entries)
  | [] => rfl
  | (key, value) :: rest => by
    rw [substEntries, shownEntries, shownEntries, substEntries, shown_subst f value,
      shownEntries_substEntries f rest]

end

theorem shown_ofDocument (d : Document) : (ofDocument d : Value ρ).shown = ofDocument d.shown := by
  rw [ofDocument, shown_subst, ofDocument]
  exact congrArg d.shown.subst (funext fun label => label.elim)

theorem shown_written {v : Linked Empty}
    (h : ∀ name, Link.component name ∈ v.labels → ∀ p ∈ name, p.isNamePoint = true) :
    v.written.shown = v.shown.written := by
  rw [written, shown_subst, written]
  refine subst_congr _ fun label hlabel => ?_
  rw [labels_shown] at hlabel
  match label, hlabel with
  | .component name, hlabel =>
    have haddress := Text.paired_of_unpaired (unpaired_componentAddress (h name hlabel))
    have hkey : (Text.ofString "$ref").paired = "$ref" := Text.paired_ofChars _
    show (map [(.text (Text.ofString "$ref").paired, text (componentAddress name).paired)] :
      Document) = _
    rw [haddress, hkey]
    rfl
  | .identifier schema _, _ => exact schema.elim

/-! ### Documents that JSON can hold -/

mutual

/-- A document that JSON can hold is shown as it is. -/
theorem shown_of_isJson : ∀ d : Document, d.isJson = true → d.shown = d
  | .scalar s, h => by
    cases s with
    | text t => exact congrArg text (Text.paired_of_unpaired h)
    | date d => cases h
    | dateTime t => cases h
    | _ => rfl
  | .list items, h => congrArg Value.list (shownItems_of_isJson items h)
  | .map entries, h => congrArg Value.map (shownEntries_of_isJson entries h)
  | .ref label, _ => label.elim

theorem shownItems_of_isJson : ∀ items : List Document, itemsAreJson items = true →
    shownItems items = items
  | [], _ => rfl
  | item :: rest, h => by
    simp only [itemsAreJson, Bool.and_eq_true] at h
    rw [shownItems, shown_of_isJson item h.1, shownItems_of_isJson rest h.2]

theorem shownEntries_of_isJson : ∀ entries : Entries Empty, entriesAreJson entries = true →
    shownEntries entries = entries
  | [], _ => rfl
  | (key, value) :: rest, h => by
    simp only [entriesAreJson, Bool.and_eq_true] at h
    obtain ⟨⟨⟨⟨htext, hkey⟩, -⟩, hvalue⟩, hrest⟩ := h
    cases key with
    | text t =>
      rw [shownEntries, shown_of_isJson value hvalue, shownEntries_of_isJson rest hrest,
        Scalar.keyText, Text.paired_of_unpaired hkey]
    | _ => cases htext

end

end Value

end NamedSchemas
