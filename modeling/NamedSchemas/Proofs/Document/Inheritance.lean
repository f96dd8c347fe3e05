import NamedSchemas.Proofs.Document.Assembly
import NamedSchemas.Proofs.Json.RoundTrip
import NamedSchemas.Proofs.Value.References
/-!
# What parts and wholes have from each other

The parts of a document that JSON can hold are such documents, and refer to nothing that the
document does not refer to. The other way round, a document with others in the places of its parts
can be held by JSON when they can, and refers to nothing but what it and they refer to.
-/

namespace NamedSchemas

variable {ρ α : Type} {f : Text → Option α}

namespace Value

theorem isJson_of_mem {es : Entries Empty} (h : isJson (.map es) = true)
    {entry : Scalar × Document} (hentry : entry ∈ es) :
    entry.1.text?.isSome = true ∧ entry.2.isJson = true := by
  rw [isJson] at h
  induction es with
  | nil => cases hentry
  | cons first rest ih =>
    simp only [entriesAreJson, Bool.and_eq_true] at h
    rcases List.mem_cons.1 hentry with rfl | hrest
    · exact ⟨h.1.1.1.1, h.1.2⟩
    · exact ih h.2 hrest

theorem mem_addressed_of_mem {es : Entries ρ} {entry : Scalar × Value ρ} (hentry : entry ∈ es)
    {a : α} (ha : a ∈ entry.2.addressed f) : a ∈ addressed f (.map es) := by
  rw [addressed]
  induction es with
  | nil => cases hentry
  | cons first rest ih =>
    rw [addressedEntries]
    rcases List.mem_cons.1 hentry with rfl | hrest
    · exact List.mem_append_right _ (List.mem_append_left _ ha)
    · exact List.mem_append_right _ (List.mem_append_right _ (ih hrest))

theorem mem_refNames_of_mem {es : Entries ρ} {entry : Scalar × Value ρ} (hentry : entry ∈ es)
    {name : Text} (hname : name ∈ entry.2.refNames) : name ∈ refNames (.map es) := by
  rw [refNames_eq_addressed] at hname ⊢
  exact mem_addressed_of_mem hentry hname

theorem mem_entryLabels_insert {key : Text} {value : Value ρ} {es : Entries ρ} {label : ρ}
    (h : label ∈ entryLabels (Entries.insert (.text key) value es)) :
    label ∈ value.labels ∨ label ∈ entryLabels es := by
  obtain ⟨entry, hentry, hlabel⟩ := mem_entryLabels.1 h
  cases hcontains : Entries.contains key es with
  | true =>
    rw [Entries.insert_of_contains value hcontains] at hentry
    obtain ⟨old, hold, rfl⟩ := List.mem_map.1 hentry
    dsimp only at hlabel
    split at hlabel
    · exact Or.inl hlabel
    · exact Or.inr (mem_entryLabels.2 ⟨old, hold, hlabel⟩)
  | false =>
    rw [Entries.insert_of_not_contains value hcontains] at hentry
    rcases List.mem_append.1 hentry with hold | hnew
    · exact Or.inr (mem_entryLabels.2 ⟨entry, hold, hlabel⟩)
    · rw [List.mem_singleton.1 hnew] at hlabel
      exact Or.inl hlabel

theorem mem_addressedEntries {a : α} {es : Entries ρ} : a ∈ addressedEntries f es ↔
    ∃ entry ∈ es, (entry.1 = addressKey ∧ entry.2.text?.bind f = some a) ∨
      a ∈ entry.2.addressed f := by
  induction es with
  | nil => simp [addressedEntries]
  | cons entry rest ih =>
    obtain ⟨key, value⟩ := entry
    simp only [addressedEntries, List.mem_append, ih, List.mem_cons, or_and_right, exists_or,
      exists_eq_left, or_assoc]
    refine or_congr_left ?_
    split
    · next hkey => simp [hkey]
    · next hkey => simp [hkey]

theorem mem_entryRefNames {name : Text} {es : Entries ρ} : name ∈ entryRefNames es ↔
    ∃ entry ∈ es, (entry.1 = addressKey ∧ entry.2.text?.bind nameOfAddress? = some name) ∨
      name ∈ entry.2.refNames := by
  simp only [entryRefNames_eq_addressed, refNames_eq_addressed]
  exact mem_addressedEntries

theorem mem_addressedEntries_insert {key : Text} (hkey : Scalar.text key ≠ addressKey)
    {value : Value ρ} {es : Entries ρ} {a : α}
    (h : a ∈ addressedEntries f (Entries.insert (.text key) value es)) :
    a ∈ value.addressed f ∨ a ∈ addressedEntries f es := by
  obtain ⟨entry, hentry, ha⟩ := mem_addressedEntries.1 h
  cases hcontains : Entries.contains key es with
  | true =>
    rw [Entries.insert_of_contains value hcontains] at hentry
    obtain ⟨old, hold, rfl⟩ := List.mem_map.1 hentry
    dsimp only at ha
    split at ha
    · next hsame =>
      rw [hsame] at ha
      exact Or.inl (ha.resolve_left fun hown => hkey hown.1)
    · exact Or.inr (mem_addressedEntries.2 ⟨old, hold, ha⟩)
  | false =>
    rw [Entries.insert_of_not_contains value hcontains] at hentry
    rcases List.mem_append.1 hentry with hold | hnew
    · exact Or.inr (mem_addressedEntries.2 ⟨entry, hold, ha⟩)
    · rw [List.mem_singleton.1 hnew] at ha
      exact Or.inl (ha.resolve_left fun hown => hkey hown.1)

theorem congruence_isJson :
    Congruence fun v w : Document => v.isJson = true → w.isJson = true where
  refl _ := id
  trans huv hvw := hvw ∘ huv
  map {es fs} h := by
    rw [isJson, isJson]
    induction h with
    | nil => exact id
    | @cons e f es fs hef hrest ih =>
      obtain ⟨key, v⟩ := e
      obtain ⟨_, w⟩ := f
      obtain ⟨rfl, hvalue⟩ := hef
      have hkeys : (fs.any fun entry => entry.1 = key) = es.any fun entry => entry.1 = key := by
        clear ih
        induction hrest with
        | nil => rfl
        | cons hkey _ ih => rw [List.any_cons, List.any_cons, ih, hkey.1]
      simp only [entriesAreJson, Bool.and_eq_true, hkeys]
      exact fun hes => ⟨⟨hes.1.1, hvalue hes.1.2⟩, ih hes.2⟩

theorem congruence_addressed (f : Text → Option α) (more : α → Prop) : Congruence fun v w : Value ρ =>
    w.text? = v.text? ∧ ∀ a ∈ w.addressed f, a ∈ v.addressed f ∨ more a where
  refl _ := ⟨rfl, fun _ => Or.inl⟩
  trans huv hvw := ⟨hvw.1.trans huv.1, fun a ha => (hvw.2 a ha).elim (huv.2 a) Or.inr⟩
  map {es fs} h := by
    refine ⟨rfl, ?_⟩
    simp only [addressed]
    induction h with
    | nil => exact fun a ha => absurd ha List.not_mem_nil
    | @cons e f es fs hef hrest ih =>
      obtain ⟨key, v⟩ := e
      obtain ⟨_, w⟩ := f
      obtain ⟨rfl, htext, hvalue⟩ := hef
      dsimp only at htext hvalue
      intro a
      simp only [addressedEntries, List.mem_append, htext]
      rintro (hown | ha | ha)
      · exact Or.inl (Or.inl hown)
      · exact (hvalue a ha).imp (fun h => Or.inr (Or.inl h)) id
      · exact (ih a ha).imp (fun h => Or.inr (Or.inr h)) id

theorem congruence_refNames (more : Text → Prop) : Congruence fun v w : Value ρ =>
    w.text? = v.text? ∧ ∀ name ∈ w.refNames, name ∈ v.refNames ∨ more name := by
  simp only [refNames_eq_addressed]
  exact congruence_addressed nameOfAddress? more

theorem congruence_labels (more : ρ → Prop) : Congruence fun v w : Value ρ =>
    ∀ label ∈ w.labels, label ∈ v.labels ∨ more label where
  refl _ _ := Or.inl
  trans huv hvw label hlabel := (hvw label hlabel).elim (huv label) Or.inr
  map {es fs} h := by
    simp only [labels]
    induction h with
    | nil => exact fun label hlabel => absurd hlabel List.not_mem_nil
    | @cons e f es fs hef hrest ih =>
      intro label
      simp only [entryLabels, List.mem_append]
      rintro (hlabel | hlabel)
      · exact (hef.2 label hlabel).imp Or.inl id
      · exact (ih label hlabel).imp Or.inr id

/-! ### Bodies -/

/-- The bodies of a document that JSON can hold are such documents, in places that are texts. -/
theorem isJson_bodies {mediaType : Text} {d : Document} (h : d.isJson = true)
    {body : BodyPlace × Document} (hbody : body ∈ d.bodies mediaType) :
    body.1.path.text?.isSome = true ∧
      (∀ status, body.1.role = .response status → status.text?.isSome = true) ∧
      body.2.isJson = true :=
  Traversal.gives_bodies (P := fun d => d.isJson = true) (K := fun key => key.text?.isSome = true)
    (fun _ hes _ hentry => isJson_of_mem hes hentry) mediaType d h body hbody

theorem mem_refNames_of_mem_bodies {mediaType : Text} {d : Document} {body : BodyPlace × Document}
    (hbody : body ∈ d.bodies mediaType) {name : Text} (hname : name ∈ body.2.refNames) :
    name ∈ d.refNames :=
  (Traversal.gives_bodies (P := fun e => ∀ name ∈ e.refNames, name ∈ d.refNames)
    (K := fun _ => True) (fun _ hes _ hentry => ⟨trivial, fun name hname =>
      hes name (mem_refNames_of_mem hentry hname)⟩) mediaType d (fun _ => id) body hbody).2.2 name hname

/-! ### What was put together -/

theorem mem_addressed_entries {v : Value ρ} {a : α} (h : a ∈ addressedEntries f v.entries) :
    a ∈ v.addressed f := by
  cases v with
  | map es => exact h
  | scalar s => cases h
  | list items => cases h
  | ref label => cases h

theorem mem_addressed_under {key : Text} {v : Value ρ} {a : α}
    (h : a ∈ addressedEntries f (v.under key)) : a ∈ v.addressed f := by
  rw [under] at h
  cases hget : Entries.get? key v.entries with
  | none =>
    rw [hget] at h
    cases h
  | some inner =>
    rw [hget] at h
    exact mem_addressed_entries (mem_addressed_of_mem (Entries.mem_of_get?_eq_some hget)
      (mem_addressed_entries h))

theorem mem_refNames_under {key : Text} {v : Value ρ} {name : Text}
    (h : name ∈ entryRefNames (v.under key)) : name ∈ v.refNames := by
  rw [entryRefNames_eq_addressed] at h
  rw [refNames_eq_addressed]
  exact mem_addressed_under h

/-- A document that was put together has the addresses in its frame, the bodies and the named
schemas. -/
theorem mem_addressed_assembled {mediaType : Text} {d : Document} {ws : List Document}
    {schemas : Entries Empty} {more : α → Prop}
    (hws : List.Forall₂ (fun body w => w.text? = body.2.text? ∧
      ∀ a ∈ w.addressed f, a ∈ body.2.addressed f ∨ more a) (d.bodies mediaType) ws) {a : α}
    (h : a ∈ (assembled mediaType d ws schemas : Document).addressed f) :
    a ∈ d.addressed f ∨ more a ∨ a ∈ addressedEntries f schemas := by
  have hcomponents : Scalar.text (Text.ofString "components") ≠ addressKey := by decide +kernel
  have hschemas : Scalar.text (Text.ofString "schemas") ≠ addressKey := by decide +kernel
  rw [assembled, addressed, ofDocument_self, substEntries_elim_self] at h
  rcases mem_addressedEntries_insert hcomponents h with h | h
  · rw [addressed] at h
    rcases mem_addressedEntries_insert hschemas h with h | h
    · exact Or.inr (Or.inr h)
    · exact Or.inl (mem_addressed_under h)
  · have hfill := (Traversal.bodies mediaType).fill_related (congruence_addressed f more) d ws hws
    exact (hfill.2 a (mem_addressed_entries h)).imp id Or.inl

theorem mem_refNames_assembled {mediaType : Text} {d : Document} {ws : List Document}
    {schemas : Entries Empty} {more : Text → Prop}
    (hws : List.Forall₂ (fun body w => w.text? = body.2.text? ∧ ∀ name ∈ w.refNames, more name)
      (d.bodies mediaType) ws) {name : Text}
    (h : name ∈ (assembled mediaType d ws schemas : Document).refNames) :
    name ∈ d.refNames ∨ more name ∨ name ∈ entryRefNames schemas := by
  simp only [refNames_eq_addressed, entryRefNames_eq_addressed] at hws h ⊢
  exact mem_addressed_assembled (hws.imp fun body w hw => ⟨hw.1, fun name hname =>
    Or.inr (hw.2 name hname)⟩) h

end Value

end NamedSchemas
