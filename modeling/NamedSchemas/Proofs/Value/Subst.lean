import NamedSchemas.Value.Linked
import NamedSchemas.Proofs.Value.Entries
/-!
# Substitution

Substitution keeps the shape of a value outside its references: keys stay, and what stands under a
key is substituted in. Substitutions one after the other are one substitution.
-/

namespace NamedSchemas

variable {ρ σ τ : Type}

namespace Value

theorem substItems_eq_map (f : ρ → Value σ) (items : List (Value ρ)) :
    substItems f items = items.map (subst f) := by
  induction items with
  | nil => rfl
  | cons item rest ih => rw [substItems, ih, List.map_cons]

theorem substEntries_eq_map (f : ρ → Value σ) (entries : Entries ρ) :
    substEntries f entries = entries.map fun entry => (entry.1, subst f entry.2) := by
  induction entries with
  | nil => rfl
  | cons entry rest ih => rw [substEntries, ih, List.map_cons]

mutual

theorem subst_subst (f : ρ → Value σ) (g : σ → Value τ) :
    ∀ v : Value ρ, (v.subst f).subst g = v.subst fun label => (f label).subst g
  | .scalar _ => rfl
  | .list items => by rw [subst, subst, subst, substItems_substItems f g items]
  | .map entries => by rw [subst, subst, subst, substEntries_substEntries f g entries]
  | .ref _ => rfl

theorem substItems_substItems (f : ρ → Value σ) (g : σ → Value τ) : ∀ items : List (Value ρ),
    substItems g (substItems f items) = substItems (fun label => (f label).subst g) items
  | [] => rfl
  | item :: rest => by
    rw [substItems, substItems, substItems, subst_subst f g item, substItems_substItems f g rest]

theorem substEntries_substEntries (f : ρ → Value σ) (g : σ → Value τ) : ∀ entries : Entries ρ,
    substEntries g (substEntries f entries) = substEntries (fun label => (f label).subst g) entries
  | [] => rfl
  | (key, value) :: rest => by
    rw [substEntries, substEntries, substEntries, subst_subst f g value,
      substEntries_substEntries f g rest]

end

mutual

theorem subst_ref : ∀ v : Value ρ, v.subst .ref = v
  | .scalar _ => rfl
  | .list items => by rw [subst, substItems_ref items]
  | .map entries => by rw [subst, substEntries_ref entries]
  | .ref _ => rfl

theorem substItems_ref : ∀ items : List (Value ρ), substItems .ref items = items
  | [] => rfl
  | item :: rest => by rw [substItems, subst_ref item, substItems_ref rest]

theorem substEntries_ref : ∀ entries : Entries ρ, substEntries .ref entries = entries
  | [] => rfl
  | (key, value) :: rest => by rw [substEntries, subst_ref value, substEntries_ref rest]

end

theorem relabel_relabel (f : ρ → σ) (g : σ → τ) (v : Value ρ) :
    (v.relabel f).relabel g = v.relabel (g ∘ f) := by
  rw [relabel, relabel, subst_subst]
  rfl

theorem relabel_id (v : Value ρ) : v.relabel id = v := subst_ref v

theorem ofDocument_subst (f : ρ → Value σ) (d : Document) :
    (ofDocument d : Value ρ).subst f = ofDocument d := by
  rw [ofDocument, ofDocument, subst_subst]
  congr 1
  funext label
  exact label.elim

theorem substEntries_elim (f : ρ → Value σ) (es : Entries Empty) :
    substEntries f (substEntries Empty.elim es) = substEntries Empty.elim es := by
  rw [substEntries_substEntries]
  congr 1
  funext label
  exact label.elim

theorem ofDocument_self (d : Document) : (ofDocument d : Document) = d := by
  have hlabel : (Empty.elim : Empty → Document) = .ref := funext fun label => label.elim
  rw [ofDocument, hlabel, subst_ref]

theorem substEntries_elim_self (es : Entries Empty) :
    substEntries (Empty.elim : Empty → Document) es = es := by
  have hlabel : (Empty.elim : Empty → Document) = .ref := funext fun label => label.elim
  rw [hlabel, substEntries_ref]

theorem text?_subst {f : ρ → Value σ} (hf : ∀ label, (f label).text? = none) (v : Value ρ) :
    (v.subst f).text? = v.text? := by
  cases v with
  | ref label => exact hf label
  | scalar s => cases s <;> rfl
  | list items => rfl
  | map entries => rfl

theorem text?_ofDocument (d : Document) : (ofDocument d : Value ρ).text? = d.text? :=
  text?_subst (fun label => label.elim) d

/-! ### References in a value -/

mutual

/-- The labels of the references in a value, in order. -/
def labels : Value ρ → List ρ
  | .scalar _ => []
  | .list items => itemLabels items
  | .map entries => entryLabels entries
  | .ref label => [label]

def itemLabels : List (Value ρ) → List ρ
  | [] => []
  | item :: rest => labels item ++ itemLabels rest

def entryLabels : Entries ρ → List ρ
  | [] => []
  | (_, value) :: rest => labels value ++ entryLabels rest

end

mutual

/-- A substitution matters only at the references that a value has. -/
theorem subst_congr {f g : ρ → Value σ} : ∀ v : Value ρ, (∀ label ∈ v.labels, f label = g label) →
    v.subst f = v.subst g
  | .scalar _, _ => rfl
  | .list items, h => by rw [subst, subst, substItems_congr items h]
  | .map entries, h => by rw [subst, subst, substEntries_congr entries h]
  | .ref label, h => h label (List.mem_singleton.2 rfl)

theorem substItems_congr {f g : ρ → Value σ} : ∀ items : List (Value ρ),
    (∀ label ∈ itemLabels items, f label = g label) → substItems f items = substItems g items
  | [], _ => rfl
  | item :: rest, h => by
    rw [substItems, substItems,
      subst_congr item fun label hlabel => h label (List.mem_append_left _ hlabel),
      substItems_congr rest fun label hlabel => h label (List.mem_append_right _ hlabel)]

theorem substEntries_congr {f g : ρ → Value σ} : ∀ entries : Entries ρ,
    (∀ label ∈ entryLabels entries, f label = g label) →
      substEntries f entries = substEntries g entries
  | [], _ => rfl
  | (key, value) :: rest, h => by
    rw [substEntries, substEntries,
      subst_congr value fun label hlabel => h label (List.mem_append_left _ hlabel),
      substEntries_congr rest fun label hlabel => h label (List.mem_append_right _ hlabel)]

end

theorem relabel_eq_self {f : ρ → ρ} {v : Value ρ} (h : ∀ label ∈ v.labels, f label = label) :
    v.relabel f = v :=
  (subst_congr v fun label hlabel => congrArg ref (h label hlabel)).trans (subst_ref v)

mutual

theorem labels_subst (f : ρ → Value σ) : ∀ v : Value ρ,
    (v.subst f).labels = v.labels.flatMap fun label => (f label).labels
  | .scalar _ => rfl
  | .list items => by rw [subst, labels, labels, itemLabels_substItems f items]
  | .map entries => by rw [subst, labels, labels, entryLabels_substEntries f entries]
  | .ref label => by rw [subst, labels, List.flatMap_cons, List.flatMap_nil, List.append_nil]

theorem itemLabels_substItems (f : ρ → Value σ) : ∀ items : List (Value ρ),
    itemLabels (substItems f items) = (itemLabels items).flatMap fun label => (f label).labels
  | [] => rfl
  | item :: rest => by
    rw [substItems, itemLabels, itemLabels, labels_subst f item, itemLabels_substItems f rest,
      List.flatMap_append]

theorem entryLabels_substEntries (f : ρ → Value σ) : ∀ entries : Entries ρ,
    entryLabels (substEntries f entries) = (entryLabels entries).flatMap fun label => (f label).labels
  | [] => rfl
  | (key, value) :: rest => by
    rw [substEntries, entryLabels, entryLabels, labels_subst f value,
      entryLabels_substEntries f rest, List.flatMap_append]

end

theorem labels_ofDocument (d : Document) : (ofDocument d : Value ρ).labels = [] := by
  rw [ofDocument, labels_subst, List.flatMap_eq_nil_iff]
  intro label
  exact label.elim

theorem mem_entryLabels {label : ρ} {entries : Entries ρ} :
    label ∈ entryLabels entries ↔ ∃ entry ∈ entries, label ∈ entry.2.labels := by
  induction entries with
  | nil => simp [entryLabels]
  | cons entry rest ih => simp [entryLabels, ih]

end Value

namespace Entries

theorem get?_substEntries (f : ρ → Value σ) (key : Text) (entries : Entries ρ) :
    get? key (Value.substEntries f entries) = (get? key entries).map (Value.subst f) := by
  rw [Value.substEntries_eq_map, get?_mapValues fun _ value => value.subst f]

theorem contains_substEntries (f : ρ → Value σ) (key : Text) (entries : Entries ρ) :
    contains key (Value.substEntries f entries) = contains key entries := by
  rw [Value.substEntries_eq_map, contains_mapValues fun _ value => value.subst f]

theorem substEntries_insert (f : ρ → Value σ) (key : Text) (value : Value ρ) (entries : Entries ρ) :
    Value.substEntries f (insert (.text key) value entries) =
      insert (.text key) (value.subst f) (Value.substEntries f entries) := by
  cases hcontains : contains key entries with
  | true =>
    rw [insert_of_contains value hcontains,
      insert_of_contains _ ((contains_substEntries f key entries).trans hcontains),
      Value.substEntries_eq_map, Value.substEntries_eq_map, List.map_map, List.map_map]
    refine List.map_congr_left fun entry _ => ?_
    simp only [Function.comp]
    split <;> rfl
  | false =>
    rw [insert_of_not_contains value hcontains,
      insert_of_not_contains _ ((contains_substEntries f key entries).trans hcontains),
      Value.substEntries_eq_map, Value.substEntries_eq_map, List.map_append]
    rfl

/-- Without schemas outside the registry, copies are the entries themselves. -/
theorem copied_eq (entries : Entries (Link Empty)) : copied entries = entries := by
  rw [copied]
  refine (List.map_congr_left fun entry _ => ?_).trans (List.map_id entries)
  obtain ⟨key, value⟩ := entry
  match value with
  | .ref (.component name) => rfl
  | .ref (.identifier schema _) => exact schema.elim
  | .scalar s => rfl
  | .list items => rfl
  | .map es => rfl

end Entries

end NamedSchemas
