import NamedSchemas.Value.Basic
/-!
# Entries of maps

How a key is looked up and what becomes of a map when a value is put under a text key: the key keeps
its place when it is there and goes to the end when it is not.
-/

namespace NamedSchemas

theorem Scalar.sameKey_text (s : Scalar) (t : Text) :
    s.sameKey (.text t) = decide (s = .text t) := by
  cases s <;> simp [Scalar.sameKey, Bool.beq_eq_decide_eq]

namespace Entries

variable {ρ σ : Type} {key : Text} {entries rest : Entries ρ}

@[simp] theorem get?_nil : get? key ([] : Entries ρ) = none := rfl

theorem get?_cons (k : Scalar) (value : Value ρ) :
    get? key ((k, value) :: rest) = if k = .text key then some value else get? key rest := by
  by_cases h : k = .text key <;> simp [get?, h]

@[simp] theorem contains_nil : contains key ([] : Entries ρ) = false := rfl

theorem contains_cons (k : Scalar) (value : Value ρ) :
    contains key ((k, value) :: rest) = (decide (k = .text key) || contains key rest) := rfl

theorem contains_eq_isSome_get? : contains key entries = (get? key entries).isSome := by
  induction entries with
  | nil => rfl
  | cons entry rest ih =>
    obtain ⟨k, value⟩ := entry
    rw [contains_cons, get?_cons, ih]
    by_cases h : k = .text key <;> simp [h]

theorem get?_eq_none_iff : get? key entries = none ↔ ∀ entry ∈ entries, entry.1 ≠ .text key := by
  simp [get?]

theorem mem_of_get?_eq_some {value : Value ρ} (h : get? key entries = some value) :
    (.text key, value) ∈ entries := by
  obtain ⟨entry, hfind, rfl⟩ := Option.map_eq_some_iff.1 h
  have hkey := List.find?_some hfind
  rw [decide_eq_true_eq] at hkey
  rw [← hkey]
  exact List.mem_of_find?_eq_some hfind

theorem get?_append (more : Entries ρ) :
    get? key (entries ++ more) = (get? key entries).or (get? key more) := by
  simp only [get?, List.find?_append]
  cases entries.find? fun entry => entry.1 = .text key <;> rfl

theorem get?_mapValues (f : Scalar → Value ρ → Value σ) :
    get? key (entries.map fun entry => (entry.1, f entry.1 entry.2)) =
      (get? key entries).map (f (.text key)) := by
  induction entries with
  | nil => rfl
  | cons entry rest ih =>
    obtain ⟨k, value⟩ := entry
    simp only [List.map_cons, get?_cons]
    split
    · next hk => rw [hk, Option.map_some]
    · exact ih

theorem contains_mapValues (f : Scalar → Value ρ → Value σ) :
    contains key (entries.map fun entry => (entry.1, f entry.1 entry.2)) = contains key entries := by
  rw [contains_eq_isSome_get?, contains_eq_isSome_get?, get?_mapValues, Option.isSome_map]

/-! ### Putting a value under a key -/

theorem insert_of_contains (value : Value ρ) (h : contains key entries = true) :
    insert (.text key) value entries =
      entries.map fun entry => (entry.1, if entry.1 = .text key then value else entry.2) := by
  have hany : (entries.any fun entry => decide (entry.1 = .text key)) = true := h
  simp only [insert, insertBy, Scalar.sameKey_text, decide_eq_true_eq, hany, if_true]
  refine List.map_congr_left fun entry _ => ?_
  split <;> rfl

theorem insert_of_not_contains (value : Value ρ) (h : contains key entries = false) :
    insert (.text key) value entries = entries ++ [(.text key, value)] := by
  have hany : (entries.any fun entry => decide (entry.1 = .text key)) = false := h
  simp only [insert, insertBy, Scalar.sameKey_text, hany, Bool.false_eq_true, if_false]

theorem insert_of_new (value : Value ρ) (h : ∀ entry ∈ entries, entry.1 ≠ .text key) :
    insert (.text key) value entries = entries ++ [(.text key, value)] := by
  refine insert_of_not_contains value ?_
  rw [contains_eq_isSome_get?, get?_eq_none_iff.2 h, Option.isSome_none]

theorem get?_insert_self (value : Value ρ) :
    get? key (insert (.text key) value entries) = some value := by
  cases hcontains : contains key entries with
  | true =>
    rw [contains_eq_isSome_get?, Option.isSome_iff_exists] at hcontains
    obtain ⟨old, hold⟩ := hcontains
    rw [insert_of_contains value (by rw [contains_eq_isSome_get?, hold]; rfl),
      get?_mapValues fun k old => if k = .text key then value else old, hold, Option.map_some,
      if_pos rfl]
  | false =>
    rw [insert_of_not_contains value hcontains, get?_append, get?_cons, if_pos rfl]
    rw [contains_eq_isSome_get?, Option.isSome_eq_false_iff, Option.isNone_iff_eq_none] at hcontains
    rw [hcontains]
    rfl

theorem get?_insert_of_ne {other : Text} (hne : other ≠ key) (value : Value ρ) :
    get? other (insert (.text key) value entries) = get? other entries := by
  have hkey : Scalar.text other ≠ .text key := fun heq => hne (Scalar.text.inj heq)
  cases hcontains : contains key entries with
  | true =>
    rw [insert_of_contains value hcontains,
      get?_mapValues fun k old => if k = .text key then value else old]
    cases get? other entries with
    | none => rfl
    | some old => rw [Option.map_some, if_neg hkey]
  | false =>
    rw [insert_of_not_contains value hcontains, get?_append, get?_cons, if_neg hkey.symm, get?_nil,
      Option.or_none]

theorem insert_insert (first second : Value ρ) :
    insert (.text key) second (insert (.text key) first entries) =
      insert (.text key) second entries := by
  have hnow : contains key (insert (.text key) first entries) = true := by
    rw [contains_eq_isSome_get?, get?_insert_self, Option.isSome_some]
  rw [insert_of_contains second hnow]
  cases hcontains : contains key entries with
  | true =>
    rw [insert_of_contains first hcontains, insert_of_contains second hcontains, List.map_map]
    refine List.map_congr_left fun entry _ => ?_
    simp only [Function.comp]
    split <;> rfl
  | false =>
    have hsame : entries.map (fun entry => (entry.1, if entry.1 = .text key then second
        else entry.2)) = entries := by
      rw [contains_eq_isSome_get?, Option.isSome_eq_false_iff, Option.isNone_iff_eq_none,
        get?_eq_none_iff] at hcontains
      refine (List.map_congr_left fun entry hentry => ?_).trans (List.map_id entries)
      rw [if_neg (hcontains entry hentry)]
      rfl
    rw [insert_of_not_contains first hcontains, insert_of_not_contains second hcontains,
      List.map_append, hsame, List.map_cons, List.map_nil, if_pos rfl]

end Entries

end NamedSchemas
