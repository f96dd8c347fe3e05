import Mathlib.Data.List.Nodup
import NamedSchemas.Table
/-!
# Tables as lists of entries

A table is its list of entries. A new key goes to the end of the list, and taking it out again or
changing its value touches no other entry.
-/

namespace NamedSchemas.Table

variable {κ ν μ : Type}

theorem ext {t u : Table κ ν} (h : t.entries = u.entries) : t = u := by
  cases t
  cases u
  cases h
  rfl

@[simp] theorem entries_empty : (∅ : Table κ ν).entries = [] := rfl

@[simp] theorem keys_empty : (∅ : Table κ ν).keys = [] := rfl

theorem nodup_keys (t : Table κ ν) : t.keys.Nodup := t.nodup

@[simp] theorem entries_mapValues (f : κ → ν → μ) (t : Table κ ν) :
    (t.mapValues f).entries = t.entries.map fun entry => (entry.1, f entry.1 entry.2) := rfl

@[simp] theorem keys_mapValues (f : κ → ν → μ) (t : Table κ ν) : (t.mapValues f).keys = t.keys := by
  simp only [keys, entries_mapValues, List.map_map]
  rfl

theorem mem_keys_of_mem {t : Table κ ν} {key : κ} {value : ν} (h : (key, value) ∈ t.entries) :
    key ∈ t.keys := List.mem_map.2 ⟨_, h, rfl⟩

theorem value_unique {t : Table κ ν} {key : κ} {v w : ν} (hv : (key, v) ∈ t.entries)
    (hw : (key, w) ∈ t.entries) : v = w := by
  have hpairwise := List.pairwise_map.1 t.nodup
  obtain ⟨entries, hnodup⟩ := t
  induction entries with
  | nil => cases hv
  | cons entry rest ih =>
    rw [List.pairwise_cons] at hpairwise
    rcases List.mem_cons.1 hv with rfl | hv'
    · rcases List.mem_cons.1 hw with heq | hw'
      · exact (Prod.mk.inj heq).2.symm
      · exact absurd rfl (hpairwise.1 (key, w) hw')
    · rcases List.mem_cons.1 hw with rfl | hw'
      · exact absurd rfl (hpairwise.1 (key, v) hv')
      · exact ih (List.nodup_cons.1 hnodup).2 hv' hw' hpairwise.2

variable [DecidableEq κ]

theorem get?_eq_some_iff {t : Table κ ν} {key : κ} {value : ν} :
    t.get? key = some value ↔ (key, value) ∈ t.entries := by
  constructor
  · intro h
    rw [get?, Option.map_eq_some_iff] at h
    obtain ⟨⟨k, v⟩, hfind, rfl⟩ := h
    have hkey := List.find?_some hfind
    simp only [decide_eq_true_eq] at hkey
    rw [← hkey]
    exact List.mem_of_find?_eq_some hfind
  · intro h
    cases hfind : t.entries.find? fun entry => entry.1 = key with
    | none =>
      rw [List.find?_eq_none] at hfind
      exact absurd (by simp) (hfind _ h)
    | some entry =>
      obtain ⟨k, v⟩ := entry
      have hkey := List.find?_some hfind
      simp only [decide_eq_true_eq] at hkey
      subst hkey
      rw [get?, hfind, Option.map_some, value_unique (List.mem_of_find?_eq_some hfind) h]

theorem get?_eq_none_iff {t : Table κ ν} {key : κ} : t.get? key = none ↔ key ∉ t.keys := by
  rw [get?, Option.map_eq_none_iff, List.find?_eq_none, keys, List.mem_map]
  constructor
  · rintro h ⟨entry, hentry, rfl⟩
    exact h entry hentry (by simp)
  · intro h entry hentry hkey
    exact h ⟨entry, hentry, of_decide_eq_true hkey⟩

theorem get?_isSome_iff {t : Table κ ν} {key : κ} : (t.get? key).isSome = true ↔ key ∈ t.keys := by
  cases hget : t.get? key with
  | none => simp [get?_eq_none_iff.1 hget]
  | some value => simp [mem_keys_of_mem (get?_eq_some_iff.1 hget)]

theorem exists_get?_of_mem {t : Table κ ν} {key : κ} (h : key ∈ t.keys) :
    ∃ value, t.get? key = some value := Option.isSome_iff_exists.1 (get?_isSome_iff.2 h)

/-- Looking up a key in a table that was made of a list is finding it in the list. -/
theorem get?_of_entries {α : Type} {t : Table κ ν} {xs : List α} {f : α → κ} {g : α → ν}
    (h : t.entries = xs.map fun x => (f x, g x)) (key : κ) :
    t.get? key = (xs.find? fun x => f x = key).map g := by
  rw [get?, h, List.find?_map, Option.map_map]
  rfl

theorem find?_of_nodup {α : Type} {xs : List α} {f : α → κ} (h : (xs.map f).Nodup) {x : α}
    (hx : x ∈ xs) : (xs.find? fun y => f y = f x) = some x := by
  cases hfind : xs.find? fun y => f y = f x with
  | none =>
    rw [List.find?_eq_none] at hfind
    exact absurd (by simp) (hfind x hx)
  | some y =>
    have hkey := List.find?_some hfind
    rw [decide_eq_true_eq] at hkey
    rw [List.inj_on_of_nodup_map h (List.mem_of_find?_eq_some hfind) hx hkey]

theorem contains_iff {t : Table κ ν} {key : κ} : t.contains key = true ↔ key ∈ t.keys :=
  decide_eq_true_iff

theorem entries_insert_of_new {t : Table κ ν} {key : κ} (value : ν) (h : key ∉ t.keys) :
    (t.insert key value).entries = t.entries ++ [(key, value)] := by
  rw [insert, dif_neg h]

theorem entries_insert_of_mem {t : Table κ ν} {key : κ} (value : ν) (h : key ∈ t.keys) :
    (t.insert key value).entries =
      t.entries.map fun entry => (entry.1, if entry.1 = key then value else entry.2) := by
  rw [insert, dif_pos h, entries_mapValues]

theorem keys_insert_of_new {t : Table κ ν} {key : κ} (value : ν) (h : key ∉ t.keys) :
    (t.insert key value).keys = t.keys ++ [key] := by
  rw [keys, entries_insert_of_new value h, List.map_append]
  rfl

theorem keys_insert_of_mem {t : Table κ ν} {key : κ} (value : ν) (h : key ∈ t.keys) :
    (t.insert key value).keys = t.keys := by
  rw [insert, dif_pos h, keys_mapValues]

theorem mem_keys_insert {t : Table κ ν} {key other : κ} {value : ν} :
    other ∈ (t.insert key value).keys ↔ other = key ∨ other ∈ t.keys := by
  by_cases h : key ∈ t.keys
  · rw [keys_insert_of_mem value h]
    constructor
    · exact Or.inr
    · rintro (rfl | hother)
      · exact h
      · exact hother
  · rw [keys_insert_of_new value h, List.mem_append, List.mem_singleton, or_comm]

theorem mem_keys_insert_self (t : Table κ ν) (key : κ) (value : ν) :
    key ∈ (t.insert key value).keys :=
  mem_keys_insert.2 (Or.inl rfl)

theorem mem_keys_insert_of_mem {t : Table κ ν} {other : κ} (key : κ) (value : ν)
    (h : other ∈ t.keys) : other ∈ (t.insert key value).keys :=
  mem_keys_insert.2 (Or.inr h)

theorem mem_entries_insert {t : Table κ ν} {key : κ} {value : ν} {entry : κ × ν}
    (h : entry ∈ (t.insert key value).entries) : entry = (key, value) ∨ entry ∈ t.entries := by
  by_cases hkey : key ∈ t.keys
  · rw [entries_insert_of_mem value hkey] at h
    obtain ⟨old, hold, rfl⟩ := List.mem_map.1 h
    by_cases hsame : old.1 = key
    · exact Or.inl (Prod.ext hsame (if_pos hsame))
    · exact Or.inr (by rw [if_neg hsame]; exact hold)
  · rw [entries_insert_of_new value hkey, List.mem_append, List.mem_singleton] at h
    exact h.symm

theorem forall_mem_keys_insert {t : Table κ ν} {key : κ} {value : ν} {P : κ → Prop} (hkey : P key)
    (h : ∀ other ∈ t.keys, P other) : ∀ other ∈ (t.insert key value).keys, P other := by
  intro other hother
  rcases mem_keys_insert.1 hother with rfl | hkept
  · exact hkey
  · exact h other hkept

theorem forall_mem_insert {t : Table κ ν} {key : κ} {value : ν} {P : κ × ν → Prop}
    (hvalue : P (key, value)) (h : ∀ entry ∈ t.entries, P entry) :
    ∀ entry ∈ (t.insert key value).entries, P entry := by
  intro entry hentry
  rcases mem_entries_insert hentry with rfl | hkept
  · exact hvalue
  · exact h entry hkept

theorem keys_erase (t : Table κ ν) (key : κ) : (t.erase key).keys = t.keys.filter (· ≠ key) := by
  rw [keys, keys, erase, List.filter_map]
  rfl

theorem mem_keys_erase {t : Table κ ν} {key other : κ} :
    other ∈ (t.erase key).keys ↔ other ∈ t.keys ∧ other ≠ key := by
  rw [keys_erase, List.mem_filter, decide_eq_true_eq]

theorem get?_insert (t : Table κ ν) (key other : κ) (value : ν) :
    (t.insert key value).get? other = if other = key then some value else t.get? other := by
  by_cases hkey : key ∈ t.keys
  · have hentries := entries_insert_of_mem value hkey
    rw [get?_of_entries (t := t.insert key value) (f := Prod.fst)
      (g := fun entry => if entry.1 = key then value else entry.2) hentries]
    split
    · next heq =>
      subst heq
      obtain ⟨old, hold⟩ := exists_get?_of_mem hkey
      have hfind := find?_of_nodup t.nodup (get?_eq_some_iff.1 hold)
      rw [hfind, Option.map_some, if_pos rfl]
    · next hne =>
      rw [get?]
      cases hfind : t.entries.find? fun entry => entry.1 = other with
      | none => rfl
      | some entry =>
        have hother := List.find?_some hfind
        rw [decide_eq_true_eq] at hother
        rw [Option.map_some, Option.map_some, if_neg (by rw [hother]; exact hne)]
  · rw [get?, entries_insert_of_new value hkey, List.find?_append, get?]
    split
    · next heq =>
      subst heq
      have hnone := get?_eq_none_iff.2 hkey
      rw [get?, Option.map_eq_none_iff] at hnone
      rw [hnone, Option.none_or, List.find?_cons_of_pos (by simp)]
      rfl
    · next hne =>
      rw [List.find?_cons_of_neg (by simpa using fun heq => hne heq.symm), List.find?_nil,
        Option.or_none]

theorem get?_insert_self (t : Table κ ν) (key : κ) (value : ν) :
    (t.insert key value).get? key = some value := by
  rw [get?_insert, if_pos rfl]

theorem get?_insert_of_ne (t : Table κ ν) {key other : κ} (value : ν) (h : other ≠ key) :
    (t.insert key value).get? other = t.get? other := by
  rw [get?_insert, if_neg h]

theorem get?_erase_of_ne (t : Table κ ν) {key other : κ} (h : other ≠ key) :
    (t.erase key).get? other = t.get? other := by
  rw [get?, get?, erase, List.find?_filter]
  congr 2
  funext entry
  by_cases hother : entry.1 = other
  · simp [hother, h]
  · simp [hother]

theorem get?_mapValues (f : κ → ν → μ) (t : Table κ ν) (key : κ) :
    (t.mapValues f).get? key = (t.get? key).map (f key) := by
  rw [get?_of_entries (t := t.mapValues f) (f := Prod.fst) (entries_mapValues f t), get?,
    Option.map_map]
  cases hfind : t.entries.find? fun entry => entry.1 = key with
  | none => rfl
  | some entry =>
    have hkey := List.find?_some hfind
    rw [decide_eq_true_eq] at hkey
    rw [Option.map_some, Option.map_some, Function.comp_apply, hkey]

theorem mapValues_insert (f : ν → μ) (t : Table κ ν) (key : κ) (value : ν) :
    ((t.insert key value).mapValues fun _ v => f v) =
      (t.mapValues fun _ v => f v).insert key (f value) := by
  apply ext
  by_cases hkey : key ∈ t.keys
  · rw [entries_mapValues, entries_insert_of_mem value hkey,
      entries_insert_of_mem (f value) (by rwa [keys_mapValues]), entries_mapValues, List.map_map,
      List.map_map]
    refine List.map_congr_left fun entry _ => ?_
    simp only [Function.comp_apply, apply_ite f]
  · rw [entries_mapValues, entries_insert_of_new value hkey,
      entries_insert_of_new (f value) (by rwa [keys_mapValues]), List.map_append, entries_mapValues]
    rfl

theorem mapValues_erase (f : ν → μ) (t : Table κ ν) (key : κ) :
    ((t.erase key).mapValues fun _ v => f v) = (t.mapValues fun _ v => f v).erase key := by
  apply ext
  show (t.entries.filter _).map _ = (t.entries.map _).filter _
  rw [List.filter_map]
  rfl

/-- What is added to the list under a key goes to the end of that list. -/
theorem entries_insert_append {t : Table κ (List ν)} {key : κ} {values : List ν}
    (h : t.get? key = some values) (more : List ν) : (t.insert key (values ++ more)).entries =
      t.entries.map fun entry => (entry.1, entry.2 ++ if entry.1 = key then more else []) := by
  have hentry := get?_eq_some_iff.1 h
  rw [entries_insert_of_mem _ (mem_keys_of_mem hentry)]
  refine List.map_congr_left fun entry hmem => ?_
  by_cases hkey : entry.1 = key
  · subst hkey
    rw [if_pos rfl, if_pos rfl, value_unique hmem hentry]
  · rw [if_neg hkey, if_neg hkey, List.append_nil]

/-- An entry that is moved to a new key goes to the end. -/
theorem keys_move (t : Table κ ν) {old new : κ} (value : ν) (hnew : new ∉ t.keys) :
    ((t.erase old).insert new value).keys = t.keys.filter (· ≠ old) ++ [new] := by
  rw [keys_insert_of_new _ fun h => hnew (mem_keys_erase.1 h).1, keys_erase]

end NamedSchemas.Table
