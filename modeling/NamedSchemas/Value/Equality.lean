import NamedSchemas.Value.Basic
/-!
# Equality of values

Values with labels that can be compared can be compared themselves.
-/

namespace NamedSchemas.Value

variable {ρ : Type} [DecidableEq ρ]

mutual

def same : Value ρ → Value ρ → Bool
  | .scalar s, .scalar t => s = t
  | .list items, .list others => sameItems items others
  | .map entries, .map others => sameEntries entries others
  | .ref label, .ref other => label = other
  | _, _ => false

def sameItems : List (Value ρ) → List (Value ρ) → Bool
  | [], [] => true
  | item :: rest, other :: others => same item other && sameItems rest others
  | _, _ => false

def sameEntries : Entries ρ → Entries ρ → Bool
  | [], [] => true
  | (key, value) :: rest, (other, w) :: others =>
    decide (key = other) && same value w && sameEntries rest others
  | _, _ => false

end

mutual

theorem same_iff : ∀ v w : Value ρ, same v w = true ↔ v = w
  | .scalar s, w => by cases w <;> simp [same]
  | .list items, w => by
    cases w with
    | list others => simp only [same, sameItems_iff items others, Value.list.injEq]
    | _ => simp [same]
  | .map entries, w => by
    cases w with
    | map others => simp only [same, sameEntries_iff entries others, Value.map.injEq]
    | _ => simp [same]
  | .ref label, w => by cases w <;> simp [same]

theorem sameItems_iff : ∀ items others : List (Value ρ),
    sameItems items others = true ↔ items = others
  | [], others => by cases others <;> simp [sameItems]
  | item :: rest, others => by
    cases others with
    | nil => simp [sameItems]
    | cons other others =>
      simp only [sameItems, Bool.and_eq_true, same_iff item other, sameItems_iff rest others,
        List.cons.injEq]

theorem sameEntries_iff : ∀ entries others : Entries ρ,
    sameEntries entries others = true ↔ entries = others
  | [], others => by cases others <;> simp [sameEntries]
  | (key, value) :: rest, others => by
    cases others with
    | nil => simp [sameEntries]
    | cons other others =>
      obtain ⟨other, w⟩ := other
      simp only [sameEntries, Bool.and_eq_true, decide_eq_true_eq, same_iff value w,
        sameEntries_iff rest others, List.cons.injEq, Prod.mk.injEq]

end

instance : DecidableEq (Value ρ) := fun v w => decidable_of_iff _ (same_iff v w)

instance : LawfulBEq (Value ρ) := inferInstance

end NamedSchemas.Value
