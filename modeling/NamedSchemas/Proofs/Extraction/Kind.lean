import NamedSchemas.Extraction.Basic
import NamedSchemas.Proofs.Value.Subst
/-!
# Kinds under substitution

A reference stands for a map. So what a schema says about its instances does not depend on what is
put in the places of its references, as long as that is a map or a reference again.
-/

namespace NamedSchemas

variable {ρ σ : Type}

/-- Is the value a map, or a reference, which stands for one? -/
def Value.standsForMap : Value ρ → Bool
  | .map _ => true
  | .ref _ => true
  | _ => false

theorem Value.text?_of_standsForMap {v : Value ρ} (h : v.standsForMap = true) : v.text? = none := by
  match v, h with
  | .map _, _ => rfl
  | .ref _, _ => rfl

variable {f : ρ → Value σ}

theorem isReference_substEntries (hf : ∀ label, (f label).text? = none) (entries : Entries ρ) :
    Entries.isReference (Value.substEntries f entries) = Entries.isReference entries := by
  rw [Entries.isReference, Entries.isReference, Entries.get?_substEntries, Option.bind_map]
  congr 2
  funext v
  exact Value.text?_subst hf v

theorem kind_substEntries (hf : ∀ label, (f label).standsForMap = true) (entries : Entries ρ) :
    SchemaKind.of (Value.substEntries f entries) = SchemaKind.of entries := by
  have hnull : ∀ v : Value ρ, SchemaKind.isNullName (v.subst f) = SchemaKind.isNullName v :=
    fun v => by rw [SchemaKind.isNullName, SchemaKind.isNullName,
      Value.text?_subst fun label => Value.text?_of_standsForMap (hf label)]
  rw [SchemaKind.of, SchemaKind.of, Entries.get?_substEntries]
  cases Entries.get? "type" entries with
  | none => rfl
  | some v =>
    cases v with
    | scalar s => cases s <;> rfl
    | map es => rfl
    | ref label =>
      have hlabel := hf label
      rw [Option.map_some, Value.subst]
      match f label, hlabel with
      | .map _, _ => rfl
      | .ref _, _ => rfl
    | list items =>
      rw [Option.map_some, Value.subst, Value.substItems_eq_map]
      simp only [List.filter_map, Function.comp_def, hnull]
      match items.filter fun item => !SchemaKind.isNullName item with
      | [] => rfl
      | [.scalar s] => cases s <;> rfl
      | [.list _] => rfl
      | [.map _] => rfl
      | [.ref label] =>
        have hlabel := hf label
        rw [List.map_cons, List.map_nil, Value.subst]
        match f label, hlabel with
        | .map _, _ => rfl
        | .ref _, _ => rfl
      | first :: second :: rest =>
        simp only [List.map_cons]
        split
        · next heq => cases (List.cons.inj heq).2
        · rfl

end NamedSchemas
