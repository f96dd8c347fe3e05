import NamedSchemas.Proofs.Extraction.Schemas
/-!
# Filling twice

What was put in the places of parts can be replaced again: the values that are put there last are
the ones that stay. So a schema in which those inside were exchanged is taken apart and put together
like the one that it came from. It is read by a few keys only, and of those that tell its role just
one leads to a schema inside: the items of an array, which have to stay a map.
-/

namespace NamedSchemas

namespace Traversal

variable {ι ρ : Type}

theorem length_parts_fill (t : Traversal ι) {v : Value ρ} {ws : List (Value ρ)}
    (h : ws.length = (t.parts v).length) : (t.parts (t.fill v ws)).length = (t.parts v).length := by
  rw [t.parts_fill v ws h, List.length_zip, List.length_map, h, Nat.min_self]

/-- The values that are put in the places of the parts last are the ones that stay. -/
def Refills (t : Traversal ι) : Prop :=
  ∀ {ρ : Type} (v : Value ρ) (ws xs : List (Value ρ)), ws.length = (t.parts v).length →
    xs.length = (t.parts v).length → t.fill (t.fill v ws) xs = t.fill v xs

theorem refills_skip : (skip : Traversal ι).Refills := fun _ _ _ _ _ => rfl

theorem refills_here (place : ι) : (here place).Refills := by
  intro ρ v ws xs _ hxs
  match xs, hxs with
  | [x], _ => rfl

/-! ### Entries of a map -/

section Phases

variable {late : Scalar → Bool} {t : Scalar → Traversal ι}

private theorem length_take_drop {α : Type} {xs : List α} {m n : Nat} (h : xs.length = m + n) :
    (xs.take m).length = m ∧ (xs.drop m).length = n := by
  rw [List.length_take, List.length_drop]
  omega

theorem length_phaseParts_fillPhase {phase : Bool} {es : Entries ρ} {ws : List (Value ρ)}
    (h : ws.length = (phaseParts late t phase es).length) :
    (phaseParts late t phase (fillPhase late t phase es ws)).length =
      (phaseParts late t phase es).length := by
  rw [phaseParts_fillPhase_self phase es ws h, List.length_zip, List.length_map, h, Nat.min_self]

theorem fillPhase_fillPhase (ht : ∀ key, (t key).Refills) (phase : Bool) (es : Entries ρ)
    {ws xs : List (Value ρ)} (hws : ws.length = (phaseParts late t phase es).length)
    (hxs : xs.length = (phaseParts late t phase es).length) :
    fillPhase late t phase (fillPhase late t phase es ws) xs = fillPhase late t phase es xs := by
  induction es generalizing ws xs with
  | nil => rfl
  | cons entry rest ih =>
    obtain ⟨key, value⟩ := entry
    by_cases hphase : late key = phase
    · simp only [phaseParts, hphase, if_true, List.length_append] at hws hxs
      obtain ⟨hws, hwsRest⟩ := length_take_drop hws
      obtain ⟨hxs, hxsRest⟩ := length_take_drop hxs
      simp only [fillPhase, hphase, if_true, (t key).length_parts_fill hws,
        ht key value _ _ hws hxs, ih hwsRest hxsRest]
    · simp only [phaseParts, hphase, if_false, List.nil_append] at hws hxs
      simp only [fillPhase, hphase, if_false, ih hws hxs]

theorem fillPhase_comm {phase other : Bool} (hne : other ≠ phase) (es : Entries ρ)
    (ws xs : List (Value ρ)) :
    fillPhase late t other (fillPhase late t phase es ws) xs =
      fillPhase late t phase (fillPhase late t other es xs) ws := by
  induction es generalizing ws xs with
  | nil => rfl
  | cons entry rest ih =>
    obtain ⟨key, value⟩ := entry
    by_cases hphase : late key = phase
    · simp only [fillPhase, hphase, hne.symm, if_true, if_false, ih]
    · by_cases hother : late key = other
      · simp only [fillPhase, hother, hne, if_true, if_false, ih]
      · simp only [fillPhase, hphase, hother, if_false, ih]

theorem refills_entries (ht : ∀ key, (t key).Refills) : (entries late t).Refills := by
  intro ρ v ws xs hws hxs
  cases v with
  | map es =>
    have hparts : ((entries late t).parts (.map es)).length =
        (phaseParts late t false es).length + (phaseParts late t true es).length :=
      List.length_append
    rw [hparts] at hws hxs
    obtain ⟨hws, hwsLate⟩ := length_take_drop hws
    obtain ⟨hxs, hxsLate⟩ := length_take_drop hxs
    have hlate : ∀ {ys : List (Value ρ)},
        phaseParts late t true (fillPhase late t false es ys) = phaseParts late t true es :=
      phaseParts_fillPhase_of_ne (by decide) es _
    have hearly : (phaseParts late t false (fillEntries late t es ws)).length =
        (phaseParts late t false es).length := by
      rw [fillEntries, phaseParts_fillPhase_of_ne (by decide),
        length_phaseParts_fillPhase hws]
    show Value.map (fillEntries late t (fillEntries late t es ws) xs) =
      Value.map (fillEntries late t es xs)
    rw [fillEntries, hearly, fillEntries, fillPhase_comm (show false ≠ true by decide),
      fillPhase_fillPhase ht false es hws hxs,
      fillPhase_fillPhase ht true _ (by rw [hlate, hwsLate]) (by rw [hlate, hxsLate]),
      fillEntries]
  | scalar s => rfl
  | list items => rfl
  | ref label => rfl

end Phases

/-! ### Schemas -/

theorem refills_atKey {key : Text} {t : Traversal ι} (ht : t.Refills) : (atKey key t).Refills := by
  apply refills_entries
  intro k
  split
  · exact ht
  · exact refills_skip

theorem refills_inner (role : SchemaRole) : (inner role).Refills := by
  cases role with
  | inline => exact refills_skip
  | single => exact refills_skip
  | wrapper => exact refills_atKey (refills_here _)
  | object => exact refills_atKey (refills_entries fun key => refills_here _)

end Traversal

/-! ### Keys of schemas -/

def roleKeys : List Text := ["$ref", "type", "items", "enum"]

def innerKeys : List Text := ["items", propertiesKey]

theorem ne_identifierKey : ∀ key ∈ roleKeys, key ≠ identifierKey := by decide +kernel

theorem identifierKey_not_mem_innerKeys : identifierKey ∉ innerKeys := by decide +kernel

theorem reference_not_mem_innerKeys : Text.ofString "$ref" ∉ innerKeys := by decide +kernel

theorem type_not_mem_innerKeys : Text.ofString "type" ∉ innerKeys := by decide +kernel

theorem Value.role_eq_of_get? {es fs : Entries Empty}
    (h : ∀ key ∈ roleKeys, Entries.get? key fs = Entries.get? key es) :
    role (.map fs) = role (.map es) := by
  simp only [roleKeys, List.forall_mem_cons] at h
  obtain ⟨hreference, htype, hitems, henum, -⟩ := h
  rw [role, role, Entries.isReference, hreference, ← Entries.isReference, SchemaKind.of, htype,
    ← SchemaKind.of, hitems, Entries.contains_eq_isSome_get?, Entries.contains_eq_isSome_get?, henum]

namespace Traversal

section Inner

variable {key : Text} (hkey : key ∉ innerKeys) (role : SchemaRole)

include hkey

theorem ne_of_not_mem_innerKeys : key ≠ Text.ofString "items" ∧ key ≠ propertiesKey := by
  rwa [innerKeys, List.mem_cons, List.mem_singleton, not_or] at hkey

theorem fill_inner_insert (value : Value ρ) (es : Entries ρ) (ws : List (Value ρ)) :
    (inner role).fill (.map (Entries.insert (.text key) value es)) ws =
      .map (Entries.insert (.text key) value ((inner role).fill (.map es) ws).entries) := by
  obtain ⟨hitems, hproperties⟩ := ne_of_not_mem_innerKeys hkey
  cases role with
  | inline => rfl
  | single => rfl
  | wrapper => exact fill_insert hitems _ value es ws
  | object => exact fill_insert hproperties _ value es ws

theorem parts_inner_insert (value : Value ρ) (es : Entries ρ) :
    (inner role).parts (.map (Entries.insert (.text key) value es)) =
      (inner role).parts (.map es) := by
  obtain ⟨hitems, hproperties⟩ := ne_of_not_mem_innerKeys hkey
  cases role with
  | inline => rfl
  | single => rfl
  | wrapper => exact parts_insert hitems _ value es
  | object => exact parts_insert hproperties _ value es

theorem get?_fill_inner (es : Entries ρ) (ws : List (Value ρ)) :
    Entries.get? key ((inner role).fill (.map es) ws).entries = Entries.get? key es := by
  obtain ⟨hitems, hproperties⟩ := ne_of_not_mem_innerKeys hkey
  cases role with
  | inline => rfl
  | single => rfl
  | wrapper => exact get?_fill hitems _ es ws
  | object => exact get?_fill hproperties _ es ws

end Inner

theorem forall₂_fill_atKey_here {Q : Value ρ → Value ρ → Prop} {key : Text}
    {place : ι} {es : Entries ρ} {ws : List (Value ρ)}
    (h : List.Forall₂ (fun part w => Q part.2 w) ((atKey key (here place)).parts (.map es)) ws) :
    ∃ fs, (atKey key (here place)).fill (.map es) ws = .map fs ∧
      List.Forall₂ (fun e f => e.1 = f.1 ∧ (e.1 = .text key → Q e.2 f.2)) es fs := by
  refine ⟨_, rfl, List.Forall₂.imp (fun e f hef => ⟨hef.1, fun hkey => ?_⟩)
    (forall₂_fillEntries (Q := Q) h)⟩
  obtain ⟨vs, hvs, hfill⟩ := hef.2
  rw [if_pos hkey] at hvs hfill
  match vs, hvs with
  | [w], .cons hw _ => exact hfill ▸ hw

end Traversal

theorem Entries.any_get?_of_forall₂ {ρ : Type} {p : Value ρ → Bool} {key : Text} {es fs : Entries ρ}
    (h : List.Forall₂ (fun e f => e.1 = f.1 ∧ (e.1 = .text key → p e.2 = true → p f.2 = true)) es fs) :
    (get? key es).any p = true → (get? key fs).any p = true := by
  induction h with
  | nil => exact id
  | @cons e f es fs hentry _ ih =>
    obtain ⟨k, v⟩ := e
    obtain ⟨_, w⟩ := f
    obtain ⟨rfl, hkept⟩ := hentry
    rw [get?_cons, get?_cons]
    split
    · next hkey => exact hkept hkey
    · exact ih

namespace Value

/-! ### Schemas with others inside -/

theorem withInner_eq (d : Document) (ws : List Document) :
    d.withInner ws = (Traversal.inner d.role).fill d ws := by
  rw [withInner, ofDocument_self]

theorem role_eq_object_iff {es : Entries Empty} : role (.map es) = .object ↔
    Entries.isReference es = false ∧ SchemaKind.of es = .object := by
  rw [role]
  cases Entries.isReference es with
  | true => simp
  | false =>
    cases SchemaKind.of es <;> simp
    all_goals split <;> simp

theorem role_eq_wrapper_iff {es : Entries Empty} : role (.map es) = .wrapper ↔
    Entries.isReference es = false ∧ SchemaKind.of es = .array ∧
      (Entries.get? "items" es).any isMap = true := by
  rw [role]
  cases Entries.isReference es with
  | true => simp
  | false =>
    cases SchemaKind.of es <;> simp
    split <;> simp

/-- The values are maps where the schemas inside are. -/
def KeepsMaps (d : Document) (ws : List Document) : Prop :=
  List.Forall₂ (fun part w => part.2.isMap = true → w.isMap = true) d.inner ws

/-- A schema keeps its role when maps are put in the places of the maps inside it. -/
theorem role_withInner {d : Document} {ws : List Document} (h : d.KeepsMaps ws) :
    (d.withInner ws : Document).role = d.role := by
  rw [KeepsMaps, inner] at h
  rw [withInner_eq]
  cases d with
  | map es =>
    have hreference : Entries.isReference ((Traversal.inner (role (.map es))).fill (.map es) ws).entries
        = Entries.isReference es := by
      rw [Entries.isReference, Traversal.get?_fill_inner reference_not_mem_innerKeys,
        ← Entries.isReference]
    have hkind : SchemaKind.of ((Traversal.inner (role (.map es))).fill (.map es) ws).entries =
        SchemaKind.of es := by
      rw [SchemaKind.of, Traversal.get?_fill_inner type_not_mem_innerKeys, ← SchemaKind.of]
    cases hrole : role (.map es) with
    | inline => exact hrole
    | single => exact hrole
    | object =>
      rw [hrole] at hreference hkind
      obtain ⟨hnone, hobject⟩ := role_eq_object_iff.1 hrole
      exact role_eq_object_iff.2 ⟨hreference.trans hnone, hkind.trans hobject⟩
    | wrapper =>
      rw [hrole] at h hreference hkind
      obtain ⟨hnone, harray, hitems⟩ := role_eq_wrapper_iff.1 hrole
      obtain ⟨fs, hfill, hfs⟩ := Traversal.forall₂_fill_atKey_here
        (Q := fun v w => v.isMap = true → w.isMap = true) h
      rw [Traversal.inner, hfill] at hreference hkind ⊢
      exact role_eq_wrapper_iff.2 ⟨hreference.trans hnone, hkind.trans harray,
        Entries.any_get?_of_forall₂ hfs hitems⟩
  | scalar s => rfl
  | list items => rfl
  | ref label => exact label.elim

section WithInner

variable {d : Document} {ws : List Document} (h : d.KeepsMaps ws)

include h

theorem inner_withInner : (d.withInner ws : Document).inner = (d.inner.map Prod.fst).zip ws := by
  rw [inner, role_withInner h, withInner_eq, Traversal.parts_fill _ _ _ h.length_eq.symm, inner]

theorem withInner_withInner {xs : List Document} (hxs : xs.length = d.inner.length) :
    (d.withInner ws : Document).withInner xs = (d.withInner xs : Document) := by
  rw [withInner_eq, role_withInner h, withInner_eq,
    Traversal.refills_inner _ _ _ _ h.length_eq.symm hxs, withInner_eq]

end WithInner

end Value

end NamedSchemas
