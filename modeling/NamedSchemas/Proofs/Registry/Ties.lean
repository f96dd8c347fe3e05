import NamedSchemas.Proofs.Extraction.Linkage
import NamedSchemas.Proofs.Registry.Consistency
/-!
# Tied registries

A reference is handed out for a schema that is registered. As long as the values that are passed in
refer to registered schemas only, so do the schemas of the registry and the values that are handed
out. Where identifiers are assigned, every schema has its name as its identifier as well.
-/

namespace NamedSchemas

variable {σ α β : Type}

/-! ### What values refer to -/

/-- The references in the value are to components with these names. -/
def Value.RefersTo (names : List Text) (v : Linked σ) : Prop :=
  ∀ name, .component name ∈ v.labels → name ∈ names

/-- The name of the component that a reference is to. -/
def Link.component? : Link σ → Option Text
  | .component name => some name
  | .identifier _ _ => none

theorem Link.component?_eq_some {label : Link σ} {name : Text} :
    label.component? = some name ↔ label = .component name := by
  cases label <;> simp [component?]

instance (names : List Text) (v : Linked σ) : Decidable (v.RefersTo names) :=
  decidable_of_iff (∀ name ∈ v.labels.filterMap Link.component?, name ∈ names)
    (by simp [Value.RefersTo, Link.component?_eq_some])

namespace Value.RefersTo

variable {names more : List Text} {v : Linked σ} {entries : Entries (Link σ)}

theorem mono (h : v.RefersTo names) (hsub : ∀ name ∈ names, name ∈ more) : v.RefersTo more :=
  fun name hname => hsub name (h name hname)

theorem ofDocument (d : Document) : (Value.ofDocument d : Linked σ).RefersTo names := by
  intro name hname
  rw [labels_ofDocument] at hname
  cases hname

theorem component {name : Text} (h : name ∈ names) :
    (.ref (.component name) : Linked σ).RefersTo names := by
  intro other hother
  cases List.mem_singleton.1 hother
  exact h

theorem cons_iff {key : Scalar} : (.map ((key, v) :: entries) : Linked σ).RefersTo names ↔
    v.RefersTo names ∧ (.map entries : Linked σ).RefersTo names := by
  constructor
  · exact fun h => ⟨fun name hname => h name (List.mem_append_left _ hname),
      fun name hname => h name (List.mem_append_right _ hname)⟩
  · rintro ⟨hv, hentries⟩ name hname
    exact (List.mem_append.1 hname).elim (hv name) (hentries name)

theorem copied (h : (.map entries : Linked σ).RefersTo names) :
    (.map (Entries.copied entries) : Linked σ).RefersTo names := by
  intro name hname
  obtain ⟨entry, hentry, hlabel⟩ := mem_entryLabels.1 hname
  obtain ⟨⟨key, value⟩, hold, rfl⟩ := List.mem_map.1 hentry
  refine h name (mem_entryLabels.2 ⟨(key, value), hold, ?_⟩)
  match value, hlabel with
  | .scalar _, hlabel => exact hlabel
  | .list _, hlabel => exact hlabel
  | .map _, hlabel => exact hlabel
  | .ref (.component _), hlabel => exact hlabel
  | .ref (.identifier _ _), hlabel => cases hlabel

theorem withId (h : v.RefersTo names) (name : Text) : (v.withId name).RefersTo names :=
  fun other hother => h other (mem_labels_withId hother)

theorem storedEntries (h : (.map entries : Linked σ).RefersTo names) (s : ExtractionSettings)
    (name : Text) : (.map (storedEntries s name entries) : Linked σ).RefersTo names := by
  rw [NamedSchemas.storedEntries]
  split
  · exact h.copied.withId name
  · exact h.copied

theorem mapName (h : v.RefersTo names) (g : Text → Text) :
    (v.relabel (.mapName g)).RefersTo (names.map g) := by
  intro name hname
  rw [relabel, labels_subst] at hname
  obtain ⟨label, hlabel, hname⟩ := List.mem_flatMap.1 hname
  cases label with
  | component other =>
    rw [Link.component.inj (List.mem_singleton.1 hname)]
    exact List.mem_map.2 ⟨other, h other hlabel, rfl⟩
  | identifier schema other => cases List.mem_singleton.1 hname

end Value.RefersTo

/-! ### Steps that only add -/

namespace RegistryM

/-- From this registry the step leads to one with the property, in which all names are still in use,
and its values have the second property with the names that are in use then. -/
def Grows (P : Registry σ → Prop) (Q : List Text → α → Prop) (r : Registry σ) (step : RegistryM σ α) :
    Prop :=
  P (step.result r).2 ∧ (∀ name ∈ r.schemas.keys, name ∈ (step.result r).2.schemas.keys) ∧
    ∀ a, (step.result r).1 = .ok a → Q (step.result r).2.schemas.keys a

variable {P : Registry σ → Prop} {Q : List Text → α → Prop} {S : List Text → β → Prop} {r : Registry σ}

theorem Grows.pure {a : α} (hr : P r) (ha : Q r.schemas.keys a) :
    Grows P Q r (Pure.pure a : RegistryM σ α) := by
  refine ⟨hr, fun _ hname => hname, fun b hb => ?_⟩
  cases hb
  exact ha

theorem Grows.bind {x : RegistryM σ α} {f : α → RegistryM σ β} (hx : Grows P Q r x)
    (hf : ∀ a t, P t → (∀ name ∈ r.schemas.keys, name ∈ t.schemas.keys) → Q t.schemas.keys a →
      Grows P S t (f a)) : Grows P S r (x >>= f) := by
  obtain ⟨ht, hgrown, hok⟩ := hx
  rw [Grows, result_bind]
  generalize x.result r = p at ht hgrown hok
  obtain ⟨outcome, t⟩ := p
  cases outcome with
  | ok a =>
    obtain ⟨hu, hmore, hb⟩ := hf a t ht hgrown (hok a rfl)
    exact ⟨hu, fun name hname => hmore name (hgrown name hname), hb⟩
  | error fault => exact ⟨ht, hgrown, fun b hb => by cases hb⟩

theorem Grows.map {x : RegistryM σ α} {g : α → β} (hx : Grows P Q r x)
    (hg : ∀ names a, Q names a → S names (g a)) : Grows P S r (g <$> x) := by
  rw [map_eq_pure_bind]
  exact hx.bind fun a t ht _ ha => .pure ht (hg _ a ha)

end RegistryM

/-! ### The invariant -/

/-- The tables tell of the same schemas. These are maps that have their names as their identifiers,
and the references in them are to each other. -/
structure Registry.Tied (digest : Text → Text) (existing : List Text) (r : Registry σ) : Prop
    extends Registry.Consistent digest existing r where
  isMap : ∀ entry ∈ r.schemas.entries, entry.2.isMap = true
  identified : ∀ entry ∈ r.schemas.entries, entry.2.withId entry.1 = entry.2
  refersTo : ∀ entry ∈ r.schemas.entries, entry.2.RefersTo r.schemas.keys

namespace Registry.Tied

variable {digest : Text → Text} {existing : List Text} {r : Registry σ} {s : ExtractionSettings}

theorem empty : Tied digest existing (.empty existing : Registry σ) :=
  ⟨.empty, fun _ h => absurd h List.not_mem_nil, fun _ h => absurd h List.not_mem_nil,
    fun _ h => absurd h List.not_mem_nil⟩

theorem addNew (hr : Tied s.digest existing r) (hids : s.assignIds = true) {name canonical : Text}
    {entries : Entries (Link σ)} (hentries : (.map entries : Linked σ).RefersTo r.schemas.keys)
    (hdigest : s.digest canonical ∉ r.names.keys) (hname : name ∉ r.schemas.keys)
    (hfresh : name ∉ existing) (c : Context) : Tied s.digest existing ({ r with
      schemas := r.schemas.insert name (.map (storedEntries s name entries))
      names := r.names.insert (s.digest canonical) name
      canonicals := r.canonicals.insert (s.digest canonical) canonical
      usages := r.usages.insert name [c] }.addReference name) := by
  have hgrown : ∀ other ∈ r.schemas.keys, other ∈ r.schemas.keys ++ [name] :=
    fun _ hother => List.mem_append_left _ hother
  refine ⟨hr.toConsistent.addNew rfl hdigest hname hfresh c, Table.forall_mem_insert rfl hr.isMap,
    Table.forall_mem_insert (withId_storedEntries name entries hids) hr.identified, ?_⟩
  rw [addReference, Table.keys_insert_of_new _ hname]
  exact Table.forall_mem_insert ((hentries.storedEntries s name).mono hgrown)
    fun entry hold => (hr.refersTo entry hold).mono hgrown

/-- A schema that refers to registered schemas is moved, and the reference to it is one to a
registered schema. -/
theorem grows_hoist (hr : Tied s.digest existing r) (hids : s.assignIds = true)
    {entries : Entries (Link σ)} (hentries : (.map entries : Linked σ).RefersTo r.schemas.keys)
    (c : Context) : RegistryM.Grows (Tied s.digest existing) (fun names v => Value.RefersTo names v) r
      (hoist s entries c) := by
  obtain ⟨hleft, hgrown⟩ : Tied s.digest existing ((hoist s entries c).result r).2 ∧
      ∀ name ∈ r.schemas.keys, name ∈ ((hoist s entries c).result r).2.schemas.keys := by
    refine hoist_leaves (P := fun t => Tied s.digest existing t ∧
      ∀ name ∈ r.schemas.keys, name ∈ t.schemas.keys) ⟨hr, fun _ hname => hname⟩ entries c ?_ ?_
    · intro canonical name contexts _ _ _ hcontexts
      exact ⟨⟨hr.toConsistent.useAgain hcontexts c, hr.isMap, hr.identified, hr.refersTo⟩,
        fun _ hname => hname⟩
    · intro canonical name _ _ hdigest hname hreserved
      rw [hr.reserved] at hreserved
      exact ⟨hr.addNew hids hentries hdigest hname hreserved c,
        fun _ => Table.mem_keys_insert_of_mem _ _⟩
  refine ⟨hleft, hgrown, fun v hv => ?_⟩
  cases hresult : (hoist s entries c).result r with
  | mk outcome t =>
    rw [hresult] at hleft hv
    cases hv
    obtain ⟨_, name, u, -, rfl, rfl, -⟩ := hoist_eq_ok hresult
    have hname : name ∈ (u.addReference name).references.keys :=
      Table.mem_keys_insert_self ..
    exact .component (by rwa [hleft.references] at hname)

end Registry.Tied

/-! ### Extractions -/

section Extract

open RegistryM

variable {existing : List Text} {s : ExtractionSettings}

theorem tied_cons {r : Registry σ} {key : Scalar} {v : Linked σ}
    {step : RegistryM σ (Entries (Link σ))} (hv : v.RefersTo r.schemas.keys)
    (hstep : Grows (Registry.Tied s.digest existing)
      (fun names es => (.map es : Linked σ).RefersTo names) r step) :
    Grows (Registry.Tied s.digest existing) (fun names es => (.map es : Linked σ).RefersTo names) r
      (do pure ((key, v) :: (← step))) := by
  obtain ⟨ht, hgrown, hok⟩ := hstep
  rw [Grows, result_bind]
  generalize step.result r = p at ht hgrown hok
  obtain ⟨outcome, t⟩ := p
  cases outcome with
  | error fault => exact ⟨ht, hgrown, fun _ h => by cases h⟩
  | ok es =>
    refine ⟨ht, hgrown, fun _ h => ?_⟩
    cases h
    exact Value.RefersTo.cons_iff.2 ⟨hv.mono hgrown, hok es rfl⟩

mutual

/-- From a tied registry the extraction of a value that refers to registered schemas leads to a tied
one, and what stays refers to registered schemas. -/
theorem tied_extract (hids : s.assignIds = true) : ∀ (v : Linked σ) (c : Context) {r : Registry σ},
    r.Tied s.digest existing → v.RefersTo r.schemas.keys →
      Grows (Registry.Tied s.digest existing) (fun names w => Value.RefersTo names w) r (extract s v c)
  | .map entries, c, r, hr, hv => by
    rw [extract]
    split
    · exact .pure hr hv
    · split
      · exact (tied_extractProperties hids entries c hr hv).bind fun _ _ ht _ hes =>
          ht.grows_hoist hids hes c
      · split
        · exact (tied_extractItems hids entries c hr hv).bind fun _ _ ht _ hes => .pure ht hes.copied
        · exact hr.grows_hoist hids hv c
      · split
        · exact hr.grows_hoist hids hv c
        · exact .pure hr hv
      · exact hr.grows_hoist hids hv c
  | .scalar _, _, _, hr, hv => .pure hr hv
  | .list _, _, _, hr, hv => .pure hr hv
  | .ref _, _, _, hr, hv => .pure hr hv

theorem tied_extractProperties (hids : s.assignIds = true) :
    ∀ (entries : Entries (Link σ)) (c : Context) {r : Registry σ}, r.Tied s.digest existing →
      (.map entries : Linked σ).RefersTo r.schemas.keys → Grows (Registry.Tied s.digest existing)
        (fun names es => (.map es : Linked σ).RefersTo names) r (extractProperties s entries c)
  | [], _, _, hr, h => .pure hr h
  | (key, .map properties) :: rest, c, r, hr, h => by
    obtain ⟨hproperties, hrest⟩ := Value.RefersTo.cons_iff.1 h
    have hcopied : Grows (Registry.Tied s.digest existing)
        (fun names es => (.map es : Linked σ).RefersTo names) r
        (Entries.copied <$> extractEach s properties c) :=
      (tied_extractEach hids properties c hr hproperties).map fun _ _ hes => hes.copied
    rw [extractProperties]
    split
    · exact hcopied.bind fun _ _ ht hgrown hes => tied_cons hes
        (tied_extractProperties hids rest c ht (hrest.mono hgrown))
    · exact tied_cons hproperties (tied_extractProperties hids rest c hr hrest)
  | (key, .ref link) :: rest, c, r, hr, h => by
    obtain ⟨hlink, hrest⟩ := Value.RefersTo.cons_iff.1 h
    rw [extractProperties]
    refine tied_cons ?_ (tied_extractProperties hids rest c hr hrest)
    split
    · exact .ofDocument _
    · exact hlink
  | (_, .scalar _) :: rest, c, _, hr, h =>
    tied_cons (Value.RefersTo.cons_iff.1 h).1
      (tied_extractProperties hids rest c hr (Value.RefersTo.cons_iff.1 h).2)
  | (_, .list _) :: rest, c, _, hr, h =>
    tied_cons (Value.RefersTo.cons_iff.1 h).1
      (tied_extractProperties hids rest c hr (Value.RefersTo.cons_iff.1 h).2)

theorem tied_extractEach (hids : s.assignIds = true) :
    ∀ (entries : Entries (Link σ)) (c : Context) {r : Registry σ}, r.Tied s.digest existing →
      (.map entries : Linked σ).RefersTo r.schemas.keys → Grows (Registry.Tied s.digest existing)
        (fun names es => (.map es : Linked σ).RefersTo names) r (extractEach s entries c)
  | [], _, _, hr, h => .pure hr h
  | (_, value) :: rest, _, _, hr, h => by
    obtain ⟨hvalue, hrest⟩ := Value.RefersTo.cons_iff.1 h
    exact (tied_extract hids value _ hr hvalue).bind fun w t ht hgrown hw => tied_cons hw
      (tied_extractEach hids rest _ ht (hrest.mono hgrown))

theorem tied_extractItems (hids : s.assignIds = true) :
    ∀ (entries : Entries (Link σ)) (c : Context) {r : Registry σ}, r.Tied s.digest existing →
      (.map entries : Linked σ).RefersTo r.schemas.keys → Grows (Registry.Tied s.digest existing)
        (fun names es => (.map es : Linked σ).RefersTo names) r (extractItems s entries c)
  | [], _, _, hr, h => .pure hr h
  | (key, value) :: rest, c, r, hr, h => by
    obtain ⟨hvalue, hrest⟩ := Value.RefersTo.cons_iff.1 h
    rw [extractItems]
    split
    · exact (tied_extract hids value _ hr hvalue).bind fun _ _ ht hgrown hw => tied_cons hw
        (tied_extractItems hids rest c ht (hrest.mono hgrown))
    · exact tied_cons hvalue (tied_extractItems hids rest c hr hrest)

end

end Extract

end NamedSchemas
