import NamedSchemas.Extraction.Basic
import NamedSchemas.Proofs.Table
/-!
# Steps on a registry

What the steps of an extraction do to a registry: a sequence of steps goes on from where the step
before stopped, and the first fault is that of the sequence.
-/

namespace NamedSchemas

variable {σ α β : Type}

namespace RegistryM

def result (step : RegistryM σ α) (r : Registry σ) : Except Fault α × Registry σ := step.run.run r

@[simp] theorem result_pure (a : α) (r : Registry σ) :
    (pure a : RegistryM σ α).result r = (.ok a, r) := rfl

theorem result_bind (x : RegistryM σ α) (f : α → RegistryM σ β) (r : Registry σ) :
    (x >>= f).result r =
      match x.result r with
      | (.ok a, r) => (f a).result r
      | (.error fault, r) => (.error fault, r) := by
  simp only [result, ExceptT.run_bind, StateT.run_bind]
  generalize StateT.run (ExceptT.run x) r = p
  obtain ⟨outcome, s⟩ := p
  cases outcome <;> rfl

theorem result_bind_of_ok {x : RegistryM σ α} {r s : Registry σ} {a : α}
    (h : x.result r = (.ok a, s)) (f : α → RegistryM σ β) : (x >>= f).result r = (f a).result s := by
  rw [result_bind, h]

theorem result_bind_of_error {x : RegistryM σ α} {r s : Registry σ} {fault : Fault}
    (h : x.result r = (.error fault, s)) (f : α → RegistryM σ β) :
    (x >>= f).result r = (.error fault, s) := by
  rw [result_bind, h]

theorem result_bind_eq_ok {x : RegistryM σ α} {f : α → RegistryM σ β} {r t : Registry σ} {b : β} :
    (x >>= f).result r = (.ok b, t) ↔
      ∃ a s, x.result r = (.ok a, s) ∧ (f a).result s = (.ok b, t) := by
  rw [result_bind]
  constructor
  · intro h
    cases hx : x.result r with
    | mk outcome s =>
      cases outcome with
      | ok a => exact ⟨a, s, rfl, by rw [hx] at h; exact h⟩
      | error fault =>
        rw [hx] at h
        cases (Prod.mk.inj h).1
  · rintro ⟨a, s, hx, hf⟩
    rw [hx]
    exact hf

@[simp] theorem result_map (g : α → β) (x : RegistryM σ α) (r : Registry σ) :
    (g <$> x).result r = ((x.result r).1.map g, (x.result r).2) := by
  rw [map_eq_pure_bind, result_bind]
  cases x.result r with
  | mk outcome s => cases outcome <;> rfl

theorem result_map_eq_ok {g : α → β} {x : RegistryM σ α} {r t : Registry σ} {b : β} :
    (g <$> x).result r = (.ok b, t) ↔ ∃ a, x.result r = (.ok a, t) ∧ b = g a := by
  rw [map_eq_pure_bind, result_bind_eq_ok]
  constructor
  · rintro ⟨a, s, hx, hpure⟩
    obtain ⟨hb, rfl⟩ := Prod.mk.inj hpure
    exact ⟨a, hx, (Except.ok.inj hb).symm⟩
  · rintro ⟨a, hx, rfl⟩
    exact ⟨a, t, hx, rfl⟩

@[simp] theorem result_get (r : Registry σ) :
    (get : RegistryM σ (Registry σ)).result r = (.ok r, r) := rfl

theorem length_of_result_mapM {xs : List α} {f : α → RegistryM σ β} {r s : Registry σ} {ys : List β}
    (h : (xs.mapM f).result r = (.ok ys, s)) : ys.length = xs.length := by
  induction xs generalizing r s ys with
  | nil =>
    rw [List.mapM_nil, result_pure] at h
    cases (Prod.mk.inj h).1
    rfl
  | cons x xs ih =>
    rw [List.mapM_cons, result_bind_eq_ok] at h
    obtain ⟨y, t, -, h⟩ := h
    rw [result_bind_eq_ok] at h
    obtain ⟨rest, u, hrest, h⟩ := h
    cases (Prod.mk.inj h).1
    rw [List.length_cons, List.length_cons, ih hrest]

theorem exists_of_result_mapM {xs : List α} {f : α → RegistryM σ β} {r s : Registry σ} {ys : List β}
    (h : (xs.mapM f).result r = (.ok ys, s)) :
    ∀ pair ∈ xs.zip ys, ∃ t u, (f pair.1).result t = (.ok pair.2, u) := by
  induction xs generalizing r s ys with
  | nil => simp
  | cons x xs ih =>
    rw [List.mapM_cons, result_bind_eq_ok] at h
    obtain ⟨y, t, hx, h⟩ := h
    rw [result_bind_eq_ok] at h
    obtain ⟨rest, u, hrest, h⟩ := h
    cases (Prod.mk.inj h).1
    intro pair hpair
    rcases List.mem_cons.1 hpair with rfl | hpair
    · exact ⟨r, t, hx⟩
    · exact ih hrest pair hpair

/-- Visits that do not change the registry give their values one by one. -/
theorem result_mapM_of_unchanged {xs : List α} {f : α → RegistryM σ β} {g : α → β} {r : Registry σ}
    (h : ∀ x ∈ xs, (f x).result r = (.ok (g x), r)) :
    (xs.mapM f).result r = (.ok (xs.map g), r) := by
  induction xs with
  | nil => rfl
  | cons x xs ih =>
    rw [List.mapM_cons, result_bind_of_ok (h x (List.mem_cons_self ..)),
      result_bind_of_ok (ih fun y hy => h y (List.mem_cons_of_mem x hy)), result_pure,
      List.map_cons]

@[simp] theorem result_ask (f : Registry σ → Except Fault α) (r : Registry σ) :
    (ask f).result r = (f r, r) := by
  rw [ask, result_bind, result_get]
  dsimp only
  cases f r <;> rfl

@[simp] theorem result_update (f : Registry σ → Except Fault (Registry σ)) (r : Registry σ) :
    (update f).result r =
      match f r with
      | .ok s => (.ok (), s)
      | .error fault => (.error fault, r) := by
  show (match f r with
    | .ok s => (set s : RegistryM σ Unit)
    | .error fault => throw fault).result r = _
  cases f r <;> rfl

@[simp] theorem result_reference (name : Text) (r : Registry σ) :
    (reference name).result r = (.ok (.ref (.component name)), r.addReference name) := rfl

@[simp] theorem result_rename [DecidableEq σ] (old new : Text) (r : Registry σ) :
    (rename old new).result r =
      match r.rename old new with
      | .ok s => (.ok (), s)
      | .error (.notMap kind) => (.error (.notMap kind), { r with schemas := r.schemas.erase old })
      | .error fault => (.error fault, r) := by
  show (match r.rename old new with
    | .ok s => (set s : RegistryM σ Unit)
    | .error (Fault.notMap kind) => do
      set { r with schemas := r.schemas.erase old }
      throw (Fault.notMap kind)
    | .error fault => throw fault).result r = _
  split <;> rfl

theorem result_rename_eq_ok [DecidableEq σ] {old new : Text} {r t : Registry σ} :
    (rename old new).result r = (.ok (), t) ↔ r.rename old new = .ok t := by
  rw [result_rename]
  constructor
  · intro h
    split at h
    · next hok => rw [hok, (Prod.mk.inj h).2]
    · cases (Prod.mk.inj h).1
    · cases (Prod.mk.inj h).1
  · intro h
    rw [h]

/-! ### What steps keep -/

/-- The registry has the property after the step, with a value or a fault, when it has it before. -/
def Keeps (P : Registry σ → Prop) (step : RegistryM σ α) : Prop := ∀ r, P r → P (step.result r).2

variable {P : Registry σ → Prop}

theorem Keeps.pure (a : α) : Keeps P (Pure.pure a : RegistryM σ α) := fun _ h => h

theorem Keeps.ask (f : Registry σ → Except Fault α) : Keeps P (RegistryM.ask f) := by
  intro r h
  rwa [result_ask]

theorem Keeps.bind {x : RegistryM σ α} {f : α → RegistryM σ β} (hx : Keeps P x)
    (hf : ∀ a, Keeps P (f a)) : Keeps P (x >>= f) := by
  intro r h
  have hstep := hx r h
  rw [result_bind]
  generalize x.result r = p at hstep
  obtain ⟨outcome, s⟩ := p
  cases outcome with
  | ok a => exact hf a s hstep
  | error fault => exact hstep

theorem Keeps.map {x : RegistryM σ α} (hx : Keeps P x) (g : α → β) : Keeps P (g <$> x) := by
  rw [map_eq_pure_bind]
  exact hx.bind fun a => Keeps.pure (g a)

theorem Keeps.mapM {f : α → RegistryM σ β} {xs : List α} (hf : ∀ x ∈ xs, Keeps P (f x)) :
    Keeps P (xs.mapM f) := by
  induction xs with
  | nil =>
    rw [List.mapM_nil]
    exact .pure []
  | cons x xs ih =>
    rw [List.mapM_cons]
    apply (hf x (List.mem_cons_self ..)).bind
    intro y
    apply (ih fun z hz => hf z (List.mem_cons_of_mem x hz)).bind
    exact fun ys => .pure (y :: ys)

end RegistryM

/-! ### Operations that succeed -/

namespace Registry

variable {r t : Registry σ} {name digest canonical : Text} {c : Context}

theorem lookup_eq_none : r.lookup digest canonical = .ok none ↔ digest ∉ r.names.keys := by
  rw [← Table.get?_eq_none_iff, lookup]
  cases r.names.get? digest with
  | none => exact iff_of_true rfl rfl
  | some found =>
    refine iff_of_false (fun h => ?_) (fun h => by cases h)
    dsimp only at h
    split at h
    · cases h
    · split at h <;> cases h

theorem lookup_eq_some : r.lookup digest canonical = .ok (some name) ↔
    r.names.get? digest = some name ∧ r.canonicals.get? digest = some canonical := by
  rw [lookup]
  cases r.names.get? digest with
  | none => simp
  | some found =>
    cases r.canonicals.get? digest with
    | none => simp
    | some stored =>
      by_cases heq : stored = canonical
      · simp [heq]
      · simp [heq]

theorem isTaken_eq_false :
    r.isTaken name = false ↔ name ∉ r.schemas.keys ∧ name ∉ r.reserved := by
  rw [isTaken, Bool.or_eq_false_iff, decide_eq_false_iff_not, ← Bool.not_eq_true, Table.contains_iff]

theorem recordUsage_eq_ok : r.recordUsage name c = .ok t ↔ ∃ contexts,
    r.usages.get? name = some contexts ∧
      t = { r with usages := r.usages.insert name (contexts ++ [c]) } := by
  rw [recordUsage]
  cases r.usages.get? name with
  | none => simp
  | some contexts => simp [eq_comm]

theorem register_eq_ok {schema : Linked σ} : r.register name schema digest canonical c = .ok t ↔
    r.isTaken name = false ∧ t = { r with
      schemas := r.schemas.insert name schema
      names := r.names.insert digest name
      canonicals := r.canonicals.insert digest canonical
      usages := r.usages.insert name [c] } := by
  rw [register]
  cases r.isTaken name with
  | true =>
    simp only [if_true, Bool.true_eq_false, false_and, iff_false]
    split <;> simp
  | false => simp [eq_comm]

theorem schemas_of_rename [DecidableEq σ] {old new : Text} (h : r.rename old new = .ok t) :
    ∃ schema, r.schemas.get? old = some schema ∧
      t.schemas = ((r.schemas.erase old).insert new (schema.renameId old new)).mapValues
        fun _ v => v.relabel (r.relink old new) := by
  rw [rename] at h
  split at h
  · cases h
  next schema hschema =>
  split at h
  · cases h
    exact ⟨schema, hschema, rfl⟩
  · cases h

end Registry

/-- The schema that is registered under a name for these entries. -/
def storedEntries (s : ExtractionSettings) (name : Text) (entries : Entries (Link σ)) :
    Entries (Link σ) :=
  if s.assignIds then Entries.insert (.text identifierKey) (.text name) (Entries.copied entries)
  else Entries.copied entries

/-- Everything that moving a schema into the registry can do. -/
theorem result_hoist (s : ExtractionSettings) (entries : Entries (Link σ)) (c : Context)
    (r : Registry σ) : (hoist s entries c).result r =
      match canonicalText (.map entries) with
      | .error fault => (.error fault, r)
      | .ok canonical =>
        match r.lookup (s.digest canonical) canonical with
        | .error fault => (.error fault, r)
        | .ok (some name) =>
          match r.recordUsage name c with
          | .error fault => (.error fault, r)
          | .ok s => (.ok (.ref (.component name)), s.addReference name)
        | .ok none =>
          match c.name with
          | .error fault => (.error (.segment fault), r)
          | .ok name =>
            match r.register name (.map (storedEntries s name entries)) (s.digest canonical)
              canonical c with
            | .error fault => (.error fault, r)
            | .ok s => (.ok (.ref (.component name)), s.addReference name) := by
  rw [hoist, RegistryM.result_bind, RegistryM.result_ask]
  cases canonicalText (.map entries) with
  | error fault => rfl
  | ok canonical =>
    simp only [RegistryM.result_bind, RegistryM.result_ask]
    cases r.lookup (s.digest canonical) canonical with
    | error fault => rfl
    | ok found =>
      cases found with
      | some name =>
        simp only [RegistryM.result_bind, RegistryM.result_update]
        cases r.recordUsage name c <;> rfl
      | none =>
        simp only [RegistryM.result_bind, RegistryM.result_update, contextName,
          RegistryM.result_ask]
        cases c.name with
        | error fault => rfl
        | ok name =>
          simp only [storedEntries]
          generalize r.register name _ _ _ _ = registered
          cases registered <;> rfl

/-- What a schema that was moved into the registry leaves behind: a reference to the schema that it
was recognised as, or under which it was registered. -/
theorem hoist_eq_ok {s : ExtractionSettings} {entries : Entries (Link σ)} {c : Context}
    {r t : Registry σ} {w : Linked σ} (h : (hoist s entries c).result r = (.ok w, t)) :
    ∃ canonical name u, canonicalText (.map entries) = .ok canonical ∧
      w = .ref (.component name) ∧ t = u.addReference name ∧
      ((r.lookup (s.digest canonical) canonical = .ok (some name) ∧ r.recordUsage name c = .ok u) ∨
        (r.lookup (s.digest canonical) canonical = .ok none ∧ c.name = .ok name ∧
          r.register name (.map (storedEntries s name entries)) (s.digest canonical) canonical c =
            .ok u)) := by
  rw [result_hoist] at h
  split at h
  · cases (Prod.mk.inj h).1
  next canonical hcanonical =>
  split at h
  · cases (Prod.mk.inj h).1
  · next name hlookup =>
    split at h
    · cases (Prod.mk.inj h).1
    · next u hrecord =>
      obtain ⟨hw, ht⟩ := Prod.mk.inj h
      exact ⟨canonical, name, u, hcanonical, (Except.ok.inj hw).symm, ht.symm,
        Or.inl ⟨hlookup, hrecord⟩⟩
  · next hlookup =>
    split at h
    · cases (Prod.mk.inj h).1
    · next name hname =>
      split at h
      · cases (Prod.mk.inj h).1
      · next u hregister =>
        obtain ⟨hw, ht⟩ := Prod.mk.inj h
        exact ⟨canonical, name, u, hcanonical, (Except.ok.inj hw).symm, ht.symm,
          Or.inr ⟨hlookup, hname, hregister⟩⟩

/-! ### What an extraction keeps

An extraction changes the registry only where it moves a schema. So what moving any schema keeps, the
extraction of every schema keeps, also when it stops at a fault.
-/

section Keeps

open RegistryM

variable {s : ExtractionSettings} {P : Registry σ → Prop}

mutual

theorem extract_keeps (hhoist : ∀ entries c, Keeps P (hoist s entries c)) :
    ∀ (v : Linked σ) (c : Context), Keeps P (extract s v c)
  | .map entries, c => by
    rw [extract]
    split
    · exact .pure _
    · split
      · exact (extractProperties_keeps hhoist entries c).bind fun _ => hhoist _ _
      · split
        · exact (extractItems_keeps hhoist entries c).bind fun _ => .pure _
        · exact hhoist _ _
      · split
        · exact hhoist _ _
        · exact .pure _
      · exact hhoist _ _
  | .scalar _, _ => .pure _
  | .list _, _ => .pure _
  | .ref _, _ => .pure _

theorem extractProperties_keeps (hhoist : ∀ entries c, Keeps P (hoist s entries c)) :
    ∀ (entries : Entries (Link σ)) (c : Context), Keeps P (extractProperties s entries c)
  | [], _ => .pure _
  | (key, .map properties) :: rest, c => by
    have hrest : ∀ value : Linked σ, Keeps P (do
        pure ((key, value) :: (← extractProperties s rest c))) := fun _ =>
      (extractProperties_keeps hhoist rest c).bind fun _ => .pure _
    rw [extractProperties]
    split
    · exact ((extractEach_keeps hhoist properties c).map _).bind fun _ => hrest _
    · exact Keeps.bind (.pure _) fun _ => hrest _
  | (_, .ref _) :: rest, c => (extractProperties_keeps hhoist rest c).bind fun _ => .pure _
  | (_, .scalar _) :: rest, c => (extractProperties_keeps hhoist rest c).bind fun _ => .pure _
  | (_, .list _) :: rest, c => (extractProperties_keeps hhoist rest c).bind fun _ => .pure _

theorem extractEach_keeps (hhoist : ∀ entries c, Keeps P (hoist s entries c)) :
    ∀ (entries : Entries (Link σ)) (c : Context), Keeps P (extractEach s entries c)
  | [], _ => .pure _
  | (_, value) :: rest, c =>
    (extract_keeps hhoist value _).bind fun _ =>
      (extractEach_keeps hhoist rest c).bind fun _ => .pure _

theorem extractItems_keeps (hhoist : ∀ entries c, Keeps P (hoist s entries c)) :
    ∀ (entries : Entries (Link σ)) (c : Context), Keeps P (extractItems s entries c)
  | [], _ => .pure _
  | (key, value) :: rest, c => by
    have hrest : ∀ value : Linked σ, Keeps P (do
        pure ((key, value) :: (← extractItems s rest c))) := fun _ =>
      (extractItems_keeps hhoist rest c).bind fun _ => .pure _
    rw [extractItems]
    split
    · exact (extract_keeps hhoist value _).bind hrest
    · exact Keeps.bind (.pure _) hrest

end

end Keeps

theorem hoist_eq_error {s : ExtractionSettings} {entries : Entries (Link σ)} {c : Context}
    {r t : Registry σ} {fault : Fault} (h : (hoist s entries c).result r = (.error fault, t)) :
    t = r := by
  rw [result_hoist] at h
  split at h
  · exact (Prod.mk.inj h).2.symm
  split at h
  · exact (Prod.mk.inj h).2.symm
  · split at h
    · exact (Prod.mk.inj h).2.symm
    · cases (Prod.mk.inj h).1
  · split at h
    · exact (Prod.mk.inj h).2.symm
    · split at h
      · exact (Prod.mk.inj h).2.symm
      · cases (Prod.mk.inj h).1

/-- A schema is moved when it is recognised, and used once more, or when it is registered; otherwise
nothing changes. -/
theorem hoist_leaves {s : ExtractionSettings} {P : Registry σ → Prop} {r : Registry σ} (hr : P r)
    (entries : Entries (Link σ)) (c : Context)
    (huse : ∀ canonical name contexts, canonicalText (.map entries) = .ok canonical →
      r.names.get? (s.digest canonical) = some name →
      r.canonicals.get? (s.digest canonical) = some canonical →
      r.usages.get? name = some contexts →
      P ({ r with usages := r.usages.insert name (contexts ++ [c]) }.addReference name))
    (hadd : ∀ canonical name, canonicalText (.map entries) = .ok canonical →
      c.name = .ok name → s.digest canonical ∉ r.names.keys → name ∉ r.schemas.keys →
      name ∉ r.reserved → P ({ r with
        schemas := r.schemas.insert name (.map (storedEntries s name entries))
        names := r.names.insert (s.digest canonical) name
        canonicals := r.canonicals.insert (s.digest canonical) canonical
        usages := r.usages.insert name [c] }.addReference name)) :
    P ((hoist s entries c).result r).2 := by
  cases hresult : (hoist s entries c).result r with
  | mk outcome t =>
    cases outcome with
    | ok w =>
      obtain ⟨canonical, name, u, hcanonical, -, rfl, hstep⟩ := hoist_eq_ok hresult
      rcases hstep with ⟨hlookup, hrecord⟩ | ⟨hlookup, hname, hregister⟩
      · obtain ⟨hname, hstored⟩ := Registry.lookup_eq_some.1 hlookup
        obtain ⟨contexts, hcontexts, rfl⟩ := Registry.recordUsage_eq_ok.1 hrecord
        exact huse canonical name contexts hcanonical hname hstored hcontexts
      · obtain ⟨hfree, rfl⟩ := Registry.register_eq_ok.1 hregister
        obtain ⟨hnew, hreserved⟩ := Registry.isTaken_eq_false.1 hfree
        exact hadd canonical name hcanonical hname (Registry.lookup_eq_none.1 hlookup) hnew hreserved
    | error fault => rwa [hoist_eq_error hresult]

end NamedSchemas
