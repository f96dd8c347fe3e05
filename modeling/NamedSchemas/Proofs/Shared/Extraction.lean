import NamedSchemas.Proofs.Extraction.Schemas
import NamedSchemas.Proofs.Shared.Tree
/-!
# Extraction from shared values and from their trees

An extraction that leaves the shared values as they are does what the extraction from their trees
does: it registers the same schemas under the same names, and what its components hold are graphs
whose trees are those schemas.
-/

namespace NamedSchemas

variable {α β γ δ : Type} {d : SharedDocument}

theorem Value.depth_lt_of_mem {ρ : Type} {entries : Entries ρ} {entry : Scalar × Value ρ}
    (h : entry ∈ entries) : entry.2.depth < (Value.map entries).depth := by
  rw [depth]
  induction entries with
  | nil => cases h
  | cons first rest ih =>
    obtain ⟨key, value⟩ := first
    rw [entryDepth]
    rcases List.mem_cons.1 h with rfl | hrest
    · exact Nat.lt_succ_of_le (Nat.le_max_left _ _)
    · have hlt := ih hrest
      omega

namespace SharedM

def result (step : SharedM α) (w : SharedState) : Except SharedFault α × SharedState :=
  step.run.run w

theorem result_bind (x : SharedM α) (f : α → SharedM β) (w : SharedState) :
    (x >>= f).result w =
      match x.result w with
      | (.ok a, w) => (f a).result w
      | (.error fault, w) => (.error fault, w) := by
  simp only [result, ExceptT.run_bind, StateT.run_bind]
  generalize StateT.run (ExceptT.run x) w = p
  obtain ⟨outcome, u⟩ := p
  cases outcome <;> rfl

theorem result_bind_of_ok {x : SharedM α} {w u : SharedState} {a : α}
    (h : x.result w = (.ok a, u)) (f : α → SharedM β) : (x >>= f).result w = (f a).result u := by
  rw [result_bind, h]

theorem result_get (w : SharedState) : (get : SharedM SharedState).result w = (.ok w, w) := rfl

theorem result_onRegistry (step : RegistryM Empty α) (w : SharedState) :
    (Shared.onRegistry step).result w =
      ((step.result w.registry).1.mapError .ofTree,
        { w with registry := (step.result w.registry).2 }) := by
  rw [Shared.onRegistry, RegistryM.result]
  generalize hstep : step.run.run w.registry = p
  obtain ⟨outcome, r⟩ := p
  rw [result_bind_of_ok (result_get w), hstep]
  cases outcome <;> rfl

end SharedM

/-- The shared values are those of the document, and the registered schemas are the trees of what
the components hold. -/
structure SharedState.Agrees (d : SharedDocument) (w : SharedState) : Prop where
  shared : w.shared = d.links
  schemas : w.registry.schemas = w.components.mapValues fun _ v => d.links.tree v
  maps : ∀ entry ∈ w.components.entries, ∃ entries, entry.2 = .map entries

/-- A step on shared values ends as one on a registry does, in the same registry and with values
that are related. -/
def Mirrors (d : SharedDocument) (R : α → β → Prop) (x : SharedM α) (y : RegistryM Empty β) : Prop :=
  ∀ w : SharedState, w.Agrees d →
    match x.result w with
    | (.ok a, u) => ∃ b, y.result w.registry = (.ok b, u.registry) ∧ R a b ∧ u.Agrees d
    | (.error fault, u) =>
      ∃ found, fault = .ofTree found ∧ y.result w.registry = (.error found, u.registry)

/-! ### Sequences of steps -/

namespace Mirrors

variable {R : α → β → Prop} {Q : γ → δ → Prop}

theorem pure {a : α} {b : β} (h : R a b) :
    Mirrors d R (Pure.pure a) (Pure.pure b) := fun _ hw => ⟨b, rfl, h, hw⟩

theorem bind {x : SharedM α} {y : RegistryM Empty β} {f : α → SharedM γ} {g : β → RegistryM Empty δ}
    (h : Mirrors d R x y) (hf : ∀ a b, R a b → Mirrors d Q (f a) (g b)) :
    Mirrors d Q (x >>= f) (y >>= g) := by
  intro w hw
  have hstep := h w hw
  rw [SharedM.result_bind]
  cases hx : x.result w with
  | mk outcome u =>
    rw [hx] at hstep
    cases outcome with
    | ok a =>
      obtain ⟨b, hy, hab, hu⟩ := hstep
      have hnext := hf a b hab u hu
      rwa [RegistryM.result_bind_of_ok hy]
    | error fault =>
      obtain ⟨found, hfault, hy⟩ := hstep
      exact ⟨found, hfault, RegistryM.result_bind_of_error hy g⟩

theorem map {x : SharedM α} {y : RegistryM Empty β} {f : α → γ} {g : β → δ} (h : Mirrors d R x y)
    (hf : ∀ a b, R a b → Q (f a) (g b)) : Mirrors d Q (f <$> x) (g <$> y) := by
  rw [map_eq_pure_bind, map_eq_pure_bind]
  exact h.bind fun a b hab => .pure (hf a b hab)

theorem imp {P : α → β → Prop} {x : SharedM α} {y : RegistryM Empty β} (h : Mirrors d R x y)
    (hP : ∀ a b, R a b → P a b) : Mirrors d P x y := by
  rw [← id_map x, ← id_map y]
  exact h.map hP

theorem get_bind {f : SharedState → SharedM α} {y : RegistryM Empty β}
    (h : ∀ w : SharedState, w.Agrees d → Mirrors d R (f w) y) : Mirrors d R (get >>= f) y := by
  intro w hw
  rw [SharedM.result_bind_of_ok (SharedM.result_get w)]
  exact h w hw w hw

theorem get : Mirrors d (fun w r => w.Agrees d ∧ w.registry = r) MonadState.get MonadState.get :=
  fun w hw => ⟨w.registry, rfl, ⟨hw, rfl⟩, hw⟩

theorem ask (f : Registry Empty → Except Fault α) :
    Mirrors d Eq (Shared.onRegistry (RegistryM.ask f)) (RegistryM.ask f) := by
  intro w hw
  rw [SharedM.result_onRegistry, RegistryM.result_ask]
  cases f w.registry with
  | ok a => exact ⟨a, rfl, rfl, hw⟩
  | error fault => exact ⟨fault, rfl, rfl⟩

end Mirrors

/-- A value of a tree is the tree of a shared one. -/
def TreeOf (d : SharedDocument) (v : SharedValue) (tree : Linked Empty) : Prop :=
  tree = d.links.tree v

theorem Mirrors.mapEntries {f : Scalar → SharedValue → SharedM SharedValue}
    {g : Scalar → Linked Empty → RegistryM Empty (Linked Empty)}
    {P : Scalar → SharedValue → SharedValue → Prop} {entries : Entries (Position (Link Empty))}
    (h : ∀ entry ∈ entries, Mirrors d (fun a b => P entry.1 entry.2 a ∧ TreeOf d a b)
      (f entry.1 entry.2) (g entry.1 (d.links.tree entry.2))) :
    Mirrors d (fun es fs => List.Forall₂ (fun e e' => e.1 = e'.1 ∧ P e.1 e.2 e'.2) entries es ∧
        fs = Value.substEntries d.links.meaning es)
      (Shared.visitEntries f entries)
      ((Value.substEntries d.links.meaning entries).mapM fun entry => do
        Pure.pure (entry.1, ← g entry.1 entry.2)) := by
  rw [Shared.visitEntries]
  induction entries with
  | nil => exact .pure ⟨.nil, rfl⟩
  | cons entry rest ih =>
    obtain ⟨key, value⟩ := entry
    have hfirst := h (key, value) (List.mem_cons_self ..)
    have hrest := ih fun e he => h e (List.mem_cons_of_mem _ he)
    rw [Value.substEntries, List.mapM_cons, List.mapM_cons]
    simp only [bind_assoc, pure_bind]
    refine hfirst.bind fun a b hab => hrest.bind fun es fs hes => .pure ⟨?_, ?_⟩
    · exact .cons ⟨rfl, hab.1⟩ hes.1
    · rw [hab.2, hes.2]
      rfl

/-! ### Moving a schema -/

namespace Shared

variable (s : ExtractionSettings)

theorem registry_keepNew (known : List Text) (name : Text) (schema : SharedValue) (w : SharedState) :
    (keepNew known name schema w).registry = w.registry := by
  rw [keepNew]
  split <;> rfl

/-- A component that is new is kept with what it holds. -/
theorem agrees_keepNew {w : SharedState} (hw : w.Agrees d) {r : Registry Empty} {name : Text}
    {entries : Entries (Position (Link Empty))}
    (hr : r.schemas = w.registry.schemas ∨ name ∉ w.registry.schemas.keys ∧
      r.schemas = w.registry.schemas.insert name (d.links.tree (.map entries))) :
    (keepNew w.registry.schemas.keys name (.map entries) { w with registry := r }).Agrees d := by
  rcases hr with hsame | ⟨hnew, hadded⟩
  · have hkept : ¬ (name ∈ r.schemas.keys ∧ name ∉ w.registry.schemas.keys) := by
      rw [hsame]
      exact fun h => h.2 h.1
    rw [keepNew, if_neg hkept]
    exact ⟨hw.shared, hsame.trans hw.schemas, hw.maps⟩
  · have hkept : name ∈ r.schemas.keys ∧ name ∉ w.registry.schemas.keys :=
      ⟨by rw [hadded]; exact Table.mem_keys_insert_self _ name _, hnew⟩
    rw [keepNew, if_pos hkept]
    refine ⟨hw.shared, ?_, Table.forall_mem_insert ⟨entries, rfl⟩ hw.maps⟩
    rw [hadded, hw.schemas, Table.mapValues_insert]

theorem hoist_mirrors (entries : Entries (Position (Link Empty))) (c : Context) :
    Mirrors d (TreeOf d) (hoist s entries c)
      (NamedSchemas.hoist s (Value.substEntries d.links.meaning entries) c) := by
  intro w hw
  obtain ⟨registry, shared, components⟩ := w
  obtain rfl : shared = d.links := hw.shared
  rw [hoist, SharedM.result_bind_of_ok (SharedM.result_get _), if_pos (Sharing.isFinite_of_isProper d.links_isProper _),
    SharedM.result_bind, SharedM.result_onRegistry]
  cases hresult : (NamedSchemas.hoist s (Value.substEntries d.links.meaning entries) c).result
      registry with
  | mk outcome r =>
    cases outcome with
    | error fault => exact ⟨fault, rfl, rfl⟩
    | ok v =>
      obtain ⟨canonical, name, u, -, rfl, rfl, hstep⟩ := hoist_eq_ok hresult
      refine ⟨.ref (.component name), by rw [registry_keepNew], (Sharing.meaning_own _ _).symm, ?_⟩
      apply agrees_keepNew hw
      rcases hstep with ⟨-, hrecord⟩ | ⟨-, -, hregister⟩
      · obtain ⟨contexts, -, rfl⟩ := Registry.recordUsage_eq_ok.1 hrecord
        exact Or.inl rfl
      · obtain ⟨hfree, rfl⟩ := Registry.register_eq_ok.1 hregister
        refine Or.inr ⟨(Registry.isTaken_eq_false.1 hfree).1, ?_⟩
        have hstored : storedEntries s name (Value.substEntries d.links.meaning entries) =
            Value.substEntries d.links.meaning (if s.assignIds then
              Entries.insert (.text identifierKey) (.text name) entries else entries) := by
          rw [storedEntries, Entries.copied_eq]
          split
          · rw [Entries.substEntries_insert]
            rfl
          · rfl
        rw [Sharing.tree, Value.subst, ← hstored]
        rfl

/-! ### Extracting a schema -/

variable {s}

theorem tree_of_resolve {v w : SharedValue} (h : d.links.resolve v = w) :
    d.links.tree v = d.links.tree w := by
  rw [← h, Sharing.tree_resolve d.links_isProper]

/-- Only a reference to a component is gone through as something else than what stands there. -/
theorem opened_of_resolve {v w : SharedValue} (h : d.links.resolve v = w)
    (hw : ∀ link, v ≠ .ref (.own link)) : opened d.links v = w := by
  cases v with
  | ref position =>
    cases position with
    | own link => exact absurd rfl (hw link)
    | shared n => exact h
  | scalar value => exact h
  | list items => exact h
  | map entries => exact h

theorem extract_scalar (shared : Sharing (Link Empty)) {depth : Nat} (hdepth : 0 < depth)
    (value : Scalar) (c : Context) : extract s shared depth (.scalar value) c = pure none := by
  obtain ⟨k, rfl⟩ := Nat.exists_eq_add_one.2 hdepth
  rfl

theorem visitEach_mirrors {visit : Scalar → SharedValue → SharedM SharedValue} {v : SharedValue}
    {c : Context} (hscalar : ∀ key value, visit key (.scalar value) = pure (.scalar value))
    (h : ∀ entries, d.links.resolve v = .map entries → ∀ entry ∈ entries,
      Mirrors d (TreeOf d) (visit entry.1 entry.2)
        (NamedSchemas.extract s (d.links.tree entry.2) (c.child (.scalar entry.1)))) :
    Mirrors d (TreeOf d) (visitEach d.links visit v) (extractHeld s c (d.links.tree v)) := by
  cases hresolve : d.links.resolve v with
  | map entries =>
    have hopened := opened_of_resolve hresolve (by rintro link rfl; cases hresolve)
    rw [tree_of_resolve hresolve, visitEach, hopened, Sharing.tree, Value.subst, extractHeld,
      extractEach_eq_mapM]
    have hvisits := Mirrors.mapEntries (P := fun _ _ _ => True)
      (g := fun key value => NamedSchemas.extract s value (c.child (.scalar key)))
      fun entry hentry => (h entries hresolve entry hentry).imp fun a b hab => ⟨trivial, hab⟩
    refine hvisits.map ?_
    rintro es fs ⟨-, rfl⟩
    rfl
  | ref position =>
    obtain ⟨link, rfl⟩ := Sharing.exists_of_resolve_eq_ref d.links_isProper hresolve
    cases link with
    | identifier schema _ => exact schema.elim
    | component name =>
      have hread : visitEach d.links visit (.ref (.own (.component name))) =
          pure (.ofDocument (Link.component name : Link Empty).written) := by
        simp only [visitEach, opened, Link.written, Value.ofDocument, Value.subst, visitEntries,
          Value.substEntries, Value.text, List.mapM_cons, List.mapM_nil, hscalar, pure_bind, map_pure]
      rw [hread, Sharing.tree, Value.subst, Sharing.meaning_own, extractHeld]
      exact .pure (Value.ofDocument_subst _ _).symm
  | scalar value =>
    have hopened := opened_of_resolve hresolve (by rintro link rfl; cases hresolve)
    rw [tree_of_resolve hresolve, visitEach, hopened]
    exact .pure (tree_of_resolve hresolve).symm
  | list items =>
    have hopened := opened_of_resolve hresolve (by rintro link rfl; cases hresolve)
    rw [tree_of_resolve hresolve, visitEach, hopened]
    exact .pure (tree_of_resolve hresolve).symm

theorem visitAt_mirrors {key : Text} {visit : SharedValue → SharedM SharedValue}
    {g : Linked Empty → RegistryM Empty (Linked Empty)} {entries : Entries (Position (Link Empty))}
    (h : ∀ entry ∈ entries, Mirrors d (TreeOf d) (visit entry.2) (g (d.links.tree entry.2))) :
    Mirrors d (fun es fs => fs = Value.substEntries d.links.meaning es) (visitAt key visit entries)
      ((Value.substEntries d.links.meaning entries).mapM fun entry =>
        (if entry.1 = .text key then g entry.2 else pure entry.2) >>= fun value =>
          pure (entry.1, value)) := by
  have hvisits := Mirrors.mapEntries (P := fun _ _ _ => True)
    (f := fun k value => if k = .text key then visit value else pure value)
    (g := fun k value => if k = .text key then g value else pure value) fun entry hentry => by
      split
      · exact (h entry hentry).imp fun a b hab => ⟨trivial, hab⟩
      · exact .pure ⟨trivial, rfl⟩
  exact hvisits.imp fun es fs hes => hes.2

theorem depth_tree_lt {entries : Entries (Position (Link Empty))} {v : SharedValue}
    (h : d.links.resolve v = .map entries) {entry : Scalar × SharedValue} (hentry : entry ∈ entries) :
    (d.links.tree entry.2).depth < (d.links.tree v).depth := by
  have hmem : (entry.1, d.links.tree entry.2) ∈ Value.substEntries d.links.meaning entries := by
    rw [Value.substEntries_eq_map]
    exact List.mem_map_of_mem hentry
  rw [tree_of_resolve h]
  exact Value.depth_lt_of_mem hmem

/-- The extraction from a shared value is that from its tree. -/
theorem extract_mirrors (depth : Nat) (v : SharedValue) (c : Context)
    (hdepth : (d.links.tree v).depth < depth) :
    Mirrors d (fun stays tree => TreeOf d (stays.getD v) tree) (extract s d.links depth v c)
      (NamedSchemas.extract s (d.links.tree v) c) := by
  induction depth generalizing v c with
  | zero => exact absurd hdepth (Nat.not_lt_zero _)
  | succ depth ih =>
    rw [extract]
    cases hresolve : d.links.resolve v with
    | scalar value =>
      rw [tree_of_resolve hresolve]
      exact .pure (tree_of_resolve hresolve).symm
    | list items =>
      rw [tree_of_resolve hresolve]
      exact .pure (tree_of_resolve hresolve).symm
    | ref position =>
      obtain ⟨link, rfl⟩ := Sharing.exists_of_resolve_eq_ref d.links_isProper hresolve
      rw [Sharing.tree, Value.subst, Sharing.meaning_own, NamedSchemas.extract]
      · exact .pure (Sharing.meaning_own _ _).symm
      · intro entries h
        cases h
    | map entries =>
      have hstays : Mirrors d (fun stays tree => TreeOf d (Option.getD stays v) tree) (pure none)
          (pure (.map (Value.substEntries d.links.meaning entries))) :=
        .pure (tree_of_resolve hresolve).symm
      have hhoisted : ∀ es, Mirrors d (fun stays tree => TreeOf d (Option.getD stays v) tree)
          (some <$> hoist s es c)
          (NamedSchemas.hoist s (Value.substEntries d.links.meaning es) c) := by
        intro es
        rw [← id_map (NamedSchemas.hoist s _ c)]
        exact (hoist_mirrors s es c).map fun a b hab => hab
      have hinside : ∀ (v : SharedValue) (segment : Document), (d.links.tree v).depth < depth →
          Mirrors d (TreeOf d) (do
            pure ((← extract s d.links depth v (c.child segment)).getD v))
            (NamedSchemas.extract s (d.links.tree v) (c.child segment)) := by
        intro v segment hv
        rw [← map_eq_pure_bind, ← id_map (NamedSchemas.extract s _ _)]
        exact (ih v (c.child segment) hv).map fun a b hab => hab
      have hlt : ∀ entry ∈ entries, (d.links.tree entry.2).depth < depth := fun entry hentry =>
        Nat.lt_of_lt_of_le (depth_tree_lt hresolve hentry) (Nat.le_of_lt_succ hdepth)
      have hpos : 0 < depth := by
        rw [tree_of_resolve hresolve] at hdepth
        exact Nat.lt_of_lt_of_le (Nat.succ_pos _) (Nat.le_of_lt_succ hdepth)
      rw [tree_of_resolve hresolve, Sharing.tree, Value.subst, NamedSchemas.extract]
      dsimp only
      split
      · exact hstays
      · cases SchemaKind.of (Value.substEntries d.links.meaning entries) with
        | object =>
          have hproperties : Mirrors d (fun es fs => fs = Value.substEntries d.links.meaning es)
              (visitAt propertiesKey (visitEach d.links fun key property => do
                pure ((← extract s d.links depth property (c.child (.scalar key))).getD property))
                entries)
              (extractProperties s (Value.substEntries d.links.meaning entries) c) := by
            rw [extractProperties_eq_mapM]
            refine visitAt_mirrors fun entry hentry => visitEach_mirrors ?_ ?_
            · intro key value
              rw [extract_scalar _ hpos, pure_bind, Option.getD_none]
            · exact fun es hes property hproperty => hinside property.2 _
                (Nat.lt_trans (depth_tree_lt hes hproperty) (hlt entry hentry))
          refine hproperties.bind fun es fs hes => ?_
          rw [hes]
          exact hhoisted es
        | array =>
          dsimp only
          split
          · have hitems : Mirrors d (fun es fs => fs = Value.substEntries d.links.meaning es)
                (visitAt "items" (fun v => do
                  pure ((← extract s d.links depth v (c.child (.text itemSegment))).getD v)) entries)
                (extractItems s (Value.substEntries d.links.meaning entries) c) := by
              rw [extractItems_eq_mapM]
              exact visitAt_mirrors
                (g := fun v => NamedSchemas.extract s v (c.child (.text itemSegment)))
                fun entry hentry => hinside entry.2 _ (hlt entry hentry)
            refine hitems.bind fun es fs hes => .pure ?_
            rw [hes, Entries.copied_eq]
            rfl
          · exact hhoisted entries
        | other =>
          dsimp only
          split
          · exact hhoisted entries
          · exact hstays
        | untyped => exact hhoisted entries

/-! ### Shortening -/

theorem tree_renameId (old new : Text) (entries : Entries (Position (Link Empty))) :
    d.links.tree (Value.renameId old new (.map entries)) =
      (d.links.tree (.map entries)).renameId old new := by
  have hid : (Entries.get? identifierKey (Value.substEntries d.links.meaning entries)).bind
      Value.text? = (Entries.get? identifierKey entries).bind Value.text? := by
    rw [Entries.get?_substEntries, Option.bind_map]
    exact congrArg _ (funext fun v => Value.text?_subst (Sharing.text?_meaning d.links_isProper) v)
  rw [Sharing.tree, Sharing.tree, Value.subst, Value.renameId, Value.renameId, hid]
  split
  · rw [Value.subst, Entries.substEntries_insert]
    rfl
  · rfl

theorem exists_renameId_map {ρ : Type} (old new : Text) (entries : Entries ρ) :
    ∃ fs, Value.renameId old new (.map entries) = .map fs := by
  rw [Value.renameId]
  split <;> exact ⟨_, rfl⟩

theorem rename_mirrors (old new : Text) :
    Mirrors d (fun _ _ => True) (rename old new) (RegistryM.rename old new) := by
  intro w hw
  rw [rename, SharedM.result_bind, SharedM.result_onRegistry, RegistryM.result_rename]
  cases hrename : w.registry.rename old new with
  | error fault => cases fault <;> exact ⟨_, rfl, rfl⟩
  | ok t =>
    obtain ⟨schema, hschema, htables⟩ := Registry.schemas_of_rename hrename
    rw [hw.schemas, Table.get?_mapValues, Option.map_eq_some_iff] at hschema
    obtain ⟨held, hheld, rfl⟩ := hschema
    obtain ⟨entries, rfl⟩ : ∃ entries, held = .map entries :=
      hw.maps _ (Table.get?_eq_some_iff.1 hheld)
    have hlink : w.registry.relink old new = Link.rename old new none := by
      rw [Registry.relink]
      cases (w.registry.schemas.get? old).bind (Value.heldAs? old) with
      | none => rfl
      | some schema => exact schema.elim
    refine ⟨(), rfl, trivial, (congrArg (List.map _) hw.shared).trans (d.map_relabel_links _), ?_, ?_⟩
    · dsimp only
      rw [hheld]
      dsimp only
      rw [htables, hlink, hw.schemas, ← tree_renameId, ← Table.mapValues_erase,
        ← Table.mapValues_insert]
      apply Table.ext
      simp only [Table.entries_mapValues, List.map_map, Function.comp_def, d.tree_relabel]
    · dsimp only
      rw [hheld]
      intro entry hentry
      obtain ⟨before, hbefore, rfl⟩ := List.mem_map.1 hentry
      have hmaps : ∃ fs, before.2 = .map fs :=
        Table.forall_mem_insert (exists_renameId_map old new entries)
          (fun e he => hw.maps e (List.mem_filter.1 he).1) before hbefore
      obtain ⟨fs, hfs⟩ := hmaps
      exact ⟨_, by dsimp only; rw [hfs]; rfl⟩

theorem renameEach_mirrors (plan : List (Text × Text)) :
    Mirrors d (fun _ _ => True) (renameEach plan) (renameAll plan) := by
  induction plan with
  | nil => exact .pure trivial
  | cons pair rest ih => exact (rename_mirrors pair.1 pair.2).bind fun _ _ _ => ih

theorem shorten_mirrors : Mirrors d Eq shorten NamedSchemas.shorten := by
  refine (Mirrors.ask _).bind fun plan _ hplan => ?_
  subst hplan
  exact (renameEach_mirrors plan).bind fun _ _ _ => .pure rfl

end Shared

end NamedSchemas
