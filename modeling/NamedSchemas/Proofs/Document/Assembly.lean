import NamedSchemas.Document.Components
import NamedSchemas.Proofs.Document.Bodies
import NamedSchemas.Proofs.Registry.Steps
/-!
# Documents put together

An extraction leaves its document as it was outside the bodies and the named schemas. So its result
is told by two lists: what stands in the places of the bodies, and the named schemas.
-/

namespace NamedSchemas

variable {ρ σ : Type}

/-- What is under a key, if anything is, is null or a map. -/
def Entries.HoldsMap (key : Text) (es : Entries ρ) : Prop :=
  ∀ v, Entries.get? key es = some v → v = .scalar .null ∨ ∃ inner, v = .map inner

namespace Value

def entries : Value ρ → Entries ρ
  | .map es => es
  | _ => []

/-- The entries of the map under a key. -/
def under (key : Text) (v : Value ρ) : Entries ρ :=
  ((Entries.get? key v.entries).getD (.list [])).entries

def components (v : Value ρ) : Entries ρ := v.under "components"

def namedSchemas (v : Value ρ) : Entries ρ := (Value.map v.components).under "schemas"

def schemaNames (v : Value ρ) : List Text := v.namedSchemas.filterMap fun entry => entry.1.text?

/-- The bodies of a document, in the order in which they are visited, each with its place. -/
def bodies (mediaType : Text) (v : Value ρ) : List (BodyPlace × Value ρ) :=
  (Traversal.bodies mediaType).parts v

/-- The document with others in the places of its bodies and with these named schemas. -/
def assembled (mediaType : Text) (d : Document) (bodies : List (Value ρ)) (schemas : Entries ρ) :
    Value ρ :=
  .map (Entries.insert (.text "components") (.map (Entries.insert (.text "schemas") (.map schemas)
    (substEntries Empty.elim d.components)))
      ((Traversal.bodies mediaType).fill (.ofDocument d) bodies).entries)

theorem mem_schemaNames {v : Value ρ} {name : Text} :
    name ∈ v.schemaNames ↔ ∃ entry ∈ v.namedSchemas, entry.1 = .text name := by
  rw [schemaNames, List.mem_filterMap]
  refine exists_congr fun entry => and_congr_right fun _ => ?_
  cases entry.1 <;> simp [Scalar.text?]

theorem entries_ofDocument (d : Document) :
    (ofDocument d : Value ρ).entries = substEntries Empty.elim d.entries := by
  cases d with
  | map es => rfl
  | scalar s => rfl
  | list items => rfl
  | ref label => exact label.elim

end Value

namespace Traversal

variable {ι : Type}

/-! ### The frame around the bodies -/

theorem phaseParts_append {late : Scalar → Bool} {t : Scalar → Traversal ι} (phase : Bool)
    (es fs : Entries ρ) :
    phaseParts late t phase (es ++ fs) = phaseParts late t phase es ++ phaseParts late t phase fs := by
  induction es with
  | nil => rfl
  | cons entry rest ih => simp only [List.cons_append, phaseParts, ih, List.append_assoc]

theorem phaseParts_insert {late : Scalar → Bool} {t : Scalar → Traversal ι} {key : Text}
    (hskip : t (.text key) = skip) (phase : Bool) (value : Value ρ) (es : Entries ρ) :
    phaseParts late t phase (Entries.insert (.text key) value es) = phaseParts late t phase es := by
  have hnil : ∀ v : Value ρ, (t (.text key)).parts v = [] := fun v => by rw [hskip]; rfl
  cases hcontains : Entries.contains key es with
  | true =>
    rw [Entries.insert_of_contains value hcontains]
    clear hcontains
    induction es with
    | nil => rfl
    | cons entry rest ih =>
      simp only [List.map_cons, phaseParts, ih]
      split
      · split
        · next hkey => rw [hkey, hnil, hnil]
        · rfl
      · rfl
  | false =>
    rw [Entries.insert_of_not_contains value hcontains, phaseParts_append]
    simp only [phaseParts, hnil, ite_self, List.append_nil]

theorem fillPhase_append {late : Scalar → Bool} {t : Scalar → Traversal ι} (phase : Bool)
    (es fs : Entries ρ) (ws : List (Value ρ)) :
    fillPhase late t phase (es ++ fs) ws = fillPhase late t phase es ws ++
      fillPhase late t phase fs (ws.drop (phaseParts late t phase es).length) := by
  induction es generalizing ws with
  | nil => rfl
  | cons entry rest ih =>
    simp only [List.cons_append, fillPhase, phaseParts]
    split
    · rw [ih, List.length_append, List.drop_drop, List.cons_append]
    · rw [ih, List.nil_append, List.cons_append]

theorem fillPhase_insert {late : Scalar → Bool} {t : Scalar → Traversal ι} {key : Text}
    (hskip : t (.text key) = skip) (phase : Bool) (value : Value ρ) (es : Entries ρ)
    (ws : List (Value ρ)) :
    fillPhase late t phase (Entries.insert (.text key) value es) ws =
      Entries.insert (.text key) value (fillPhase late t phase es ws) := by
  have hnil : ∀ v : Value ρ, (t (.text key)).parts v = [] := fun v => by rw [hskip]; rfl
  have hfill : ∀ (v : Value ρ) vs, (t (.text key)).fill v vs = v := fun v vs => by rw [hskip]; rfl
  have hkeep : Entries.contains key (fillPhase late t phase es ws) = Entries.contains key es := by
    rw [Entries.contains_eq_isSome_get?, Entries.contains_eq_isSome_get?, get?_fillPhase hskip]
  cases hcontains : Entries.contains key es with
  | true =>
    rw [Entries.insert_of_contains value hcontains,
      Entries.insert_of_contains value (hkeep.trans hcontains)]
    clear hcontains hkeep
    induction es generalizing ws with
    | nil => rfl
    | cons entry rest ih =>
      obtain ⟨k, old⟩ := entry
      by_cases hkey : k = .text key
      · simp only [List.map_cons, fillPhase, hkey, if_true, hnil, hfill, List.length_nil,
          List.drop_zero, ih]
        split <;> simp only [List.map_cons, if_true]
      · simp only [List.map_cons, fillPhase, hkey, if_false]
        split <;> simp only [List.map_cons, hkey, if_false, ih]
  | false =>
    rw [Entries.insert_of_not_contains value hcontains,
      Entries.insert_of_not_contains value (hkeep.trans hcontains), fillPhase_append]
    simp only [fillPhase, hfill, ite_self]

theorem parts_map_entries (key : Text) (t : Traversal ι) (v : Value ρ) :
    (atKey key t).parts (.map v.entries) = (atKey key t).parts v := by
  cases v <;> rfl

theorem entries_fill (key : Text) (t : Traversal ι) (v : Value ρ) (ws : List (Value ρ)) :
    ((atKey key t).fill (.map v.entries) ws).entries = ((atKey key t).fill v ws).entries := by
  cases v <;> rfl

/-- Going into the value under one key leaves what is put under another. -/
theorem fill_insert {key other : Text} (hne : other ≠ key) (t : Traversal ι) (value : Value ρ)
    (es : Entries ρ) (ws : List (Value ρ)) :
    (atKey key t).fill (.map (Entries.insert (.text other) value es)) ws =
      .map (Entries.insert (.text other) value ((atKey key t).fill (.map es) ws).entries) := by
  have hskip : (if Scalar.text other = .text key then t else skip) = skip :=
    if_neg fun heq => hne (Scalar.text.inj heq)
  show Value.map (fillEntries _ _ _ ws) = Value.map (Entries.insert _ _ (fillEntries _ _ es ws))
  rw [fillEntries, fillEntries, phaseParts_insert hskip, fillPhase_insert hskip,
    fillPhase_insert hskip]

theorem get?_fill {key other : Text} (hne : other ≠ key) (t : Traversal ι) (es : Entries ρ)
    (ws : List (Value ρ)) :
    Entries.get? other ((atKey key t).fill (.map es) ws).entries = Entries.get? other es := by
  have hskip : (if Scalar.text other = .text key then t else skip) = skip :=
    if_neg fun heq => hne (Scalar.text.inj heq)
  show Entries.get? other (fillEntries _ _ es ws) = _
  rw [get?_fillEntries hskip]

theorem parts_insert {key other : Text} (hne : other ≠ key) (t : Traversal ι) (value : Value ρ)
    (es : Entries ρ) : (atKey key t).parts (.map (Entries.insert (.text other) value es)) =
      (atKey key t).parts (.map es) := by
  have hskip : (if Scalar.text other = .text key then t else skip) = skip :=
    if_neg fun heq => hne (Scalar.text.inj heq)
  show entryParts _ _ _ = entryParts _ _ es
  rw [entryParts, entryParts, phaseParts_insert hskip, phaseParts_insert hskip]

end Traversal

namespace Value

/-! ### Parts of what was put together -/

variable (mediaType : Text)

private theorem components_ne_paths : Text.ofString "components" ≠ Text.ofString "paths" := by
  decide +kernel

/-- The bodies of a document that was put together are those that were put in, in their places. -/
theorem bodies_assembled {d : Document} {ws : List (Value ρ)}
    (h : ws.length = (d.bodies mediaType).length) (schemas : Entries ρ) :
    (assembled mediaType d ws schemas).bodies mediaType =
      ((d.bodies mediaType).map Prod.fst).zip ws := by
  have hlength : ws.length = ((Traversal.bodies mediaType).parts (ofDocument d : Value ρ)).length := by
    rw [Traversal.length_parts_ofDocument, h]
    rfl
  have hplaces : ((Traversal.bodies mediaType).parts (ofDocument d : Value ρ)).map Prod.fst =
      (d.bodies mediaType).map Prod.fst := by
    rw [Traversal.parts_ofDocument, List.map_map]
    rfl
  have hfill := (Traversal.bodies mediaType).parts_fill _ ws hlength
  rw [hplaces] at hfill
  rw [bodies, assembled, Traversal.bodies, Traversal.parts_insert components_ne_paths,
    Traversal.parts_map_entries]
  exact hfill

theorem under_insert (key : Text) (inner es : Entries ρ) :
    (Value.map (Entries.insert (.text key) (.map inner) es)).under key = inner := by
  rw [under]
  show ((Entries.get? key (Entries.insert (.text key) (.map inner) es)).getD (.list [])).entries = _
  rw [Entries.get?_insert_self]
  rfl

theorem components_assembled (d : Document) (ws : List (Value ρ)) (schemas : Entries ρ) :
    (assembled mediaType d ws schemas).components = Entries.insert (.text "schemas") (.map schemas)
      (substEntries Empty.elim d.components) := under_insert _ _ _

theorem namedSchemas_assembled (d : Document) (ws : List (Value ρ)) (schemas : Entries ρ) :
    (assembled mediaType d ws schemas).namedSchemas = schemas := by
  rw [namedSchemas, components_assembled]
  exact under_insert _ _ _

theorem assembled_map (es : Entries Empty) (ws : List Document) (schemas : Entries Empty) :
    ∃ fs, (Traversal.bodies mediaType).fill (.map es) ws = .map fs ∧
      Entries.get? "components" fs = Entries.get? "components" es ∧
      (Value.map fs).under "components" = (Value.map es).components ∧
      assembled mediaType (.map es) ws schemas =
        .map (Entries.insert (.text "components") (.map (Entries.insert (.text "schemas")
          (.map schemas) (Value.map es).components)) fs) := by
  have hkept := Traversal.get?_fill components_ne_paths (Traversal.eachEntry fun path =>
    Traversal.eachEntry fun key =>
      if (methodOf? key).isSome then Traversal.operation mediaType path else Traversal.skip) es ws
  refine ⟨_, rfl, hkept, ?_, ?_⟩
  · exact congrArg (fun v? => (v?.getD (.list [])).entries) hkept
  · rw [assembled, ofDocument_self, substEntries_elim_self]
    rfl

theorem subst_assembled (f : ρ → Value σ) {d : Document} {ws : List (Value ρ)}
    (h : ws.length = (d.bodies mediaType).length) (schemas : Entries ρ) :
    (assembled mediaType d ws schemas).subst f =
      assembled mediaType d (ws.map (subst f)) (substEntries f schemas) := by
  have hentries : substEntries f ((Traversal.bodies mediaType).fill (ofDocument d) ws).entries =
      ((Traversal.bodies mediaType).fill (ofDocument d) (ws.map (subst f))).entries := by
    rw [← (Traversal.bodies mediaType).fill_subst f d ws h]
    cases d with
    | map es => rfl
    | scalar s => rfl
    | list items => rfl
    | ref label => exact label.elim
  rw [assembled, assembled, subst, Entries.substEntries_insert, subst, Entries.substEntries_insert,
    substEntries_elim, hentries, subst]

/-- A document that was put together is put together from its own bodies and named schemas. -/
theorem assembled_self (d : Document) (ws : List Document) (schemas : Entries Empty) :
    assembled mediaType (assembled mediaType d ws schemas)
        (((assembled mediaType d ws schemas).bodies mediaType).map fun body => ofDocument body.2)
        (substEntries Empty.elim schemas) =
      (ofDocument (assembled mediaType d ws schemas) : Value ρ) := by
  have hbodies : (((assembled mediaType d ws schemas).bodies mediaType).map fun body =>
      (ofDocument body.2 : Value ρ)) = ((Traversal.bodies mediaType).parts
        (ofDocument (assembled mediaType d ws schemas))).map Prod.snd := by
    rw [Traversal.parts_ofDocument, List.map_map]
    rfl
  have hcomponents := components_assembled mediaType d ws schemas
  rw [assembled, hbodies, Traversal.fill_parts, entries_ofDocument, hcomponents,
    Entries.substEntries_insert, subst, Entries.insert_insert]
  simp only [assembled, entries, Entries.substEntries_insert, Entries.insert_insert, ofDocument,
    subst]

/-! ### Taking a document apart -/

/-- The fault of shape that a document has. -/
inductive Misshapen : Document → Fault → Prop
  | document {d : Document} : (∀ es, d ≠ .map es) → Misshapen d .documentNotObject
  | components {es : Entries Empty} : ¬ Entries.HoldsMap "components" es →
    Misshapen (.map es) .componentsNotObject
  | schemas {es : Entries Empty} : Entries.HoldsMap "components" es →
    ¬ Entries.HoldsMap "schemas" (Value.map es).components → Misshapen (.map es) .schemasNotObject

theorem subMap_of_holdsMap {key : Text} (fault : Fault) {es : Entries Empty}
    (h : Entries.HoldsMap key es) : subMap key fault (substEntries Empty.elim es) =
      .ok (substEntries Empty.elim ((Value.map es).under key)) := by
  rw [subMap, Entries.get?_substEntries, under, entries]
  cases hget : Entries.get? key es with
  | none => rfl
  | some v =>
    obtain rfl | ⟨inner, rfl⟩ := h v hget
    · rfl
    · rfl

theorem subMap_of_not_holdsMap {key : Text} (fault : Fault) {es : Entries Empty}
    (h : ¬ Entries.HoldsMap key es) : subMap key fault (substEntries Empty.elim es) = .error fault := by
  simp only [Entries.HoldsMap, not_forall, not_or, not_exists] at h
  obtain ⟨v, hget, hnull, hmap⟩ := h
  rw [subMap, Entries.get?_substEntries, hget]
  cases v with
  | scalar s =>
    cases s with
    | null => exact absurd rfl hnull
    | _ => rfl
  | map fs => exact absurd rfl (hmap fs)
  | list items => rfl
  | ref label => exact label.elim

private theorem parts_map (es : Entries Empty) : Parts.of (ofDocument (.map es)) = (do
    let components ← subMap "components" .componentsNotObject (substEntries Empty.elim es)
    let schemas ← subMap "schemas" .schemasNotObject components
    pure ⟨substEntries Empty.elim es, components, schemas⟩) := rfl

theorem parts_of_wellShaped {es : Entries Empty} (hcomponents : Entries.HoldsMap "components" es)
    (hschemas : Entries.HoldsMap "schemas" (Value.map es).components) :
    Parts.of (ofDocument (.map es)) = .ok ⟨substEntries Empty.elim es,
      substEntries Empty.elim (Value.map es).components,
      substEntries Empty.elim (Value.map es).namedSchemas⟩ := by
  rw [parts_map, subMap_of_holdsMap _ hcomponents]
  show (subMap _ _ (substEntries Empty.elim (Value.map es).components) >>= fun schemas => _) = _
  rw [subMap_of_holdsMap _ hschemas]
  rfl

theorem parts_of_misshapen {d : Document} {fault : Fault} (h : Misshapen d fault) :
    Parts.of (ofDocument d) = .error fault := by
  cases h with
  | document hd =>
    cases d with
    | map es => exact absurd rfl (hd es)
    | scalar s => rfl
    | list items => rfl
    | ref label => exact label.elim
  | components hcomponents =>
    rw [parts_map, subMap_of_not_holdsMap _ hcomponents]
    rfl
  | schemas hcomponents hschemas =>
    rw [parts_map, subMap_of_holdsMap _ hcomponents]
    show (subMap _ _ (substEntries Empty.elim (Value.map _).components) >>= fun schemas => _) = _
    rw [subMap_of_not_holdsMap _ hschemas]
    rfl

/-- A document has one of the three faults of shape, or none. -/
theorem misshapen_or_wellShaped (d : Document) : (∃ fault, Misshapen d fault) ∨
    ∃ es, d = .map es ∧ Entries.HoldsMap "components" es ∧
      Entries.HoldsMap "schemas" (Value.map es).components := by
  by_cases hmap : ∃ es, d = .map es
  · obtain ⟨es, rfl⟩ := hmap
    by_cases hcomponents : Entries.HoldsMap "components" es
    · by_cases hschemas : Entries.HoldsMap "schemas" (Value.map es).components
      · exact Or.inr ⟨es, rfl, hcomponents, hschemas⟩
      · exact Or.inl ⟨_, .schemas hcomponents hschemas⟩
    · exact Or.inl ⟨_, .components hcomponents⟩
  · exact Or.inl ⟨_, .document fun es heq => hmap ⟨es, heq⟩⟩

theorem parts_ofDocument_eq_error {d : Document} {fault : Fault} :
    Parts.of (ofDocument d) = .error fault ↔ Misshapen d fault := by
  refine ⟨fun h => ?_, parts_of_misshapen⟩
  obtain ⟨found, hfound⟩ | ⟨es, rfl, hcomponents, hschemas⟩ := misshapen_or_wellShaped d
  · rw [parts_of_misshapen hfound] at h
    exact Except.error.inj h ▸ hfound
  · rw [parts_of_wellShaped hcomponents hschemas] at h
    cases h

theorem wellShaped_of_parts {d : Document} {p : Parts} (h : Parts.of (ofDocument d) = .ok p) :
    ∃ es, d = .map es ∧ Entries.HoldsMap "components" es ∧
      Entries.HoldsMap "schemas" (Value.map es).components := by
  obtain ⟨found, hfound⟩ | hshape := misshapen_or_wellShaped d
  · rw [parts_of_misshapen hfound] at h
    cases h
  · exact hshape

theorem parts_ofDocument {d : Document} {p : Parts} (h : Parts.of (ofDocument d) = .ok p) :
    p = ⟨substEntries Empty.elim d.entries, substEntries Empty.elim d.components,
      substEntries Empty.elim d.namedSchemas⟩ := by
  obtain ⟨es, rfl, hcomponents, hschemas⟩ := wellShaped_of_parts h
  rw [parts_of_wellShaped hcomponents hschemas] at h
  exact (Except.ok.inj h).symm

theorem names_parts {d : Document} {p : Parts} (h : Parts.of (ofDocument d) = .ok p) :
    p.names = d.schemaNames := by
  rw [parts_ofDocument h]
  show (substEntries Empty.elim d.namedSchemas).filterMap (fun entry => entry.1.text?) = _
  rw [substEntries_eq_map, List.filterMap_map]
  rfl

theorem of_assembled (d : Document) (ws : List (Linked Empty)) (schemas : Entries (Link Empty)) :
    ∃ p, Parts.of (assembled mediaType d ws schemas) = .ok p ∧ p.schemas = schemas ∧
      ∀ others, { p with schemas := others }.document = assembled mediaType d ws others := by
  let inner := Entries.insert (.text "schemas") (.map schemas)
    (substEntries Empty.elim d.components)
  let outer := Entries.insert (.text "components") (.map inner)
    ((Traversal.bodies mediaType).fill (ofDocument d) ws).entries
  have hcomponents : subMap "components" .componentsNotObject outer = .ok inner := by
    rw [subMap, Entries.get?_insert_self]
  have hschemas : subMap "schemas" .schemasNotObject inner = .ok schemas := by
    rw [subMap, Entries.get?_insert_self]
  refine ⟨⟨outer, inner, schemas⟩, ?_, rfl, fun others => ?_⟩
  · show (do
      let components ← subMap "components" .componentsNotObject outer
      let schemas ← subMap "schemas" .schemasNotObject components
      pure (⟨outer, components, schemas⟩ : Parts)) = _
    rw [hcomponents]
    simp only [bind, Except.bind, hschemas]
    rfl
  · simp only [Parts.document, assembled, outer, inner, Entries.insert_insert]

theorem addSchemas_assembled (added : List (Text × Linked Empty)) (d : Document)
    (ws : List (Linked Empty)) (schemas : Entries (Link Empty)) :
    addSchemas added (assembled mediaType d ws schemas) = .ok (assembled mediaType d ws
      (added.foldl (fun entries pair => Entries.insert (.text pair.1) pair.2 entries) schemas)) := by
  obtain ⟨p, hp, hschemas, hdocument⟩ := of_assembled mediaType d ws schemas
  rw [addSchemas, hp]
  simp only [bind, Except.bind, hschemas]
  exact congrArg Except.ok (hdocument _)

theorem bodiesM_document {m : Type → Type} [Monad m] [LawfulMonad m] {d : Document} {p : Parts}
    (h : Parts.of (ofDocument d) = .ok p)
    (visit : Linked Empty → BodyPlace → m (Linked Empty)) :
    p.document.bodiesM id mediaType visit =
      (fun ws => assembled mediaType d ws (substEntries Empty.elim d.namedSchemas)) <$>
        (d.bodies mediaType).mapM fun body => visit (ofDocument body.2) body.1 := by
  have hparts : (Traversal.bodies mediaType).parts p.document =
      (d.bodies mediaType).map fun body => (body.1, ofDocument body.2) := by
    rw [parts_ofDocument h, Parts.document, Traversal.bodies,
      Traversal.parts_insert components_ne_paths, ← entries_ofDocument,
      Traversal.parts_map_entries]
    exact (Traversal.bodies mediaType).parts_ofDocument d
  have hfill : (Traversal.bodies mediaType).fill p.document =
      fun ws => assembled mediaType d ws (substEntries Empty.elim d.namedSchemas) := by
    funext ws
    rw [parts_ofDocument h, Parts.document, Traversal.bodies,
      Traversal.fill_insert components_ne_paths, ← entries_ofDocument, Traversal.entries_fill]
    rfl
  rw [Traversal.bodiesM_eq_visit, Traversal.visit, hparts, hfill, List.mapM_map]
  rfl

end Value

/-! ### The result of an extraction -/

/-- The visits of the bodies of a document: each gives what stays in the place of its body. -/
def visitBodies (digest : Text → Text) (options : ExtractionOptions) (document : Document) :
    RegistryM Empty (List (Linked Empty)) :=
  (document.bodies options.mediaType).mapM fun body => do
    extract ⟨digest, options.assignIds⟩ (.ofDocument body.2)
      (← RegistryM.ask fun _ => body.1.context)

/-- The renamings after the visits, when they are asked for. -/
def finish (options : ExtractionOptions) : RegistryM Empty (List (Text × Text)) :=
  if options.shortenNames then shorten else pure []

def putAll (added : List (Text × Value ρ)) (entries : Entries ρ) : Entries ρ :=
  added.foldl (fun entries pair => Entries.insert (.text pair.1) pair.2 entries) entries

theorem putAll_eq_append {added : List (Text × Value ρ)} {entries : Entries ρ}
    (hnodup : (added.map Prod.fst).Nodup)
    (hnew : ∀ pair ∈ added, ∀ entry ∈ entries, entry.1 ≠ .text pair.1) :
    putAll added entries = entries ++ added.map fun pair => (.text pair.1, pair.2) := by
  induction added generalizing entries with
  | nil => rw [List.map_nil, List.append_nil]; rfl
  | cons pair rest ih =>
    rw [List.map_cons, List.nodup_cons] at hnodup
    rw [putAll, List.foldl_cons,
      Entries.insert_of_new pair.2 (hnew pair (List.mem_cons_self ..)), ← putAll, ih hnodup.2,
      List.map_cons, List.append_assoc, List.singleton_append]
    intro later hlater entry hentry
    rcases List.mem_append.1 hentry with hold | hlast
    · exact hnew later (List.mem_cons_of_mem _ hlater) entry hold
    · rw [List.mem_singleton.1 hlast]
      exact fun heq => hnodup.1 (List.mem_map.2 ⟨later, hlater, (Scalar.text.inj heq).symm⟩)

theorem substEntries_putAll {document : Document} {added : List (Text × Linked Empty)}
    (hnodup : (added.map Prod.fst).Nodup)
    (hfresh : ∀ pair ∈ added, pair.1 ∉ document.schemaNames) :
    Value.substEntries Link.written
        (putAll added (Value.substEntries Empty.elim document.namedSchemas)) =
      document.namedSchemas ++ added.map fun pair => (.text pair.1, pair.2.written) := by
  rw [putAll_eq_append hnodup]
  · rw [Value.substEntries_eq_map, List.map_append, ← Value.substEntries_eq_map,
      Value.substEntries_elim, Value.substEntries_elim_self, List.map_map]
    rfl
  · intro pair hpair entry hentry heq
    rw [Value.substEntries_eq_map] at hentry
    obtain ⟨named, hnamed, rfl⟩ := List.mem_map.1 hentry
    exact hfresh pair hpair (Value.mem_schemaNames.2 ⟨named, hnamed, heq⟩)

/-- The result of visits and renamings that leave this registry. -/
def resultOf (options : ExtractionOptions) (document : Document) (stays : List (Linked Empty))
    (created : List Text) (plan : List (Text × Text)) (r : Registry Empty) : Extraction where
  document := (Value.assembled options.mediaType document (stays.map (Value.renameAll plan))
    (putAll r.schemas.entries (Value.substEntries Empty.elim document.namedSchemas))).written
  created := created
  renamed := plan
  usages := r.usages

/-- The steps of an extraction are the visits of the bodies, then the renamings. -/
theorem extractBodies_document (digest : Text → Text) (options : ExtractionOptions)
    {document : Document} {p : Parts} (h : Parts.of (.ofDocument document) = .ok p) :
    extractBodies digest options p.document = (do
      let stays ← visitBodies digest options document
      let created := (← get).schemas.keys
      let plan ← finish options
      pure ((Value.assembled options.mediaType document stays
        (Value.substEntries Empty.elim document.namedSchemas)).renameAll plan, created, plan)) := by
  rw [extractBodies, Value.bodiesM_document options.mediaType h, bind_map_left]
  simp only [visitBodies, finish]
  congr 1
  funext stays
  cases options.shortenNames <;> rfl

theorem extractWith_of_misshapen {digest : Text → Text} {options : ExtractionOptions}
    {document : Document} {fault : Fault} (h : Value.Misshapen document fault) :
    extractWith digest options document = .error fault := by
  rw [extractWith, Value.parts_of_misshapen h]
  rfl

/-- An extraction visits the bodies, then makes the renamings, and puts the document together. -/
theorem extractWith_eq (digest : Text → Text) (options : ExtractionOptions) {document : Document}
    {p : Parts} (h : Parts.of (.ofDocument document) = .ok p) :
    extractWith digest options document =
      match (visitBodies digest options document).result (.empty document.schemaNames) with
      | (.error fault, _) => .error fault
      | (.ok stays, r) =>
        match (finish options).result r with
        | (.error fault, _) => .error fault
        | (.ok plan, last) => .ok (resultOf options document stays r.schemas.keys plan last) := by
  have hextract : extractWith digest options document =
      match (extractBodies digest options p.document).result (.empty p.names) with
      | (.ok (visited, created, plan), r) => do
        let complete ← addSchemas r.schemas.entries visited
        pure ⟨complete.written, created, plan, r.usages⟩
      | (.error fault, _) => .error fault := by
    rw [extractWith, h]
    rfl
  rw [hextract, extractBodies_document digest options h, Value.names_parts h,
    RegistryM.result_bind]
  cases hvisit : (visitBodies digest options document).result (.empty document.schemaNames) with
  | mk outcome r =>
    cases outcome with
    | error fault => rfl
    | ok stays =>
      have hlength := RegistryM.length_of_result_mapM hvisit
      simp only [RegistryM.result_bind, RegistryM.result_get, RegistryM.result_pure]
      cases hfinish : (finish options).result r with
      | mk outcome last =>
        cases outcome with
        | error fault => rfl
        | ok plan =>
          simp only [Value.renameAll, Value.relabel, Value.subst_assembled _ _ hlength,
            Value.substEntries_elim, Value.addSchemas_assembled, resultOf, putAll]
          rfl

theorem extractWith_eq_ok {digest : Text → Text} {options : ExtractionOptions} {document : Document}
    {e : Extraction} (h : extractWith digest options document = .ok e) :
    ∃ stays r plan last, stays.length = (document.bodies options.mediaType).length ∧
      (visitBodies digest options document).result (.empty document.schemaNames) = (.ok stays, r) ∧
      (finish options).result r = (.ok plan, last) ∧
      e = resultOf options document stays r.schemas.keys plan last := by
  cases hparts : Parts.of (.ofDocument document) with
  | error fault =>
    rw [extractWith, hparts] at h
    cases h
  | ok p =>
    rw [extractWith_eq digest options hparts] at h
    split at h
    · cases h
    next stays r hvisit =>
    split at h
    · cases h
    next plan last hfinish =>
    exact ⟨stays, r, plan, last, RegistryM.length_of_result_mapM hvisit, hvisit, hfinish,
      (Except.ok.inj h).symm⟩

theorem document_resultOf {options : ExtractionOptions} {document : Document}
    {stays : List (Linked Empty)} (h : stays.length = (document.bodies options.mediaType).length)
    (created : List Text) (plan : List (Text × Text)) (r : Registry Empty) :
    (resultOf options document stays created plan r).document =
      Value.assembled options.mediaType document
        (stays.map fun v => (v.renameAll plan).written)
        (Value.substEntries Link.written (putAll r.schemas.entries
          (Value.substEntries Empty.elim document.namedSchemas))) := by
  have hlength : (stays.map (Value.renameAll plan)).length =
      (document.bodies options.mediaType).length := by rw [List.length_map, h]
  rw [resultOf, Value.written, Value.subst_assembled _ _ hlength, List.map_map]
  rfl

/-! ### A document -/

def Value.object (members : List (String × Value ρ)) : Value ρ :=
  .map (members.map fun member => (.text (Text.ofString member.1), member.2))

def bodyWith (schema : Document) : Document :=
  .object [("content", .object [("application/json", .object [("schema", schema)])])]

def customerSchema : Document :=
  .object [("type", .text "object"), ("properties", .object [
    ("name", .object [("type", .text "string")]),
    ("rank", .object [("enum", .list [.scalar (.int 1), .scalar (.int 2)])])])]

/-- A document whose bodies share a schema at different depths, inside an array too, and refer to a
named schema that is there already. -/
def ordersDocument : Document :=
  .object [
    ("paths", .object [
      ("/orders", .object [("post", .object [
        ("operationId", .text "createOrder"),
        ("requestBody", bodyWith customerSchema),
        ("responses", .object [
          ("200", bodyWith (.object [("type", .text "object"), ("properties", .object [
            ("customer", customerSchema),
            ("others", .object [("type", .text "array"), ("items", customerSchema)])])])),
          ("default", bodyWith (.object [("$ref", .text "#/components/schemas/Error")]))])])])]),
    ("components", .object [("schemas", .object [
      ("Error", .object [("type", .text "object")])])])]

/-- Its extraction gives three components, and renames two of them. -/
theorem exists_extraction_ordersDocument : ∃ e, extractComponents .usual ordersDocument = .ok e ∧
    e.created.length = 3 ∧ e.renamed.length = 2 := by
  have hlengths : (extractComponents .usual ordersDocument).toOption.map
      (fun e => (e.created.length, e.renamed.length)) = some (3, 2) := by decide +kernel
  cases h : extractComponents .usual ordersDocument with
  | error fault =>
    rw [h] at hlengths
    cases hlengths
  | ok e =>
    rw [h] at hlengths
    exact ⟨e, rfl, Prod.mk.inj (Option.some.inj hlengths)⟩

end NamedSchemas
