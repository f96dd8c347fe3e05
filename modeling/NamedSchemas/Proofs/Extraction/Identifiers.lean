import NamedSchemas.Proofs.Document.Frame
import NamedSchemas.Proofs.Extraction.Digests
import NamedSchemas.Proofs.Shortening.Shortened
/-!
# Identifiers do not matter

A component may be given its name as its identifier. No step of an extraction looks at it again:
take the identifiers out of a registry, and every step still does the same. So an extraction with
identifiers and one without go the same way, and what they leave differs in the identifiers alone.
-/

namespace NamedSchemas

variable {ρ σ α β : Type}

/-! ### Values without identifiers -/

/-- A map without its identifier. -/
def Value.withoutId : Value ρ → Value ρ
  | .map es => .map (es.filter fun entry => entry.1 ≠ .text identifierKey)
  | v => v

def Value.id? (v : Value ρ) : Option (Value ρ) := Entries.get? identifierKey v.entries

theorem Entries.filter_insert (key : Text) (value : Value ρ) (es : Entries ρ) :
    (insert (.text key) value es).filter (fun entry => entry.1 ≠ .text key) =
      es.filter fun entry => entry.1 ≠ .text key := by
  cases hcontains : contains key es with
  | true =>
    rw [insert_of_contains value hcontains, List.filter_map]
    refine (List.map_congr_left fun entry hentry => ?_).trans (List.map_id _)
    have hother := of_decide_eq_true (List.mem_filter.1 hentry).2
    rw [if_neg hother]
    rfl
  | false => simp [insert_of_not_contains value hcontains]

namespace Value

theorem withoutId_withId (name : Text) (v : Value ρ) : (v.withId name).withoutId = v.withoutId := by
  cases v with
  | map es => rw [withId, withoutId, Entries.filter_insert, withoutId]
  | scalar s => rfl
  | list items => rfl
  | ref label => rfl

theorem withoutId_renameId (old new : Text) (v : Linked σ) :
    (v.renameId old new).withoutId = v.withoutId := by
  cases v with
  | map es =>
    rw [renameId]
    split
    · exact withoutId_withId new (.map es)
    · rfl
  | scalar s => rfl
  | list items => rfl
  | ref label => rfl

theorem renameId_withoutId (old new : Text) (v : Linked σ) :
    v.withoutId.renameId old new = v.withoutId := by
  cases v with
  | map es =>
    have hnone : Entries.get? identifierKey
        (es.filter fun entry => entry.1 ≠ .text identifierKey) = none :=
      Entries.get?_eq_none_iff.2 fun entry hentry => of_decide_eq_true (List.mem_filter.1 hentry).2
    rw [withoutId, renameId, hnone]
    exact if_neg (by simp)
  | scalar s => rfl
  | list items => rfl
  | ref label => rfl

/-- Substitution goes along with it when what is put in the place of references has no
identifier. -/
theorem withoutId_subst {f : ρ → Value σ} (hf : ∀ label, (f label).withoutId = f label)
    (v : Value ρ) : (v.subst f).withoutId = v.withoutId.subst f := by
  cases v with
  | map es =>
    rw [subst, withoutId, withoutId, subst, substEntries_eq_map, substEntries_eq_map, List.filter_map]
    rfl
  | ref label => exact hf label
  | scalar s => rfl
  | list items => rfl

theorem withoutId_relabel (f : ρ → σ) (v : Value ρ) :
    (v.relabel f).withoutId = v.withoutId.relabel f := withoutId_subst (fun _ => rfl) v

theorem withoutId_written (v : Linked Empty) : v.written.withoutId = v.withoutId.written := by
  refine withoutId_subst (fun label => ?_) v
  match label with
  | .component name => rfl
  | .identifier schema _ => exact schema.elim

theorem isMapping_withoutId (v : Linked σ) : v.withoutId.isMapping = v.isMapping := by
  cases v <;> rfl

theorem kindName_withoutId (v : Linked σ) : v.withoutId.kindName = v.kindName := by
  cases v <;> rfl

end Value

/-! ### Registries without identifiers -/

def Registry.withoutIds (r : Registry σ) : Registry σ :=
  { r with schemas := r.schemas.mapValues fun _ v => v.withoutId }

namespace Registry

variable (r : Registry σ)

theorem keys_withoutIds : r.withoutIds.schemas.keys = r.schemas.keys :=
  Table.keys_mapValues _ r.schemas

theorem plan_withoutIds : r.withoutIds.plan = r.plan := by
  rw [plan, keys_withoutIds]
  rfl

theorem recordUsage_withoutIds (name : Text) (c : Context) :
    r.withoutIds.recordUsage name c = (r.recordUsage name c).map withoutIds := by
  have husages : r.withoutIds.usages = r.usages := rfl
  rw [recordUsage, recordUsage, husages]
  cases r.usages.get? name <;> rfl

theorem register_withoutIds (name : Text) (schema : Linked σ) (digest canonical : Text)
    (c : Context) : r.withoutIds.register name schema.withoutId digest canonical c =
      (r.register name schema digest canonical c).map withoutIds := by
  have htaken : r.withoutIds.isTaken name = r.isTaken name := by
    rw [isTaken, isTaken, Table.contains, keys_withoutIds]
    rfl
  rw [register, register, htaken]
  cases r.isTaken name with
  | true => cases c.pathText <;> rfl
  | false =>
    have hschemas := Table.mapValues_insert Value.withoutId r.schemas name schema
    simp only [Bool.false_eq_true, if_false, Except.map, withoutIds, hschemas]

theorem erase_withoutIds (name : Text) :
    ({ r with schemas := r.schemas.erase name } : Registry σ).withoutIds =
      { r.withoutIds with schemas := r.withoutIds.schemas.erase name } := by
  simp only [withoutIds, Table.mapValues_erase]

theorem rename_withoutIds (r : Registry Empty) (old new : Text) :
    r.withoutIds.rename old new = (r.rename old new).map withoutIds := by
  have hget : r.withoutIds.schemas.get? old = (r.schemas.get? old).map Value.withoutId :=
    Table.get?_mapValues _ _ _
  rw [rename, rename, hget]
  cases r.schemas.get? old with
  | none => rfl
  | some schema =>
    dsimp only [Option.map_some]
    rw [Value.isMapping_withoutId, Value.kindName_withoutId]
    split
    · have hvalue : ((schema.renameId old new).relabel (r.relink old new)).withoutId =
          (schema.withoutId.renameId old new).relabel (r.withoutIds.relink old new) := by
        rw [Value.withoutId_relabel, Value.withoutId_renameId, Value.renameId_withoutId,
          relink_empty, relink_empty]
      have hothers : ((r.schemas.erase old).mapValues fun _ v =>
            v.relabel (r.relink old new)).mapValues (fun _ v => v.withoutId) =
          (r.withoutIds.schemas.erase old).mapValues fun _ v =>
            v.relabel (r.withoutIds.relink old new) := by
        rw [withoutIds, ← Table.mapValues_erase]
        apply Table.ext
        simp only [Table.entries_mapValues, List.map_map, Function.comp_def,
          Value.withoutId_relabel, relink_empty]
      simp only [Except.map, withoutIds, Table.mapValues_insert, hvalue, hothers]
    · rfl

end Registry

/-! ### Steps without identifiers -/

/-- From registries that are the same without identifiers the steps give the same and leave such
registries. -/
def RegistryM.Agree (x y : RegistryM σ α) : Prop :=
  ∀ r t : Registry σ, r.withoutIds = t.withoutIds →
    (x.result r).1 = (y.result t).1 ∧ (x.result r).2.withoutIds = (y.result t).2.withoutIds

namespace RegistryM.Agree

theorem pure (a : α) : Agree (Pure.pure a : RegistryM σ α) (Pure.pure a) :=
  fun _ _ h => ⟨rfl, h⟩

theorem ask {f : Registry σ → Except Fault α} (hf : ∀ r, f r.withoutIds = f r) :
    Agree (RegistryM.ask f) (RegistryM.ask f) := by
  intro r t h
  rw [result_ask, result_ask]
  refine ⟨?_, h⟩
  show f r = f t
  rw [← hf r, ← hf t, h]

theorem update {f g : Registry σ → Except Fault (Registry σ)}
    (change : Registry σ → Except Fault (Registry σ))
    (hf : ∀ r, change r.withoutIds = (f r).map Registry.withoutIds)
    (hg : ∀ r, change r.withoutIds = (g r).map Registry.withoutIds) :
    Agree (RegistryM.update f) (RegistryM.update g) := by
  intro r t h
  have heq : (f r).map Registry.withoutIds = (g t).map Registry.withoutIds := by
    rw [← hf, ← hg, h]
  rw [result_update, result_update]
  cases hfr : f r with
  | ok u =>
    cases hgt : g t with
    | ok v =>
      rw [hfr, hgt] at heq
      exact ⟨rfl, Except.ok.inj heq⟩
    | error fault =>
      rw [hfr, hgt] at heq
      cases heq
  | error fault =>
    cases hgt : g t with
    | ok v =>
      rw [hfr, hgt] at heq
      cases heq
    | error found =>
      rw [hfr, hgt] at heq
      cases heq
      exact ⟨rfl, h⟩

theorem bind {x y : RegistryM σ α} {f g : α → RegistryM σ β} (hx : Agree x y)
    (hf : ∀ a, Agree (f a) (g a)) : Agree (x >>= f) (y >>= g) := by
  intro r t h
  obtain ⟨houtcome, hstate⟩ := hx r t h
  rw [result_bind, result_bind]
  generalize x.result r = p at houtcome hstate
  generalize y.result t = q at houtcome hstate
  obtain ⟨outcome, u⟩ := p
  obtain ⟨outcome', v⟩ := q
  dsimp only at houtcome hstate
  subst houtcome
  cases outcome with
  | ok a => exact hf a u v hstate
  | error fault => exact ⟨rfl, hstate⟩

theorem map {x y : RegistryM σ α} (hx : Agree x y) (g : α → β) : Agree (g <$> x) (g <$> y) := by
  rw [map_eq_pure_bind, map_eq_pure_bind]
  exact hx.bind fun a => pure (g a)

theorem mapM {xs : List α} {f g : α → RegistryM σ β} (hf : ∀ x ∈ xs, Agree (f x) (g x)) :
    Agree (xs.mapM f) (xs.mapM g) := by
  induction xs with
  | nil =>
    rw [List.mapM_nil, List.mapM_nil]
    exact pure []
  | cons x xs ih =>
    rw [List.mapM_cons, List.mapM_cons]
    apply (hf x (List.mem_cons_self ..)).bind
    intro y
    apply (ih fun z hz => hf z (List.mem_cons_of_mem x hz)).bind
    exact fun ys => pure (y :: ys)

theorem reference (name : Text) :
    Agree (RegistryM.reference name : RegistryM σ (Linked σ)) (RegistryM.reference name) := by
  intro r t h
  exact ⟨rfl, congrArg (Registry.addReference · name) h⟩

/-! ### Extracting -/

theorem withoutId_storedEntries (s : ExtractionSettings) (name : Text)
    (entries : Entries (Link Empty)) : (Value.map (storedEntries s name entries)).withoutId =
      (Value.map entries).withoutId := by
  rw [storedEntries, Entries.copied_eq]
  split
  · exact Value.withoutId_withId name (.map entries)
  · rfl

/-- A schema is moved with or without an identifier. -/
theorem hoist (digest : Text → Text) (ids ids' : Bool) (entries : Entries (Link Empty))
    (c : Context) :
    Agree (hoist ⟨digest, ids⟩ entries c) (NamedSchemas.hoist ⟨digest, ids'⟩ entries c) := by
  rw [NamedSchemas.hoist, NamedSchemas.hoist]
  refine (ask fun r => rfl).bind fun canonical => (ask fun r => rfl).bind fun found => ?_
  cases found with
  | some name =>
    have hrecord := fun r : Registry Empty => r.recordUsage_withoutIds name c
    exact (update (fun r => r.recordUsage name c) hrecord hrecord).bind fun _ => reference name
  | none =>
    refine (ask fun r => rfl).bind fun name => ?_
    have hstored : ∀ ids : Bool, ∀ r : Registry Empty,
        r.withoutIds.register name (Value.map entries).withoutId (digest canonical) canonical c =
          (r.register name (.map (storedEntries ⟨digest, ids⟩ name entries)) (digest canonical)
            canonical c).map Registry.withoutIds := by
      intro ids r
      rw [← Registry.register_withoutIds, withoutId_storedEntries]
    exact (update (fun r => r.register name (Value.map entries).withoutId (digest canonical)
      canonical c) (hstored ids) (hstored ids')).bind fun _ => reference name

theorem extract (digest : Text → Text) (ids ids' : Bool) (d : Document) (c : Context) :
    Agree (extract ⟨digest, ids⟩ (.ofDocument d : Linked Empty) c)
      (NamedSchemas.extract ⟨digest, ids'⟩ (.ofDocument d) c) := by
  induction d using Value.schemaInduction generalizing c with
  | step d ih =>
    rw [extract_ofDocument, extract_ofDocument]
    refine ((mapM fun part hpart => ih part hpart (c.child part.1)).map _).bind fun w => ?_
    split
    · exact hoist digest ids ids' w.entries c
    · exact pure w

theorem visitBodies (digest : Text → Text) (mediaType : Text) (ids ids' short : Bool)
    (document : Document) : Agree (visitBodies digest ⟨mediaType, ids, short⟩ document)
      (NamedSchemas.visitBodies digest ⟨mediaType, ids', short⟩ document) := by
  refine mapM fun body _ => ?_
  exact (ask fun r => rfl).bind fun c => extract digest ids ids' body.2 c

/-! ### Renaming -/

theorem rename (old new : Text) :
    Agree (RegistryM.rename old new : RegistryM Empty Unit) (RegistryM.rename old new) := by
  intro r t h
  have heq : (r.rename old new).map Registry.withoutIds =
      (t.rename old new).map Registry.withoutIds := by
    rw [← Registry.rename_withoutIds, ← Registry.rename_withoutIds, h]
  have herase : ({ r with schemas := r.schemas.erase old } : Registry Empty).withoutIds =
      ({ t with schemas := t.schemas.erase old } : Registry Empty).withoutIds := by
    rw [Registry.erase_withoutIds, Registry.erase_withoutIds, h]
  rw [result_rename, result_rename]
  generalize r.rename old new = p at heq
  generalize t.rename old new = q at heq
  cases p with
  | ok u =>
    cases q with
    | ok v => exact ⟨rfl, Except.ok.inj heq⟩
    | error fault => cases heq
  | error fault =>
    cases q with
    | ok v => cases heq
    | error found =>
      cases heq
      cases fault with
      | notMap kind => exact ⟨rfl, herase⟩
      | _ => exact ⟨rfl, h⟩

theorem renameAll (plan : List (Text × Text)) :
    Agree (NamedSchemas.renameAll plan : RegistryM Empty Unit) (NamedSchemas.renameAll plan) := by
  induction plan with
  | nil => exact pure ()
  | cons first rest ih => exact (rename first.1 first.2).bind fun _ => ih

theorem finish (mediaType : Text) (ids ids' short : Bool) :
    Agree (finish ⟨mediaType, ids, short⟩) (NamedSchemas.finish ⟨mediaType, ids', short⟩) := by
  rw [NamedSchemas.finish, NamedSchemas.finish]
  dsimp only
  split
  · refine (ask fun r => r.plan_withoutIds).bind fun plan => ?_
    exact (renameAll plan).bind fun _ => pure plan
  · exact pure []

theorem extractionSteps (digest : Text → Text) (mediaType : Text) (ids ids' short : Bool)
    (document : Document) : Agree (extractionSteps digest ⟨mediaType, ids, short⟩ document)
      (NamedSchemas.extractionSteps digest ⟨mediaType, ids', short⟩ document) := by
  refine (visitBodies digest mediaType ids ids' short document).bind fun stays => ?_
  refine bind (ask fun r => ?_) fun created => ?_
  · rw [Registry.keys_withoutIds]
  · exact (finish mediaType ids ids' short).bind fun plan => pure (stays, created, plan)

end RegistryM.Agree

/-! ### Documents without identifiers -/

namespace Value

/-- Changes every value of a map. -/
def changeEach (f : Scalar → Value ρ → Value ρ) : Value ρ → Value ρ
  | .map es => .map (es.map fun entry => (entry.1, f entry.1 entry.2))
  | v => v

/-- Changes the value under a key. -/
def changeAt (key : Text) (f : Value ρ → Value ρ) : Value ρ → Value ρ :=
  changeEach fun k v => if k = .text key then f v else v

/-- A document without the identifiers of the named schemas that have these names. -/
def withoutIdsOf (names : List Text) : Document → Document :=
  changeAt "components" (changeAt "schemas" (changeEach fun key v =>
    if key ∈ names.map Scalar.text then v.withoutId else v))

theorem changeAt_insert (key : Text) (f : Value ρ → Value ρ) (value : Value ρ) (es : Entries ρ) :
    changeAt key f (.map (Entries.insert (.text key) value es)) =
      .map (Entries.insert (.text key) (f value) es) := by
  rw [changeAt, changeEach]
  congr 1
  cases hcontains : Entries.contains key es with
  | true =>
    rw [Entries.insert_of_contains value hcontains, Entries.insert_of_contains _ hcontains,
      List.map_map]
    refine List.map_congr_left fun entry _ => ?_
    simp only [Function.comp_apply]
    split <;> rfl
  | false =>
    rw [Entries.insert_of_not_contains value hcontains, Entries.insert_of_not_contains _ hcontains,
      List.map_append, List.map_singleton, if_pos rfl]
    congr 1
    refine (List.map_congr_left fun entry hentry => ?_).trans (List.map_id es)
    rw [Entries.contains_eq_isSome_get?, Option.isSome_eq_false_iff, Option.isNone_iff_eq_none,
      Entries.get?_eq_none_iff] at hcontains
    rw [if_neg (hcontains entry hentry)]
    rfl

theorem withoutIdsOf_assembled (names : List Text) (mediaType : Text) (d : Document)
    (ws : List Document) (schemas : Entries Empty) :
    withoutIdsOf names (assembled mediaType d ws schemas) =
      assembled mediaType d ws (schemas.map fun entry =>
        (entry.1, if entry.1 ∈ names.map Scalar.text then entry.2.withoutId else entry.2)) := by
  rw [withoutIdsOf, assembled, changeAt_insert, changeAt_insert]
  rfl

theorem id?_withId (name : Text) {v : Value ρ} (h : v.isMap = true) :
    (v.withId name).id? = some (.text name) := by
  match v, h with
  | .map es, _ => exact Entries.get?_insert_self _

end Value

theorem Registry.writtenSchemas_of_withoutIds {r t : Registry Empty} {names : List Text}
    (hnames : ∀ name ∈ r.schemas.keys, name ∈ names) (h : r.withoutIds = t.withoutIds) :
    (r.writtenSchemas.map fun entry =>
        (entry.1, if entry.1 ∈ names.map Scalar.text then entry.2.withoutId else entry.2)) =
      t.writtenSchemas.map fun entry =>
        (entry.1, if entry.1 ∈ names.map Scalar.text then entry.2.withoutId else entry.2) := by
  have herased : ∀ u : Registry Empty, (∀ name ∈ u.schemas.keys, name ∈ names) →
      (u.writtenSchemas.map fun entry =>
        (entry.1, if entry.1 ∈ names.map Scalar.text then entry.2.withoutId else entry.2)) =
      u.withoutIds.writtenSchemas := by
    intro u hu
    rw [writtenSchemas, writtenSchemas, withoutIds, Table.entries_mapValues, List.map_map,
      List.map_map]
    refine List.map_congr_left fun entry hentry => ?_
    have hmem : Scalar.text entry.1 ∈ names.map Scalar.text :=
      List.mem_map_of_mem (hu entry.1 (Table.mem_keys_of_mem hentry))
    simp only [Function.comp_apply, if_pos hmem, Value.withoutId_written]
  rw [herased r hnames, herased t, h]
  intro name hname
  rw [← keys_withoutIds, ← h, keys_withoutIds] at hname
  exact hnames name hname

/-! ### Extractions with and without identifiers -/

/-- The outcomes are the same fault, or results that are the same but for the identifiers of the
added components. In the first result these are the names of the components. -/
inductive DifferInIds (document : Document) :
    Except Fault Extraction → Except Fault Extraction → Prop
  | error (fault : Fault) : DifferInIds document (.error fault) (.error fault)
  | ok {e f : Extraction} (created : e.created = f.created) (renamed : e.renamed = f.renamed)
    (usages : e.usages = f.usages)
    (names : e.document.namedSchemas.map Prod.fst =
      document.namedSchemas.map Prod.fst ++ e.usages.keys.map Scalar.text)
    (sameDocument : e.document.withoutIdsOf e.usages.keys = f.document.withoutIdsOf e.usages.keys)
    (identified : ∀ name ∈ e.usages.keys, ∃ component,
      Entries.get? name e.document.namedSchemas = some component ∧
        component.id? = some (.text name)) :
    DifferInIds document (.ok e) (.ok f)

section

variable {digest : Text → Text} {options : ExtractionOptions} {document : Document} {e : Extraction}

theorem map_fst_namedSchemas (h : extractWith digest options document = .ok e) :
    e.document.namedSchemas.map Prod.fst =
      document.namedSchemas.map Prod.fst ++ e.usages.keys.map Scalar.text := by
  obtain ⟨stays, created, plan, hlength, hr, rfl⟩ := resultOf_registryAfter h
  rw [document_resultOf_of_consistent hlength hr, Value.namedSchemas_assembled, List.map_append,
    Registry.map_fst_writtenSchemas, ← hr.usages]
  rfl

theorem not_mem_schemaNames (h : extractWith digest options document = .ok e) {name : Text}
    (hname : name ∈ e.usages.keys) : name ∉ document.schemaNames := by
  obtain ⟨stays, created, plan, -, hr, rfl⟩ := resultOf_registryAfter h
  exact hr.fresh name (hr.usages ▸ hname)

theorem id?_renamedComponent_of_named {entry : Text × Linked Empty} (hmap : entry.2.isMap = true)
    (hnamed : entry.2.withId entry.1 = entry.2) (plan : List (Text × Text)) :
    (renamedComponent plan entry).2.written.id? = some (.text (renamedAtOnce plan entry.1)) := by
  rw [renamedComponent_eq hnamed, Value.written, Value.renameAll, Value.relabel, Value.subst_subst,
    Value.subst_withId _ _ hmap, Value.id?_withId _ (Value.isMap_subst _ hmap)]

/-- With identifiers, every added component has its name as its identifier, also after it was
renamed. -/
theorem identified_of_extractWith (hids : options.assignIds = true)
    (h : extractWith digest options document = .ok e) :
    ∀ name ∈ e.usages.keys, ∃ component,
      Entries.get? name e.document.namedSchemas = some component ∧
        component.id? = some (.text name) := by
  obtain ⟨stays, r, -, hr, -, hresult⟩ :=
    @isResult_of_extractWith digest options document e h (fun _ => True) fun _ _ => trivial
  let added := (reordered e.renamed r.schemas.entries).map fun entry =>
    (Scalar.text (renamedAtOnce e.renamed entry.1), (renamedComponent e.renamed entry).2.written)
  have hschemas : e.document.namedSchemas = document.namedSchemas ++ added := by
    rw [hresult.document, Value.namedSchemas_assembled]
  have hids : ∀ component ∈ added, component.2.id? = some (.scalar component.1) := by
    intro component hcomponent
    obtain ⟨entry, hentry, rfl⟩ := List.mem_map.1 hcomponent
    have hentry := mem_reordered hentry
    exact id?_renamedComponent_of_named (hr.isMap entry hentry) (hr.named entry hentry hids) _
  have hkeys := map_fst_namedSchemas h
  rw [hschemas, List.map_append, List.append_cancel_left_eq] at hkeys
  intro name hname
  obtain ⟨component, hcomponent, hkey⟩ : ∃ component ∈ added, component.1 = .text name := by
    have hmem : Scalar.text name ∈ added.map Prod.fst := by
      rw [hkeys]
      exact List.mem_map_of_mem hname
    exact List.mem_map.1 hmem
  cases hget : Entries.get? name e.document.namedSchemas with
  | none =>
    rw [hschemas, Entries.get?_eq_none_iff] at hget
    exact absurd hkey (hget component (List.mem_append_right _ hcomponent))
  | some found =>
    refine ⟨found, rfl, ?_⟩
    have hfound := Entries.mem_of_get?_eq_some hget
    rw [hschemas] at hfound
    rcases List.mem_append.1 hfound with hold | hnew
    · exact absurd (Value.mem_schemaNames.2 ⟨_, hold, rfl⟩) (not_mem_schemaNames h hname)
    · exact hids _ hnew

theorem consistent_of_extractionSteps {stays : List (Linked Empty)} {created : List Text}
    {plan : List (Text × Text)} {last : Registry Empty}
    (h : (extractionSteps digest options document).result (.empty document.schemaNames) =
      (.ok (stays, created, plan), last)) :
    stays.length = (document.bodies options.mediaType).length ∧
      last.Consistent digest document.schemaNames := by
  rw [extractionSteps, RegistryM.result_bind_eq_ok] at h
  obtain ⟨_, r, hvisit, h⟩ := h
  rw [RegistryM.result_bind, RegistryM.result_ask] at h
  dsimp only at h
  rw [RegistryM.result_bind_eq_ok] at h
  obtain ⟨_, v, hfinish, h⟩ := h
  cases h
  exact ⟨RegistryM.length_of_result_mapM hvisit, consistent_of_finish hvisit hfinish⟩

theorem withoutIdsOf_resultOf (mediaType : Text) (shortenNames : Bool) {stays : List (Linked Empty)}
    (hlength : stays.length = (document.bodies mediaType).length) {r t : Registry Empty}
    (hr : r.Consistent digest document.schemaNames) (ht : t.Consistent digest document.schemaNames)
    (h : r.withoutIds = t.withoutIds) (created : List Text) (plan : List (Text × Text)) :
    (resultOf ⟨mediaType, true, shortenNames⟩ document stays created plan r).document.withoutIdsOf
        r.usages.keys =
      (resultOf ⟨mediaType, false, shortenNames⟩ document stays created plan t).document.withoutIdsOf
        r.usages.keys := by
  have hnames : ∀ name ∈ r.schemas.keys, name ∈ r.usages.keys := by
    rw [hr.usages]
    exact fun _ => id
  have hadded := Registry.writtenSchemas_of_withoutIds hnames h
  rw [@document_resultOf_of_consistent _ ⟨mediaType, true, shortenNames⟩ _ _ _ hlength hr,
    @document_resultOf_of_consistent _ ⟨mediaType, false, shortenNames⟩ _ _ _ hlength ht,
    Value.withoutIdsOf_assembled, Value.withoutIdsOf_assembled, List.map_append, List.map_append,
    hadded]

/-- The two extractions stop at the same fault, or go the same way. -/
theorem extractWith_ignoresIds (digest : Text → Text) (mediaType : Text) (shortenNames : Bool)
    (document : Document) :
    (∃ fault, extractWith digest ⟨mediaType, true, shortenNames⟩ document = .error fault ∧
      extractWith digest ⟨mediaType, false, shortenNames⟩ document = .error fault) ∨
    ∃ e f, extractWith digest ⟨mediaType, true, shortenNames⟩ document = .ok e ∧
      extractWith digest ⟨mediaType, false, shortenNames⟩ document = .ok f ∧
      e.created = f.created ∧ e.renamed = f.renamed ∧ e.usages = f.usages ∧
      e.document.withoutIdsOf e.usages.keys = f.document.withoutIdsOf e.usages.keys := by
  cases hparts : Parts.of (.ofDocument document) with
  | error fault =>
    have hfault : ∀ options, extractWith digest options document = .error fault := by
      intro options
      rw [extractWith, hparts]
      rfl
    exact Or.inl ⟨fault, hfault _, hfault _⟩
  | ok p =>
    rw [extractWith_eq_steps digest _ hparts, extractWith_eq_steps digest _ hparts]
    obtain ⟨houtcome, hlast⟩ := RegistryM.Agree.extractionSteps digest mediaType true false
      shortenNames document (.empty document.schemaNames) _ rfl
    cases hsteps : (extractionSteps digest ⟨mediaType, true, shortenNames⟩ document).result
      (.empty document.schemaNames) with
    | mk outcome last =>
    cases hsteps' : (extractionSteps digest ⟨mediaType, false, shortenNames⟩ document).result
      (.empty document.schemaNames) with
    | mk outcome' last' =>
    rw [hsteps, hsteps'] at houtcome hlast
    dsimp only at houtcome hlast ⊢
    subst houtcome
    cases outcome with
    | error fault => exact Or.inl ⟨fault, rfl, rfl⟩
    | ok result =>
      obtain ⟨stays, created, plan⟩ := result
      obtain ⟨hlength, hr⟩ := consistent_of_extractionSteps hsteps
      obtain ⟨-, ht⟩ := consistent_of_extractionSteps hsteps'
      have husages : last.usages = last'.usages := congrArg (fun u => u.usages) hlast
      refine Or.inr ⟨resultOf ⟨mediaType, true, shortenNames⟩ document stays created plan last,
        resultOf ⟨mediaType, false, shortenNames⟩ document stays created plan last', rfl, rfl,
        rfl, rfl, husages, ?_⟩
      exact withoutIdsOf_resultOf mediaType shortenNames hlength hr ht hlast created plan

/-- Whether components are given identifiers decides nothing else about an extraction. -/
theorem extractComponents_differInIds (mediaType : Text) (shortenNames : Bool)
    (document : Document) : DifferInIds document
      (extractComponents ⟨mediaType, true, shortenNames⟩ document)
      (extractComponents ⟨mediaType, false, shortenNames⟩ document) := by
  rw [extractComponents, extractComponents]
  rcases extractWith_ignoresIds Sha256.hex mediaType shortenNames document with
    ⟨fault, he, hf⟩ | ⟨e, f, he, hf, hcreated, hrenamed, husages, hdocument⟩
  · rw [he, hf]
    exact .error fault
  · rw [he, hf]
    exact .ok hcreated hrenamed husages (map_fst_namedSchemas he) hdocument
      (identified_of_extractWith rfl he)

end

end NamedSchemas
