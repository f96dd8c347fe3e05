import NamedSchemas.Proofs.Extraction.Linkage
import NamedSchemas.Proofs.Shortening.Renaming
/-!
# Results with renamings

The result of an extraction, with short names or without, is told by the visits of the bodies and by
the plan of renamings: the plan puts the components in order, and the references follow it.
-/

namespace NamedSchemas

variable {digest : Text → Text} {options : ExtractionOptions} {document : Document}

/-- The renamings after the visits are a plan for the names in use, and move the schemas. -/
theorem finish_eq_ok {s : ExtractionSettings} {existing : List Text} {known : Text → Prop}
    {r last : Registry Empty} (hr : Linkage s existing known r) {plan : List (Text × Text)}
    (h : (finish options).result r = (.ok plan, last)) :
    IsPlan (r.schemas.keys ++ existing) plan ∧
      (∀ pair ∈ plan, pair.1 ∈ r.schemas.keys) ∧
      last.schemas.entries = (moveAll Value.renameId plan r.schemas.entries).map (fun entry =>
        (entry.1, entry.2.renameAll plan)) ∧
      last.usages.entries = moveAll (fun _ _ contexts => contexts) plan r.usages.entries := by
  rw [finish] at h
  split at h
  · obtain ⟨hplan, hrename⟩ := shorten_eq_ok h
    have hold := Registry.mem_keys_of_plan hr.usages hplan
    have hisPlan := Registry.isPlan_plan hr.usages hplan
    rw [hr.reserved] at hisPlan
    exact ⟨hisPlan, hold, result_renameAll hisPlan hrename hr.usages fun name hname =>
      List.mem_append_left _ hname⟩
  · obtain ⟨hplan, rfl⟩ := Prod.mk.inj h
    rw [← Except.ok.inj hplan]
    refine ⟨trivial, fun _ hpair => absurd hpair List.not_mem_nil, ?_, rfl⟩
    refine ((List.map_congr_left fun entry _ => ?_).trans (List.map_id _)).symm
    rw [Value.renameAll_nil]
    rfl

/-- What becomes of a component under a plan: it is renamed, and so are its references. -/
def renamedComponent (plan : List (Text × Text)) (entry : Text × Linked Empty) :
    Text × Linked Empty :=
  (renamedAtOnce plan entry.1, (renamedEntry Value.renameId plan entry).2.renameAll plan)

theorem renamedComponent_eq_or (plan : List (Text × Text)) (entry : Text × Linked Empty) :
    (renamedComponent plan entry).2 = entry.2.renameAll plan ∨ (renamedComponent plan entry).2 =
      (entry.2.withId (renamedAtOnce plan entry.1)).renameAll plan := by
  rw [renamedComponent, renamedEntry]
  split
  · obtain ⟨name, v⟩ := entry
    cases v with
    | map es =>
      dsimp only
      rw [Value.renameId]
      split
      · exact Or.inr rfl
      · exact Or.inl rfl
    | scalar s => exact Or.inl rfl
    | list items => exact Or.inl rfl
    | ref label => exact Or.inl rfl
  · exact Or.inl rfl

/-- A result in terms of the registry that the visits of the bodies leave. -/
structure IsResult (digest : Text → Text) (options : ExtractionOptions) (document : Document)
    (stays : List (Linked Empty)) (r : Registry Empty) (e : Extraction) : Prop where
  plan : IsPlan (r.schemas.keys ++ document.schemaNames) e.renamed
  old : ∀ pair ∈ e.renamed, pair.1 ∈ r.schemas.keys
  nodup : ((reordered e.renamed r.schemas.entries).map fun entry =>
    renamedAtOnce e.renamed entry.1).Nodup
  created : e.created = r.schemas.keys
  usages : e.usages.entries = (reordered e.renamed r.usages.entries).map fun usage =>
    (renamedAtOnce e.renamed usage.1, usage.2)
  document : e.document = Value.assembled options.mediaType document
    (stays.map fun v => (v.renameAll e.renamed).written)
    (document.namedSchemas ++ (reordered e.renamed r.schemas.entries).map fun entry =>
      (.text (renamedAtOnce e.renamed entry.1), (renamedComponent e.renamed entry).2.written))

theorem isResult_of_extractWith {e : Extraction} (h : extractWith digest options document = .ok e)
    {known : Text → Prop} (hknown : ∀ name ∈ document.refNames, known name) :
    ∃ stays r, (visitBodies digest options document).result (.empty document.schemaNames) =
        (.ok stays, r) ∧ Linkage ⟨digest, options.assignIds⟩ document.schemaNames known r ∧
      List.Forall₂ (fun body w => Stays known body.2 r.schemas.keys w)
        (document.bodies options.mediaType) stays ∧
      IsResult digest options document stays r e := by
  obtain ⟨stays, r, plan, last, hlength, hvisit, hfinish, rfl⟩ := extractWith_eq_ok h
  obtain ⟨hr, hstays⟩ := linkage_visitBodies hknown hvisit
  refine ⟨stays, r, hvisit, hr, hstays, ?_⟩
  obtain ⟨hplan, hold, hschemas, husages⟩ := finish_eq_ok hr hfinish
  have hentries : last.schemas.entries =
      (reordered plan r.schemas.entries).map (renamedComponent plan) := by
    rw [hschemas, moveAll_eq _ hplan, List.map_map]
    rfl
  have hnames : last.schemas.entries.map Prod.fst =
      (reordered plan r.schemas.entries).map fun entry => renamedAtOnce plan entry.1 := by
    rw [hentries, List.map_map]
    rfl
  refine ⟨hplan, hold, hnames ▸ last.schemas.nodup, rfl, ?_, ?_⟩
  · show last.usages.entries = _
    rw [husages, moveAll_eq _ hplan]
    refine List.map_congr_left fun usage _ => ?_
    rw [renamedEntry, ite_self]
    rfl
  · rw [document_resultOf hlength, substEntries_putAll last.schemas.nodup, hentries, List.map_map]
    · rfl
    · intro pair hpair
      rw [hentries] at hpair
      obtain ⟨entry, hentry, rfl⟩ := List.mem_map.1 hpair
      exact hplan.renamedAtOnce_fresh hold hr.fresh
        (Table.mem_keys_of_mem (mem_reordered hentry))

/-! ### The names in a result -/

/-- The names that a value refers to when it is renamed and written. -/
theorem Closed.mem_refNames_renameAll {known : Text → Prop} {names : List Text} {v : Linked Empty}
    (h : Closed known names v) {plan : List (Text × Text)} {name : Text}
    (hname : name ∈ (v.renameAll plan).written.refNames) :
    known name ∨ ∃ own ∈ names, name = renamedBy plan own := by
  have hwritten : (v.renameAll plan).written =
      v.subst fun label => (label.mapName (renamedBy plan)).written := by
    rw [Value.renameAll, Value.relabel, Value.written, Value.subst_subst]
    rfl
  rw [hwritten, Value.mem_refNames_subst fun label => Value.text?_written _] at hname
  refine hname.imp (h.addresses name) ?_
  rintro ⟨label, hlabel, hname⟩
  cases label with
  | component own =>
    refine ⟨own, h.components own hlabel, ?_⟩
    rwa [Link.mapName, Value.refNames_componentAddress, List.mem_singleton] at hname
  | identifier schema _ => exact schema.elim

theorem Value.text?_renameAll (plan : List (Text × Text)) (v : Linked Empty) :
    (v.renameAll plan).written.text? = v.text? := by
  rw [written, text?_subst text?_written, renameAll, relabel, text?_subst fun _ => rfl]

namespace IsResult

variable {s : ExtractionSettings} {known : Text → Prop} {stays : List (Linked Empty)}
  {r : Registry Empty} {e : Extraction}

theorem mem_schemaNames (h : IsResult digest options document stays r e) {name : Text} :
    name ∈ e.document.schemaNames ↔
      name ∈ document.schemaNames ∨ ∃ own ∈ r.schemas.keys, name = renamedAtOnce e.renamed own := by
  rw [h.document, Value.mem_schemaNames, Value.namedSchemas_assembled, Value.mem_schemaNames]
  simp only [List.mem_append, or_and_right, exists_or]
  refine or_congr_right ⟨?_, ?_⟩
  · rintro ⟨entry, hentry, heq⟩
    obtain ⟨component, hcomponent, rfl⟩ := List.mem_map.1 hentry
    exact ⟨component.1, Table.mem_keys_of_mem (mem_reordered hcomponent), (Scalar.text.inj heq).symm⟩
  · rintro ⟨own, hown, rfl⟩
    obtain ⟨component, hcomponent, rfl⟩ := List.mem_map.1 hown
    exact ⟨_, List.mem_map.2 ⟨component, mem_reordered_of_mem r.schemas.nodup hcomponent, rfl⟩, rfl⟩

theorem renamedAtOnce_injective (h : IsResult digest options document stays r e) {name other : Text}
    (hname : name ∈ r.schemas.keys) (hother : other ∈ r.schemas.keys)
    (heq : renamedAtOnce e.renamed name = renamedAtOnce e.renamed other) : name = other := by
  obtain ⟨entry, hentry, rfl⟩ := List.mem_map.1 hname
  obtain ⟨second, hsecond, rfl⟩ := List.mem_map.1 hother
  exact congrArg Prod.fst (List.inj_on_of_nodup_map h.nodup
    (mem_reordered_of_mem r.schemas.nodup hentry) (mem_reordered_of_mem r.schemas.nodup hsecond) heq)

/-- What the document of a result refers to is known, or is the name of an added component. -/
theorem mem_refNames (h : IsResult digest options document stays r e)
    (hr : Linkage s document.schemaNames known r)
    (hstays : List.Forall₂ (fun body w => Stays known body.2 r.schemas.keys w)
      (document.bodies options.mediaType) stays)
    (hknown : ∀ name ∈ document.refNames, known name) {name : Text}
    (hname : name ∈ e.document.refNames) :
    known name ∨ ∃ own ∈ r.schemas.keys, name = renamedAtOnce e.renamed own := by
  have hclosed : ∀ v : Linked Empty, Closed known r.schemas.keys v →
      ∀ name ∈ (v.renameAll e.renamed).written.refNames,
        known name ∨ ∃ own ∈ r.schemas.keys, name = renamedAtOnce e.renamed own := by
    intro v hv name hname
    rw [← h.plan.renamedBy_eq]
    exact hv.mem_refNames_renameAll hname
  have hbodies : List.Forall₂ (fun body w => w.text? = body.2.text? ∧ ∀ name ∈ w.refNames,
      known name ∨ ∃ own ∈ r.schemas.keys, name = renamedAtOnce e.renamed own)
      (document.bodies options.mediaType) (stays.map fun v => (v.renameAll e.renamed).written) := by
    rw [List.forall₂_map_right_iff]
    refine hstays.imp fun body v hv => ⟨?_, hclosed v hv.1⟩
    rw [Value.text?_renameAll, hv.2, Value.text?_ofDocument]
  rw [h.document] at hname
  rcases Value.mem_refNames_assembled hbodies hname with hown | hmore | hschema
  · exact Or.inl (hknown name hown)
  · exact hmore
  obtain ⟨entry, hentry, hname⟩ := Value.mem_entryRefNames.1 hschema
  rcases List.mem_append.1 hentry with hnamed | hadded
  · have hcomponents : name ∈ (Value.map document.components).refNames :=
      Value.mem_refNames_under (Value.mem_entryRefNames.2 ⟨entry, hnamed, hname⟩)
    rw [Value.refNames] at hcomponents
    exact Or.inl (hknown name (Value.mem_refNames_under hcomponents))
  · obtain ⟨component, hcomponent, rfl⟩ := List.mem_map.1 hadded
    have hcomponent := mem_reordered hcomponent
    obtain ⟨v, hv, hmap, heq⟩ : ∃ v, Closed known r.schemas.keys v ∧ v.isMap = true ∧
        (renamedComponent e.renamed component).2 = v.renameAll e.renamed := by
      rcases renamedComponent_eq_or e.renamed component with heq | heq
      · exact ⟨_, hr.closed component hcomponent, hr.isMap component hcomponent, heq⟩
      · refine ⟨_, (hr.closed component hcomponent).withId _, ?_, heq⟩
        rw [Value.isMap_withId]
        exact hr.isMap component hcomponent
    simp only [heq, Value.text?_renameAll, Value.text?_of_isMap hmap] at hname
    refine hname.elim (fun haddress => ?_) (hclosed v hv name)
    cases haddress.2

end IsResult

end NamedSchemas
