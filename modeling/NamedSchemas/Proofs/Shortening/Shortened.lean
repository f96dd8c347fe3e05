import NamedSchemas.Proofs.Shortening.Result
/-!
# Short names

An extraction with short names gives what one without gives, with every name replaced at once: in
the keys of the components, in the references to them and in their identifiers. What is left of a
renamed component is its place at the end.
-/

namespace NamedSchemas

/-! ### Components under a plan -/

theorem reordered_map {ν μ : Type} (f : ν → μ) (plan : List (Text × Text))
    (entries : List (Text × ν)) : reordered plan (entries.map fun entry => (entry.1, f entry.2)) =
      (reordered plan entries).map fun entry => (entry.1, f entry.2) := by
  rw [reordered, reordered, List.map_append, List.filter_map, List.map_filterMap]
  congr 1
  refine List.filterMap_congr fun pair _ => ?_
  rw [List.find?_map]
  rfl

/-- References are renamed at once, when no address refers to a name that is given up. -/
theorem IsPlan.renameAll_written {taken : List Text} {plan : List (Text × Text)}
    (hplan : IsPlan taken plan) {v : Linked Empty} (hv : ∀ name ∈ v.refNames, name ∉ plan.map Prod.fst) :
    (v.renameAll plan).written = v.written.renameRefs (renamedAtOnce plan) := by
  rw [Value.renameRefs_written v fun name hname => renamedAtOnce_of_not_mem (hv name hname),
    ← hplan.renamedBy_eq]
  rfl

theorem renamedComponent_eq {plan : List (Text × Text)} {entry : Text × Linked Empty}
    (h : entry.2.withId entry.1 = entry.2) : (renamedComponent plan entry).2 =
      (entry.2.withId (renamedAtOnce plan entry.1)).renameAll plan := by
  rw [renamedComponent, renamedEntry]
  by_cases hold : entry.1 ∈ plan.map Prod.fst
  · rw [if_pos hold, Value.renameId_of_withId h]
  · rw [if_neg hold, renamedAtOnce_of_not_mem hold, h]

/-! ### Documents -/

/-- The short result is the plain one with all names replaced at once. -/
structure IsShortened (mediaType : Text) (document : Document) (plain short : Extraction) : Prop where
  created : short.created = plain.created
  old : ∀ pair ∈ short.renamed, pair.1 ∈ plain.created
  nodup_old : (short.renamed.map Prod.fst).Nodup
  nodup_new : (short.renamed.map Prod.snd).Nodup
  free : ∀ pair ∈ short.renamed, pair.2 ∉ document.schemaNames
  document : ∃ (bodies : List Document) (added : List (Text × Document)),
    bodies.length = (document.bodies mediaType).length ∧ added.map Prod.fst = plain.created ∧
      (∀ component ∈ added, component.2.withId component.1 = component.2) ∧
      plain.document = .assembled mediaType document bodies
        (document.namedSchemas ++ added.map fun component => (.text component.1, component.2)) ∧
      short.document = .assembled mediaType document
        (bodies.map (Value.renameRefs (renamedAtOnce short.renamed)))
        (document.namedSchemas ++ (reordered short.renamed added).map fun component =>
          (.text (renamedAtOnce short.renamed component.1),
            (component.2.withId (renamedAtOnce short.renamed component.1)).renameRefs
              (renamedAtOnce short.renamed)))
  usages : short.usages.entries = (reordered short.renamed plain.usages.entries).map fun usage =>
    (renamedAtOnce short.renamed usage.1, usage.2)
  resolved : ∀ name ∈ short.document.refNames, name ∈ short.document.schemaNames

variable {digest : Text → Text} {options : ExtractionOptions} {document : Document}

/-- When an extraction succeeds, so does the one without short names. It visits the same bodies. -/
theorem extractWith_plain {e : Extraction} (h : extractWith digest options document = .ok e)
    {stays : List (Linked Empty)} {r : Registry Empty}
    (hvisit : (visitBodies digest options document).result (.empty document.schemaNames) =
      (.ok stays, r)) :
    extractWith digest { options with shortenNames := false } document =
      .ok (resultOf { options with shortenNames := false } document stays r.schemas.keys [] r) := by
  cases hparts : Parts.of (.ofDocument document) with
  | error fault =>
    rw [extractWith, hparts] at h
    cases h
  | ok p =>
    have hsame : visitBodies digest { options with shortenNames := false } document =
        visitBodies digest options document := rfl
    rw [extractWith_eq digest _ hparts, hsame, hvisit]
    rfl

theorem extractWith_isShortened {e : Extraction} (hids : options.assignIds = true)
    (hknown : ∀ name ∈ document.refNames, name ∈ document.schemaNames)
    (h : extractWith digest options document = .ok e) :
    ∃ plain, extractWith digest { options with shortenNames := false } document = .ok plain ∧
      IsShortened options.mediaType document plain e := by
  obtain ⟨stays, r, hvisit, hr, hstays, hresult⟩ := isResult_of_extractWith h hknown
  have hlength := RegistryM.length_of_result_mapM hvisit
  have hclosed := closed_of_mem_stays hstays
  have hkept : ∀ name, name ∈ document.schemaNames → name ∉ e.renamed.map Prod.fst := by
    intro name hname hold
    obtain ⟨pair, hpair, rfl⟩ := List.mem_map.1 hold
    exact hr.fresh pair.1 (hresult.old pair hpair) hname
  refine ⟨_, extractWith_plain h hvisit, hresult.created, hresult.old, hresult.plan.nodup_old,
    hresult.plan.nodup_new, fun pair => hresult.plan.new_fresh hresult.old hr.fresh, ?_,
    hresult.usages, ?_⟩
  · refine ⟨stays.map Value.written, r.schemas.entries.map fun entry => (entry.1, entry.2.written),
      by rw [List.length_map, hlength], ?_, ?_, ?_, ?_⟩
    · rw [List.map_map]
      rfl
    · intro component hcomponent
      obtain ⟨entry, hentry, rfl⟩ := List.mem_map.1 hcomponent
      dsimp only
      rw [Value.written, ← Value.subst_withId _ _ (hr.isMap entry hentry), hr.named entry hentry hids]
    · rw [@document_resultOf { options with shortenNames := false } document stays hlength,
        substEntries_putAll r.schemas.nodup, List.map_map]
      · simp only [Value.renameAll_nil]
        rfl
      · intro pair hpair
        exact hr.fresh pair.1 (Table.mem_keys_of_mem hpair)
    · rw [hresult.document, List.map_map, reordered_map, List.map_map]
      congr 1
      · refine List.map_congr_left fun v hv => hresult.plan.renameAll_written fun name hname => ?_
        exact hkept name ((hclosed v hv).addresses name hname)
      · refine congrArg _ (List.map_congr_left fun entry hentry => ?_)
        have hentry := mem_reordered hentry
        rw [renamedComponent_eq (hr.named entry hentry hids),
          hresult.plan.renameAll_written fun name hname => ?_,
          Value.written, Value.subst_withId _ _ (hr.isMap entry hentry)]
        · rfl
        · exact hkept name ((hr.closed entry hentry).addresses name (Value.mem_refNames_withId hname))
  · intro name hname
    exact hresult.mem_schemaNames.2 (hresult.mem_refNames hr hstays hknown hname)

/-- Whenever an extraction with identifiers succeeds, so does the one without short names. Its
document is the same, except that all names that are renamed are replaced at once. -/
theorem extractComponents_isShortened {e : Extraction} (hids : options.assignIds = true)
    (hknown : ∀ name ∈ document.refNames, name ∈ document.schemaNames)
    (h : extractComponents options document = .ok e) :
    ∃ plain, extractComponents { options with shortenNames := false } document = .ok plain ∧
      IsShortened options.mediaType document plain e :=
  extractWith_isShortened hids hknown h

theorem extractComponents_isShortened_orders : ∃ e plain,
    extractComponents .usual ordersDocument = .ok e ∧ e.renamed.length = 2 ∧
      extractComponents { ExtractionOptions.usual with shortenNames := false } ordersDocument =
        .ok plain ∧
      IsShortened jsonMediaType ordersDocument plain e := by
  obtain ⟨e, h, -, hrenamed⟩ := exists_extraction_ordersDocument
  obtain ⟨plain, hplain, hshortened⟩ :=
    @extractComponents_isShortened .usual ordersDocument e rfl (by decide +kernel) h
  exact ⟨e, plain, h, hrenamed, hplain, hshortened⟩

end NamedSchemas
