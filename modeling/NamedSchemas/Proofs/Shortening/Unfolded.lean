import NamedSchemas.Proofs.Extraction.Grouped
import NamedSchemas.Proofs.Extraction.Unfolding
import NamedSchemas.Proofs.Shortening.Result
/-!
# Extraction keeps what bodies mean

Replacing references to the added components by the schemas of these leads from every body of the
result back to the body that was extracted. This is so whatever names the components end with.
-/

namespace NamedSchemas

variable {digest : Text → Text} {options : ExtractionOptions} {document : Document}

/-! ### The components of a result -/

theorem Value.withId_marked {ρ : Type} (id? : Option Text) (name : Text) (v : Value ρ) :
    (v.marked id?).withId name = v.marked (some name) := by
  cases id? with
  | none => rfl
  | some id =>
    cases v with
    | map es => exact congrArg map (Entries.insert_insert _ _)
    | scalar s => rfl
    | list items => rfl
    | ref label => rfl

theorem map_storedEntries (s : ExtractionSettings) (ν : Document → Text) (name : Text) {d : Document}
    (h : d.isHoisted = true) : (Value.map (storedEntries s name (d.content ν).entries) : Linked Empty) =
      (d.content ν).marked (if s.assignIds then some name else none) := by
  rw [storedEntries, Entries.copied_eq, ← Value.map_entries (Value.isMap_content h)]
  cases s.assignIds <;> rfl

/-- What stays in the place of a schema follows the renamings. -/
theorem IsPlan.renameAll_linked {taken : List Text} {plan : List (Text × Text)}
    (hplan : IsPlan taken plan) (ν : Document → Text) (d : Document) :
    (d.linked ν).renameAll plan = d.linked fun i => renamedAtOnce plan (ν i) := by
  rw [Value.renameAll, hplan.renamedBy_eq]
  exact Value.relabel_linked d fun i => rfl

/-- The bodies of a result are what stays in their places, with the names that components end
with. -/
theorem IsResult.bodies_linked {ν : Document → Text} {r : Registry Empty} {e : Extraction}
    (h : IsResult digest options document
      ((document.bodies options.mediaType).map fun body => body.2.linked ν) r e) :
    e.document.bodies options.mediaType = (document.bodies options.mediaType).map fun body =>
      (body.1, (body.2.linked fun i => renamedAtOnce e.renamed (ν i)).written) := by
  rw [h.document, Value.bodies_assembled, List.map_map, List.zip_map']
  · refine List.map_congr_left fun body _ => ?_
    rw [Function.comp_apply, h.plan.renameAll_linked]
  · rw [List.length_map, List.length_map]

theorem IsPlan.renameAll_marked {taken : List Text} {plan : List (Text × Text)}
    (hplan : IsPlan taken plan) (ν : Document → Text) (id? : Option Text) {d : Document}
    (h : d.isHoisted = true) : ((d.content ν).marked id?).renameAll plan =
      (d.content fun i => renamedAtOnce plan (ν i)).marked id? := by
  rw [Value.renameAll, Value.relabel, Value.subst_marked _ _ (Value.isMap_content h),
    hplan.renamedBy_eq]
  exact congrArg _ (Value.relabel_content d fun i => rfl)

/-- A component holds its schema, in which the schemas inside have the names that they end with. -/
theorem renamedComponent_storedEntries {taken : List Text} {plan : List (Text × Text)}
    (hplan : IsPlan taken plan) (s : ExtractionSettings) (ν : Document → Text) (name : Text)
    {d : Document} (h : d.isHoisted = true) :
    ∃ id?, (renamedComponent plan (name, .map (storedEntries s name (d.content ν).entries))).2 =
      (d.content fun i => renamedAtOnce plan (ν i)).marked id? := by
  have hcases := renamedComponent_eq_or plan (name, .map (storedEntries s name (d.content ν).entries))
  rw [map_storedEntries s ν name h] at hcases ⊢
  rcases hcases with heq | heq
  · exact ⟨_, heq.trans (hplan.renameAll_marked ν _ h)⟩
  · rw [Value.withId_marked] at heq
    exact ⟨_, heq.trans (hplan.renameAll_marked ν _ h)⟩

/-- The added components of a result, with their references. -/
def addedTo (r : Registry Empty) (e : Extraction) : List (Text × Linked Empty) :=
  (reordered e.renamed r.schemas.entries).map (renamedComponent e.renamed)

theorem renamedAtOnce_mem_addedTo {r : Registry Empty} (e : Extraction) {own : Text}
    (h : own ∈ r.schemas.keys) : renamedAtOnce e.renamed own ∈ (addedTo r e).map Prod.fst := by
  obtain ⟨entry, hentry, rfl⟩ := List.mem_map.1 h
  rw [addedTo, List.map_map]
  exact List.mem_map.2 ⟨entry, mem_reordered_of_mem r.schemas.nodup hentry, rfl⟩

section Added

variable {s : ExtractionSettings} {O : List Occurrence} {stays : List (Linked Empty)}
  {r : Registry Empty} {e : Extraction}

theorem IsResult.fresh (h : IsResult digest options document stays r e)
    (hr : Reflects s document.schemaNames O O r) :
    ∀ name ∈ (addedTo r e).map Prod.fst, name ∉ document.schemaNames := by
  intro name hname
  obtain ⟨component, hcomponent, rfl⟩ := List.mem_map.1 hname
  obtain ⟨entry, hentry, rfl⟩ := List.mem_map.1 hcomponent
  refine h.plan.renamedAtOnce_fresh h.old (fun own hown => ?_)
    (Table.mem_keys_of_mem (mem_reordered hentry))
  rw [Table.keys, hr.schemas] at hown
  obtain ⟨pair, hpair, rfl⟩ := List.mem_map.1 hown
  obtain ⟨d, hd, rfl⟩ := List.mem_map.1 hpair
  exact hr.fresh d hd

theorem IsResult.holds (h : IsResult digest options document stays r e)
    (hr : Reflects s document.schemaNames O O r) (hO : Sound document.schemaNames O) :
    ∃ ids, Holds (fun d => renamedAtOnce e.renamed (nameIn O d)) ids (schemasOf O) (addedTo r e) := by
  have hschemas : ∀ d ∈ schemasOf O, d.isHoisted = true ∧
      ∀ name ∈ d.refNames, name ∈ document.schemaNames := by
    intro d hd
    obtain ⟨o, ho, rfl⟩ := exists_of_mem_schemasOf hd
    exact ⟨hO.hoisted o ho, hO.known o ho⟩
  have hstored : ∀ d, ∃ id?, d ∈ schemasOf O →
      (renamedComponent e.renamed (nameIn O d, storedIn s O d)).2 =
        (d.content fun i => renamedAtOnce e.renamed (nameIn O i)).marked id? := by
    intro d
    by_cases hd : d ∈ schemasOf O
    · obtain ⟨id?, heq⟩ := renamedComponent_storedEntries h.plan s (nameIn O) (nameIn O d)
        (hschemas d hd).1
      exact ⟨id?, fun _ => heq⟩
    · exact ⟨none, fun hmem => absurd hmem hd⟩
  obtain ⟨ids, hids⟩ := Classical.skolem.1 hstored
  have hentry : ∀ d ∈ schemasOf O,
      (nameIn O d, storedIn s O d) ∈ reordered e.renamed r.schemas.entries := by
    intro d hd
    refine mem_reordered_of_mem r.schemas.nodup ?_
    rw [hr.schemas]
    exact List.mem_map.2 ⟨d, hd, rfl⟩
  refine ⟨ids, ?_, fun component => ⟨fun hcomponent => ?_, ?_⟩, fun d hd i hi heq => ?_,
    fun d hd => (hschemas d hd).1, fun d hd => hO.inside_met (List.prefix_refl O) hd,
    fun d hd name hname hadded => h.fresh hr name hadded ((hschemas d hd).2 name hname)⟩
  · rw [addedTo, List.map_map]
    exact h.nodup
  · obtain ⟨entry, hentry, rfl⟩ := List.mem_map.1 hcomponent
    have hentry := mem_reordered hentry
    rw [hr.schemas] at hentry
    obtain ⟨d, hd, rfl⟩ := List.mem_map.1 hentry
    exact ⟨d, hd, Prod.ext rfl (hids d hd)⟩
  · rintro ⟨d, hd, rfl⟩
    exact List.mem_map.2 ⟨_, hentry d hd, Prod.ext rfl (hids d hd)⟩
  · have hkeys : ∀ d ∈ schemasOf O, nameIn O d ∈ r.schemas.keys := fun d hd =>
      Table.mem_keys_of_mem (mem_reordered (hentry d hd))
    have hsame := h.renamedAtOnce_injective (hkeys d hd) (hkeys i hi) heq
    exact List.inj_on_of_nodup_map hr.clashFree.nodup hd hi hsame

end Added

/-! ### Documents -/

/-- The bodies of a result mean what the bodies of the document mean: references to the added
components can be replaced until there are none, and what is left are the bodies of the document in
which the schemas that became components may have been given identifiers. -/
structure KeepsBodies (mediaType : Text) (document result : Document)
    (added : List (Text × Document)) (ids : Document → Option Text) : Prop where
  schemas : result.namedSchemas =
    document.namedSchemas ++ added.map fun component => (.text component.1, component.2)
  fresh : ∀ name ∈ added.map Prod.fst, name ∉ document.schemaNames
  resolved : ∀ name ∈ result.refNames, name ∈ document.refNames ∨ name ∈ added.map Prod.fst
  acyclic : ∀ name, ¬ Relation.TransGen (RefersTo added) name name
  bodies : List.Forall₂ (fun body output => output.1 = body.1 ∧
      (∃ n, (Value.expand (heldBy added))^[n] output.2 = body.2.withIds ids) ∧
        ∀ name ∈ (body.2.withIds ids).refNames, heldBy added name = none)
    (document.bodies mediaType) (result.bodies mediaType)

theorem mem_schemasOf_of_body {mediaType : Text} (hjson : document.isJson = true)
    {body : BodyPlace × Document} (hbody : body ∈ document.bodies mediaType) :
    ∀ i ∈ body.2.hoisted, i ∈ schemasOf (document.bodyOccurrences mediaType) := by
  intro i hi
  obtain ⟨c, hc, -⟩ := exists_context hjson hbody
  rw [← Value.map_schema_occurrences body.2 c] at hi
  refine mem_schemasOf.2 ((List.map_subset _ fun o ho => ?_) hi)
  refine List.mem_flatMap.2 ⟨body, hbody, ?_⟩
  rwa [hc]

theorem reflects_of_visitBodies {s : Registry Empty} {stays : List (Linked Empty)}
    (hjson : document.isJson = true)
    (hknown : ∀ name ∈ document.refNames, name ∈ document.schemaNames)
    (h : (visitBodies digest options document).result (.empty document.schemaNames) =
      (.ok stays, s)) :
    let O := document.bodyOccurrences options.mediaType
    Reflects ⟨digest, options.assignIds⟩ document.schemaNames O O s ∧
      stays = (document.bodies options.mediaType).map fun body => body.2.linked (nameIn O) := by
  intro O
  have hvisit := simulates_visitBodies digest options hjson hknown _ reflects_empty
  cases hfault : faultFrom ⟨digest, options.assignIds⟩ document.schemaNames O [] O with
  | some fault =>
    rw [hfault] at hvisit
    obtain ⟨t, hresult⟩ := hvisit
    rw [h] at hresult
    cases (Prod.mk.inj hresult).1
  | none =>
    rw [hfault] at hvisit
    obtain ⟨t, hresult, ht⟩ := hvisit
    rw [h] at hresult
    obtain ⟨hstays, rfl⟩ := Prod.mk.inj hresult
    exact ⟨ht, Except.ok.inj hstays⟩

/-- An extraction that succeeds has met the occurrences in the bodies, and renames by the plan for
them. -/
theorem exists_reflects_of_extractWith {e : Extraction} (hjson : document.isJson = true)
    (hknown : ∀ name ∈ document.refNames, name ∈ document.schemaNames)
    (h : extractWith digest options document = .ok e) :
    let O := document.bodyOccurrences options.mediaType
    ∃ r, Reflects ⟨digest, options.assignIds⟩ document.schemaNames O O r ∧
      IsResult digest options document
        ((document.bodies options.mediaType).map fun body => body.2.linked (nameIn O)) r e ∧
      (options.shortenNames = true → r.plan = .ok e.renamed) := by
  intro O
  obtain ⟨stays, r, hvisit, -, -, hresult⟩ :=
    @isResult_of_extractWith digest options document e h (· ∈ document.refNames) fun _ hname => hname
  obtain ⟨stays', r', plan, last, -, hvisit', hfinish, rfl⟩ := extractWith_eq_ok h
  cases hvisit.symm.trans hvisit'
  obtain ⟨hr, rfl⟩ := reflects_of_visitBodies hjson hknown hvisit
  refine ⟨r, hr, hresult, fun hshorten => ?_⟩
  rw [finish, if_pos hshorten] at hfinish
  exact (shorten_eq_ok hfinish).1

theorem extractWith_keepsBodies {e : Extraction} (hjson : document.isJson = true)
    (hknown : ∀ name ∈ document.refNames, name ∈ document.schemaNames)
    (h : extractWith digest options document = .ok e) :
    ∃ added ids, KeepsBodies options.mediaType document e.document added ids := by
  obtain ⟨stays, r, hvisit, hlinkage, hstays, hresult⟩ :=
    @isResult_of_extractWith digest options document e h (· ∈ document.refNames) fun _ hname => hname
  obtain ⟨hr, hlinked⟩ := reflects_of_visitBodies hjson hknown hvisit
  have hO := @sound_bodyOccurrences _ options.mediaType document hjson hknown
  obtain ⟨ids, hholds⟩ := hresult.holds hr hO
  have hforeign : ∀ name ∈ document.refNames, name ∉ (addedTo r e).map Prod.fst :=
    fun name hname hadded => hresult.fresh hr name hadded (hknown name hname)
  refine ⟨writtenOut (addedTo r e), ids, ?_, ?_, fun name hname => ?_, hholds.acyclic, ?_⟩
  · rw [hresult.document, Value.namedSchemas_assembled, writtenOut, addedTo, List.map_map,
      List.map_map]
    rfl
  · rw [map_fst_writtenOut]
    exact hresult.fresh hr
  · rw [map_fst_writtenOut]
    refine (hresult.mem_refNames hlinkage hstays (fun _ hname => hname) hname).imp id ?_
    rintro ⟨own, hown, rfl⟩
    exact renamedAtOnce_mem_addedTo e hown
  · rw [hlinked] at hresult
    rw [hresult.bodies_linked, List.forall₂_map_right_iff, List.forall₂_same]
    intro body hbody
    have hnames : ∀ name ∈ body.2.refNames, name ∉ (addedTo r e).map Prod.fst := fun name hname =>
      hforeign name (Value.mem_refNames_of_mem_bodies hbody hname)
    have hexpand := hholds.iterate_expand (mem_schemasOf_of_body hjson hbody) hnames
    exact ⟨rfl, ⟨sizeOf body.2, hexpand.1⟩, hexpand.2⟩

/-- Extraction keeps what the bodies mean, with any options: no reference is left without a
component, no component leads back to itself, and replacing references by components gives every
body back. -/
theorem extractComponents_keepsBodies {e : Extraction} (hjson : document.isJson = true)
    (hknown : ∀ name ∈ document.refNames, name ∈ document.schemaNames)
    (h : extractComponents options document = .ok e) :
    ∃ added ids, KeepsBodies options.mediaType document e.document added ids :=
  extractWith_keepsBodies hjson hknown h

theorem extractComponents_keepsBodies_orders : ∃ e added ids,
    extractComponents .usual ordersDocument = .ok e ∧ e.renamed.length = 2 ∧
      KeepsBodies jsonMediaType ordersDocument e.document added ids := by
  obtain ⟨e, h, -, hrenamed⟩ := exists_extraction_ordersDocument
  obtain ⟨added, ids, hkeeps⟩ :=
    @extractComponents_keepsBodies .usual ordersDocument e (by decide +kernel) (by decide +kernel) h
  exact ⟨e, added, ids, h, hrenamed, hkeeps⟩

end NamedSchemas
