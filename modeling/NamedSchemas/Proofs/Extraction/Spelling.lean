import Mathlib.Data.List.Induction
import NamedSchemas.Proofs.Extraction.Nullable
/-!
# Spellings of nullable types

A document in which every schema that is reached lists its type together with null is extracted like
the document in which the types are given by name. The same schemas are found equal, components have
the same names, and what is put among them and what stays in the bodies is spelled with null in
turn.
-/

namespace NamedSchemas

variable {O : List Occurrence} {g : Document → Document}

/-! ### Occurrences of other schemas -/

def Occurrence.map (g : Document → Document) (o : Occurrence) : Occurrence := ⟨g o.schema, o.context⟩

/-- The schemas that occur can be told apart after the function. -/
def TellsApart (g : Document → Document) (O : List Occurrence) : Prop :=
  ∀ o ∈ O, ∀ p ∈ O, g o.schema = g p.schema → o.schema = p.schema

theorem TellsApart.of_append {more : List Occurrence} (h : TellsApart g (O ++ more)) :
    TellsApart g O :=
  fun o ho p hp => h o (List.mem_append_left _ ho) p (List.mem_append_left _ hp)

theorem schemasOf_map (hg : TellsApart g O) :
    schemasOf (O.map (.map g)) = (schemasOf O).map g := by
  induction O using List.reverseRecOn with
  | nil => rfl
  | append_singleton O o ih =>
    have hmem : g o.schema ∈ (schemasOf O).map g ↔ o.schema ∈ schemasOf O := by
      refine ⟨fun h => ?_, fun h => List.mem_map_of_mem h⟩
      obtain ⟨d, hd, heq⟩ := List.mem_map.1 h
      obtain ⟨p, hp, rfl⟩ := exists_of_mem_schemasOf hd
      rwa [← hg p (List.mem_append_left _ hp) o (List.mem_append_right _ (List.mem_singleton.2 rfl)) heq]
    rw [List.map_append, List.map_cons, List.map_nil, schemasOf_concat, ih hg.of_append,
      schemasOf_concat, List.map_append, Occurrence.map]
    congr 1
    by_cases h : o.schema ∈ schemasOf O
    · rw [if_pos h, if_pos (hmem.2 h), List.map_nil]
    · rw [if_neg h, if_neg fun hmap => h (hmem.1 hmap), List.map_cons, List.map_nil]

theorem contextsOf_map (hg : TellsApart g O) {d : Document} (hd : d ∈ schemasOf O) :
    contextsOf (O.map (.map g)) (g d) = contextsOf O d := by
  obtain ⟨p, hp, rfl⟩ := exists_of_mem_schemasOf hd
  rw [contextsOf, List.filter_map, List.map_map, contextsOf]
  refine congrArg (List.map _) (List.filter_congr fun o ho => ?_)
  exact decide_eq_decide.2 ⟨hg o ho p hp, congrArg g⟩

theorem firstContext_map (hg : TellsApart g O) {d : Document} (hd : d ∈ schemasOf O) :
    firstContext (O.map (.map g)) (g d) = firstContext O d := by
  rw [firstContext, contextsOf_map hg hd, firstContext]

theorem nameIn_map (hg : TellsApart g O) {d : Document} (hd : d ∈ schemasOf O) :
    nameIn (O.map (.map g)) (g d) = nameIn O d := by
  rw [nameIn, firstContext_map hg hd, nameIn]

theorem firstClash_map {ν ν' : Document → Text} {taken : List Text} {ds : List Document}
    (h : ∀ d ∈ ds, ν' (g d) = ν d) : firstClash ν' taken (ds.map g) = (firstClash ν taken ds).map g := by
  induction ds generalizing taken with
  | nil => rfl
  | cons d rest ih =>
    obtain ⟨hd, hrest⟩ := List.forall_mem_cons.1 h
    rw [List.map_cons, firstClash, firstClash, hd, ih hrest]
    split <;> rfl

theorem clash_map (hg : TellsApart g O) {d : Document} (hd : d ∈ schemasOf O) :
    clash (O.map (.map g)) (g d) = clash O d := by
  rw [clash, nameIn_map hg hd, firstContext_map hg hd, clash]

theorem firstClash_schemasOf_map (hg : TellsApart g O) (taken : List Text) :
    (firstClash (nameIn (O.map (.map g))) taken (schemasOf (O.map (.map g)))).map
        (clash (O.map (.map g))) =
      (firstClash (nameIn O) taken (schemasOf O)).map (clash O) := by
  rw [schemasOf_map hg, firstClash_map fun d hd => nameIn_map hg hd, Option.map_map]
  cases hclash : firstClash (nameIn O) taken (schemasOf O) with
  | none => rfl
  | some d => exact congrArg some (clash_map hg (mem_of_firstClash hclash))

/-! ### The document -/

namespace Value

variable {mediaType : Text} {d : Document}

/-- The document with null among the types of every schema that is reached from its bodies. -/
def bodiesNullable (mediaType : Text) (d : Document) : Document :=
  (Traversal.bodies mediaType).fill d ((d.bodies mediaType).map fun body => body.2.allNullable)

theorem bodies_bodiesNullable (mediaType : Text) (d : Document) :
    (d.bodiesNullable mediaType).bodies mediaType =
      (d.bodies mediaType).map fun body => (body.1, body.2.allNullable) := by
  rw [bodies, bodiesNullable, Traversal.parts_fill _ _ _ (by rw [List.length_map]; rfl), ← bodies,
    List.zip_map']

theorem related_bodiesNullable {R : Document → Document → Prop} (hR : Congruence R)
    (h : ∀ e, R e e.allNullable) : R d (d.bodiesNullable mediaType) := by
  refine (Traversal.bodies mediaType).fill_related hR d _ ?_
  rw [List.forall₂_map_right_iff]
  exact List.forall₂_same.2 fun body _ => h body.2

theorem isJson_bodiesNullable (h : d.isJson = true) : (d.bodiesNullable mediaType).isJson = true :=
  related_bodiesNullable congruence_isJson (fun _ => isJson_allNullable) h

theorem mem_refNames_bodiesNullable {name : Text}
    (h : name ∈ (d.bodiesNullable mediaType).refNames) : name ∈ d.refNames := by
  have hrelated := @related_bodiesNullable mediaType d _ (congruence_refNames fun _ => False)
    fun e => ⟨text?_allNullable e, fun name hname => Or.inl (mem_refNames_allNullable hname)⟩
  exact (hrelated.2 name h).resolve_right id

theorem exists_bodiesNullable_map (mediaType : Text) (es : Entries Empty) :
    ∃ fs, bodiesNullable mediaType (.map es) = .map fs ∧
      Entries.get? "components" fs = Entries.get? "components" es := by
  obtain ⟨fs, hfill, hget, -⟩ := assembled_map mediaType es
    (((Value.map es).bodies mediaType).map fun body => body.2.allNullable) []
  exact ⟨fs, hfill, hget⟩

theorem components_bodiesNullable (mediaType : Text) (d : Document) :
    (d.bodiesNullable mediaType).components = d.components := by
  cases d with
  | map es =>
    obtain ⟨fs, hfs, hget⟩ := exists_bodiesNullable_map mediaType es
    rw [hfs]
    exact congrArg (fun v? => (v?.getD (.list [])).entries) hget
  | scalar s => rfl
  | list items => rfl
  | ref label => exact label.elim

theorem namedSchemas_bodiesNullable (mediaType : Text) (d : Document) :
    (d.bodiesNullable mediaType).namedSchemas = d.namedSchemas := by
  rw [namedSchemas, components_bodiesNullable, namedSchemas]

theorem schemaNames_bodiesNullable (mediaType : Text) (d : Document) :
    (d.bodiesNullable mediaType).schemaNames = d.schemaNames := by
  rw [schemaNames, namedSchemas_bodiesNullable, schemaNames]

theorem Misshapen.bodiesNullable {fault : Fault} (h : Misshapen d fault) :
    Misshapen (d.bodiesNullable mediaType) fault := by
  cases d with
  | map es =>
    obtain ⟨fs, hfs, hget⟩ := exists_bodiesNullable_map mediaType es
    have hcomponents : (Value.map fs).components = (Value.map es).components := by
      rw [← hfs, components_bodiesNullable]
    rw [hfs]
    cases h with
    | document hnone => exact absurd rfl (hnone es)
    | components hheld =>
      refine .components ?_
      rwa [Entries.HoldsMap, hget]
    | schemas hheld hschemas =>
      refine .schemas ?_ (by rwa [hcomponents])
      rwa [Entries.HoldsMap, hget]
  | scalar s => exact h
  | list items => exact h
  | ref label => exact label.elim

theorem exists_parts_bodiesNullable {p : Parts} (h : Parts.of (ofDocument d) = .ok p) :
    ∃ q, Parts.of (ofDocument (d.bodiesNullable mediaType)) = .ok q := by
  obtain ⟨es, rfl, hcomponents, hschemas⟩ := wellShaped_of_parts h
  obtain ⟨fs, hfs, hget⟩ := exists_bodiesNullable_map mediaType es
  rw [hfs]
  refine ⟨_, parts_of_wellShaped ?_ ?_⟩
  · rwa [Entries.HoldsMap, hget]
  · rwa [← hfs, components_bodiesNullable]

/-! ### Its occurrences -/

theorem bodyOccurrences_bodiesNullable (mediaType : Text) (d : Document) :
    (d.bodiesNullable mediaType).bodyOccurrences mediaType =
      (d.bodyOccurrences mediaType).map (.map allNullable) := by
  rw [bodyOccurrences, bodies_bodiesNullable, List.flatMap_map, bodyOccurrences, List.map_flatMap]
  refine List.flatMap_congr fun body _ => ?_
  dsimp only
  split
  · exact occurrences_allNullable body.2 _
  · rfl

theorem reachable_of_mem_occurrences (d : Document) (c : Context) :
    ∀ o ∈ d.occurrences c, ∀ e ∈ o.schema.reachable, e ∈ d.reachable := by
  induction d using schemaInduction generalizing c with
  | step d ih =>
    intro o ho e he
    rw [occurrences_eq] at ho
    rw [reachable_eq]
    rcases List.mem_append.1 ho with hinside | hself
    · obtain ⟨part, hpart, ho⟩ := List.mem_flatMap.1 hinside
      exact List.mem_cons_of_mem _ (List.mem_flatMap.2 ⟨part, hpart, ih part hpart _ o ho e he⟩)
    · split at hself
      · rw [List.mem_singleton.1 hself] at he
        rwa [← reachable_eq]
      · cases hself

/-- Schemas that give their types by name are told apart when null is listed with the types. -/
theorem tellsApart_allNullable (hjson : d.isJson = true)
    (hplain : ∀ body ∈ d.bodies mediaType, ∀ e ∈ body.2.reachable, e.listsTypes = false) :
    TellsApart allNullable (d.bodyOccurrences mediaType) := by
  have hback : ∀ o ∈ d.bodyOccurrences mediaType, o.schema.allNullable.allUnlisted = o.schema := by
    intro o ho
    have hjson := gives_schemasOf (P := fun e => e.isJson = true)
      (fun _ hes _ hentry => (isJson_of_mem hes hentry).2) hjson _ (mem_schemasOf_of_mem ho)
    obtain ⟨body, hbody, ho⟩ := List.mem_flatMap.1 ho
    split at ho
    · exact allUnlisted_allNullable hjson fun e he =>
        hplain body hbody e (reachable_of_mem_occurrences body.2 _ o ho e he)
    · cases ho
  intro o ho p hp heq
  rw [← hback o ho, heq, hback p hp]

end Value

/-! ### Components -/

section Components

variable {taken : List Text} {plan : List (Text × Text)} {ν ν' : Document → Text} {d : Document}

theorem Value.id?_marked {ρ : Type} {v w : Value ρ} (hv : v.isMap = true) (hw : w.isMap = true)
    (h : v.id? = w.id?) (id? : Option Text) : (v.marked id?).id? = (w.marked id?).id? := by
  cases id? with
  | none => exact h
  | some name => exact (id?_withId name hv).trans (id?_withId name hw).symm

theorem Value.renameId_eq {old new : Text} {v : Linked Empty} (h : v.isMap = true) :
    v.renameId old new = if v.id?.bind text? = some old then v.withId new else v := by
  match v, h with
  | .map es, _ => rfl

theorem exists_renamedComponent_marked (ν ν' : Document → Text) (hplan : IsPlan taken plan)
    {d' : Document} (h : d.isHoisted = true) (h' : d'.isHoisted = true) (hid : d'.id? = d.id?)
    (name : Text) (id? : Option Text) : ∃ last?,
      (renamedComponent plan (name, (d.content ν).marked id?)).2 =
        (d.content fun i => renamedAtOnce plan (ν i)).marked last? ∧
      (renamedComponent plan (name, (d'.content ν').marked id?)).2 =
        (d'.content fun i => renamedAtOnce plan (ν' i)).marked last? := by
  have hmap := Value.isMap_content (ν := ν) h
  have hmap' := Value.isMap_content (ν := ν') h'
  have hsame : ((d'.content ν').marked id?).id? = ((d.content ν).marked id?).id? := by
    apply Value.id?_marked hmap' hmap
    rw [Value.content, Value.id?_withInner, Value.content, Value.id?_withInner, hid]
  simp only [renamedComponent, renamedEntry]
  split
  · rw [Value.renameId_eq ((Value.isMap_marked _ _).trans hmap),
      Value.renameId_eq ((Value.isMap_marked _ _).trans hmap'), hsame]
    split
    · rw [Value.withId_marked, Value.withId_marked]
      exact ⟨_, hplan.renameAll_marked ν _ h, hplan.renameAll_marked ν' _ h'⟩
    · exact ⟨_, hplan.renameAll_marked ν _ h, hplan.renameAll_marked ν' _ h'⟩
  · exact ⟨_, hplan.renameAll_marked ν _ h, hplan.renameAll_marked ν' _ h'⟩

theorem written_renamedComponent_allNullable (hplan : IsPlan taken plan) (h : d.isHoisted = true)
    (hν : ∀ i ∈ d.hoistedInside, ν' i.allNullable = ν i) (name : Text) (id? : Option Text) :
    (renamedComponent plan (name, (d.allNullable.content ν').marked id?)).2.written =
      (renamedComponent plan (name, (d.content ν).marked id?)).2.written.allNullable := by
  have h' : d.allNullable.isHoisted = true := (Value.isHoisted_allNullable d).trans h
  obtain ⟨last?, hd, hd'⟩ := exists_renamedComponent_marked ν ν' hplan h h'
    (Value.id?_allNullable d) name id?
  have hwritten : ∀ {e : Document} {μ : Document → Text}, e.isHoisted = true →
      ((e.content μ).marked last?).written = (e.content μ).written.marked last? :=
    fun he => Value.subst_marked _ _ (Value.isMap_content he)
  rw [hd, hd', hwritten h, hwritten h', Value.allNullable_marked]
  exact congrArg _ (Value.written_content_allNullable fun i hi => congrArg _ (hν i hi))

end Components

/-! ### Runs -/

/-- The result of the nullable document is that of the document, with null among the types in the
bodies and in the added components. -/
structure IsRespelled (mediaType : Text) (document : Document) (e f : Extraction) : Prop where
  created : f.created = e.created
  renamed : f.renamed = e.renamed
  usages : f.usages = e.usages
  bodies : f.document.bodies mediaType =
    (e.document.bodies mediaType).map fun body => (body.1, body.2.allNullable)
  components : ∃ added, e.document.namedSchemas = document.namedSchemas ++ added ∧
    f.document.namedSchemas = document.namedSchemas ++
      added.map fun component => (component.1, component.2.allNullable)

/-- Schemas that the extraction of a document comes to have the same digest only when they have the
same canonical text. -/
def Value.HasDistinctDigests (digest : Text → Text) (mediaType : Text) (document : Document) : Prop :=
  let O := document.bodyOccurrences mediaType
  DigestsDiffer digest O (reached (nameIn O) document.schemaNames (schemasOf O))

/-- Both extractions fail in the same way, or both succeed with results that are related. -/
inductive EndAlike (R : Extraction → Extraction → Prop) :
    Except Fault Extraction → Except Fault Extraction → Prop
  | ok {e f : Extraction} : R e f → EndAlike R (.ok e) (.ok f)
  | error (fault : Fault) : EndAlike R (.error fault) (.error fault)

variable {digest : Text → Text} {options : ExtractionOptions} {document : Document}

theorem Registry.Consistent.fst_result_finish {existing : List Text} {r : Registry Empty}
    (hr : r.Consistent digest existing) (options : ExtractionOptions) :
    ((finish options).result r).1 =
      if options.shortenNames then r.plan else .ok [] := by
  rw [finish]
  split
  · rcases hr.result_shorten with ⟨fault, hplan, hresult⟩ | ⟨plan, t, hplan, -, hresult, -⟩
    · rw [hresult, hplan]
    · rw [hresult, hplan]
  · rfl

def plannedIn (existing : List Text) (O : List Occurrence) : Except Fault (List (Text × Text)) :=
  planFrom ((schemasOf O).map (nameIn O) ++ existing)
    ((schemasOf O).map fun d => (nameIn O d, contextsOf O d))

theorem plannedIn_map (hg : TellsApart g O) (existing : List Text) :
    plannedIn existing (O.map (.map g)) = plannedIn existing O := by
  rw [plannedIn, schemasOf_map hg, List.map_map, List.map_map, plannedIn]
  congr 1
  · refine congrArg (· ++ existing) (List.map_congr_left fun d hd => nameIn_map hg hd)
  · refine List.map_congr_left fun d hd => ?_
    rw [Function.comp_apply, nameIn_map hg hd, contextsOf_map hg hd]

theorem Reflects.plan_eq {s : ExtractionSettings} {existing : List Text} {r : Registry Empty}
    (hr : Reflects s existing O O r) : r.plan = plannedIn existing O := by
  rw [Registry.plan, Table.keys, hr.schemas, hr.usages, hr.reserved, List.map_map]
  rfl

/-- An extraction stops at the first clash of names or at the plan, or else its result is told by
the occurrences. -/
theorem extractWith_told (hjson : document.isJson = true)
    {p : Parts} (hparts : Parts.of (.ofDocument document) = .ok p)
    (hknown : ∀ name ∈ document.refNames, name ∈ document.schemaNames)
    (hdigest : document.HasDistinctDigests digest options.mediaType) :
    let O := document.bodyOccurrences options.mediaType
    match (firstClash (nameIn O) document.schemaNames (schemasOf O)).map (clash O) with
    | some fault => extractWith digest options document = .error fault
    | none =>
      match if options.shortenNames then plannedIn document.schemaNames O else .ok [] with
      | .error fault => extractWith digest options document = .error fault
      | .ok plan => ∃ e r, extractWith digest options document = .ok e ∧ e.renamed = plan ∧
          Reflects ⟨digest, options.assignIds⟩ document.schemaNames O O r ∧
          IsResult digest options document
            ((document.bodies options.mediaType).map fun body => body.2.linked (nameIn O)) r e := by
  intro O
  have hO : Sound document.schemaNames O := sound_bodyOccurrences hjson hknown
  have hvisit := simulates_visitBodies digest options hjson hknown _ reflects_empty
  rw [hO.faultFrom_nil (s := ⟨digest, options.assignIds⟩) hdigest] at hvisit
  have hextract := extractWith_eq digest options hparts
  cases hclash : (firstClash (nameIn O) document.schemaNames (schemasOf O)).map (clash O) with
  | some fault =>
    rw [hclash] at hvisit
    obtain ⟨t, hvisit⟩ := hvisit
    rw [hextract, hvisit]
  | none =>
    rw [hclash] at hvisit
    obtain ⟨r, hvisit, hr⟩ := hvisit
    have hlegible := (Registry.Legible.runs_visitBodies digest options hjson) _
      (.empty : Registry.Legible digest document.schemaNames _)
    rw [hvisit] at hlegible
    have hfinish := hlegible.1.toConsistent.fst_result_finish options
    rw [hr.plan_eq] at hfinish
    rw [← hfinish]
    rw [hvisit] at hextract
    dsimp only at hextract ⊢
    cases hresult : (finish options).result r with
    | mk outcome last =>
      rw [hresult] at hextract
      cases outcome with
      | error fault => exact hextract
      | ok plan =>
        obtain ⟨stays, t, hvisit', -, -, h⟩ := isResult_of_extractWith hextract hknown
        cases hvisit.symm.trans hvisit'
        exact ⟨_, r, hextract, rfl, hr, h⟩

section Respelled

variable {O : List Occurrence} {s : ExtractionSettings} {r t : Registry Empty} {e f : Extraction}
  (hapart : TellsApart Value.allNullable O)
  (h : IsResult digest options document
    ((document.bodies options.mediaType).map fun body => body.2.linked (nameIn O)) r e)
  (hf : IsResult digest options (document.bodiesNullable options.mediaType)
    (((document.bodiesNullable options.mediaType).bodies options.mediaType).map fun body =>
      body.2.linked (nameIn (O.map (.map Value.allNullable)))) t f)

include hapart h hf

theorem bodies_of_isResult (hrenamed : f.renamed = e.renamed)
    (hmet : ∀ body ∈ document.bodies options.mediaType, ∀ i ∈ body.2.hoisted, i ∈ schemasOf O) :
    f.document.bodies options.mediaType =
      (e.document.bodies options.mediaType).map fun body => (body.1, body.2.allNullable) := by
  rw [hf.bodies_linked, h.bodies_linked, Value.bodies_bodiesNullable, List.map_map, List.map_map]
  refine List.map_congr_left fun body hbody => ?_
  rw [Function.comp_apply, Function.comp_apply, hrenamed]
  refine congrArg _ (Value.written_linked_allNullable body.2 fun i hi => ?_)
  rw [nameIn_map hapart (hmet body hbody i hi)]

variable (hr : Reflects s document.schemaNames O O r)
  (ht : Reflects s document.schemaNames (O.map (.map Value.allNullable))
    (O.map (.map Value.allNullable)) t)

include hr ht

theorem namedSchemas_of_isResult (hrenamed : f.renamed = e.renamed)
    (hO : Sound document.schemaNames O) :
    ∃ added, e.document.namedSchemas = document.namedSchemas ++ added ∧
      f.document.namedSchemas = document.namedSchemas ++
        added.map fun component => (component.1, component.2.allNullable) := by
  have hentries : t.schemas.entries = (schemasOf O).map fun i =>
      (nameIn O i, storedIn s (O.map (.map Value.allNullable)) i.allNullable) := by
    rw [ht.schemas, schemasOf_map hapart, List.map_map]
    refine List.map_congr_left fun i hi => ?_
    rw [Function.comp_apply, nameIn_map hapart hi]
  refine ⟨_, h.namedSchemas_eq hr.schemas, ?_⟩
  rw [hf.namedSchemas_eq hentries, Value.namedSchemas_bodiesNullable, hrenamed]
  refine congrArg _ ((List.map_congr_left fun i hi => ?_).trans List.map_map.symm)
  have hi := (h.perm_schemas hr.schemas).subset hi
  have hhoisted := hO.isHoisted hi
  have hnullable : i.allNullable.isHoisted = true := (Value.isHoisted_allNullable i).trans hhoisted
  rw [Function.comp_apply, storedIn, storedIn, nameIn_map hapart hi,
    map_storedEntries s _ _ hhoisted, map_storedEntries s _ _ hnullable]
  refine congrArg _ (written_renamedComponent_allNullable h.plan hhoisted (fun j hj => ?_) _ _)
  exact nameIn_map hapart (hO.inside_met (List.prefix_refl O) hi j hj)

theorem usages_of_isResult (hrenamed : f.renamed = e.renamed) : f.usages = e.usages := by
  have husages : t.usages.entries = r.usages.entries := by
    rw [ht.usages, hr.usages, schemasOf_map hapart, List.map_map]
    refine List.map_congr_left fun i hi => ?_
    rw [Function.comp_apply, nameIn_map hapart hi, contextsOf_map hapart hi]
  refine Table.ext ?_
  rw [hf.usages, h.usages, hrenamed, husages]

theorem created_of_isResult : f.created = e.created := by
  rw [hf.created, h.created, Table.keys, Table.keys, ht.schemas, hr.schemas, schemasOf_map hapart,
    List.map_map, List.map_map, List.map_map]
  exact List.map_congr_left fun i hi => nameIn_map hapart hi

end Respelled

theorem extractWith_respells (hjson : document.isJson = true)
    (hknown : ∀ name ∈ document.refNames, name ∈ document.schemaNames)
    (hplain : ∀ body ∈ document.bodies options.mediaType,
      ∀ d ∈ body.2.reachable, d.listsTypes = false)
    (hdigest : document.HasDistinctDigests digest options.mediaType)
    (hdigest' : (document.bodiesNullable options.mediaType).HasDistinctDigests digest
      options.mediaType) :
    EndAlike (IsRespelled options.mediaType document) (extractWith digest options document)
      (extractWith digest options (document.bodiesNullable options.mediaType)) := by
  cases hparts : Parts.of (.ofDocument document) with
  | error fault =>
    have hmisshapen := Value.parts_ofDocument_eq_error.1 hparts
    rw [extractWith_of_misshapen hmisshapen, extractWith_of_misshapen hmisshapen.bodiesNullable]
    exact .error fault
  | ok p =>
    obtain ⟨q, hq⟩ := Value.exists_parts_bodiesNullable hparts
    have hapart := Value.tellsApart_allNullable hjson hplain
    have hknown' : ∀ name ∈ (document.bodiesNullable options.mediaType).refNames,
        name ∈ (document.bodiesNullable options.mediaType).schemaNames := by
      rw [Value.schemaNames_bodiesNullable]
      exact fun name hname => hknown name (Value.mem_refNames_bodiesNullable hname)
    have htold := extractWith_told hjson hparts hknown hdigest
    have htold' := extractWith_told (Value.isJson_bodiesNullable hjson) hq hknown' hdigest'
    dsimp only at htold htold'
    rw [Value.schemaNames_bodiesNullable, Value.bodyOccurrences_bodiesNullable,
      firstClash_schemasOf_map hapart] at htold'
    split at htold
    · next fault hclash =>
      rw [hclash] at htold'
      rw [htold, htold']
      exact .error fault
    next hclash =>
    rw [hclash, plannedIn_map hapart] at htold'
    dsimp only at htold'
    split at htold
    · next fault hplan =>
      rw [hplan] at htold'
      rw [htold, htold']
      exact .error fault
    next plan hplan =>
    rw [hplan] at htold'
    obtain ⟨e, r, hextract, hrenamed, hr, h⟩ := htold
    obtain ⟨f, t, hextract', hrenamed', ht, hf⟩ := htold'
    rw [hextract, hextract']
    have hrenamed := hrenamed'.trans hrenamed.symm
    exact .ok ⟨created_of_isResult hapart h hf hr ht, hrenamed,
      usages_of_isResult hapart h hf hr ht hrenamed,
      bodies_of_isResult hapart h hf hrenamed fun _ hbody => mem_schemasOf_of_body hjson hbody,
      namedSchemas_of_isResult hapart h hf hr ht hrenamed (sound_bodyOccurrences hjson hknown)⟩

/-- Listing types together with null, in all schemas that are reached in a document which gives them
by name, changes nothing else: extraction fails in the same way, or finds the same schemas equal,
gives the same names and leaves the same bodies and components, with null among the types. -/
theorem extractComponents_respells (hjson : document.isJson = true)
    (hknown : ∀ name ∈ document.refNames, name ∈ document.schemaNames)
    (hplain : ∀ body ∈ document.bodies options.mediaType,
      ∀ d ∈ body.2.reachable, d.listsTypes = false)
    (hdigest : document.HasDistinctDigests Sha256.hex options.mediaType)
    (hdigest' : (document.bodiesNullable options.mediaType).HasDistinctDigests Sha256.hex
      options.mediaType) :
    EndAlike (IsRespelled options.mediaType document) (extractComponents options document)
      (extractComponents options (document.bodiesNullable options.mediaType)) :=
  extractWith_respells hjson hknown hplain hdigest hdigest'

theorem extractComponents_respells_orders : ∃ e f,
    extractComponents .usual ordersDocument = .ok e ∧
      extractComponents .usual (ordersDocument.bodiesNullable jsonMediaType) = .ok f ∧
      e.renamed.length = 2 ∧ IsRespelled jsonMediaType ordersDocument e f := by
  obtain ⟨e, h, -, hrenamed⟩ := exists_extraction_ordersDocument
  have hdigest : ∀ d ∈ [ordersDocument, ordersDocument.bodiesNullable jsonMediaType],
      d.HasDistinctDigests Sha256.hex jsonMediaType := by
    unfold Value.HasDistinctDigests DigestsDiffer
    decide +kernel
  have hrespells := @extractComponents_respells .usual ordersDocument (by decide +kernel)
    (by decide +kernel) (by decide +kernel) (hdigest _ (.head _)) (hdigest _ (.tail _ (.head _)))
  rw [h] at hrespells
  cases hf : extractComponents .usual (ordersDocument.bodiesNullable jsonMediaType) with
  | error fault => exact nomatch hf ▸ hrespells
  | ok f =>
    obtain ⟨hrespelled⟩ := hf ▸ hrespells
    exact ⟨e, f, h, rfl, hrenamed, hrespelled⟩

end NamedSchemas
