import NamedSchemas.Proofs.Extraction.Grouping
/-!
# Extraction as grouping

The registry of an extraction reflects the occurrences that were met so far, group by group. A
schema is recognised when one that is equal was met before, because the text by which it is
recognised has the names of components in the places of the schemas inside it, and these can be told
apart by name.
-/

namespace NamedSchemas

variable (s : ExtractionSettings) (existing : List Text) (O : List Occurrence)

/-- The canonical text of a schema whose components have their names from these occurrences. -/
def canonicalIn (d : Document) : Text := (canonicalText (d.content (nameIn O))).toOption.getD []

def digestIn (d : Document) : Text := s.digest (canonicalIn O d)

def storedIn (d : Document) : Linked Empty :=
  .map (storedEntries s (nameIn O d) (d.content (nameIn O)).entries)

/-- The registry holds what there is to know of the occurrences that were met. -/
structure Reflects (met : List Occurrence) (r : Registry Empty) : Prop where
  reserved : r.reserved = existing
  schemas : r.schemas.entries = (schemasOf met).map fun d => (nameIn O d, storedIn s O d)
  usages : r.usages.entries = (schemasOf met).map fun d => (nameIn O d, contextsOf met d)
  names : r.names.entries = (schemasOf met).map fun d => (digestIn s O d, nameIn O d)
  canonicals : r.canonicals.entries =
    (schemasOf met).map fun d => (digestIn s O d, canonicalIn O d)
  fresh : ∀ d ∈ schemasOf met, nameIn O d ∉ existing

/-- No two schemas have the same name, and none has one that is in use elsewhere. -/
structure ClashFree (ds : List Document) : Prop where
  nodup : (ds.map (nameIn O)).Nodup
  fresh : ∀ d ∈ ds, nameIn O d ∉ existing

/-- The fault of a schema whose name is in use. It tells where the schema occurs first. -/
def clash (d : Document) : Fault :=
  .nameTaken (nameIn O d) (firstContext O d).operationId
    ((firstContext O d).pathText.toOption.getD [])

/-- What is at fault with a schema after others: another schema has its digest, or its name. -/
def faultAt (met : List Occurrence) (d : Document) : Option Fault :=
  if d ∈ schemasOf met then none
  else match (schemasOf met).find? fun e => digestIn s O e = digestIn s O d with
    | some e => some (.sharedDigest (digestIn s O d) (nameIn O e))
    | none =>
      if nameIn O d ∈ existing ++ (schemasOf met).map (nameIn O) then some (clash O d) else none

/-- The first fault among occurrences after others. -/
def faultFrom (met : List Occurrence) : List Occurrence → Option Fault
  | [] => none
  | o :: rest => (faultAt s existing O met o.schema).or (faultFrom (met ++ [o]) rest)

theorem faultFrom_append (met P Q : List Occurrence) : faultFrom s existing O met (P ++ Q) =
    (faultFrom s existing O met P).or (faultFrom s existing O (met ++ P) Q) := by
  induction P generalizing met with
  | nil => rw [List.nil_append, List.append_nil, faultFrom, Option.none_or]
  | cons o rest ih =>
    rw [List.cons_append, faultFrom, faultFrom, ih, Option.or_assoc, List.append_assoc]
    rfl

/-- A step from where these occurrences were met meets further ones and gives this value, or stops
at the first fault among them. -/
def Simulates {α : Type} (step : RegistryM Empty α) (met more : List Occurrence) (a : α) : Prop :=
  ∀ r, Reflects s existing O met r →
    match faultFrom s existing O met more with
    | none => ∃ t, step.result r = (.ok a, t) ∧ Reflects s existing O (met ++ more) t
    | some fault => ∃ t, step.result r = (.error fault, t)

/-! ### Sequences of steps -/

section Sequences

variable {s existing O} {α β : Type}

theorem Simulates.pure (a : α) (met : List Occurrence) :
    Simulates s existing O (pure a : RegistryM Empty α) met [] a := by
  intro r hr
  exact ⟨r, rfl, by rwa [List.append_nil]⟩

theorem Simulates.bind {step : RegistryM Empty α} {next : α → RegistryM Empty β}
    {met P Q : List Occurrence} {a : α} {b : β} (hstep : Simulates s existing O step met P a)
    (hnext : Simulates s existing O (next a) (met ++ P) Q b) :
    Simulates s existing O (step >>= next) met (P ++ Q) b := by
  intro r hr
  have hstep := hstep r hr
  rw [faultFrom_append]
  cases hP : faultFrom s existing O met P with
  | some fault =>
    rw [hP] at hstep
    obtain ⟨t, hresult⟩ := hstep
    exact ⟨t, RegistryM.result_bind_of_error hresult next⟩
  | none =>
    rw [hP] at hstep
    obtain ⟨t, hresult, ht⟩ := hstep
    have hnext := hnext t ht
    rw [Option.none_or, RegistryM.result_bind_of_ok hresult, ← List.append_assoc]
    exact hnext

theorem Simulates.map {step : RegistryM Empty α} {met P : List Occurrence} {a : α}
    (hstep : Simulates s existing O step met P a) (g : α → β) :
    Simulates s existing O (g <$> step) met P (g a) := by
  rw [map_eq_pure_bind]
  rw [← List.append_nil P]
  exact hstep.bind (Simulates.pure (g a) (met ++ P))

theorem Simulates.mapM {xs : List α} {f : α → RegistryM Empty β} {Q : α → List Occurrence}
    {g : α → β} (met : List Occurrence) (hbegins : met ++ xs.flatMap Q <+: O)
    (h : ∀ x ∈ xs, ∀ met, met ++ Q x <+: O → Simulates s existing O (f x) met (Q x) (g x)) :
    Simulates s existing O (xs.mapM f) met (xs.flatMap Q) (xs.map g) := by
  induction xs generalizing met with
  | nil => exact Simulates.pure [] met
  | cons x xs ih =>
    rw [List.flatMap_cons, ← List.append_assoc] at hbegins
    rw [List.mapM_cons, List.flatMap_cons, List.map_cons]
    refine (h x (List.mem_cons_self ..) met ((List.prefix_append _ _).trans hbegins)).bind ?_
    rw [← map_eq_pure_bind]
    exact (ih _ hbegins fun y hy => h y (List.mem_cons_of_mem x hy)).map (g x :: ·)

end Sequences

/-! ### Recognising schemas -/

theorem exists_canonicalText {v : Linked Empty} (h : v.written.isJson = true) :
    ∃ t, canonicalText v = .ok t := by
  obtain ⟨cs, hcs⟩ := Json.exists_canonical h
  exact ⟨Text.ofChars cs, by rw [canonicalText, hcs]⟩

theorem written_of_canonicalText_eq {v w : Linked Empty} {t : Text} (hv : v.written.isJson = true)
    (hw : w.written.isJson = true) (hvt : canonicalText v = .ok t) (hwt : canonicalText w = .ok t) :
    v.written = w.written := by
  obtain ⟨cs, hcs⟩ := Json.exists_canonical hv
  obtain ⟨ds, hds⟩ := Json.exists_canonical hw
  rw [canonicalText, hcs] at hvt
  rw [canonicalText, hds] at hwt
  have htext := Text.ofChars_injective ((Except.ok.inj hvt).trans (Except.ok.inj hwt).symm)
  refine Json.text_injective .canonical hv hw ?_
  rw [← Json.canonical, ← Json.canonical, hcs, hds, htext]

theorem Context.HasTextPath.name_eq {c : Context} (h : c.HasTextPath) : c.name = .ok c.nameText := by
  obtain ⟨name, hname⟩ := h.exists_name
  rw [Context.nameText, hname]
  rfl

/-- The occurrences are such as a document has that JSON can hold and that refers to nothing that is
missing. -/
structure Sound : Prop where
  json : ∀ o ∈ O, o.schema.isJson = true
  path : ∀ o ∈ O, o.context.HasTextPath
  known : ∀ o ∈ O, ∀ name ∈ o.schema.refNames, name ∈ existing
  hoisted : ∀ o ∈ O, o.schema.isHoisted = true
  insideFirst : InsideFirst O

variable {s existing O}

namespace Sound

variable (hO : Sound existing O)

include hO

theorem isHoisted {d : Document} (hd : d ∈ schemasOf O) : d.isHoisted = true := by
  obtain ⟨o, ho, rfl⟩ := exists_of_mem_schemasOf hd
  exact hO.hoisted o ho

theorem isNamePoint {d : Document} (hd : d ∈ schemasOf O) :
    ∀ p ∈ nameIn O d, p.isNamePoint = true := by
  obtain ⟨o, ho, -, hcontext⟩ := exists_firstContext hd
  rw [nameIn, hcontext]
  exact Context.isNamePoint_of_mem_name (hO.path o ho).name_eq

theorem inside_met {met : List Occurrence} (hbegins : met <+: O) {d : Document}
    (hd : d ∈ schemasOf met) : ∀ i ∈ d.hoistedInside, i ∈ schemasOf met :=
  hO.insideFirst.inside_met hbegins hd

theorem isJson_content {d : Document} (hd : d ∈ schemasOf O) :
    (d.content (nameIn O)).written.isJson = true := by
  obtain ⟨o, ho, rfl⟩ := exists_of_mem_schemasOf hd
  exact Value.isJson_written_content (hO.json o ho) fun i hi =>
    hO.isNamePoint (hO.inside_met (List.prefix_refl O) hd i hi)

theorem canonicalText_eq {d : Document} (hd : d ∈ schemasOf O) :
    canonicalText (d.content (nameIn O)) = .ok (canonicalIn O d) := by
  obtain ⟨t, ht⟩ := exists_canonicalText (hO.isJson_content hd)
  rw [canonicalIn, ht]
  rfl

/-- Schemas with the same canonical text are the same schema, when all that were met have names of
their own. -/
theorem canonicalIn_injective {met : List Occurrence} (hfree : ClashFree existing O (schemasOf met))
    {o : Occurrence} (hbegins : met ++ [o] <+: O) {d : Document} (hd : d ∈ schemasOf met)
    (h : canonicalIn O d = canonicalIn O o.schema) : d = o.schema := by
  have hmet : met <+: O := (List.prefix_append _ _).trans hbegins
  have hd' := schemasOf_prefix hmet d hd
  have ho : o ∈ O := hbegins.subset (List.mem_append_right _ (List.mem_cons_self ..))
  have ho' : o.schema ∈ schemasOf O := mem_schemasOf_of_mem ho
  have htext := written_of_canonicalText_eq (hO.isJson_content hd') (hO.isJson_content ho')
    (hO.canonicalText_eq hd') (by rw [h]; exact hO.canonicalText_eq ho')
  let look (name : Text) : Option Document := (schemasOf met).find? fun i => nameIn O i = name
  refine @Value.content_injective (nameIn O) (nameIn O) look d o.schema
    (fun i hi => ?_) (fun i hi => ?_) ?_ htext
  · exact Table.find?_of_nodup hfree.nodup (hO.inside_met hmet hd i hi)
  · exact Table.find?_of_nodup hfree.nodup (mem_schemasOf.2 (hO.insideFirst met o hbegins i hi))
  · intro name hname
    have hknown : name ∈ existing := by
      obtain ⟨e, he, rfl⟩ := exists_of_mem_schemasOf hd'
      exact hname.elim (hO.known e he name) (hO.known o ho name)
    refine List.find?_eq_none.2 fun i hi heq => ?_
    exact hfree.fresh i hi (by rwa [of_decide_eq_true heq])

end Sound

/-! ### Moving a schema -/

namespace Reflects

variable {met : List Occurrence} {r : Registry Empty}

theorem addReference (hr : Reflects s existing O met r) (name : Text) :
    Reflects s existing O met (r.addReference name) :=
  ⟨hr.reserved, hr.schemas, hr.usages, hr.names, hr.canonicals, hr.fresh⟩

theorem clashFree (hr : Reflects s existing O met r) : ClashFree existing O (schemasOf met) := by
  refine ⟨?_, hr.fresh⟩
  have hkeys := r.schemas.nodup
  rwa [hr.schemas, List.map_map] at hkeys

theorem nodup_digests (hr : Reflects s existing O met r) :
    ((schemasOf met).map (digestIn s O)).Nodup := by
  have hkeys := r.names.nodup
  rwa [hr.names, List.map_map] at hkeys

theorem lookup (hr : Reflects s existing O met r) (digest canonical : Text) :
    r.lookup digest canonical =
      match (schemasOf met).find? fun d => digestIn s O d = digest with
      | none => .ok none
      | some d =>
        if canonicalIn O d = canonical then .ok (some (nameIn O d))
        else .error (.sharedDigest digest (nameIn O d)) := by
  rw [Registry.lookup, Table.get?_of_entries hr.names, Table.get?_of_entries hr.canonicals]
  cases (schemasOf met).find? fun d => digestIn s O d = digest <;> rfl

theorem recordUsage (hr : Reflects s existing O met r) {o : Occurrence}
    (hmet : o.schema ∈ schemasOf met) : ∃ t, r.recordUsage (nameIn O o.schema) o.context = .ok t ∧
      Reflects s existing O (met ++ [o]) t := by
  have hget : r.usages.get? (nameIn O o.schema) = some (contextsOf met o.schema) := by
    rw [Table.get?_of_entries hr.usages, Table.find?_of_nodup hr.clashFree.nodup hmet]
    rfl
  have hsame := schemasOf_concat_of_mem hmet
  refine ⟨_, by rw [Registry.recordUsage, hget], ?_⟩
  refine ⟨hr.reserved, by rw [hsame, hr.schemas], ?_, by rw [hsame, hr.names],
    by rw [hsame, hr.canonicals], by rw [hsame]; exact hr.fresh⟩
  rw [hsame, Table.entries_insert_of_mem _ (Table.get?_isSome_iff.1 (by rw [hget]; rfl)), hr.usages,
    List.map_map]
  refine List.map_congr_left fun d hd => ?_
  rw [contextsOf_concat]
  by_cases hname : nameIn O d = nameIn O o.schema
  · have heq := List.inj_on_of_nodup_map hr.clashFree.nodup hd hmet hname
    simp [heq]
  · have hne : o.schema ≠ d := fun heq => hname (by rw [heq])
    simp [hname, hne]

theorem isTaken (hr : Reflects s existing O met r) (name : Text) :
    r.isTaken name = true ↔ name ∈ existing ++ (schemasOf met).map (nameIn O) := by
  have hkeys : r.schemas.keys = (schemasOf met).map (nameIn O) := by
    rw [Table.keys, hr.schemas, List.map_map]
    rfl
  rw [Registry.isTaken, Bool.or_eq_true, Table.contains_iff, hkeys, hr.reserved, decide_eq_true_eq,
    List.mem_append, or_comm]

theorem register (hr : Reflects s existing O met r) {o : Occurrence}
    (hmet : o.schema ∉ schemasOf met)
    (hdigest : digestIn s O o.schema ∉ (schemasOf met).map (digestIn s O))
    (hname : nameIn O o.schema ∉ existing ++ (schemasOf met).map (nameIn O)) :
    ∃ t, r.register (nameIn O o.schema) (storedIn s O o.schema) (digestIn s O o.schema)
        (canonicalIn O o.schema) o.context = .ok t ∧ Reflects s existing O (met ++ [o]) t := by
  have hkey : ∀ {ν : Type} {t : Table Text ν} {g : Document → ν},
      t.entries = (schemasOf met).map (fun d => (nameIn O d, g d)) →
        nameIn O o.schema ∉ t.keys := by
    intro ν t g ht hmem
    rw [Table.keys, ht, List.map_map] at hmem
    exact hname (List.mem_append_right _ hmem)
  have hdigestKey : ∀ {t : Table Text Text} {g : Document → Text},
      t.entries = (schemasOf met).map (fun d => (digestIn s O d, g d)) →
        digestIn s O o.schema ∉ t.keys := by
    intro t g ht
    rwa [Table.keys, ht, List.map_map]
  have hmore := schemasOf_concat_of_not_mem hmet
  refine ⟨_, by rw [Registry.register, if_neg fun h => hname ((hr.isTaken _).1 h)], ?_⟩
  refine ⟨hr.reserved, ?_, ?_, ?_, ?_, ?_⟩
  · rw [Table.entries_insert_of_new _ (hkey hr.schemas), hr.schemas, hmore, List.map_append]
    rfl
  · rw [Table.entries_insert_of_new _ (hkey hr.usages), hr.usages, hmore, List.map_append]
    congr 1
    · refine List.map_congr_left fun d hd => ?_
      have hne : o.schema ≠ d := fun heq => hmet (by rwa [heq])
      rw [contextsOf_concat, if_neg hne, List.append_nil]
    · rw [List.map_cons, List.map_nil, contextsOf_concat, contextsOf_eq_nil hmet, if_pos rfl,
        List.nil_append]
  · rw [Table.entries_insert_of_new _ (hdigestKey hr.names), hr.names, hmore, List.map_append]
    rfl
  · rw [Table.entries_insert_of_new _ (hdigestKey hr.canonicals), hr.canonicals, hmore,
      List.map_append]
    rfl
  · rw [hmore]
    intro d hd
    rcases List.mem_append.1 hd with hd | hd
    · exact hr.fresh d hd
    · rw [List.mem_singleton.1 hd]
      exact fun h => hname (List.mem_append_left _ h)

theorem register_of_taken (hr : Reflects s existing O met r) {o : Occurrence}
    (hpath : o.context.HasTextPath) {name : Text}
    (hname : name ∈ existing ++ (schemasOf met).map (nameIn O)) (schema : Linked Empty)
    (digest canonical : Text) :
    r.register name schema digest canonical o.context =
      .error (.nameTaken name o.context.operationId (o.context.pathText.toOption.getD [])) := by
  obtain ⟨path, hpath⟩ := hpath.exists_pathText
  rw [Registry.register, if_pos ((hr.isTaken _).2 hname), hpath]
  rfl

end Reflects

theorem Sound.simulates_hoist (hO : Sound existing O) {met : List Occurrence} {o : Occurrence}
    (hbegins : met ++ [o] <+: O) :
    Simulates s existing O (hoist s (o.schema.content (nameIn O)).entries o.context) met [o]
      (.ref (.component (nameIn O o.schema))) := by
  intro r hr
  have ho : o ∈ O := hbegins.subset (List.mem_append_right _ (List.mem_cons_self ..))
  have hschema : o.schema ∈ schemasOf O := mem_schemasOf_of_mem ho
  have hresult := result_hoist s (o.schema.content (nameIn O)).entries o.context r
  rw [Value.map_entries (Value.isMap_content (hO.hoisted o ho)), hO.canonicalText_eq hschema] at hresult
  have hdigestIn : s.digest (canonicalIn O o.schema) = digestIn s O o.schema := rfl
  simp only [hdigestIn, hr.lookup] at hresult
  rw [faultFrom, faultFrom, Option.or_none, faultAt]
  by_cases hmet : o.schema ∈ schemasOf met
  · obtain ⟨t, hrecord, ht⟩ := hr.recordUsage hmet
    rw [if_pos hmet]
    simp only [Table.find?_of_nodup hr.nodup_digests hmet, if_true, hrecord] at hresult
    exact ⟨_, hresult, ht.addReference _⟩
  rw [if_neg hmet]
  have hcontext := firstContext_of_prefix hbegins hmet
  have hname : o.context.name = .ok (nameIn O o.schema) := by
    rw [nameIn, hcontext]
    exact (hO.path o ho).name_eq
  cases hfind : (schemasOf met).find? fun d => digestIn s O d = digestIn s O o.schema with
  | some d =>
    have hd := List.mem_of_find?_eq_some hfind
    have hne : canonicalIn O d ≠ canonicalIn O o.schema := fun heq =>
      hmet (hO.canonicalIn_injective hr.clashFree hbegins hd heq ▸ hd)
    simp only [hfind, if_neg hne] at hresult
    exact ⟨_, hresult⟩
  | none =>
    have hdigest : digestIn s O o.schema ∉ (schemasOf met).map (digestIn s O) := by
      intro hmem
      obtain ⟨d, hd, heq⟩ := List.mem_map.1 hmem
      exact List.find?_eq_none.1 hfind d hd (decide_eq_true heq)
    simp only [hfind, hname] at hresult
    by_cases htaken : nameIn O o.schema ∈ existing ++ (schemasOf met).map (nameIn O)
    · rw [hr.register_of_taken (hO.path o ho) htaken] at hresult
      simp only [if_pos htaken]
      exact ⟨_, by rw [hresult, clash, hcontext]⟩
    · obtain ⟨t, hregister, ht⟩ := hr.register hmet hdigest htaken
      simp only [if_neg htaken]
      rw [storedIn] at hregister
      simp only [hregister] at hresult
      exact ⟨_, hresult, ht.addReference _⟩

/-- The extraction of a schema meets the occurrences in it. -/
theorem Sound.simulates_extract (hO : Sound existing O) (d : Document) (c : Context)
    {met : List Occurrence} (hbegins : met ++ d.occurrences c <+: O) :
    Simulates s existing O (extract s (.ofDocument d) c) met (d.occurrences c)
      (d.linked (nameIn O)) := by
  induction d using Value.schemaInduction generalizing c met with
  | step d ih =>
    rw [Value.occurrences_eq] at hbegins ⊢
    rw [extract_ofDocument, Value.linked_eq]
    refine Simulates.bind (a := d.content (nameIn O)) ?_ ?_
    · refine (Simulates.mapM met ?_ fun part hpart met hmet => ih part hpart _ hmet).map d.withInner
      rw [← List.append_assoc] at hbegins
      exact (List.prefix_append _ _).trans hbegins
    · cases hhoisted : d.isHoisted with
      | true =>
        rw [hhoisted, if_pos rfl, ← List.append_assoc] at hbegins
        simp only [if_true]
        exact hO.simulates_hoist (o := ⟨d, c⟩) hbegins
      | false =>
        simp only [Bool.false_eq_true, if_false]
        exact Simulates.pure _ _

/-! ### Bodies -/

theorem exists_context {mediaType : Text} {d : Document} (h : d.isJson = true)
    {body : BodyPlace × Document} (hbody : body ∈ d.bodies mediaType) :
    ∃ c, body.1.context = .ok c ∧ c.HasTextPath := by
  obtain ⟨hpath, hstatus, -⟩ := Value.isJson_bodies h hbody
  have htext : ∀ c : Context, c.path = [.scalar body.1.path] → c.HasTextPath := by
    intro c hc segment hsegment
    rw [hc, List.mem_singleton] at hsegment
    rw [hsegment]
    cases hkey : body.1.path with
    | text t => rfl
    | _ => rw [hkey] at hpath; cases hpath
  rw [BodyPlace.context]
  cases hrole : body.1.role with
  | request => exact ⟨_, rfl, htext _ rfl⟩
  | response status =>
    have hstatus := hstatus status hrole
    cases status with
    | text t => exact ⟨_, rfl, htext _ rfl⟩
    | _ => cases hstatus

theorem Value.isHoisted_of_mem_occurrences (d : Document) (c : Context) :
    ∀ o ∈ d.occurrences c, o.schema.isHoisted = true := by
  induction d using schemaInduction generalizing c with
  | step d ih =>
    intro o ho
    rw [occurrences_eq] at ho
    rcases List.mem_append.1 ho with hinside | hself
    · obtain ⟨part, hpart, ho⟩ := List.mem_flatMap.1 hinside
      exact ih part hpart _ o ho
    · split at hself
      · next hhoisted => rwa [List.mem_singleton.1 hself]
      · cases hself

theorem Value.isHoisted_of_mem_bodyOccurrences {mediaType : Text} {d : Document} :
    ∀ o ∈ d.bodyOccurrences mediaType, o.schema.isHoisted = true := by
  intro o ho
  obtain ⟨body, -, ho⟩ := List.mem_flatMap.1 ho
  split at ho
  · exact isHoisted_of_mem_occurrences body.2 _ o ho
  · cases ho

theorem sound_bodyOccurrences {mediaType : Text} {d : Document} (h : d.isJson = true)
    (hknown : ∀ name ∈ d.refNames, name ∈ existing) :
    Sound existing (d.bodyOccurrences mediaType) := by
  have hbody : ∀ o ∈ d.bodyOccurrences mediaType, ∃ body ∈ d.bodies mediaType, ∃ c,
      c.HasTextPath ∧ o ∈ body.2.occurrences c := by
    intro o ho
    obtain ⟨body, hbody, ho⟩ := List.mem_flatMap.1 ho
    obtain ⟨c, hc, hpath⟩ := exists_context h hbody
    rw [hc] at ho
    exact ⟨body, hbody, c, hpath, ho⟩
  have hjson : ∀ o ∈ d.bodyOccurrences mediaType,
      o.schema.isJson = true ∧ o.context.HasTextPath := by
    intro o ho
    obtain ⟨body, hbody, c, hpath, ho⟩ := hbody o ho
    refine Value.gives_occurrences (P := fun d => d.isJson = true)
      (K := fun key => key.text?.isSome = true) (fun _ hes _ hentry => Value.isJson_of_mem hes hentry)
      (fun c hc => hc.child itemSegment) (fun key c hkey hc => ?_) body.2
      (Value.isJson_bodies h hbody).2.2 hpath o ho
    cases key with
    | text t => exact hc.child t
    | _ => cases hkey
  refine ⟨fun o ho => (hjson o ho).1, fun o ho => (hjson o ho).2, fun o ho name hname => ?_,
    Value.isHoisted_of_mem_bodyOccurrences, insideFirst_bodyOccurrences mediaType d⟩
  have hschema := mem_schemasOf_of_mem ho
  exact hknown name (Value.refNames_of_mem_schemasOf hschema name hname)

theorem simulates_visitBodies (digest : Text → Text) (options : ExtractionOptions) {d : Document}
    (h : d.isJson = true) (hknown : ∀ name ∈ d.refNames, name ∈ existing) :
    Simulates ⟨digest, options.assignIds⟩ existing (d.bodyOccurrences options.mediaType)
      (visitBodies digest options d) [] (d.bodyOccurrences options.mediaType)
      ((d.bodies options.mediaType).map fun body =>
        body.2.linked (nameIn (d.bodyOccurrences options.mediaType))) := by
  refine Simulates.mapM [] (List.prefix_refl _) fun body hbody met hmet => ?_
  obtain ⟨c, hc, -⟩ := exists_context h hbody
  simp only [hc] at hmet ⊢
  have hask : (RegistryM.ask fun _ => (.ok c : Except Fault Context) : RegistryM Empty Context) =
      pure c := rfl
  rw [hask, pure_bind]
  exact (sound_bodyOccurrences h hknown).simulates_extract body.2 c hmet

end NamedSchemas
