import NamedSchemas.Proofs.Extraction.Faults
import NamedSchemas.Proofs.Extraction.Recognition
/-!
# The ledger of an extraction

A document may hold what JSON cannot, and then contexts may be without a name and different schemas
may be recognised as one component. Whatever the document, the registry records the occurrences that
were met. Every schema is known under a name, the usages of a name are the contexts of all
occurrences of schemas with that name, and a component is named after the first of them.
-/

namespace NamedSchemas

variable {s : ExtractionSettings} {existing : List Text} {ν : Document → Text}
  {O met : List Occurrence} {r t u : Registry Empty}

theorem Registry.nameOf_of_knows {digest : Text → Text} {d : Document} {name : Text}
    (h : u.Knows digest (d.content (u.nameOf digest)) name) : u.nameOf digest d = name := by
  obtain ⟨text, htext, hlookup⟩ := h.found
  rw [nameOf_eq, nameFor, htext]
  show (u.names.get? (digest text)).getD [] = name
  rw [(lookup_eq_some.1 hlookup).1, Option.getD_some]

/-- The registry records the occurrences that were met, under these names. -/
structure Registry.Records (s : ExtractionSettings) (existing : List Text) (ν : Document → Text)
    (met : List Occurrence) (r : Registry Empty) : Prop
    extends Registry.Consistent s.digest existing r where
  known : ∀ d ∈ schemasOf met, r.Knows s.digest (d.content ν) (ν d)
  contexts : ∀ name ∈ r.schemas.keys, r.usages.get? name = some (contextsUnder ν met name)
  /-- A component is named after the first context in which it is used. -/
  namedAfter : ∀ name ∈ r.schemas.keys, ∃ c, (contextsUnder ν met name).head? = some c ∧
    c.name = .ok name
  held : ∀ entry ∈ r.schemas.entries, ∃ d ∈ schemasOf met, ν d = entry.1 ∧
    entry.2 = .map (storedEntries s entry.1 (d.content ν).entries)

theorem contextsUnder_concat (met : List Occurrence) (o : Occurrence) (name : Text) :
    contextsUnder ν (met ++ [o]) name =
      contextsUnder ν met name ++ if ν o.schema = name then [o.context] else [] := by
  rw [contextsUnder_append]
  congr 1
  rw [contextsUnder, List.filter_singleton]
  by_cases h : ν o.schema = name <;> simp [h]

theorem mem_schemasOf_concat {o : Occurrence} {d : Document} :
    d ∈ schemasOf (met ++ [o]) ↔ d ∈ schemasOf met ∨ d = o.schema := by
  rw [mem_schemasOf, mem_schemasOf, List.map_append, List.mem_append, List.map_cons, List.map_nil,
    List.mem_singleton]

namespace Registry.Records

theorem empty : Records s existing ν [] (.empty existing) :=
  ⟨.empty, fun _ h => absurd h List.not_mem_nil, fun _ h => absurd h List.not_mem_nil,
    fun _ h => absurd h List.not_mem_nil, fun _ h => absurd h List.not_mem_nil⟩

theorem mem_keys (hr : Records s existing ν met r) {d : Document} (hd : d ∈ schemasOf met) :
    ν d ∈ r.schemas.keys := by
  rw [← hr.usages]
  exact (hr.known d hd).usages

/-! ### Moving a schema -/

theorem known_concat (hr : Records s existing ν met r) (hgrows : r.Extends t) {o : Occurrence}
    (hknows : t.Knows s.digest (o.schema.content ν) (ν o.schema)) :
    ∀ d ∈ schemasOf (met ++ [o]), t.Knows s.digest (d.content ν) (ν d) := by
  intro d hd
  rcases mem_schemasOf_concat.1 hd with hold | rfl
  · exact hgrows.knows (hr.known d hold)
  · exact hknows

theorem useAgain (hr : Records s existing ν met r) {o : Occurrence} {used : List Context}
    (hused : r.usages.get? (ν o.schema) = some used)
    (ht : t = { r with usages := r.usages.insert (ν o.schema) (used ++ [o.context]) }.addReference
      (ν o.schema)) (hgrows : r.Extends t)
    (hknows : t.Knows s.digest (o.schema.content ν) (ν o.schema)) :
    Records s existing ν (met ++ [o]) t := by
  have hschemas : t.schemas = r.schemas := by rw [ht]; rfl
  refine ⟨ht ▸ hr.toConsistent.useAgain hused o.context, hr.known_concat hgrows hknows, ?_, ?_, ?_⟩
  · intro name hname
    rw [hschemas] at hname
    have hbefore := hr.contexts name hname
    have husages : t.usages = r.usages.insert (ν o.schema) (used ++ [o.context]) := by rw [ht]; rfl
    rw [husages, contextsUnder_concat]
    by_cases heq : ν o.schema = name
    · subst heq
      rw [Table.get?_insert_self, if_pos rfl, Option.some.inj (hused.symm.trans hbefore)]
    · rw [Table.get?_insert_of_ne _ _ (Ne.symm heq), if_neg heq, List.append_nil, hbefore]
  · intro name hname
    rw [hschemas] at hname
    obtain ⟨c, hc, hname⟩ := hr.namedAfter name hname
    exact ⟨c, by rw [contextsUnder_concat, List.head?_append, hc]; rfl, hname⟩
  · intro entry hentry
    rw [hschemas] at hentry
    obtain ⟨d, hd, heq⟩ := hr.held entry hentry
    exact ⟨d, mem_schemasOf_concat.2 (Or.inl hd), heq⟩

theorem addNew (hr : Records s existing ν met r) {o : Occurrence} {canonical : Text}
    (hname : o.context.name = .ok (ν o.schema)) (hdigest : s.digest canonical ∉ r.names.keys)
    (hnew : ν o.schema ∉ r.schemas.keys) (hfresh : ν o.schema ∉ existing)
    (ht : t = { r with
      schemas := r.schemas.insert (ν o.schema)
        (.map (storedEntries s (ν o.schema) (o.schema.content ν).entries))
      names := r.names.insert (s.digest canonical) (ν o.schema)
      canonicals := r.canonicals.insert (s.digest canonical) canonical
      usages := r.usages.insert (ν o.schema) [o.context] }.addReference (ν o.schema))
    (hgrows : r.Extends t) (hknows : t.Knows s.digest (o.schema.content ν) (ν o.schema)) :
    Records s existing ν (met ++ [o]) t := by
  have hunmet : contextsUnder ν met (ν o.schema) = [] := by
    rw [contextsUnder, List.map_eq_nil_iff, List.filter_eq_nil_iff]
    intro other hother heq
    have hmem : other.schema ∈ schemasOf met := mem_schemasOf_of_mem hother
    exact hnew (of_decide_eq_true heq ▸ hr.mem_keys hmem)
  have hkeys : ∀ name, name ∈ t.schemas.keys ↔ name = ν o.schema ∨ name ∈ r.schemas.keys := by
    intro name
    rw [ht]
    exact Table.mem_keys_insert
  refine ⟨ht ▸ hr.toConsistent.addNew rfl hdigest hnew hfresh o.context,
    hr.known_concat hgrows hknows, ?_, ?_, ?_⟩
  · intro name hname
    have husages : t.usages = r.usages.insert (ν o.schema) [o.context] := by rw [ht]; rfl
    rw [husages, contextsUnder_concat]
    by_cases heq : ν o.schema = name
    · subst heq
      rw [Table.get?_insert_self, if_pos rfl, hunmet, List.nil_append]
    · rw [Table.get?_insert_of_ne _ _ (Ne.symm heq), if_neg heq, List.append_nil]
      exact hr.contexts name (((hkeys name).1 hname).resolve_left (Ne.symm heq))
  · intro name hmem
    rw [contextsUnder_concat]
    rcases (hkeys name).1 hmem with rfl | hold
    · exact ⟨o.context, by rw [hunmet, if_pos rfl]; rfl, hname⟩
    · obtain ⟨c, hc, hname⟩ := hr.namedAfter name hold
      exact ⟨c, by rw [List.head?_append, hc]; rfl, hname⟩
  · rw [ht]
    refine Table.forall_mem_insert ⟨o.schema, mem_schemasOf_concat.2 (Or.inr rfl), rfl, rfl⟩
      fun entry hold => ?_
    obtain ⟨d, hd, heq⟩ := hr.held entry hold
    exact ⟨d, mem_schemasOf_concat.2 (Or.inl hd), heq⟩

end Registry.Records

/-! ### Visits -/

/-- What stops visits that meet these occurrences: a fault of moving a schema, a schema that has no
text, or one that occurs first where there is no name. -/
inductive Fault.OfVisits (ν : Document → Text) (O : List Occurrence) : Fault → Prop
  | move {fault : Fault} : OfMove fault → OfVisits ν O fault
  | unwritable {o : Occurrence} {fault : Fault} : o ∈ O →
    canonicalText (o.schema.content ν) = .error fault → OfVisits ν O fault
  | nameless {d : Document} {fault : SegmentFault} : d ∈ schemasOf O →
    (firstContext O d).name = .error fault → OfVisits ν O (.segment fault)

/-- The step meets further occurrences, under the names that they have in a registry to which it
leads in the end, or stops at one of these faults. -/
def Meets {α : Type} (s : ExtractionSettings) (existing : List Text) (u : Registry Empty)
    (F : Fault → Prop) (step : RegistryM Empty α) (met more : List Occurrence) : Prop :=
  ∀ r, r.Records s existing (u.nameOf s.digest) met → (step.result r).2.Extends u →
    (∀ a t, step.result r = (.ok a, t) →
      t.Records s existing (u.nameOf s.digest) (met ++ more)) ∧
    ∀ fault t, step.result r = (.error fault, t) → F fault

namespace Meets

variable {α β : Type} {F : Fault → Prop} {P Q : List Occurrence}

theorem pure (a : α) : Meets s existing u F (Pure.pure a : RegistryM Empty α) met [] := by
  intro r hr _
  refine ⟨fun b t h => ?_, fun fault t h => ?_⟩
  · rw [← (Prod.mk.inj h).2, List.append_nil]
    exact hr
  · cases (Prod.mk.inj h).1

theorem bind {step : RegistryM Empty α} {next : α → RegistryM Empty β}
    (hstep : Meets s existing u F step met P)
    (hgrows : ∀ a r, RegistryM.Keeps (Registry.Extends r) (next a))
    (hnext : ∀ a r t, step.result r = (.ok a, t) → t.Extends u →
      Meets s existing u F (next a) (met ++ P) Q) :
    Meets s existing u F (step >>= next) met (P ++ Q) := by
  intro r hr hu
  rw [RegistryM.result_bind] at hu ⊢
  cases hresult : step.result r with
  | mk outcome t =>
    rw [hresult] at hu
    cases outcome with
    | ok a =>
      have ht : t.Extends u := (hgrows a t t (.refl t)).trans hu
      have hrecords := (hstep r hr (by rwa [hresult])).1 a t hresult
      rw [← List.append_assoc]
      exact hnext a r t hresult ht t hrecords hu
    | error fault =>
      have hfault := (hstep r hr (by rwa [hresult])).2 fault t hresult
      refine ⟨fun b v h => ?_, fun found v h => ?_⟩
      · cases (Prod.mk.inj h).1
      · cases (Prod.mk.inj h).1
        exact hfault

theorem map {step : RegistryM Empty α} (hstep : Meets s existing u F step met P) (g : α → β) :
    Meets s existing u F (g <$> step) met P := by
  rw [map_eq_pure_bind, ← List.append_nil P]
  exact hstep.bind (fun a r => .pure (g a)) fun a _ _ _ _ => .pure (g a)

theorem mapM {xs : List α} {f : α → RegistryM Empty β} {Q : α → List Occurrence}
    (hgrows : ∀ x r, RegistryM.Keeps (Registry.Extends r) (f x))
    (hbegins : met ++ xs.flatMap Q <+: O)
    (h : ∀ x ∈ xs, ∀ met, met ++ Q x <+: O → Meets s existing u F (f x) met (Q x)) :
    Meets s existing u F (xs.mapM f) met (xs.flatMap Q) := by
  induction xs generalizing met with
  | nil => exact .pure []
  | cons x xs ih =>
    rw [List.flatMap_cons, ← List.append_assoc] at hbegins
    rw [List.mapM_cons, List.flatMap_cons]
    refine (h x (List.mem_cons_self ..) met ((List.prefix_append _ _).trans hbegins)).bind ?_ ?_
    · exact fun y r => (RegistryM.Keeps.mapM fun z _ => hgrows z r).bind fun ys => .pure (y :: ys)
    · intro y _ _ _ _
      rw [← map_eq_pure_bind]
      exact (ih hbegins fun z hz => h z (List.mem_cons_of_mem x hz)).map (y :: ·)

end Meets

section Hoist

variable {o : Occurrence} {w : Linked Empty} {fault : Fault}

/-- When a schema was moved under the name that it has in the end, its occurrence is recorded. -/
theorem Registry.Records.hoist (hr : r.Records s existing (u.nameOf s.digest) met) (hu : t.Extends u)
    (hhoisted : o.schema.isHoisted = true)
    (h : (NamedSchemas.hoist s (o.schema.content (u.nameOf s.digest)).entries o.context).result r =
      (.ok w, t)) :
    t.Records s existing (u.nameOf s.digest) (met ++ [o]) := by
  have hgrows := Registry.Extends.keeps_hoist s (o.schema.content (u.nameOf s.digest)).entries
    o.context r (.refl r)
  rw [h] at hgrows
  obtain ⟨name, hw, hknows⟩ := knows_of_hoist h
  rw [Value.map_entries (Value.isMap_content hhoisted)] at hknows
  obtain rfl := Registry.nameOf_of_knows (hu.knows hknows)
  obtain ⟨canonical, name, v, -, hw', ht, hstep⟩ := hoist_eq_ok h
  rw [hw, Value.ref.injEq, Link.component.injEq] at hw'
  subst hw'
  rcases hstep with ⟨hlookup, hrecord⟩ | ⟨hlookup, hname, hregister⟩
  · obtain ⟨used, hused, rfl⟩ := Registry.recordUsage_eq_ok.1 hrecord
    exact hr.useAgain hused ht hgrows hknows
  · obtain ⟨hfree, rfl⟩ := Registry.register_eq_ok.1 hregister
    obtain ⟨hnew, hreserved⟩ := Registry.isTaken_eq_false.1 hfree
    rw [hr.reserved] at hreserved
    exact hr.addNew hname (Registry.lookup_eq_none.1 hlookup) hnew hreserved ht hgrows hknows

theorem Registry.Records.not_mem_of_lookup (hr : r.Records s existing ν met) {d : Document}
    {canonical : Text} (hcanonical : canonicalText (d.content ν) = .ok canonical)
    (hlookup : r.lookup (s.digest canonical) canonical = .ok none) : d ∉ schemasOf met := by
  intro hmet
  obtain ⟨text, htext, hfound⟩ := (hr.known d hmet).found
  cases htext.symm.trans hcanonical
  cases hfound.symm.trans hlookup

/-- What stops the move of a schema: it has no text, or a new one has no name that is free. -/
theorem Registry.Records.ofVisits_of_hoist (hr : r.Records s existing ν met)
    (hbegins : met ++ [o] <+: O) (hhoisted : o.schema.isHoisted = true)
    (h : (NamedSchemas.hoist s (o.schema.content ν).entries o.context).result r = (.error fault, t)) :
    fault.OfVisits ν O := by
  have ho : o ∈ O := hbegins.subset (List.mem_append_right _ (List.mem_cons_self ..))
  rw [result_hoist, Value.map_entries (Value.isMap_content hhoisted)] at h
  split at h
  · next hcanonical =>
    cases (Prod.mk.inj h).1
    exact .unwritable ho hcanonical
  next canonical hcanonical =>
  split at h
  · next hlookup =>
    cases (Prod.mk.inj h).1
    obtain ⟨name, rfl⟩ := hr.lookup_eq_error hlookup
    exact .move (.sharedDigest _ name)
  · next name hlookup =>
    obtain ⟨used, -, hused, -⟩ := hr.used name (hr.mem_keys_of_lookup hlookup)
    rw [Registry.recordUsage_eq_ok.2 ⟨used, hused, rfl⟩] at h
    cases (Prod.mk.inj h).1
  next hlookup =>
  have hunmet := hr.not_mem_of_lookup hcanonical hlookup
  split at h
  · next found hname =>
    cases (Prod.mk.inj h).1
    refine .nameless (mem_schemasOf_of_mem ho) ?_
    rw [ firstContext_of_prefix hbegins hunmet, hname]
  · next name hname =>
    obtain ⟨path, hpath, -⟩ := Context.name_eq_ok.1 hname
    split at h
    · next found hregister =>
      cases (Prod.mk.inj h).1
      rw [Registry.register, hpath] at hregister
      split at hregister
      · cases hregister
        exact .move (.nameTaken _ _ _)
      · cases hregister
    · cases (Prod.mk.inj h).1

theorem meets_hoist {F : Fault → Prop} (hF : ∀ fault, fault.OfVisits (u.nameOf s.digest) O → F fault)
    (hbegins : met ++ [o] <+: O) (hhoisted : o.schema.isHoisted = true) :
    Meets s existing u F (NamedSchemas.hoist s (o.schema.content (u.nameOf s.digest)).entries
      o.context) met [o] := by
  intro r hr hu
  refine ⟨fun w t h => ?_, fun fault t h => hF fault (hr.ofVisits_of_hoist hbegins hhoisted h)⟩
  rw [h] at hu
  exact hr.hoist hu hhoisted h

end Hoist

theorem meets_extract {F : Fault → Prop}
    (hF : ∀ fault, fault.OfVisits (u.nameOf s.digest) O → F fault) (d : Document) (c : Context)
    {met : List Occurrence} (hbegins : met ++ d.occurrences c <+: O) :
    Meets s existing u F (extract s (.ofDocument d) c) met (d.occurrences c) := by
  induction d using Value.schemaInduction generalizing c met with
  | step d ih =>
    rw [Value.occurrences_eq, ← List.append_assoc] at hbegins
    rw [extract_ofDocument, Value.occurrences_eq]
    have hinner : Meets s existing u F (d.withInner <$> d.inner.mapM fun part =>
        extract s (.ofDocument part.2) (c.child part.1)) met
        (d.inner.flatMap fun part => part.2.occurrences (c.child part.1)) := by
      refine Meets.map (Meets.mapM (fun part r => ?_) ((List.prefix_append _ _).trans hbegins) ?_) _
      · exact Registry.Extends.keeps_extract s _ _
      · exact fun part hpart met hmet => ih part hpart _ hmet
    refine hinner.bind (fun w r => ?_) fun w r t hw ht => ?_
    · split
      · exact Registry.Extends.keeps_hoist s _ _
      · exact .pure _
    · obtain ⟨ws, hws, rfl⟩ := RegistryM.result_map_eq_ok.1 hw
      have hcontent := (knows_of_visits (fun part _ r t w h ht => recognises_of_extract part.2 _ h ht)
        hws ht).1
      rw [hcontent]
      split
      · next hhoisted =>
        rw [if_pos hhoisted] at hbegins
        exact meets_hoist hF (o := ⟨d, c⟩) hbegins hhoisted
      · exact .pure _

/-! ### Bodies -/

section Bodies

variable {digest : Text → Text} {options : ExtractionOptions} {document : Document}

/-- What stops the visits of the bodies of a document: a body whose place has no context, or a fault
of meeting the schemas in the bodies. -/
inductive Fault.OfBodies (ν : Document → Text) (mediaType : Text) (document : Document) : Fault → Prop
  | placeless {body : BodyPlace × Document} {fault : Fault} : body ∈ document.bodies mediaType →
    body.1.context = .error fault → OfBodies ν mediaType document fault
  | visits {fault : Fault} : fault.OfVisits ν (document.bodyOccurrences mediaType) →
    OfBodies ν mediaType document fault

theorem grows_visitBody (s : ExtractionSettings) (body : BodyPlace × Document) (r : Registry Empty) :
    RegistryM.Keeps r.Extends (do
      extract s (.ofDocument body.2) (← RegistryM.ask fun _ => body.1.context)) :=
  (RegistryM.Keeps.ask _).bind fun c => Registry.Extends.keeps_extract s (.ofDocument body.2) c

theorem meets_visitBodies (digest : Text → Text) (options : ExtractionOptions) (document : Document)
    (u : Registry Empty) : Meets ⟨digest, options.assignIds⟩ existing u
      (Fault.OfBodies (u.nameOf digest) options.mediaType document)
      (visitBodies digest options document) [] (document.bodyOccurrences options.mediaType) := by
  refine Meets.mapM (fun body r => grows_visitBody _ body r) (List.prefix_refl _) ?_
  intro body hbody met hbegins
  cases hcontext : body.1.context with
  | error fault =>
    intro r hr _
    rw [RegistryM.result_bind_of_error (RegistryM.result_ask _ r)]
    refine ⟨fun a t h => ?_, fun found t h => ?_⟩
    · cases (Prod.mk.inj h).1
    · cases (Prod.mk.inj h).1
      exact .placeless hbody hcontext
  | ok c =>
    simp only [hcontext] at hbegins
    have hask : (RegistryM.ask fun _ => (.ok c : Except Fault Context) : RegistryM Empty Context) =
        pure c := rfl
    rw [hask, pure_bind]
    exact meets_extract (fun fault => .visits) body.2 c hbegins

/-- Visits that give values leave a registry that records every occurrence, and what stays has the
names that the schemas have in it. -/
theorem records_of_visitBodies {stays : List (Linked Empty)} {existing : List Text}
    (h : (visitBodies digest options document).result (.empty existing) = (.ok stays, r)) :
    r.Records ⟨digest, options.assignIds⟩ existing (r.nameOf digest)
        (document.bodyOccurrences options.mediaType) ∧
      stays = (document.bodies options.mediaType).map fun body => body.2.linked (r.nameOf digest) := by
  have hmeets := meets_visitBodies digest options document r (.empty existing) .empty
  rw [h] at hmeets
  refine ⟨(hmeets (.refl r)).1 stays r rfl, ?_⟩
  have hvisits := RegistryM.forall₂_of_result_mapM (Q := fun body w =>
      body.2.linked (r.nameOf digest) = w)
    (fun body r => grows_visitBody ⟨digest, options.assignIds⟩ body r) ?_ h (.refl r)
  · rw [← List.forall₂_map_left_iff, List.forall₂_eq_eq_eq] at hvisits
    exact hvisits.symm
  · intro body _ v t w hw ht
    rw [RegistryM.result_bind_eq_ok] at hw
    obtain ⟨c, v', -, hw⟩ := hw
    exact (recognises_of_extract body.2 c hw ht).1.symm

/-- Visits that give values meet every schema in the bodies that becomes a component. -/
theorem map_schema_bodyOccurrences {stays : List (Linked Empty)} {existing : List Text}
    (h : (visitBodies digest options document).result (.empty existing) = (.ok stays, r)) :
    (document.bodyOccurrences options.mediaType).map Occurrence.schema =
      (document.bodies options.mediaType).flatMap fun body => body.2.hoisted := by
  have hcontexts := RegistryM.forall₂_of_result_mapM (Q := fun body (_ : Linked Empty) =>
      (∃ c, body.1.context = .ok c) ∧ True)
    (fun body r => grows_visitBody ⟨digest, options.assignIds⟩ body r) ?_ h (.refl r)
  · rw [List.forall₂_and_left] at hcontexts
    rw [Value.bodyOccurrences, List.map_flatMap]
    refine List.flatMap_congr fun body hbody => ?_
    obtain ⟨c, hc⟩ := hcontexts.1 body hbody
    rw [hc]
    exact Value.map_schema_occurrences body.2 c
  · intro body _ v t w hw _
    rw [RegistryM.result_bind_eq_ok] at hw
    obtain ⟨c, v', hask, -⟩ := hw
    rw [RegistryM.result_ask] at hask
    exact ⟨⟨c, (Prod.mk.inj hask).1⟩, trivial⟩

theorem ofBodies_of_visitBodies {existing : List Text} {fault : Fault}
    (h : (visitBodies digest options document).result (.empty existing) = (.error fault, r)) :
    fault.OfBodies (r.nameOf digest) options.mediaType document := by
  have hmeets := meets_visitBodies digest options document r (.empty existing) .empty
  rw [h] at hmeets
  exact (hmeets (.refl r)).2 fault r rfl

end Bodies

end NamedSchemas
