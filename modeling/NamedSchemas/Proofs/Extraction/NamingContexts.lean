import NamedSchemas.Proofs.Extraction.Ledger
import NamedSchemas.Proofs.Shortening.Result
/-!
# What components are named after

A component is named after the first context in which one of its schemas occurs, and renamed after
the shallowest. Different schemas may share a component, but each of these contexts is also the
first or the shallowest among the contexts of a single schema. So the contexts that are ever named
can be told from the document.
-/

namespace NamedSchemas

/-- The shallowest context in which a schema occurs, the first of equally shallow ones. -/
def shallowestContext (O : List Occurrence) (d : Document) : Context := shallowestOf (contextsOf O d)

/-- The contexts after which components may be named: where a schema occurs first and, when
components are renamed, where it occurs shallowest. -/
def Value.namingContexts (options : ExtractionOptions) (document : Document) : List Context :=
  let O := document.bodyOccurrences options.mediaType
  (schemasOf O).flatMap fun d =>
    firstContext O d :: if options.shortenNames then [shallowestContext O d] else []

variable {options : ExtractionOptions} {document : Document}

theorem firstContext_mem_namingContexts {d : Document}
    (hd : d ∈ schemasOf (document.bodyOccurrences options.mediaType)) :
    firstContext (document.bodyOccurrences options.mediaType) d ∈ document.namingContexts options :=
  List.mem_flatMap.2 ⟨d, hd, List.mem_cons_self ..⟩

theorem shallowestContext_mem_namingContexts (hshorten : options.shortenNames = true) {d : Document}
    (hd : d ∈ schemasOf (document.bodyOccurrences options.mediaType)) :
    shallowestContext (document.bodyOccurrences options.mediaType) d ∈
      document.namingContexts options := by
  refine List.mem_flatMap.2 ⟨d, hd, List.mem_cons_of_mem _ ?_⟩
  rw [if_pos hshorten]
  exact List.mem_singleton.2 rfl

/-! ### The shallowest of some contexts -/

/-- The context is in the list, all before it are deeper, and none behind it is shallower. -/
def IsShallowest (c : Context) (contexts : List Context) : Prop :=
  ∃ before behind, contexts = before ++ c :: behind ∧ (∀ b ∈ before, c.depth < b.depth) ∧
    ∀ b ∈ behind, c.depth ≤ b.depth

theorem shallowest_eq_self {c : Context} {behind : List Context}
    (h : ∀ b ∈ behind, c.depth ≤ b.depth) : shallowest c behind = c := by
  induction behind with
  | nil => rfl
  | cons b behind ih =>
    have hb := h b (List.mem_cons_self ..)
    rw [shallowest, List.foldl_cons, if_neg (by omega), ← shallowest]
    exact ih fun other hother => h other (List.mem_cons_of_mem _ hother)

theorem IsShallowest.shallowestOf_eq {c : Context} {contexts : List Context}
    (h : IsShallowest c contexts) : shallowestOf contexts = c := by
  obtain ⟨before, behind, rfl, hbefore, hbehind⟩ := h
  cases before with
  | nil => exact shallowest_eq_self hbehind
  | cons first before =>
    show shallowest first (before ++ c :: behind) = c
    induction before generalizing first with
    | nil =>
      have hfirst := hbefore first (List.mem_cons_self ..)
      rw [List.nil_append, shallowest, List.foldl_cons, if_pos hfirst, ← shallowest]
      exact shallowest_eq_self hbehind
    | cons second before ih =>
      rw [List.cons_append, shallowest, List.foldl_cons, ← shallowest]
      split
      · exact ih second fun b hb => hbefore b (List.mem_cons_of_mem _ hb)
      · refine ih first fun b hb => hbefore b ?_
        rcases List.mem_cons.1 hb with rfl | hb
        · exact List.mem_cons_self ..
        · exact List.mem_cons_of_mem _ (List.mem_cons_of_mem _ hb)

theorem isShallowest_shallowestOf {contexts : List Context} (h : contexts ≠ []) :
    IsShallowest (shallowestOf contexts) contexts := by
  obtain ⟨c, hc⟩ : ∃ c, IsShallowest c contexts := by
    induction contexts with
    | nil => exact absurd rfl h
    | cons first rest ih =>
      cases hrest : rest with
      | nil => exact ⟨first, [], [], rfl, by simp, by simp⟩
      | cons second others =>
        rw [← hrest]
        obtain ⟨c, before, behind, heq, hbefore, hbehind⟩ := ih (by rw [hrest]; exact List.cons_ne_nil _ _)
        by_cases hdeeper : c.depth < first.depth
        · refine ⟨c, first :: before, behind, by rw [heq, List.cons_append], fun b hb => ?_, hbehind⟩
          rcases List.mem_cons.1 hb with rfl | hb
          · exact hdeeper
          · exact hbefore b hb
        · refine ⟨first, [], rest, rfl, by simp, fun b hb => ?_⟩
          rw [heq] at hb
          rcases List.mem_append.1 hb with hb | hb
          · have := hbefore b hb
            omega
          rcases List.mem_cons.1 hb with rfl | hb
          · omega
          · have := hbehind b hb
            omega
  rwa [hc.shallowestOf_eq]

/-! ### Contexts of shared components -/

section Under

variable {ν : Document → Text} {O : List Occurrence} {name : Text}

/-- The occurrences of a schema are among those of the schemas with its name. -/
theorem contextsOf_of_split {o : Occurrence} {before behind : List Occurrence}
    (h : (O.filter fun o => ν o.schema = name) = before ++ o :: behind) :
    contextsOf O o.schema = contextsOf before o.schema ++ o.context ::
      contextsOf behind o.schema := by
  have ho : ν o.schema = name := by
    have hmem : o ∈ O.filter fun o => ν o.schema = name := by
      rw [h]
      exact List.mem_append_right _ (List.mem_cons_self ..)
    exact of_decide_eq_true (List.mem_filter.1 hmem).2
  have hfilter : (O.filter fun p => p.schema = o.schema) =
      (O.filter fun p => ν p.schema = name).filter fun p => p.schema = o.schema := by
    rw [List.filter_filter]
    refine List.filter_congr fun p _ => ?_
    by_cases hp : p.schema = o.schema <;> simp [hp, ho]
  rw [contextsOf, hfilter, h, List.filter_append, List.map_append,
    List.filter_cons_of_pos (by simp), List.map_cons]
  rfl

theorem mem_schemasOf_of_split {o : Occurrence} {before behind : List Occurrence}
    (h : (O.filter fun o => ν o.schema = name) = before ++ o :: behind) :
    o.schema ∈ schemasOf O ∧ ν o.schema = name := by
  have hmem : o ∈ O.filter fun o => ν o.schema = name := by
    rw [h]
    exact List.mem_append_right _ (List.mem_cons_self ..)
  obtain ⟨ho, hname⟩ := List.mem_filter.1 hmem
  exact ⟨mem_schemasOf_of_mem ho, of_decide_eq_true hname⟩

theorem exists_firstContext_under {c : Context} (h : (contextsUnder ν O name).head? = some c) :
    ∃ d ∈ schemasOf O, ν d = name ∧ firstContext O d = c := by
  rw [contextsUnder, List.head?_map] at h
  cases hfilter : O.filter fun o => ν o.schema = name with
  | nil =>
    rw [hfilter] at h
    cases h
  | cons o behind =>
    rw [hfilter] at h
    have hsplit : (O.filter fun o => ν o.schema = name) = [] ++ o :: behind := hfilter
    obtain ⟨ho, hname⟩ := mem_schemasOf_of_split hsplit
    refine ⟨o.schema, ho, hname, ?_⟩
    rw [firstContext, contextsOf_of_split hsplit]
    exact Option.some.inj h

theorem exists_shallowestContext_under (h : contextsUnder ν O name ≠ []) :
    ∃ d ∈ schemasOf O, ν d = name ∧
      shallowestContext O d = shallowestOf (contextsUnder ν O name) := by
  obtain ⟨before, behind, heq, hbefore, hbehind⟩ := isShallowest_shallowestOf h
  rw [contextsUnder, List.map_eq_append_iff] at heq
  obtain ⟨earlier, rest, hsplit, hearlier, hrest⟩ := heq
  obtain ⟨o, later, rfl, ho, hlater⟩ := List.map_eq_cons_iff.1 hrest
  obtain ⟨hmem, hname⟩ := mem_schemasOf_of_split hsplit
  refine ⟨o.schema, hmem, hname, ?_⟩
  have hsub : ∀ {P : List Occurrence} {contexts : List Context}, P.map Occurrence.context = contexts →
      ∀ c ∈ contextsOf P o.schema, c ∈ contexts := by
    rintro P _ rfl c hc
    exact (List.filter_sublist.map _).subset hc
  apply IsShallowest.shallowestOf_eq
  rw [contextsOf_of_split hsplit, ho]
  exact ⟨_, _, rfl, fun b hb => hbefore b (hsub hearlier b hb),
    fun b hb => hbehind b (hsub hlater b hb)⟩

end Under

/-! ### Names of components -/

/-- The name is that of a context after which components may be named. -/
def Value.Names (options : ExtractionOptions) (document : Document) (name : Text) : Prop :=
  ∃ c ∈ document.namingContexts options, c.name = .ok name

section Registry

variable {s : ExtractionSettings} {existing : List Text} {ν : Document → Text} {r last : Registry Empty}

theorem Registry.Records.names_of_mem
    (hr : r.Records s existing ν (document.bodyOccurrences options.mediaType)) {name : Text}
    (hname : name ∈ r.schemas.keys) : document.Names options name := by
  obtain ⟨c, hc, hname⟩ := hr.namedAfter name hname
  obtain ⟨d, hd, -, rfl⟩ := exists_firstContext_under hc
  exact ⟨_, firstContext_mem_namingContexts hd, hname⟩

theorem Registry.Records.shallowestOf_mem
    (hr : r.Records s existing ν (document.bodyOccurrences options.mediaType))
    (hshorten : options.shortenNames = true) {usage : Text × List Context}
    (husage : usage ∈ r.usages.entries) (hne : usage.2 ≠ []) :
    shallowestOf usage.2 ∈ document.namingContexts options := by
  have hname : usage.1 ∈ r.schemas.keys := by
    rw [← hr.usages]
    exact Table.mem_keys_of_mem husage
  have hcontexts := (Table.get?_eq_some_iff.2 husage).symm.trans (hr.contexts _ hname)
  rw [Option.some.inj hcontexts] at hne ⊢
  obtain ⟨d, hd, -, heq⟩ := exists_shallowestContext_under hne
  exact heq ▸ shallowestContext_mem_namingContexts hshorten hd

theorem Registry.Records.names_of_finish
    (hr : r.Records s existing ν (document.bodyOccurrences options.mediaType))
    {plan : List (Text × Text)} (h : (finish options).result r = (.ok plan, last)) :
    ∀ pair ∈ plan, document.Names options pair.2 := by
  rw [finish] at h
  split at h
  · next hshorten =>
    obtain ⟨hplan, -⟩ := shorten_eq_ok h
    intro pair hpair
    obtain ⟨usage, husage, hne, hname⟩ := exists_name_of_planFrom hplan pair hpair
    exact ⟨_, hr.shallowestOf_mem hshorten husage hne, hname⟩
  · rw [← Except.ok.inj (Prod.mk.inj h).1]
    exact fun _ hpair => absurd hpair List.not_mem_nil

/-- Renamings that fail would give a name that is in use, or the name of such a context that has
none. -/
theorem Registry.Records.finish_eq_error
    (hr : r.Records s existing ν (document.bodyOccurrences options.mediaType)) {fault : Fault}
    (h : (finish options).result r = (.error fault, last)) :
    (∃ old new, fault = .renameTaken old new) ∨ ∃ c ∈ document.namingContexts options,
      ∃ found, c.name = .error found ∧ fault = .segment found := by
  rw [finish] at h
  split at h
  · next hshorten =>
    rcases hr.toConsistent.result_shorten with ⟨found, hplan, hresult⟩ | ⟨plan, u, -, -, hresult, -⟩
    · cases hresult.symm.trans h
      refine (planFrom_eq_error hplan).imp_right ?_
      rintro ⟨usage, husage, hne, found, heq, hname⟩
      exact ⟨_, hr.shallowestOf_mem hshorten husage hne, found, hname, heq⟩
    · cases hresult.symm.trans h
  · cases h

end Registry

/-! ### Results -/

section Results

variable {digest : Text → Text} {e : Extraction} {r : Registry Empty}

/-- The result of an extraction that ended in a registry which records all occurrences in the
bodies, and gave new names after contexts only. -/
structure IsRecorded (digest : Text → Text) (options : ExtractionOptions) (document : Document)
    (r : Registry Empty) (e : Extraction) : Prop where
  records : r.Records ⟨digest, options.assignIds⟩ document.schemaNames (r.nameOf digest)
    (document.bodyOccurrences options.mediaType)
  occurrences : (document.bodyOccurrences options.mediaType).map Occurrence.schema =
    (document.bodies options.mediaType).flatMap fun body => body.2.hoisted
  result : IsResult digest options document
    ((document.bodies options.mediaType).map fun body => body.2.linked (r.nameOf digest)) r e
  renamed : ∀ pair ∈ e.renamed, document.Names options pair.2

theorem isRecorded_of_extractWith (h : extractWith digest options document = .ok e) :
    ∃ r, IsRecorded digest options document r e := by
  obtain ⟨stays, r, plan, last, -, hvisit, hfinish, rfl⟩ := extractWith_eq_ok h
  obtain ⟨stays', r', hvisit', -, -, hresult⟩ :=
    @isResult_of_extractWith digest options document _ h (· ∈ document.refNames) fun _ hname => hname
  obtain ⟨hstays, rfl⟩ := Prod.mk.inj (hvisit.symm.trans hvisit')
  obtain rfl := Except.ok.inj hstays
  obtain ⟨hr, rfl⟩ := records_of_visitBodies hvisit
  exact ⟨r, hr, map_schema_bodyOccurrences hvisit, hresult, hr.names_of_finish hfinish⟩

theorem IsRecorded.names (h : IsRecorded digest options document r e) {name : Text}
    (hname : name ∈ r.schemas.keys) : document.Names options (renamedAtOnce e.renamed name) := by
  rcases renamedAtOnce_eq_or_mem e.renamed name with hsame | hrenamed
  · rw [hsame]
    exact h.records.names_of_mem hname
  · obtain ⟨pair, hpair, heq⟩ := List.mem_map.1 hrenamed
    rw [← heq]
    exact h.renamed pair hpair

/-- Every name that an extraction gives, first or last, is that of a context after which components
may be named, and so is the key of every schema that it adds. -/
theorem names_of_extractWith (h : extractWith digest options document = .ok e) :
    (∀ name ∈ e.created, document.Names options name) ∧
      (∀ pair ∈ e.renamed, document.Names options pair.2) ∧
      ∃ added, e.document.namedSchemas = document.namedSchemas ++ added ∧
        ∀ entry ∈ added, ∃ name, entry.1 = .text name ∧ document.Names options name := by
  obtain ⟨r, hr⟩ := isRecorded_of_extractWith h
  refine ⟨fun name hname => hr.records.names_of_mem (hr.result.created ▸ hname), hr.renamed, ?_⟩
  rw [hr.result.document, Value.namedSchemas_assembled]
  refine ⟨_, rfl, fun entry hentry => ?_⟩
  obtain ⟨component, hcomponent, rfl⟩ := List.mem_map.1 hentry
  exact ⟨_, rfl, hr.names (Table.mem_keys_of_mem (mem_reordered hcomponent))⟩

end Results

end NamedSchemas
