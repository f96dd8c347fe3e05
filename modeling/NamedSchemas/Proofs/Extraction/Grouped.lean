import NamedSchemas.Proofs.Extraction.Refinement
import NamedSchemas.Proofs.Shortening.Renaming
/-!
# Extraction groups equal schemas

An extraction without renamings gives what is told by the groups of equal schemas alone: each group
becomes one component with the name of its first context, and the first group whose name is in use
is the fault.
-/

namespace NamedSchemas

variable {s : ExtractionSettings} {existing : List Text} {O : List Occurrence}

/-- The schemas that occur in a list of occurrences after others, and not before. -/
def newSchemas (met : List Occurrence) : List Occurrence → List Document
  | [] => []
  | o :: rest =>
    (if o.schema ∈ schemasOf met then [] else [o.schema]) ++ newSchemas (met ++ [o]) rest

theorem schemasOf_append (met more : List Occurrence) :
    schemasOf (met ++ more) = schemasOf met ++ newSchemas met more := by
  induction more generalizing met with
  | nil => rw [List.append_nil, newSchemas, List.append_nil]
  | cons o rest ih =>
    rw [newSchemas, ← List.append_assoc, ← schemasOf_concat, ← ih, List.append_assoc,
      List.singleton_append]

section Clashes

variable (ν : Document → Text)

/-- The first schema whose name is in use, by these names or by a schema before it. -/
def firstClash (taken : List Text) : List Document → Option Document
  | [] => none
  | d :: rest => if ν d ∈ taken then some d else firstClash (taken ++ [ν d]) rest

/-- The schemas up to the first whose name is in use, that one included. -/
def reached (taken : List Text) : List Document → List Document
  | [] => []
  | d :: rest => d :: if ν d ∈ taken then [] else reached (taken ++ [ν d]) rest

theorem firstClash_eq_none_iff {taken : List Text} {ds : List Document} :
    firstClash ν taken ds = none ↔ (ds.map ν).Nodup ∧ ∀ d ∈ ds, ν d ∉ taken := by
  induction ds generalizing taken with
  | nil => simp [firstClash]
  | cons d rest ih =>
    rw [firstClash]
    split
    · next htaken =>
      exact iff_of_false (by simp) fun h => h.2 d (List.mem_cons_self ..) htaken
    · next hfree =>
      rw [ih, List.map_cons, List.nodup_cons]
      simp only [List.mem_append, List.mem_singleton, not_or, List.forall_mem_cons, List.mem_map,
        not_exists, not_and]
      constructor
      · rintro ⟨hnodup, hrest⟩
        exact ⟨⟨fun e he => (hrest e he).2, hnodup⟩, hfree, fun e he => (hrest e he).1⟩
      · rintro ⟨⟨hne, hnodup⟩, -, hrest⟩
        exact ⟨hnodup, fun e he => ⟨hrest e he, hne e he⟩⟩

end Clashes

/-- Schemas have the same digest only when they have the same canonical text. -/
def DigestsDiffer (digest : Text → Text) (O : List Occurrence) (ds : List Document) : Prop :=
  ∀ d ∈ ds, ∀ e ∈ ds, digest (canonicalIn O d) = digest (canonicalIn O e) →
    canonicalIn O d = canonicalIn O e

theorem ClashFree.concat {ds : List Document} {d : Document} (h : ClashFree existing O ds)
    (hname : nameIn O d ∉ existing ++ ds.map (nameIn O)) : ClashFree existing O (ds ++ [d]) := by
  rw [List.mem_append, not_or] at hname
  refine ⟨?_, fun e he => ?_⟩
  · rw [List.map_append, List.map_cons, List.map_nil, ← List.concat_eq_append]
    exact h.nodup.concat hname.2
  · rcases List.mem_append.1 he with he | he
    · exact h.fresh e he
    · rw [List.mem_singleton.1 he]
      exact hname.1

/-- When digests tell schemas apart, the first fault is the first clash of names. -/
theorem Sound.faultFrom_eq (hO : Sound existing O) {met rest : List Occurrence}
    (hbegins : met ++ rest <+: O) (hfree : ClashFree existing O (schemasOf met))
    (hdigest : DigestsDiffer s.digest O (schemasOf met ++
      reached (nameIn O) (existing ++ (schemasOf met).map (nameIn O)) (newSchemas met rest))) :
    faultFrom s existing O met rest =
      (firstClash (nameIn O) (existing ++ (schemasOf met).map (nameIn O))
        (newSchemas met rest)).map (clash O) := by
  induction rest generalizing met with
  | nil => rfl
  | cons o rest ih =>
    have hconcat : met ++ [o] ++ rest = met ++ o :: rest := by
      rw [List.append_assoc, List.singleton_append]
    have hstep : met ++ [o] <+: O := by
      rw [← hconcat] at hbegins
      exact (List.prefix_append _ _).trans hbegins
    rw [← hconcat] at hbegins
    rw [newSchemas] at hdigest ⊢
    rw [faultFrom, faultAt]
    by_cases hmet : o.schema ∈ schemasOf met
    · have hsame := schemasOf_concat_of_mem hmet
      rw [if_pos hmet, List.nil_append] at hdigest
      have hrest := ih hbegins (by rwa [hsame])
      rw [hsame] at hrest
      rw [if_pos hmet, if_pos hmet, List.nil_append, Option.none_or, hrest hdigest]
    have hmore := schemasOf_concat_of_not_mem hmet
    rw [if_neg hmet, List.singleton_append, reached] at hdigest
    have hfind : (schemasOf met).find? (fun e => digestIn s O e = digestIn s O o.schema) = none := by
      refine List.find?_eq_none.2 fun e he heq => hmet ?_
      have hcanonical := hdigest e (List.mem_append_left _ he) o.schema
        (List.mem_append_right _ (List.mem_cons_self ..)) (of_decide_eq_true heq)
      rwa [← hO.canonicalIn_injective hfree hstep he hcanonical]
    rw [if_neg hmet, if_neg hmet, hfind, List.singleton_append, firstClash]
    by_cases htaken : nameIn O o.schema ∈ existing ++ (schemasOf met).map (nameIn O)
    · simp only [if_pos htaken, Option.some_or, Option.map_some]
    · have htaken' : existing ++ (schemasOf (met ++ [o])).map (nameIn O) =
          existing ++ (schemasOf met).map (nameIn O) ++ [nameIn O o.schema] := by
        rw [hmore, List.map_append, ← List.append_assoc]
        rfl
      have hrest := ih hbegins (by rw [hmore]; exact hfree.concat htaken)
      rw [htaken', hmore, List.append_assoc, List.singleton_append] at hrest
      rw [if_neg htaken] at hdigest
      simp only [if_neg htaken, Option.none_or]
      exact hrest hdigest

theorem Sound.faultFrom_nil (hO : Sound existing O)
    (hdigest : DigestsDiffer s.digest O (reached (nameIn O) existing (schemasOf O))) :
    faultFrom s existing O [] O = (firstClash (nameIn O) existing (schemasOf O)).map (clash O) := by
  have hgroups : newSchemas [] O = schemasOf O := (schemasOf_append [] O).symm
  have hnone : existing ++ (schemasOf []).map (nameIn O) = existing := List.append_nil _
  have hempty : ClashFree existing O (schemasOf []) :=
    ⟨List.nodup_nil, fun d hd => absurd hd List.not_mem_nil⟩
  have hbegins : [] ++ O <+: O := List.prefix_refl O
  have hfaults := hO.faultFrom_eq (s := s) hbegins hempty
  rw [hnone, hgroups] at hfaults
  exact hfaults hdigest

theorem mem_of_firstClash {ν : Document → Text} {taken : List Text} {ds : List Document}
    {d : Document} (h : firstClash ν taken ds = some d) : d ∈ ds := by
  induction ds generalizing taken with
  | nil => cases h
  | cons e rest ih =>
    rw [firstClash] at h
    split at h
    · rw [Option.some.inj h]
      exact List.mem_cons_self ..
    · exact List.mem_cons_of_mem _ (ih h)

/-! ### Documents -/

/-- The extraction gives what the groups of equal schemas tell: each is a component with the name of
its first context, is used where it occurs, and has its name in the places where it stood. -/
structure IsGrouped (digest : Text → Text) (options : ExtractionOptions) (document : Document)
    (O : List Occurrence) (e : Extraction) : Prop where
  created : e.created = (schemasOf O).map (nameIn O)
  renamed : e.renamed = []
  usages : e.usages.entries = (schemasOf O).map fun d => (nameIn O d, contextsOf O d)
  document : e.document = Value.assembled options.mediaType document
    ((document.bodies options.mediaType).map fun body => (body.2.linked (nameIn O)).written)
    (document.namedSchemas ++ (schemasOf O).map fun d =>
      (.text (nameIn O d), (storedIn ⟨digest, options.assignIds⟩ O d).written))

theorem Reflects.putAll_schemas {document : Document} {r : Registry Empty}
    (hr : Reflects s document.schemaNames O O r) :
    Value.substEntries Link.written (putAll r.schemas.entries
        (Value.substEntries Empty.elim document.namedSchemas)) =
      document.namedSchemas ++ (schemasOf O).map fun d =>
        (.text (nameIn O d), (storedIn s O d).written) := by
  rw [substEntries_putAll r.schemas.nodup, hr.schemas, List.map_map]
  · rfl
  · intro pair hpair
    rw [hr.schemas] at hpair
    obtain ⟨d, hd, rfl⟩ := List.mem_map.1 hpair
    exact hr.fresh d hd

theorem reflects_empty : Reflects s existing O [] (.empty existing) :=
  ⟨rfl, rfl, rfl, rfl, rfl, fun _ hd => absurd hd List.not_mem_nil⟩

/-- The extraction gives what the groups tell, or stops at the first fault among the occurrences. -/
theorem extractWith_isGrouped (digest : Text → Text) {options : ExtractionOptions}
    (hshort : options.shortenNames = false) {document : Document} (hjson : document.isJson = true)
    {p : Parts} (hparts : Parts.of (.ofDocument document) = .ok p)
    (hknown : ∀ name ∈ document.refNames, name ∈ document.schemaNames) :
    let O := document.bodyOccurrences options.mediaType
    match faultFrom ⟨digest, options.assignIds⟩ document.schemaNames O [] O with
    | none => ∃ e, extractWith digest options document = .ok e ∧
        IsGrouped digest options document O e
    | some fault => extractWith digest options document = .error fault := by
  intro O
  have hvisit := simulates_visitBodies digest options hjson hknown _ reflects_empty
  rw [extractWith_eq digest options hparts, finish, hshort]
  cases hfault : faultFrom ⟨digest, options.assignIds⟩ document.schemaNames O [] O with
  | some fault =>
    rw [hfault] at hvisit
    obtain ⟨t, hresult⟩ := hvisit
    simp only [hresult]
  | none =>
    rw [hfault] at hvisit
    obtain ⟨t, hresult, ht⟩ := hvisit
    simp only [hresult, Bool.false_eq_true, if_false, RegistryM.result_pure]
    refine ⟨_, rfl, ?_, rfl, ht.usages, ?_⟩
    · show t.schemas.entries.map Prod.fst = _
      rw [ht.schemas, List.map_map]
      rfl
    · rw [document_resultOf (by rw [List.length_map]), ht.putAll_schemas, List.map_map]
      simp only [Value.renameAll_nil]
      rfl

/-- An extraction without renamings succeeds if and only if the names of the groups of equal schemas
are different and none of them is in use, and then gives what the groups tell. Otherwise the first
group whose name is in use is the fault. -/
theorem extractComponents_isGrouped {options : ExtractionOptions}
    (hshort : options.shortenNames = false) {document : Document} (hjson : document.isJson = true)
    (hparts : ∃ p, Parts.of (.ofDocument document) = .ok p)
    (hknown : ∀ name ∈ document.refNames, name ∈ document.schemaNames)
    (hdigest : DigestsDiffer Sha256.hex (document.bodyOccurrences options.mediaType)
      (reached (nameIn (document.bodyOccurrences options.mediaType)) document.schemaNames
        (schemasOf (document.bodyOccurrences options.mediaType)))) :
    let O := document.bodyOccurrences options.mediaType
    let names := (schemasOf O).map (nameIn O)
    ((∃ e, extractComponents options document = .ok e) ↔
      names.Nodup ∧ ∀ name ∈ names, name ∉ document.schemaNames) ∧
    match firstClash (nameIn O) document.schemaNames (schemasOf O) with
    | none => ∃ e, extractComponents options document = .ok e ∧
        IsGrouped Sha256.hex options document O e
    | some d => ∃ path, (firstContext O d).pathText = .ok path ∧
        extractComponents options document =
          .error (.nameTaken (nameIn O d) (firstContext O d).operationId path) := by
  intro O names
  obtain ⟨p, hparts⟩ := hparts
  have hsound : Sound document.schemaNames O := sound_bodyOccurrences hjson hknown
  have hfaults := hsound.faultFrom_nil (s := ⟨Sha256.hex, options.assignIds⟩) hdigest
  have hresult := extractWith_isGrouped Sha256.hex hshort hjson hparts hknown
  dsimp only at hresult
  rw [hfaults] at hresult
  have hnames : firstClash (nameIn O) document.schemaNames (schemasOf O) = none ↔
      names.Nodup ∧ ∀ name ∈ names, name ∉ document.schemaNames := by
    rw [firstClash_eq_none_iff, List.forall_mem_map]
  cases hclash : firstClash (nameIn O) document.schemaNames (schemasOf O) with
  | none =>
    rw [hclash] at hresult
    obtain ⟨e, he, hgrouped⟩ := hresult
    exact ⟨iff_of_true ⟨e, he⟩ (hnames.1 hclash), e, he, hgrouped⟩
  | some d =>
    rw [hclash] at hresult
    obtain ⟨o, ho, -, hcontext⟩ := exists_firstContext (mem_of_firstClash hclash)
    obtain ⟨path, hpath⟩ := (hsound.path o ho).exists_pathText
    rw [← hcontext] at hpath
    have herror : extractComponents options document =
        .error (.nameTaken (nameIn O d) (firstContext O d).operationId path) := by
      refine hresult.trans ?_
      rw [clash, hpath]
      rfl
    refine ⟨iff_of_false ?_ ?_, path, hpath, herror⟩
    · rintro ⟨e, he⟩
      rw [herror] at he
      cases he
    · intro hdistinct
      rw [hnames.2 hdistinct] at hclash
      cases hclash

def ExtractionOptions.unshortened : ExtractionOptions := { usual with shortenNames := false }

theorem extractComponents_isGrouped_orders :
    ∃ e, extractComponents .unshortened ordersDocument = .ok e ∧
      IsGrouped Sha256.hex .unshortened ordersDocument
        (ordersDocument.bodyOccurrences jsonMediaType) e := by
  have hclash : firstClash (nameIn (ordersDocument.bodyOccurrences jsonMediaType))
      ordersDocument.schemaNames (schemasOf (ordersDocument.bodyOccurrences jsonMediaType)) =
        none := by decide +kernel
  have hgrouped := (@extractComponents_isGrouped .unshortened rfl ordersDocument (by decide +kernel)
    ⟨_, rfl⟩ (by decide +kernel) (by unfold DigestsDiffer; decide +kernel)).2
  simp only [ExtractionOptions.unshortened, ExtractionOptions.usual, hclash] at hgrouped
  exact hgrouped

end NamedSchemas
