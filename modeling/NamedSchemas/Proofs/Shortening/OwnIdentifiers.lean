import NamedSchemas.Proofs.Extraction.Identifiers
import NamedSchemas.Proofs.Extraction.Refilling
import NamedSchemas.Proofs.Shortening.Unfolded
/-!
# Identifiers of one's own

A schema that becomes a component brings the identifier with it that it has in the document. When
extraction assigns none, a component still has that one, with a single exception. A renaming takes
an identifier that is the old name for one that was assigned, also when it came with the schema.
-/

namespace NamedSchemas

variable {ρ σ : Type}

namespace Value

/-! ### Identifiers that follow a renaming -/

/-- What becomes of an identifier when `old` is renamed to `new`: it follows when it is the old
name. -/
def followedId (old new : Text) (id? : Option (Value ρ)) : Option (Value ρ) :=
  if id?.bind text? = some old then some (.text new) else id?

theorem bind_text?_eq_some {id? : Option (Value ρ)} {t : Text} :
    id?.bind text? = some t ↔ id? = some (.text t) := by
  cases id? with
  | none => simp
  | some v =>
    cases v with
    | scalar s => cases s <;> simp [text?, text]
    | list items => simp [text?, text]
    | map es => simp [text?, text]
    | ref label => simp [text?, text]

theorem followedId_self (name : Text) (id? : Option (Value ρ)) : followedId name name id? = id? := by
  rw [followedId]
  split
  · next h => exact (bind_text?_eq_some.1 h).symm
  · rfl

theorem followedId_of_ne {old : Text} {id? : Option (Value ρ)} (h : id? ≠ some (.text old))
    (new : Text) : followedId old new id? = id? := if_neg fun heq => h (bind_text?_eq_some.1 heq)

theorem followedId_subst {f : ρ → Value σ} (hf : ∀ label, (f label).text? = none) (old new : Text)
    (id? : Option (Value ρ)) :
    followedId old new (id?.map (subst f)) = (followedId old new id?).map (subst f) := by
  have htext : (id?.map (subst f)).bind text? = id?.bind text? := by
    cases id? with
    | none => rfl
    | some v => exact text?_subst hf v
  rw [followedId, followedId, htext]
  split <;> rfl

theorem id?_renameId (old new : Text) (v : Linked σ) :
    (v.renameId old new).id? = followedId old new v.id? := by
  cases v with
  | map es =>
    show _ = if (Entries.get? identifierKey es).bind text? = some old then _ else _
    rw [renameId]
    split
    · exact Entries.get?_insert_self _
    · rfl
  | scalar s => rfl
  | list items => rfl
  | ref label => rfl

theorem isMap_renameId (old new : Text) (v : Linked σ) : (v.renameId old new).isMap = v.isMap := by
  cases v with
  | map es =>
    rw [renameId]
    split <;> rfl
  | scalar s => rfl
  | list items => rfl
  | ref label => rfl

theorem id?_subst (f : ρ → Value σ) {v : Value ρ} (h : v.isMap = true) :
    (v.subst f).id? = v.id?.map (subst f) := by
  match v, h with
  | .map es, _ => exact Entries.get?_substEntries f identifierKey es

theorem withoutId_marked (id? : Option Text) (v : Value ρ) :
    (v.marked id?).withoutId = v.withoutId := by
  cases id? with
  | none => rfl
  | some name => exact withoutId_withId name v

/-! ### Identifiers of components -/

theorem id?_withInner (d : Document) (ws : List (Value ρ)) :
    (d.withInner ws).id? = d.id?.map ofDocument := by
  cases d with
  | map es =>
    have hkept := Traversal.get?_fill_inner identifierKey_not_mem_innerKeys (role (.map es))
      (substEntries (Empty.elim : Empty → Value ρ) es) ws
    rw [Entries.get?_substEntries] at hkept
    rw [withInner, ofDocument, subst]
    cases hrole : role (.map es) <;> exact hrole ▸ hkept
  | scalar s => rfl
  | list items => rfl
  | ref label => exact label.elim

end Value

/-- The identifier of a component without an assigned one is that of its schema, which follows when
the component is renamed. -/
theorem id?_renamedComponent (plan : List (Text × Text)) (ν : Document → Text) (own : Text)
    {d : Document} (h : d.isHoisted = true) :
    (renamedComponent plan (own, d.content ν)).2.written.id? =
      Value.followedId own (renamedAtOnce plan own) d.id? := by
  have hmap : (renamedEntry Value.renameId plan (own, d.content ν)).2.isMap = true := by
    rw [renamedEntry]
    split
    · rw [Value.isMap_renameId, Value.isMap_content h]
    · exact Value.isMap_content h
  have hfollow : Value.followedId own (renamedAtOnce plan own) (d.content ν).id? =
      (Value.followedId own (renamedAtOnce plan own) d.id?).map Value.ofDocument := by
    rw [Value.content, Value.id?_withInner]
    exact Value.followedId_subst (fun label => label.elim) _ _ _
  have hown : (renamedEntry Value.renameId plan (own, d.content ν)).2.id? =
      Value.followedId own (renamedAtOnce plan own) (d.content ν).id? := by
    by_cases hold : own ∈ plan.map Prod.fst
    · rw [renamedEntry, if_pos hold, Value.id?_renameId]
    · rw [renamedEntry, if_neg hold, renamedAtOnce_of_not_mem hold, Value.followedId_self]
  rw [renamedComponent, Value.written, Value.renameAll, Value.relabel, Value.subst_subst,
    Value.id?_subst _ hmap, hown, hfollow, Option.map_map]
  refine (Option.map_congr fun v _ => ?_).trans Option.map_id'
  rw [Function.comp_apply, Value.ofDocument_subst, Value.ofDocument_self]

/-! ### Documents -/

/-- The name that the component of a schema ends with. -/
def Extraction.finalName (e : Extraction) (O : List Occurrence) (d : Document) : Text :=
  renamedAtOnce e.renamed (nameIn O d)

/-- The added components hold the schemas that become components, each with this identifier, under
the name that its schema ends with and used where its schema occurs. -/
structure Extraction.HoldsIds (e : Extraction) (document : Document) (O : List Occurrence)
    (ids : Document → Option Document) : Prop where
  created : e.created = (schemasOf O).map (nameIn O)
  components : ∃ (ds : List Document) (held : Document → Document), ds.Perm (schemasOf O) ∧
    e.document.namedSchemas =
      document.namedSchemas ++ ds.map (fun d => (.text (e.finalName O d), held d)) ∧
    e.usages.entries = ds.map (fun d => (e.finalName O d, contextsOf O d)) ∧
    ∀ d ∈ ds, (held d).id? = ids d ∧
      (held d).withoutId = (d.content (e.finalName O)).written.withoutId

variable {digest : Text → Text} {options : ExtractionOptions} {document : Document} {e : Extraction}

/-- What is held schema by schema, a plan puts in an order of the schemas. -/
theorem reordered_schemas {α : Type} (plan : List (Text × Text)) (ds : List Document)
    (ν : Document → Text) (f : Document → α) :
    reordered plan (ds.map fun d => (ν d, f d)) =
      ((reordered plan (ds.map fun d => (ν d, d))).map Prod.snd).map fun d => (ν d, f d) := by
  have hentries : ds.map (fun d => (ν d, f d)) =
      (ds.map fun d => (ν d, d)).map fun entry => (entry.1, f entry.2) := by
    rw [List.map_map]
    rfl
  rw [hentries, reordered_map, List.map_map]
  refine List.map_congr_left fun entry hentry => ?_
  obtain ⟨d, -, rfl⟩ := List.mem_map.1 (mem_reordered hentry)
  rfl

/-- The schemas of a result are those of the document and after them the registered ones, in the
order that the plan leaves. -/
theorem IsResult.namedSchemas_eq {stays : List (Linked Empty)} {r : Registry Empty}
    (h : IsResult digest options document stays r e) {ds : List Document} {ν : Document → Text}
    {stored : Document → Linked Empty} (hr : r.schemas.entries = ds.map fun d => (ν d, stored d)) :
    e.document.namedSchemas = document.namedSchemas ++
      ((reordered e.renamed (ds.map fun d => (ν d, d))).map Prod.snd).map fun d =>
        (.text (renamedAtOnce e.renamed (ν d)),
          (renamedComponent e.renamed (ν d, stored d)).2.written) := by
  rw [h.document, Value.namedSchemas_assembled, hr, reordered_schemas, List.map_map]
  rfl

theorem IsResult.perm_schemas {stays : List (Linked Empty)} {r : Registry Empty}
    (h : IsResult digest options document stays r e) {ds : List Document} {ν : Document → Text}
    {stored : Document → Linked Empty} (hr : r.schemas.entries = ds.map fun d => (ν d, stored d)) :
    ((reordered e.renamed (ds.map fun d => (ν d, d))).map Prod.snd).Perm ds := by
  have hnames : ((ds.map fun d => (ν d, d)).map Prod.fst).Nodup := by
    have hkeys := r.schemas.nodup
    rw [hr, List.map_map] at hkeys
    rw [List.map_map]
    exact hkeys
  have hreordered : ((reordered e.renamed (ds.map fun d => (ν d, d))).map Prod.snd).Nodup := by
    have hnodup := h.nodup
    rw [hr, reordered_schemas, List.map_map] at hnodup
    exact .of_map _ hnodup
  have hds : ds.Nodup := by
    rw [List.map_map] at hnames
    exact .of_map _ hnames
  apply (List.perm_ext_iff_of_nodup hreordered hds).2
  intro d
  constructor
  · intro hd
    obtain ⟨entry, hentry, rfl⟩ := List.mem_map.1 hd
    obtain ⟨i, hi, rfl⟩ := List.mem_map.1 (mem_reordered hentry)
    exact hi
  · intro hd
    have hentry : (ν d, d) ∈ ds.map fun d => (ν d, d) := List.mem_map.2 ⟨d, hd, rfl⟩
    exact List.mem_map.2 ⟨_, mem_reordered_of_mem hnames hentry, rfl⟩

theorem extractWith_holdsIds (hids : options.assignIds = false)
    (hjson : document.isJson = true)
    (hknown : ∀ name ∈ document.refNames, name ∈ document.schemaNames)
    (h : extractWith digest options document = .ok e) :
    let O := document.bodyOccurrences options.mediaType
    e.HoldsIds document O fun d => Value.followedId (nameIn O d) (e.finalName O d) d.id? := by
  intro O
  obtain ⟨r, hr, hresult, -⟩ := exists_reflects_of_extractWith hjson hknown h
  have hO := @sound_bodyOccurrences _ options.mediaType document hjson hknown
  have hstored : ∀ d ∈ schemasOf O,
      storedIn ⟨digest, options.assignIds⟩ O d = d.content (nameIn O) := by
    intro d hd
    rw [storedIn, map_storedEntries _ _ _ (hO.isHoisted hd), hids]
    rfl
  have hds := hresult.perm_schemas hr.schemas
  refine ⟨?_, _, fun d =>
    (renamedComponent e.renamed (nameIn O d, d.content (nameIn O))).2.written, hds, ?_, ?_, ?_⟩
  · rw [hresult.created, Table.keys, hr.schemas, List.map_map]
    rfl
  · rw [hresult.namedSchemas_eq hr.schemas]
    refine congrArg _ (List.map_congr_left fun d hd => ?_)
    rw [hstored d (hds.subset hd)]
    rfl
  · rw [hresult.usages, hr.usages, reordered_schemas, List.map_map]
    rfl
  · intro d hd
    have hd := hds.subset hd
    refine ⟨id?_renamedComponent e.renamed (nameIn O) (nameIn O d) (hO.isHoisted hd), ?_⟩
    obtain ⟨id?, hcomponent⟩ :=
      renamedComponent_storedEntries hresult.plan ⟨digest, options.assignIds⟩ (nameIn O) (nameIn O d)
        (hO.isHoisted hd)
    dsimp only
    rw [← hstored d hd, storedIn, hcomponent, Value.withoutId_written, Value.withoutId_marked,
      Value.withoutId_written]
    rfl

/-- Identifiers survive when no schema has one that is the name from which its component is
renamed. -/
theorem extractWith_holdsOwnIds (hids : options.assignIds = false) (hjson : document.isJson = true)
    (hknown : ∀ name ∈ document.refNames, name ∈ document.schemaNames)
    (h : extractWith digest options document = .ok e) :
    let O := document.bodyOccurrences options.mediaType
    (∀ d ∈ schemasOf O, nameIn O d ∈ e.renamed.map Prod.fst → d.id? ≠ some (.text (nameIn O d))) →
      e.HoldsIds document O Value.id? := by
  intro O hother
  obtain ⟨hcreated, ds, held, hds, hschemas, husages, hheld⟩ :=
    extractWith_holdsIds hids hjson hknown h
  refine ⟨hcreated, ds, held, hds, hschemas, husages, fun d hd => ⟨?_, (hheld d hd).2⟩⟩
  rw [(hheld d hd).1]
  by_cases hold : nameIn O d ∈ e.renamed.map Prod.fst
  · exact Value.followedId_of_ne (hother d (hds.subset hd) hold) _
  · rw [Extraction.finalName, renamedAtOnce_of_not_mem hold, Value.followedId_self]

/-- Without assigned identifiers, every component has the identifier of the schemas that it was made
of, or none if they have none. Only an identifier that is the name that its component is first given
follows when the component is renamed. -/
theorem extractComponents_holdsIds (hids : options.assignIds = false)
    (hjson : document.isJson = true)
    (hknown : ∀ name ∈ document.refNames, name ∈ document.schemaNames)
    (h : extractComponents options document = .ok e) :
    let O := document.bodyOccurrences options.mediaType
    e.HoldsIds document O fun d => Value.followedId (nameIn O d) (e.finalName O d) d.id? :=
  extractWith_holdsIds hids hjson hknown h

def identifiedSchema (id : Text) : Document := .object [("type", .text "object"), ("$id", .text id)]

/-- A document in which the same schema with an identifier is a property and a body. -/
def identifiedDocument (id : Text) : Document :=
  .object [("paths", .object [
    ("/x", .object [("get", .object [
      ("operationId", .text "getA"),
      ("responses", .object [("200", bodyWith (wrapperSchema "b" (identifiedSchema id)))])])]),
    ("/y", .object [("get", .object [
      ("operationId", .text "getB"),
      ("responses", .object [("200", bodyWith (identifiedSchema id))])])])])]

def ExtractionOptions.unidentified : ExtractionOptions := { usual with assignIds := false }

/-- The component is renamed, which does not change the identifier of its schema. -/
theorem extractComponents_holdsIds_address : ∃ e : Extraction,
    extractComponents .unidentified (identifiedDocument "urn:address") = .ok e ∧
      e.renamed = [(Text.ofString "GetA.X.B", Text.ofString "GetB.Y")] ∧
      let O := (identifiedDocument "urn:address").bodyOccurrences jsonMediaType
      e.HoldsIds (identifiedDocument "urn:address") O fun d =>
        Value.followedId (nameIn O d) (e.finalName O d) d.id? := by
  have hrenamed : (extractComponents .unidentified (identifiedDocument "urn:address")).map
      Extraction.renamed = .ok [("GetA.X.B", "GetB.Y")] := by decide +kernel
  cases h : extractComponents .unidentified (identifiedDocument "urn:address") with
  | error fault =>
    rw [h] at hrenamed
    cases hrenamed
  | ok e =>
    rw [h] at hrenamed
    have hholds := @extractComponents_holdsIds .unidentified (identifiedDocument "urn:address") e rfl
      (by decide +kernel) (by decide +kernel) h
    exact ⟨e, rfl, Except.ok.inj hrenamed, hholds⟩

/-- The identifier of the schema is the name that its component is first given. A component that is
renamed then has its new name as its identifier, although none was assigned. -/
theorem not_holdsIds_ofSchemas :
    ¬ ∀ (options : ExtractionOptions) (document : Document) (e : Extraction),
      options.assignIds = false → document.isJson = true →
      (∀ name ∈ document.refNames, name ∈ document.schemaNames) →
      extractComponents options document = .ok e →
      e.HoldsIds document (document.bodyOccurrences options.mediaType) Value.id? := by
  intro hkept
  let document := identifiedDocument "GetA.X.B"
  have hschema : identifiedSchema "GetA.X.B" ∈ schemasOf (document.bodyOccurrences jsonMediaType) := by
    decide +kernel
  have hgone : (extractComponents .unidentified document).map (fun e =>
      e.document.namedSchemas.all fun entry => entry.2.id? ≠ (identifiedSchema "GetA.X.B").id?) =
        .ok true := by decide +kernel
  cases h : extractComponents .unidentified document with
  | error fault =>
    rw [h] at hgone
    cases hgone
  | ok e =>
    rw [h] at hgone
    obtain ⟨ds, held, hds, hschemas, -, hids⟩ :=
      (hkept .unidentified document e rfl (by decide +kernel) (by decide +kernel) h).components
    have hmem := hds.symm.subset hschema
    obtain ⟨key, hentry⟩ : ∃ key, (key, held (identifiedSchema "GetA.X.B")) ∈
        e.document.namedSchemas := by
      rw [hschemas]
      exact ⟨_, List.mem_append_right _ (List.mem_map.2 ⟨_, hmem, rfl⟩)⟩
    have hne := List.all_eq_true.1 (Except.ok.inj hgone) _ hentry
    exact of_decide_eq_true hne (hids _ hmem).1

end NamedSchemas
