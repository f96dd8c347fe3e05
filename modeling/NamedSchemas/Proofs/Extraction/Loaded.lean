import NamedSchemas.Proofs.Extraction.NamingContexts
import NamedSchemas.Proofs.Json.Writable
import NamedSchemas.Yaml.Writer
/-!
# Extractions from loaded documents

A loaded document may have keys that are not text, and dates. When it can be written, an extraction
stops with no fault of writing, and its result can be written again. Apart from the faults that
callers are told of, only the name of a context can be at fault: a key that is no text may stand in
the path of a context after which a component is named.
-/

namespace NamedSchemas

variable {digest : Text → Text} {options : ExtractionOptions} {document : Document}

/-- Is this a fault that callers are told of? -/
def Fault.isDocumented : Fault → Bool
  | .nameTaken .. | .renameTaken .. | .noUsages _ | .sharedDigest .. => true
  | .documentNotObject | .componentsNotObject | .schemasNotObject => true
  | _ => false

/-! ### Schemas that can be written -/

namespace Value

theorem isWritable_content_of {ν : Document → Text} {d : Document} (hd : d.isWritable = true)
    (h : ∀ part ∈ d.inner, part.2.isWritable = true → (part.2.linked ν).isWritable = true) :
    (d.content ν).isWritable = true := by
  refine related_withInner_map congruence_isWritable (fun part hpart => ?_) ?_
  · rw [isWritable_ofDocument]
    exact h part hpart
  · rwa [isWritable_ofDocument]

theorem isWritable_linked (ν : Document → Text) (d : Document) (hd : d.isWritable = true) :
    (d.linked ν).isWritable = true := by
  induction d using schemaInduction with
  | step d ih =>
    rw [linked_eq]
    split
    · rfl
    · exact isWritable_content_of hd ih

theorem isWritable_content (ν : Document → Text) {d : Document} (hd : d.isWritable = true) :
    (d.content ν).isWritable = true :=
  isWritable_content_of hd fun part _ => isWritable_linked ν part.2

theorem isWritable_of_mem {es : Entries Empty} (h : (map es).isWritable = true)
    {entry : Scalar × Document} (hentry : entry ∈ es) :
    entry.1.isWritableKey = true ∧ entry.2.isWritable = true :=
  entriesAreWritable_iff.1 h entry hentry

theorem isWritable_bodies {mediaType : Text} {d : Document} (hd : d.isWritable = true)
    {body : BodyPlace × Document} (hbody : body ∈ d.bodies mediaType) :
    (∀ status, body.1.role = .response status → status.isWritableKey = true) ∧
      body.2.isWritable = true :=
  (Traversal.gives_bodies (P := fun d => d.isWritable = true)
    (K := fun key => key.isWritableKey = true) (fun _ hes _ hentry => isWritable_of_mem hes hentry)
    mediaType d hd body hbody).2

theorem isWritable_of_mem_schemasOf {mediaType : Text} {d i : Document} (hd : d.isWritable = true)
    (hi : i ∈ schemasOf (d.bodyOccurrences mediaType)) : i.isWritable = true :=
  gives_schemasOf (P := fun d => d.isWritable = true)
    (fun _ hes _ hentry => (isWritable_of_mem hes hentry).2) hd i hi

end Value

theorem exists_statusText {status : Scalar} (h : status.isWritableKey = true) :
    ∃ t, statusText status = .ok t := by
  cases status with
  | int i =>
    obtain ⟨cs, hcs⟩ := (Json.exists_writeScalar_iff (.int i)).2 h
    have hint : Json.writeInt i = .ok cs := hcs
    refine ⟨Text.ofChars cs, ?_⟩
    unfold statusText
    simp only [hint]
  | _ => exact ⟨_, rfl⟩

theorem exists_context_of_isWritable (hd : document.isWritable = true)
    {body : BodyPlace × Document} (hbody : body ∈ document.bodies options.mediaType) :
    ∃ c, body.1.context = .ok c := by
  have hstatus := (Value.isWritable_bodies hd hbody).1
  rw [BodyPlace.context]
  cases hrole : body.1.role with
  | response status =>
    obtain ⟨t, ht⟩ := exists_statusText (hstatus status hrole)
    exact ⟨_, by dsimp only; rw [ht]; rfl⟩
  | request => exact ⟨_, rfl⟩

/-! ### Faults -/

theorem canonicalText_eq_error {v : Linked Empty} {fault : Fault}
    (h : canonicalText v = .error fault) : v.isWritable = false := by
  rw [← Bool.not_eq_true, ← Value.isWritable_written, ← Json.exists_text_iff .canonical]
  rintro ⟨cs, hcs⟩
  rw [canonicalText, Json.canonical, hcs] at h
  cases h

/-- The visits of the bodies of a document that can be written stop at a fault that callers are told
of, or at a context after which a component would be named and that has no name. -/
theorem Fault.OfBodies.isDocumented_or {ν : Document → Text} (hd : document.isWritable = true)
    {fault : Fault} (h : fault.OfBodies ν options.mediaType document) :
    fault.isDocumented = true ∨ ∃ c ∈ document.namingContexts options,
      ∃ found, c.name = .error found ∧ fault = .segment found := by
  cases h with
  | placeless hbody herror =>
    obtain ⟨c, hc⟩ := exists_context_of_isWritable hd hbody
    cases hc.symm.trans herror
  | visits h =>
    cases h with
    | move h =>
      cases h with
      | nameTaken name operation path => exact Or.inl rfl
      | sharedDigest digest name => exact Or.inl rfl
    | unwritable ho herror =>
      have hschema := Value.isWritable_of_mem_schemasOf hd (mem_schemasOf_of_mem ho)
      cases (Value.isWritable_content ν hschema).symm.trans (canonicalText_eq_error herror)
    | nameless hschema hname =>
      exact Or.inr ⟨_, firstContext_mem_namingContexts hschema, _, hname, rfl⟩

/-- An extraction from a document that can be written fails in no other way. -/
theorem isDocumented_or_of_extractWith (hd : document.isWritable = true) {fault : Fault}
    (h : extractWith digest options document = .error fault) :
    fault.isDocumented = true ∨ ∃ c ∈ document.namingContexts options,
      ∃ found, c.name = .error found ∧ fault = .segment found := by
  cases hparts : Parts.of (.ofDocument document) with
  | error found =>
    rw [extractWith, hparts] at h
    cases Except.error.inj h
    cases Value.parts_ofDocument_eq_error.1 hparts <;> exact Or.inl rfl
  | ok p =>
    rw [extractWith_eq digest options hparts] at h
    split at h
    · next found r hvisit =>
      cases h
      exact (ofBodies_of_visitBodies hvisit).isDocumented_or hd
    next stays r hvisit =>
    split at h
    · next found last hfinish =>
      cases h
      rcases (records_of_visitBodies hvisit).1.finish_eq_error hfinish with ⟨old, new, rfl⟩ | hname
      · exact Or.inl rfl
      · exact Or.inr hname
    · cases h

/-! ### Results -/

theorem Value.isWritable_withId {v : Linked Empty} (hv : v.isWritable = true) (name : Text) :
    (v.withId name).isWritable = true := by
  cases v with
  | map es => exact entriesAreWritable_insert rfl hv
  | _ => exact hv

theorem isWritable_storedEntries (s : ExtractionSettings) (name : Text) {v : Linked Empty}
    (hv : v.isWritable = true) :
    (Value.map (storedEntries s name v.entries) : Linked Empty).isWritable = true := by
  have hentries := Value.entriesAreWritable_entries hv
  rw [storedEntries, Entries.copied_eq, Value.isWritable]
  split
  · exact Value.entriesAreWritable_insert rfl hentries
  · exact hentries

theorem isWritable_renamedComponent (plan : List (Text × Text)) {entry : Text × Linked Empty}
    (h : entry.2.isWritable = true) :
    (renamedComponent plan entry).2.written.isWritable = true := by
  rw [Value.isWritable_written]
  rcases renamedComponent_eq_or plan entry with heq | heq
  · rwa [heq, Value.renameAll, Value.isWritable_relabel]
  · rw [heq, Value.renameAll, Value.isWritable_relabel]
    exact Value.isWritable_withId h _

theorem isWritable_of_extractWith (hd : document.isWritable = true) {e : Extraction}
    (h : extractWith digest options document = .ok e) : e.document.isWritable = true := by
  obtain ⟨r, hr, -, hresult, -⟩ := isRecorded_of_extractWith h
  rw [hresult.document]
  refine Value.isWritable_assembled hd ?_ ?_
  · rw [List.map_map, List.forall₂_map_right_iff]
    refine List.forall₂_same.2 fun body _ hbody => ?_
    show (Value.written (Value.renameAll _ _)).isWritable = true
    rw [Value.isWritable_written, Value.renameAll, Value.isWritable_relabel]
    exact Value.isWritable_linked _ body.2 hbody
  · rw [Value.entriesAreWritable_iff]
    intro entry hentry
    rcases List.mem_append.1 hentry with hold | hadded
    · have hcomponents : (Value.map (document.under "components")).isWritable = true :=
        Value.entriesAreWritable_under (Value.entriesAreWritable_entries hd)
      have hschemas : Value.entriesAreWritable document.namedSchemas = true :=
        Value.entriesAreWritable_under (Value.entriesAreWritable_entries hcomponents)
      exact Value.entriesAreWritable_iff.1 hschemas entry hold
    · obtain ⟨component, hcomponent, rfl⟩ := List.mem_map.1 hadded
      obtain ⟨d, hschema, -, hheld⟩ := hr.held component (mem_reordered hcomponent)
      refine ⟨rfl, isWritable_renamedComponent e.renamed ?_⟩
      rw [hheld]
      exact isWritable_storedEntries _ _ (Value.isWritable_content _
        (Value.isWritable_of_mem_schemasOf hd hschema))

/-- An extraction from a document that has a JSON text fails only in the ways that callers are told
of, and its result has a JSON text in every layout, when the contexts after which components may be
named have paths of texts. -/
theorem extractComponents_failsAsDocumented {yaml : YamlLibrary}
    (hdump : ∃ cs, dump yaml .json false (.ofDocument document) = .ok cs)
    (hpaths : ∀ c ∈ document.namingContexts options, c.HasTextPath) :
    (∀ fault, extractComponents options document = .error fault → fault.isDocumented = true) ∧
      ∀ e, extractComponents options document = .ok e →
        ∀ pretty, ∃ cs, dump yaml .json pretty (.ofDocument e.document) = .ok cs := by
  have hd := (exists_dump_iff yaml false document).1 hdump
  refine ⟨fun fault h => ?_, fun e h pretty => ?_⟩
  · refine (isDocumented_or_of_extractWith hd h).resolve_right ?_
    rintro ⟨c, hc, found, hname, -⟩
    obtain ⟨name, hok⟩ := (hpaths c hc).exists_name
    cases hok.symm.trans hname
  · exact (exists_dump_iff yaml pretty e.document).2 (isWritable_of_extractWith hd h)

/-- A document with one operation at each of two paths, which has a body with a schema. -/
def twoBodies (first second : Document) : Document :=
  .object [("paths", .object [
    ("/x", .object [("get", .object [
      ("operationId", .text "getA"), ("responses", .map [(.int 200, bodyWith first)])])]),
    ("/y", .object [("get", .object [
      ("operationId", .text "getB"), ("responses", .map [(.int 200, bodyWith second)])])])])]

def keyedSchema (key : Scalar) (schema : Document) : Document :=
  .object [("type", .text "object"), ("properties", .map [(key, schema)])]

def newYear : Date := ⟨2024, 1, 1, by decide, by decide, by decide⟩

def datedSchema : Document :=
  .object [("type", .text "object"), ("example", .scalar (.date newYear))]

/-- A schema with a date in it occurs under an integer as well, but first at a path of texts. -/
theorem extractComponents_failsAsDocumented_keyed :
    let document := twoBodies datedSchema (keyedSchema (.int 1) datedSchema)
    (∃ cs, dump Yaml.library .json false (.ofDocument document) = .ok cs) ∧
      ∃ e, extractComponents .usual document = .ok e ∧
        e.created = [Text.ofString "GetA.X", Text.ofString "GetB.Y"] ∧
        ∀ pretty, ∃ cs, dump Yaml.library .json pretty (.ofDocument e.document) = .ok cs := by
  intro document
  have hdump := (exists_dump_iff Yaml.library false document).2 (by decide +kernel)
  have hpaths : ∀ c ∈ document.namingContexts .usual,
      ∀ segment ∈ c.path, segment.text?.isSome = true := by decide +kernel
  have hcreated : (extractComponents .usual document).toOption.map Extraction.created =
      some [Text.ofString "GetA.X", Text.ofString "GetB.Y"] := by decide +kernel
  refine ⟨hdump, ?_⟩
  cases h : extractComponents .usual document with
  | error fault =>
    rw [h] at hcreated
    cases hcreated
  | ok e =>
    rw [h] at hcreated
    exact ⟨e, rfl, Option.some.inj hcreated,
      (extractComponents_failsAsDocumented hdump hpaths).2 e h⟩

/-- A schema that occurs first under an integer has no name, and a document with a date as a key has
no JSON text, before or after. -/
theorem not_failsAsDocumented_keyed :
    (∃ fault, extractComponents .usual (twoBodies (keyedSchema (.int 1) datedSchema) datedSchema) =
        .error fault ∧ fault.isDocumented = false) ∧
      ∃ e, extractComponents .usual (.map [(.date newYear, .text "release")]) = .ok e ∧
        ∀ pretty, ¬ ∃ cs, dump Yaml.library .json pretty (.ofDocument e.document) = .ok cs := by
  have hfault : (extractComponents .usual (twoBodies (keyedSchema (.int 1) datedSchema)
      datedSchema)).map Extraction.created = .error (.segment ⟨1, "int"⟩) := by decide +kernel
  have hwritable : (extractComponents .usual (.map [(.date newYear, .text "release")])).toOption.map
      (fun e => e.document.isWritable) = some false := by decide +kernel
  constructor
  · cases h : extractComponents .usual (twoBodies (keyedSchema (.int 1) datedSchema)
      datedSchema) with
    | error fault =>
      rw [h] at hfault
      exact ⟨fault, rfl, by rw [Except.error.inj hfault]; rfl⟩
    | ok e =>
      rw [h] at hfault
      cases hfault
  · cases h : extractComponents .usual (.map [(.date newYear, .text "release")]) with
    | error fault =>
      rw [h] at hwritable
      cases hwritable
    | ok e =>
      rw [h] at hwritable
      have hdocument : e.document.isWritable = false := Option.some.inj hwritable
      refine ⟨e, rfl, fun pretty hdump => ?_⟩
      rw [exists_dump_iff, hdocument] at hdump
      cases hdump

end NamedSchemas
