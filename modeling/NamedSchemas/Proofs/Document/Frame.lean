import NamedSchemas.Proofs.Document.Assembly
import NamedSchemas.Proofs.Registry.Consistency
/-!
# The frame of an extraction

An extraction changes its document in two places: at the schemas of the bodies, and behind the named
schemas that are there already. What else the document holds, well-formed or not, is neither changed
nor moved. So the two places are described by relations that go down to them key by key and leave
nothing open on the way.
-/

namespace NamedSchemas

variable {ρ ι : Type}

namespace Value

/-- Maps with the same keys in the same order whose values differ as the relation of their key
allows. Values that are no maps are the same. -/
def DiffersIn (R : Scalar → Value ρ → Value ρ → Prop) : Value ρ → Value ρ → Prop
  | .map es, w => ∃ fs, w = .map fs ∧ List.Forall₂ (fun e f => e.1 = f.1 ∧ R e.1 e.2 f.2) es fs
  | v, w => w = v

def DiffersAt (key : Text) (R : Value ρ → Value ρ → Prop) : Value ρ → Value ρ → Prop :=
  DiffersIn fun k v w => if k = .text key then R v w else w = v

/-- Differs in nothing but the schema that a response or a request body has for a media type. -/
def DiffersAtSchema (mediaType : Text) : Value ρ → Value ρ → Prop :=
  DiffersAt "content" (DiffersAt mediaType (DiffersAt "schema" fun _ _ => True))

def OperationDiffers (mediaType : Text) : Value ρ → Value ρ → Prop :=
  DiffersIn fun key v w =>
    if key = .text "responses" then DiffersIn (fun _ => DiffersAtSchema mediaType) v w
    else if key = .text "requestBody" then DiffersAtSchema mediaType v w
    else w = v

/-- Differs in nothing but the schemas of the bodies of the operations of a document. -/
def BodiesDiffer (mediaType : Text) : Value ρ → Value ρ → Prop :=
  DiffersAt "paths" (DiffersIn fun _ => DiffersIn fun key v w =>
    if (methodOf? key).isSome then OperationDiffers mediaType v w else w = v)

end Value

/-- Entries with another map under a key: it is put at the end when nothing is there, and otherwise
in the place of the map or the null that is. -/
inductive Entries.MapDiffers (key : Text) (R : Entries ρ → Entries ρ → Prop) (es : Entries ρ) :
    Entries ρ → Prop
  | missing {inner : Entries ρ} : get? key es = none → R [] inner →
    MapDiffers key R es (es ++ [(.text key, .map inner)])
  | present {old : Value ρ} {inner fs : Entries ρ} : get? key es = some old →
    (old = .scalar .null ∨ ∃ entries, old = .map entries) → R old.entries inner →
    Value.DiffersAt key (fun _ w => w = .map inner) (.map es) (.map fs) → MapDiffers key R es fs

/-- The result is the document, but for the schemas of its bodies, with these entries behind the
named schemas. -/
def InFrame (mediaType : Text) (added : Entries Empty) (document result : Document) : Prop :=
  ∃ es fs gs, document = .map es ∧ Value.BodiesDiffer mediaType (.map es) (.map fs) ∧
    Entries.MapDiffers "components"
      (Entries.MapDiffers "schemas" fun old new => new = old ++ added) fs gs ∧
    result = .map gs

/-! ### What a traversal can change -/

namespace Traversal

/-- Whatever the traversal fills in, the value differs as the relation allows. -/
def Changes (t : Traversal ι) (R : Value ρ → Value ρ → Prop) : Prop := ∀ v ws, R v (t.fill v ws)

theorem changes_skip : (skip : Traversal ι).Changes fun v w : Value ρ => w = v := fun _ _ => rfl

theorem changes_here (place : ι) : (here place).Changes fun _ _ : Value ρ => True :=
  fun _ _ => trivial

theorem changes_mapPlaces {κ : Type} {t : Traversal ι} {g : {ρ : Type} → Value ρ → ι → κ} {hfill}
    {hdocument} {R : Value ρ → Value ρ → Prop} (h : t.Changes R) :
    (t.mapPlaces g hfill hdocument).Changes R := h

theorem changes_entries {late : Scalar → Bool} {t : Scalar → Traversal ι}
    {R : Scalar → Value ρ → Value ρ → Prop} (h : ∀ key, (t key).Changes (R key)) :
    (entries late t).Changes (Value.DiffersIn R) := by
  intro v ws
  cases v with
  | map es =>
    refine ⟨_, rfl, ?_⟩
    have hphases : ∀ early behind, List.Forall₂ (fun e f => e.1 = f.1 ∧ R e.1 e.2 f.2) es
        (fillPhase late t true (fillPhase late t false es early) behind) := by
      induction es with
      | nil => exact fun _ _ => .nil
      | cons entry rest ih =>
        obtain ⟨key, value⟩ := entry
        intro early behind
        cases hlate : late key with
        | false =>
          simp only [fillPhase, hlate, if_true, Bool.false_eq_true, if_false]
          exact .cons ⟨rfl, h key value _⟩ (ih _ _)
        | true =>
          simp only [fillPhase, hlate, if_true, Bool.true_eq_false, if_false]
          exact .cons ⟨rfl, h key value _⟩ (ih _ _)
    exact hphases _ _
  | scalar s => rfl
  | list items => rfl
  | ref label => rfl

theorem changes_atKey {key : Text} {t : Traversal ι} {R : Value ρ → Value ρ → Prop}
    (h : t.Changes R) : (atKey key t).Changes (Value.DiffersAt key R) := by
  apply changes_entries
  intro k
  split
  · exact h
  · exact changes_skip

theorem changes_mediaSchema (mediaType : Text) (place : ι) :
    (mediaSchema mediaType place).Changes (Value.DiffersAtSchema (ρ := ρ) mediaType) :=
  changes_atKey (changes_atKey (changes_atKey (changes_here place)))

theorem changes_operationRoles (mediaType : Text) :
    (operationRoles mediaType).Changes (Value.OperationDiffers (ρ := ρ) mediaType) := by
  have hne : Scalar.text (Text.ofString "requestBody") ≠ .text (Text.ofString "responses") := by
    decide +kernel
  apply changes_entries
  intro key
  by_cases hnext : key = .text "requestBody"
  · subst hnext
    simp only [if_true, if_neg hne]
    exact changes_mediaSchema mediaType _
  by_cases hfirst : key = .text "responses"
  · simp only [if_neg hnext, if_pos hfirst]
    exact changes_entries fun status => changes_mediaSchema mediaType _
  · simp only [if_neg hnext, if_neg hfirst]
    exact changes_skip

/-- What is put in the places of the bodies changes their schemas and nothing else. -/
theorem changes_bodies (mediaType : Text) :
    (bodies mediaType).Changes (Value.BodiesDiffer (ρ := ρ) mediaType) := by
  refine changes_atKey (changes_entries fun path => changes_entries fun key => ?_)
  split
  · exact changes_mapPlaces (changes_operationRoles mediaType)
  · exact changes_skip

end Traversal

/-! ### Named schemas -/

theorem Entries.mapDiffers_insert {key : Text} {R : Entries ρ → Entries ρ → Prop}
    {es inner : Entries ρ} (hkey : HoldsMap key es) (h : R ((Value.map es).under key) inner) :
    MapDiffers key R es (insert (.text key) (.map inner) es) := by
  rw [Value.under, Value.entries] at h
  cases hget : get? key es with
  | none =>
    rw [hget] at h
    rw [insert_of_not_contains _ (by rw [contains_eq_isSome_get?, hget]; rfl)]
    exact .missing hget h
  | some old =>
    rw [hget] at h
    refine .present hget (hkey old hget) h ⟨_, rfl, ?_⟩
    rw [insert_of_contains _ (by rw [contains_eq_isSome_get?, hget]; rfl), List.forall₂_map_right_iff]
    refine List.forall₂_same.2 fun entry _ => ⟨rfl, ?_⟩
    split <;> rfl

def Registry.writtenSchemas (r : Registry Empty) : Entries Empty :=
  r.schemas.entries.map fun entry => (.text entry.1, entry.2.written)

def registryAfter (digest : Text → Text) (options : ExtractionOptions) (document : Document) :
    Registry Empty :=
  match Parts.of (.ofDocument document) with
  | .ok parts => ((extractBodies digest options parts.document).result (.empty parts.names)).2
  | .error _ => .empty []

section Consistent

variable (digest : Text → Text) (options : ExtractionOptions) (document : Document)
  (existing : List Text)

theorem keeps_visitBodies :
    RegistryM.Keeps (Registry.Consistent digest existing) (visitBodies digest options document) := by
  refine RegistryM.Keeps.mapM fun body _ => ?_
  refine RegistryM.Keeps.bind (RegistryM.Keeps.ask fun _ => body.1.context) fun c => ?_
  exact @Registry.Consistent.keeps_extract _ _ ⟨digest, options.assignIds⟩ (.ofDocument body.2) c

theorem keeps_finish :
    RegistryM.Keeps (Registry.Consistent digest existing) (finish options) := by
  intro r hr
  rw [finish]
  split
  · rcases hr.result_shorten with ⟨fault, -, hresult⟩ | ⟨plan, t, -, -, hresult, ht, -⟩
    · rwa [hresult]
    · rwa [hresult]
  · exact hr

variable {digest options document}

theorem consistent_of_finish {stays : List (Linked Empty)} {plan : List (Text × Text)}
    {r last : Registry Empty} (hvisit : (visitBodies digest options document).result
      (.empty document.schemaNames) = (.ok stays, r))
    (hfinish : (finish options).result r = (.ok plan, last)) :
    last.Consistent digest document.schemaNames := by
  have hr := keeps_visitBodies digest options document document.schemaNames _ .empty
  rw [hvisit] at hr
  have hlast := keeps_finish digest options document.schemaNames r hr
  rwa [hfinish] at hlast

theorem wellShaped_of_extractWith {e : Extraction} (h : extractWith digest options document = .ok e) :
    ∃ es, document = .map es ∧ Entries.HoldsMap "components" es ∧
      Entries.HoldsMap "schemas" (Value.map es).components := by
  cases hparts : Parts.of (.ofDocument document) with
  | error fault =>
    rw [extractWith, hparts] at h
    cases h
  | ok p => exact Value.wellShaped_of_parts hparts

theorem resultOf_registryAfter {e : Extraction} (h : extractWith digest options document = .ok e) :
    ∃ stays created plan, stays.length = (document.bodies options.mediaType).length ∧
      (registryAfter digest options document).Consistent digest document.schemaNames ∧
      e = resultOf options document stays created plan (registryAfter digest options document) := by
  obtain ⟨stays, r, plan, last, hlength, hvisit, hfinish, rfl⟩ := extractWith_eq_ok h
  cases hparts : Parts.of (.ofDocument document) with
  | error fault =>
    rw [extractWith, hparts] at h
    cases h
  | ok p =>
    have hlast : registryAfter digest options document = last := by
      rw [registryAfter, hparts]
      show ((extractBodies digest options p.document).result (.empty p.names)).2 = last
      rw [extractBodies_document digest options hparts, Value.names_parts hparts,
        RegistryM.result_bind_of_ok hvisit, RegistryM.result_bind_of_ok (RegistryM.result_get r),
        RegistryM.result_bind_of_ok hfinish]
      rfl
    rw [hlast]
    exact ⟨stays, r.schemas.keys, plan, hlength, consistent_of_finish hvisit hfinish, rfl⟩

end Consistent

/-- A document that was put together again with other bodies and further named schemas is in the
frame of the document. -/
theorem inFrame_assembled (mediaType : Text) {es : Entries Empty}
    (hcomponents : Entries.HoldsMap "components" es)
    (hschemas : Entries.HoldsMap "schemas" (Value.map es).components) (ws : List Document)
    (added : Entries Empty) : InFrame mediaType added (.map es)
      (.assembled mediaType (.map es) ws ((Value.map es).namedSchemas ++ added)) := by
  have hbodies := Traversal.changes_bodies mediaType (Value.map es) ws
  obtain ⟨fs, heq, hkept, hunder, hresult⟩ :=
    Value.assembled_map mediaType es ws ((Value.map es).namedSchemas ++ added)
  rw [heq] at hbodies
  refine ⟨es, fs, _, rfl, hbodies, ?_, hresult⟩
  apply Entries.mapDiffers_insert
  · intro v hv
    exact hcomponents v (hkept ▸ hv)
  · rw [hunder]
    exact Entries.mapDiffers_insert hschemas rfl

theorem document_resultOf_of_consistent {digest : Text → Text} {options : ExtractionOptions}
    {document : Document} {stays : List (Linked Empty)} {last : Registry Empty}
    (hlength : stays.length = (document.bodies options.mediaType).length)
    (hlast : last.Consistent digest document.schemaNames) (created : List Text)
    (plan : List (Text × Text)) : (resultOf options document stays created plan last).document =
      Value.assembled options.mediaType document (stays.map fun v => (v.renameAll plan).written)
        (document.namedSchemas ++ last.writtenSchemas) := by
  rw [document_resultOf hlength, substEntries_putAll (Table.nodup_keys _) fun pair hpair =>
    hlast.fresh pair.1 (Table.mem_keys_of_mem hpair)]
  rfl

theorem Registry.map_fst_writtenSchemas (r : Registry Empty) :
    r.writtenSchemas.map Prod.fst = r.schemas.keys.map Scalar.text := by
  rw [writtenSchemas, Table.keys, List.map_map, List.map_map]
  rfl

theorem Registry.Consistent.written_ne {digest : Text → Text} {document : Document}
    {r : Registry Empty} (hr : r.Consistent digest document.schemaNames) :
    ∀ added ∈ r.writtenSchemas, ∀ old ∈ document.namedSchemas, added.1 ≠ old.1 := by
  intro added hadded old hold heq
  obtain ⟨pair, hpair, rfl⟩ := List.mem_map.1 hadded
  exact hr.fresh pair.1 (Table.mem_keys_of_mem hpair)
    (Value.mem_schemaNames.2 ⟨old, hold, heq.symm⟩)

/-- Outside the schemas of the bodies and the named schemas that are added behind those that are
there, an extraction changes nothing. No added name is that of a schema that is there, and none is
added twice. -/
theorem extractComponents_inFrame {options : ExtractionOptions} {document : Document}
    {e : Extraction} (h : extractComponents options document = .ok e) :
    InFrame options.mediaType (registryAfter Sha256.hex options document).writtenSchemas document
        e.document ∧
      e.usages = (registryAfter Sha256.hex options document).usages ∧
      ((registryAfter Sha256.hex options document).writtenSchemas.map Prod.fst).Nodup ∧
      ∀ added ∈ (registryAfter Sha256.hex options document).writtenSchemas,
        ∀ old ∈ document.namedSchemas, added.1 ≠ old.1 := by
  obtain ⟨stays, created, plan, hlength, hr, he⟩ := resultOf_registryAfter h
  obtain ⟨es, rfl, hcomponents, hschemas⟩ := wellShaped_of_extractWith h
  refine ⟨?_, by rw [he]; rfl, ?_, hr.written_ne⟩
  · rw [he, document_resultOf_of_consistent hlength hr]
    exact inFrame_assembled options.mediaType hcomponents hschemas _ _
  · rw [Registry.map_fst_writtenSchemas]
    exact (Table.nodup_keys _).map fun _ _ => Scalar.text.inj

end NamedSchemas
