import NamedSchemas.Proofs.Shared.Document
import NamedSchemas.Value.Equality
import NamedSchemas.Proofs.Value.Pointer
/-!
# The frame of an extraction from a document with shared values

A body that is reached by way of a shared value changes in every place of that value. Where the ways
to the bodies and to the named schemas are not shared, as in every document that is a tree, nothing
else changes. A media type that stands for two content types at once is not left alone.
-/

namespace NamedSchemas

variable {ρ : Type}

/-! ### Trees share nothing -/

namespace Value

theorem isOwn_ofDocument (d : Document) : (ofDocument d : Value (Position ρ)).isOwn = true := by
  cases d with
  | ref label => exact label.elim
  | scalar s => rfl
  | list items => rfl
  | map entries => rfl

theorem ownsEach_ofDocument {p : Scalar → Value (Position ρ) → Bool}
    (h : ∀ key d, p key (ofDocument d) = true) (d : Document) :
    (ofDocument d : Value (Position ρ)).ownsEach p = true := by
  cases d with
  | map entries =>
    rw [ofDocument, subst, substEntries_eq_map, ownsEach, List.all_map, List.all_eq_true]
    exact fun entry _ => h entry.1 entry.2
  | ref label => exact label.elim
  | scalar s => rfl
  | list items => rfl

theorem ownsAt_ofDocument {key : Text} {p : Value (Position ρ) → Bool}
    (h : ∀ d, p (ofDocument d) = true) (d : Document) :
    (ofDocument d : Value (Position ρ)).ownsAt key p = true :=
  ownsEach_ofDocument (fun k e => by rw [h, Bool.or_true]) d

theorem ownsUnder_ofDocument {key : Text} {p : Value (Position ρ) → Bool}
    (h : ∀ d, p (ofDocument d) = true) (d : Document) :
    (ofDocument d : Value (Position ρ)).ownsUnder key p = true := by
  cases d with
  | map entries =>
    rw [ofDocument, subst, ownsUnder, Entries.get?_substEntries, Option.all_map, Option.all_eq_true]
    exact fun value _ => h value
  | ref label => exact label.elim
  | scalar s => rfl
  | list items => rfl

end Value

theorem Value.ownsSchema_ofDocument (mediaType : Text) (d : Document) :
    (ofDocument d : Value (Position ρ)).ownsSchema mediaType = true :=
  ownsAt_ofDocument (ownsAt_ofDocument (ownsAt_ofDocument fun _ => rfl)) d

theorem SharedDocument.ownsPlaces_ofDocument (mediaType : Text) (d : Document) :
    (ofDocument d).ownsPlaces mediaType = true := by
  rw [ownsPlaces, Bool.and_eq_true]
  constructor
  · refine Value.ownsAt_ofDocument (Value.ownsEach_ofDocument fun _ =>
      Value.ownsEach_ofDocument fun key operation => ?_) d
    rw [Value.ownsOperation, Value.ownsAt_ofDocument (Value.ownsEach_ofDocument fun _ =>
      Value.ownsSchema_ofDocument mediaType), Value.ownsAt_ofDocument
      (Value.ownsSchema_ofDocument mediaType), Bool.and_true, Bool.or_true]
  · exact Value.ownsUnder_ofDocument (Value.ownsUnder_ofDocument Value.isOwn_ofDocument) d

/-- The extraction from a document that shares nothing is that from its tree. -/
theorem tree_extractShared_ofDocument (options : ExtractionOptions) (d : Document) :
    (extractShared options (.ofDocument d)).map SharedExtraction.tree =
      (extractComponents options d).mapError SharedFault.ofTree := by
  have h := tree_extractSharedWith Sha256.hex options
    (SharedDocument.ownsPlaces_ofDocument options.mediaType d)
  rwa [show (SharedDocument.ofDocument d).tree = d from Graph.tree_ofDocument d] at h

/-! ### What else is shared stays -/

/-- Where the ways to the bodies and to the named schemas are not shared, an extraction changes
nothing outside the schemas of the bodies and the named schemas that are added behind those that are
there. No added name is that of a schema that is there, and none is added twice. -/
theorem extractShared_inFrame {options : ExtractionOptions} {d : SharedDocument}
    {e : SharedExtraction} (howns : d.ownsPlaces options.mediaType = true)
    (h : extractShared options d.toGraph = .ok e) :
    InFrame options.mediaType (registryAfter Sha256.hex options d.tree).writtenSchemas d.tree
        e.document.tree ∧
      e.usages = (registryAfter Sha256.hex options d.tree).usages ∧
      ((registryAfter Sha256.hex options d.tree).writtenSchemas.map Prod.fst).Nodup ∧
      ∀ added ∈ (registryAfter Sha256.hex options d.tree).writtenSchemas,
        ∀ old ∈ d.tree.namedSchemas, added.1 ≠ old.1 := by
  have htree := tree_extractSharedWith Sha256.hex options howns
  rw [extractShared] at h
  rw [h] at htree
  cases hextract : extractWith Sha256.hex options d.tree with
  | error fault =>
    rw [hextract] at htree
    cases htree
  | ok result =>
    rw [hextract] at htree
    cases htree
    exact extractComponents_inFrame hextract

def respondingPaths (content : Value (Position Empty)) : Value (Position Empty) :=
  .object [("/none", .text "later"), ("/a", .object [("get", .object [("responses", .object [
    ("404", .text "later"), ("200", .object [("content", content)])])])])]

/-- A response whose schema is that of another media type too, with properties that are shared. -/
def sharedSchemaDocument : SharedDocument where
  shared := [
    .object [("type", .text "object"), ("properties", .ref (.shared 1))],
    .object [("id", .ref (.shared 2)), ("owner", .ref (.shared 2))],
    .object [("type", .text "object")]]
  root := .object [("components", .scalar .null), ("paths", respondingPaths (.object [
    ("text/plain", .object [("schema", .ref (.shared 0))]),
    ("application/json", .object [("schema", .ref (.shared 0))])]))]
  proper := by decide +kernel

theorem extractShared_inFrame_sharedSchema : ∃ e,
    sharedSchemaDocument.ownsPlaces ExtractionOptions.usual.mediaType = true ∧
      extractShared .usual sharedSchemaDocument.toGraph = .ok e ∧ e.created.length = 2 ∧
      InFrame ExtractionOptions.usual.mediaType
        (registryAfter Sha256.hex .usual sharedSchemaDocument.tree).writtenSchemas
        sharedSchemaDocument.tree e.document.tree := by
  have howns : sharedSchemaDocument.ownsPlaces ExtractionOptions.usual.mediaType = true := by
    decide +kernel
  have hcreated : (extractShared .usual sharedSchemaDocument.toGraph).toOption.map
      (fun e => e.created.length) = some 2 := by decide +kernel
  cases h : extractShared .usual sharedSchemaDocument.toGraph with
  | error fault =>
    rw [h] at hcreated
    cases hcreated
  | ok e =>
    rw [h] at hcreated
    refine ⟨e, howns, rfl, Option.some.inj hcreated, ?_⟩
    exact (extractShared_inFrame howns h).1

/-! ### What is read at a place -/

namespace Value

theorem at?_of_differsIn {R : Scalar → Value ρ → Value ρ → Prop} {token : Text} {rest : List Text}
    {v w : Value ρ} (h : v.DiffersIn R w)
    (hrest : ∀ a b, R (.text token) a b → b.at? rest = a.at? rest) :
    w.at? (token :: rest) = v.at? (token :: rest) := by
  cases v with
  | map es =>
    obtain ⟨fs, rfl, hfs⟩ := h
    rw [at?, at?]
    induction hfs with
    | nil => rfl
    | @cons e f _ _ hentry _ ih =>
      obtain ⟨hkey, hvalue⟩ := hentry
      rw [Entries.get?_cons, Entries.get?_cons, ← hkey]
      split
      · next htoken => exact hrest _ _ (htoken ▸ hvalue)
      · exact ih
  | scalar s => rw [show w = .scalar s from h]
  | list items => rw [show w = .list items from h]
  | ref label => rw [show w = .ref label from h]

theorem at?_of_differsAt_of_ne {key token : Text} (hne : token ≠ key)
    {R : Value ρ → Value ρ → Prop} (rest : List Text) {v w : Value ρ} (h : v.DiffersAt key R w) :
    w.at? (token :: rest) = v.at? (token :: rest) := by
  refine at?_of_differsIn h fun a b hab => ?_
  rw [if_neg fun heq => hne (Scalar.text.inj heq)] at hab
  rw [hab]

theorem at?_of_differsAt_self {key : Text} {R : Value ρ → Value ρ → Prop} {rest : List Text}
    (hrest : ∀ a b, R a b → b.at? rest = a.at? rest) {v w : Value ρ} (h : v.DiffersAt key R w) :
    w.at? (key :: rest) = v.at? (key :: rest) := by
  refine at?_of_differsIn h fun a b hab => ?_
  rw [if_pos rfl] at hab
  exact hrest a b hab

end Value

theorem Entries.at?_of_mapDiffers {key token : Text} (hne : token ≠ key)
    {R : Entries ρ → Entries ρ → Prop} (rest : List Text) {es fs : Entries ρ}
    (h : MapDiffers key R es fs) :
    (Value.map fs).at? (token :: rest) = (Value.map es).at? (token :: rest) := by
  cases h with
  | missing hnone _ =>
    rw [Value.at?, Value.at?, get?_append, get?_cons,
      if_neg fun heq => hne (Scalar.text.inj heq).symm, get?_nil, Option.or_none]
  | present _ _ _ hdiffers => exact Value.at?_of_differsAt_of_ne hne rest hdiffers

/-- In the frame of a document no response has another media type than before, but the one whose
schemas are extracted. -/
theorem InFrame.at?_otherMediaType {mediaType other : Text} {added : Entries Empty}
    {document result : Document} (h : InFrame mediaType added document result)
    (hne : other ≠ mediaType) (path method status : Text) (rest : List Text) :
    result.at? ("paths" :: path :: method :: "responses" :: status :: "content" :: other :: rest) =
      document.at? ("paths" :: path :: method :: "responses" :: status :: "content" :: other :: rest) := by
  obtain ⟨es, fs, gs, rfl, hbodies, hcomponents, rfl⟩ := h
  have hpaths : Text.ofString "paths" ≠ Text.ofString "components" := by decide +kernel
  rw [Entries.at?_of_mapDiffers hpaths _ hcomponents]
  refine Value.at?_of_differsAt_self (fun _ _ hpaths => ?_) hbodies
  refine Value.at?_of_differsIn hpaths fun _ _ hitem => ?_
  refine Value.at?_of_differsIn hitem fun _ _ hoperation => ?_
  split at hoperation
  · refine Value.at?_of_differsIn hoperation fun _ _ hresponses => ?_
    rw [if_pos rfl] at hresponses
    refine Value.at?_of_differsIn hresponses fun _ _ hresponse => ?_
    refine Value.at?_of_differsAt_self (fun _ _ hcontent => ?_) hresponse
    exact Value.at?_of_differsAt_of_ne hne rest hcontent
  · rw [hoperation]

/-- A response that has one media type for two content types. -/
def aliasedMediaDocument : SharedDocument where
  shared := [.object [("schema", .ref (.shared 1))], .object [("type", .text "object")]]
  root := .object [("paths", respondingPaths (.object [
    ("application/json", .ref (.shared 0)), ("application/xml", .ref (.shared 0))]))]
  proper := by decide +kernel

/-- Its extraction changes the content type that it is not to visit. -/
theorem not_inFrame_aliasedMedia : ∃ e, extractShared .usual aliasedMediaDocument.toGraph = .ok e ∧
    ∀ added, ¬ InFrame jsonMediaType added aliasedMediaDocument.tree e.document.tree := by
  have hchanged : (extractShared .usual aliasedMediaDocument.toGraph).toOption.any (fun e =>
      e.document.tree.at? (["paths", "/a", "get", "responses", "200", "content",
          "application/xml", "schema", "$ref"].map Text.ofString) ≠
        aliasedMediaDocument.tree.at? (["paths", "/a", "get", "responses", "200", "content",
          "application/xml", "schema", "$ref"].map Text.ofString)) = true := by decide +kernel
  cases h : extractShared .usual aliasedMediaDocument.toGraph with
  | error fault =>
    rw [h] at hchanged
    cases hchanged
  | ok e =>
    rw [h] at hchanged
    refine ⟨e, rfl, fun added hframe => of_decide_eq_true hchanged ?_⟩
    have hne : Text.ofString "application/xml" ≠ jsonMediaType := by decide +kernel
    exact hframe.at?_otherMediaType hne "/a" "get" "200" ["schema", "$ref"]

end NamedSchemas
