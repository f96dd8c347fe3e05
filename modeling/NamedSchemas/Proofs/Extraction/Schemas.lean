import NamedSchemas.Proofs.Document.Assembly
import NamedSchemas.Proofs.Extraction.Kind
/-!
# Schemas inside schemas

An extraction goes from a schema to the schemas inside it: from an object to its properties, from an
array to its items. So the extraction of a document is a visit of the schemas inside it, after which
the document itself becomes a component or stays, and what is made of a document schema by schema is
a fold.
-/

namespace NamedSchemas

/-- What becomes of a schema. -/
inductive SchemaRole where
  /-- It stays as it is. -/
  | inline
  /-- It stays, and its items are gone into. -/
  | wrapper
  /-- It becomes a component as it is. -/
  | single
  /-- It becomes a component after its properties were gone into. -/
  | object
  deriving DecidableEq

namespace Value

variable {ρ : Type}

def isMap : Value ρ → Bool
  | .map _ => true
  | _ => false

/-- What becomes of a document that is a schema: a reference stays, an object becomes a component,
and so does an array without a schema for its items, a schema that is listed by its values, and one
that is a map without a type. -/
def role : Document → SchemaRole
  | .map entries =>
    if Entries.isReference entries then .inline
    else match SchemaKind.of entries with
      | .object => .object
      | .array => if (Entries.get? "items" entries).any isMap then .wrapper else .single
      | .other => if Entries.contains "enum" entries then .single else .inline
      | .untyped => .single
  | _ => .inline

def isHoisted (d : Document) : Bool := d.role = .single || d.role = .object

theorem isMap_of_isHoisted {d : Document} (h : d.isHoisted = true) : d.isMap = true := by
  cases d with
  | map entries => rfl
  | scalar s => cases h
  | list items => cases h
  | ref label => cases h

theorem isMapping_ofDocument (d : Document) : (ofDocument d : Linked Empty).isMapping = d.isMap := by
  cases d with
  | ref label => exact label.elim
  | scalar s => rfl
  | list items => rfl
  | map es => rfl

theorem any_isMapping_subst (v? : Option Document) :
    (v?.map (subst Empty.elim)).any (isMapping (σ := Empty)) = v?.any isMap := by
  rw [Option.any_map]
  exact congrArg (Option.any · v?) (funext isMapping_ofDocument)

theorem map_entries {v : Value ρ} (h : v.isMap = true) : .map v.entries = v := by
  match v, h with
  | .map _, _ => rfl

theorem text?_of_isMap {v : Value ρ} (h : v.isMap = true) : v.text? = none := by
  match v, h with
  | .map _, _ => rfl

end Value

/-! ### Going into a schema -/

/-- Goes to the schemas inside one with this role, each with its segment in contexts. -/
def Traversal.inner : SchemaRole → Traversal Document
  | .wrapper => .atKey (Text.ofString "items") (.here (.text itemSegment))
  | .object => .atKey propertiesKey (.eachEntry fun key => .here (.scalar key))
  | _ => .skip

namespace Value

/-- The schemas inside a schema, each with its segment in contexts. -/
def inner (d : Document) : List (Document × Document) := (Traversal.inner d.role).parts d

/-- A schema with others in the places of the schemas inside it. -/
def withInner {ρ : Type} (d : Document) (ws : List (Value ρ)) : Value ρ :=
  (Traversal.inner d.role).fill (.ofDocument d) ws

theorem sizeOf_lt_of_mem {entries : Entries Empty} {entry : Scalar × Document}
    (h : entry ∈ entries) : sizeOf entry.2 < sizeOf (Value.map entries) := by
  have hmem := List.sizeOf_lt_of_mem h
  have hsize : sizeOf entry.2 < sizeOf entry := by
    obtain ⟨key, value⟩ := entry
    simp only [Prod.mk.sizeOf_spec]
    omega
  simp only [Value.map.sizeOf_spec]
  omega

end Value

theorem Traversal.gives_inner {P R : Document → Prop} {K : Scalar → Prop}
    {Q : Document × Document → Prop} (role : SchemaRole)
    (houter : ∀ es, P (.map es) → ∀ entry ∈ es, K entry.1 ∧ R entry.2)
    (hinner : ∀ es, R (.map es) → ∀ entry ∈ es, K entry.1 ∧ R entry.2)
    (hitem : ∀ d, R d → Q (.text itemSegment, d))
    (hproperty : ∀ key d, K key → R d → Q (.scalar key, d)) : (inner role).Gives P Q := by
  cases role with
  | inline => exact gives_skip
  | single => exact gives_skip
  | wrapper => exact gives_atKey houter (gives_here hitem)
  | object =>
    exact gives_atKey houter (gives_entries hinner fun key hkey =>
      gives_here fun d hd => hproperty key d hkey hd)

namespace Value

theorem sizeOf_inner {d : Document} {part : Document × Document} (h : part ∈ d.inner) :
    sizeOf part.2 < sizeOf d := by
  refine Traversal.gives_inner (P := fun e => sizeOf e ≤ sizeOf d)
    (R := fun e => sizeOf e < sizeOf d) (K := fun _ => True) (Q := fun e => sizeOf e.2 < sizeOf d)
    d.role ?_ ?_ (fun _ he => he) (fun _ _ _ he => he) d (Nat.le_refl _) part h
  · exact fun es hes entry hentry => ⟨trivial, Nat.lt_of_lt_of_le (sizeOf_lt_of_mem hentry) hes⟩
  · exact fun es hes entry hentry => ⟨trivial, Nat.lt_trans (sizeOf_lt_of_mem hentry) hes⟩

/-! ### Other schemas inside a schema -/

theorem withInner_inner {ρ : Type} (d : Document) :
    d.withInner (d.inner.map fun part => (ofDocument part.2 : Value ρ)) = ofDocument d := by
  have hparts := (Traversal.inner d.role).fill_parts (ofDocument d : Value ρ)
  rw [Traversal.parts_ofDocument, List.map_map] at hparts
  exact hparts

theorem subst_withInner {ρ σ : Type} (f : ρ → Value σ) {d : Document} {ws : List (Value ρ)}
    (h : ws.length = d.inner.length) : (d.withInner ws).subst f = d.withInner (ws.map (subst f)) :=
  (Traversal.inner d.role).fill_subst f d ws h

/-- A schema is related to what it becomes when the schemas inside it are related to what they
become. -/
theorem related_withInner {ρ : Type} {R : Value ρ → Value ρ → Prop} (hR : Congruence R)
    {d : Document} {ws : List (Value ρ)}
    (h : List.Forall₂ (fun part w => R (ofDocument part.2) w) d.inner ws) :
    R (ofDocument d) (d.withInner ws) := by
  refine (Traversal.inner d.role).fill_related hR _ _ ?_
  rw [Traversal.parts_ofDocument, List.forall₂_map_left_iff]
  exact h

theorem related_withInner_map {ρ : Type} {R : Value ρ → Value ρ → Prop} (hR : Congruence R)
    {d : Document} {g : Document × Document → Value ρ}
    (h : ∀ part ∈ d.inner, R (ofDocument part.2) (g part)) :
    R (ofDocument d) (d.withInner (d.inner.map g)) := by
  refine related_withInner hR ?_
  rw [List.forall₂_map_right_iff]
  exact List.forall₂_same.2 h

theorem isMap_withInner {ρ : Type} (d : Document) (ws : List (Value ρ)) :
    (d.withInner ws).isMap = d.isMap := by
  cases d with
  | map entries =>
    rw [withInner]
    cases role (.map entries) <;> rfl
  | scalar s => rfl
  | list items => rfl
  | ref label => exact label.elim

/-- What holds of a schema when it holds of the schemas inside it holds of every schema. -/
theorem schemaInduction {motive : Document → Prop}
    (step : ∀ d, (∀ part ∈ d.inner, motive part.2) → motive d) (d : Document) : motive d :=
  step d fun part _ => schemaInduction step part.2
termination_by sizeOf d
decreasing_by exact sizeOf_inner ‹_›

end Value

/-! ### Folding a schema -/

namespace Value

variable {α : Type} (f : Document → List (Document × α) → α)

mutual

/-- Makes something of a schema and of what is made of the schemas inside it. -/
def fold : Document → α
  | .scalar s => f (.scalar s) []
  | .list items => f (.list items) []
  | .map entries => f (.map entries) (
    match role (.map entries) with
    | .wrapper => foldItems entries
    | .object => foldProperties entries
    | _ => [])
  | .ref label => f (.ref label) []

def foldItems : Entries Empty → List (Document × α)
  | [] => []
  | (key, value) :: rest =>
    (if key = .text (Text.ofString "items") then [(.text itemSegment, fold value)] else []) ++
      foldItems rest

def foldProperties : Entries Empty → List (Document × α)
  | [] => []
  | (key, value) :: rest =>
    (if key = .text propertiesKey then foldMembers value else []) ++ foldProperties rest

def foldMembers : Document → List (Document × α)
  | .map properties => foldEach properties
  | _ => []

def foldEach : Entries Empty → List (Document × α)
  | [] => []
  | (key, value) :: rest => (.scalar key, fold value) :: foldEach rest

end

theorem foldItems_eq (entries : Entries Empty) : foldItems f entries =
    ((Traversal.inner .wrapper).parts (.map entries)).map fun part => (part.1, fold f part.2) := by
  rw [Traversal.inner, Traversal.atKey, Traversal.parts_eachEntry]
  induction entries with
  | nil => rfl
  | cons entry rest ih =>
    rw [foldItems, ih, List.flatMap_cons, List.map_append]
    split <;> rfl

theorem foldMembers_eq (d : Document) : foldMembers f d =
    ((Traversal.eachEntry fun key => Traversal.here (.scalar key : Document)).parts d).map
      fun part => (part.1, fold f part.2) := by
  cases d with
  | map properties =>
    rw [foldMembers, Traversal.parts_eachEntry]
    induction properties with
    | nil => rfl
    | cons entry rest ih =>
      rw [foldEach, ih, List.flatMap_cons, List.map_append]
      rfl
  | scalar s => rfl
  | list items => rfl
  | ref label => exact label.elim

theorem foldProperties_eq (entries : Entries Empty) : foldProperties f entries =
    ((Traversal.inner .object).parts (.map entries)).map fun part => (part.1, fold f part.2) := by
  rw [Traversal.inner, Traversal.atKey, Traversal.parts_eachEntry]
  induction entries with
  | nil => rfl
  | cons entry rest ih =>
    rw [foldProperties, foldMembers_eq, ih, List.flatMap_cons, List.map_append]
    split <;> rfl

/-- A fold of a schema is made of the folds of the schemas inside it. -/
theorem fold_eq (d : Document) :
    fold f d = f d (d.inner.map fun part => (part.1, fold f part.2)) := by
  cases d with
  | map entries =>
    rw [fold, foldItems_eq, foldProperties_eq, inner]
    cases role (.map entries) <;> rfl
  | scalar s => rfl
  | list items => rfl
  | ref label => exact label.elim

end Value

/-! ### Extracting a schema -/

section Extract

variable (s : ExtractionSettings)

theorem extractItems_eq_mapM {σ : Type} (entries : Entries (Link σ)) (c : Context) :
    extractItems s entries c = entries.mapM fun entry =>
      (if entry.1 = .text (Text.ofString "items") then extract s entry.2 (c.child (.text itemSegment))
        else pure entry.2) >>= fun value => pure (entry.1, value) := by
  induction entries with
  | nil => rw [extractItems, List.mapM_nil]
  | cons entry rest ih =>
    obtain ⟨key, value⟩ := entry
    rw [extractItems, ih, List.mapM_cons]
    simp only [pure_bind]
    split <;> simp only [bind_assoc, pure_bind]

theorem extractEach_eq_mapM {σ : Type} (entries : Entries (Link σ)) (c : Context) :
    extractEach s entries c = entries.mapM (fun entry => do
      pure (entry.1, ← extract s entry.2 (c.child (.scalar entry.1)))) := by
  induction entries with
  | nil => rw [extractEach, List.mapM_nil]
  | cons entry rest ih =>
    obtain ⟨key, value⟩ := entry
    rw [extractEach, ih, List.mapM_cons]
    simp only [bind_assoc, pure_bind]

/-- Extracts every property in a value that is found under their key. A reference is gone through as
the map that it reads as. -/
def extractHeld (c : Context) : Linked Empty → RegistryM Empty (Linked Empty)
  | .map properties => Value.map <$> extractEach s properties c
  | .ref link => pure (.ofDocument link.written)
  | v => pure v

theorem extractProperties_eq_mapM (entries : Entries (Link Empty)) (c : Context) :
    extractProperties s entries c = entries.mapM fun entry =>
      (if entry.1 = .text propertiesKey then extractHeld s c entry.2 else pure entry.2) >>=
        fun value => pure (entry.1, value) := by
  induction entries with
  | nil => rw [extractProperties, List.mapM_nil]
  | cons entry rest ih =>
    obtain ⟨key, value⟩ := entry
    rw [List.mapM_cons, ← ih]
    cases value with
    | map properties =>
      simp only [extractProperties, extractHeld]
      split <;> simp only [map_eq_pure_bind, bind_assoc, pure_bind, Entries.copied_eq]
    | scalar s => simp only [extractProperties, extractHeld, ite_self, pure_bind]
    | list items => simp only [extractProperties, extractHeld, ite_self, pure_bind]
    | ref link =>
      simp only [extractProperties, extractHeld]
      split <;> simp only [pure_bind]

/-- Extracts every property in a map of them. -/
def extractMembers (c : Context) : Linked Empty → RegistryM Empty (Linked Empty) :=
  Value.eachEntryM fun key value => extract s value (c.child (.scalar key))

theorem extractHeld_ofDocument (c : Context) (d : Document) :
    extractHeld s c (.ofDocument d) = extractMembers s c (.ofDocument d) := by
  cases d with
  | map properties =>
    rw [Value.ofDocument, Value.subst, extractHeld, extractEach_eq_mapM, extractMembers,
      Value.eachEntryM, map_eq_pure_bind]
  | scalar s => rfl
  | list items => rfl
  | ref label => exact label.elim

theorem visit_object (entries : Entries Empty) (c : Context) :
    (Traversal.inner .object).visit (fun w segment => extract s w (c.child segment))
        (.map (Value.substEntries Empty.elim entries) : Linked Empty) =
      Value.map <$> extractProperties s (Value.substEntries Empty.elim entries) c := by
  have hmembers : ∀ v, extractMembers s c v =
      (Traversal.eachEntry fun key => .here (.scalar key)).visit
        (fun w segment => extract s w (c.child segment)) v :=
    Traversal.eachEntryM_eq_visit fun key v => by rw [Traversal.visit_here]
  rw [Traversal.inner, ← Traversal.atKeyM_eq_visit hmembers, extractProperties_eq_mapM,
    Value.atKeyM, Value.eachEntryM, map_eq_pure_bind, Value.substEntries_eq_map, List.mapM_map,
    List.mapM_map]
  have hheld : ∀ d : Document, extractHeld s c (d.subst Empty.elim) =
      extractMembers s c (d.subst Empty.elim) := extractHeld_ofDocument s c
  simp only [Function.comp_def, hheld]

theorem visit_wrapper (entries : Entries (Link Empty)) (c : Context) :
    (Traversal.inner .wrapper).visit (fun w segment => extract s w (c.child segment))
        (.map entries : Linked Empty) = Value.map <$> extractItems s entries c := by
  have hitem : ∀ v : Linked Empty, extract s v (c.child (.text itemSegment)) =
      (Traversal.here (.text itemSegment)).visit
        (fun w segment => extract s w (c.child segment)) v := fun v => by rw [Traversal.visit_here]
  rw [Traversal.inner, ← Traversal.atKeyM_eq_visit hitem, extractItems_eq_mapM, Value.atKeyM,
    Value.eachEntryM, map_eq_pure_bind]

theorem visit_inner (d : Document) (c : Context) :
    (Traversal.inner d.role).visit (fun w segment => extract s w (c.child segment))
        (.ofDocument d : Linked Empty) =
      d.withInner <$> d.inner.mapM fun part => extract s (.ofDocument part.2) (c.child part.1) := by
  rw [Traversal.visit, Traversal.parts_ofDocument, List.mapM_map]
  rfl

/-- The extraction of a document visits the schemas inside it. Then the document becomes a component
or stays. -/
theorem extract_ofDocument (d : Document) (c : Context) :
    extract s (.ofDocument d : Linked Empty) c = (do
      let w ← d.withInner <$> d.inner.mapM fun part =>
        extract s (.ofDocument part.2) (c.child part.1)
      if d.isHoisted then hoist s w.entries c else pure w) := by
  rw [← visit_inner, Value.isHoisted]
  cases d with
  | map entries =>
    have hlabel : ∀ label : Empty, (Empty.elim label : Linked Empty).standsForMap = true :=
      fun label => label.elim
    have htext : ∀ label : Empty, (Empty.elim label : Linked Empty).text? = none :=
      fun label => label.elim
    rw [Value.ofDocument, Value.subst, extract, isReference_substEntries htext,
      kind_substEntries hlabel, Entries.get?_substEntries, Entries.contains_substEntries,
      Value.any_isMapping_subst, Value.role]
    split
    · simp only [Traversal.inner, Traversal.visit_skip, pure_bind]
      rfl
    · cases SchemaKind.of entries with
      | object =>
        simp only [visit_object, map_eq_pure_bind, bind_assoc, pure_bind]
        rfl
      | array =>
        dsimp only
        split
        · simp only [visit_wrapper, map_eq_pure_bind, bind_assoc, pure_bind, Entries.copied_eq]
          rfl
        · simp only [Traversal.inner, Traversal.visit_skip, pure_bind]
          rfl
      | other =>
        dsimp only
        split
        · simp only [Traversal.inner, Traversal.visit_skip, pure_bind]
          rfl
        · simp only [Traversal.inner, Traversal.visit_skip, pure_bind]
          rfl
      | untyped =>
        simp only [Traversal.inner, Traversal.visit_skip, pure_bind]
        rfl
  | scalar s => rfl
  | list items => rfl
  | ref label => exact label.elim

end Extract

end NamedSchemas
