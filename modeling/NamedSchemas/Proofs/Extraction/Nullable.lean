import NamedSchemas.Proofs.Extraction.Faults
import NamedSchemas.Proofs.Extraction.Refilling
import NamedSchemas.Proofs.Shortening.OwnIdentifiers
/-!
# Nullable schemas

A type that is given by its name can be listed together with null instead. Such a schema is of the
same kind, so extraction takes the same way through it.
-/

namespace NamedSchemas

/-! ### One schema -/

namespace Entries

/-- A type that is given by its name is listed together with null. -/
def nullable (es : Entries Empty) : Entries Empty :=
  match get? "type" es with
  | some (.scalar (.text name)) => insert (.text "type") (.list [.text name, .text "null"]) es
  | _ => es

variable {es : Entries Empty}

theorem get?_nullable {key : Text} (hne : key ≠ Text.ofString "type") :
    get? key (nullable es) = get? key es := by
  rw [nullable]
  split
  · exact get?_insert_of_ne hne _
  · rfl

theorem ne_type : ∀ key ∈ [Text.ofString "$ref", "items", "enum", identifierKey],
    key ≠ Text.ofString "type" := by decide +kernel

theorem isReference_nullable : isReference (nullable es) = isReference es := by
  rw [isReference, isReference, get?_nullable (ne_type _ (by simp))]

theorem filter_not_isNullName (name : Text) :
    ([.text name, .text "null"] : List Document).filter (fun item => !SchemaKind.isNullName item) =
      if name = Text.ofString "null" then [] else [.text name] := by
  have htext : ∀ t : Text, SchemaKind.isNullName (.text t : Document) =
      decide (t = Text.ofString "null") := by
    intro t
    simp [SchemaKind.isNullName, Value.text, Value.text?]
  simp only [List.filter_cons, List.filter_nil, htext, decide_true, Bool.not_true, Bool.false_eq_true,
    if_false, Bool.not_eq_true', decide_eq_false_iff_not, ite_not]

/-- Null does not count among the types, and alone it is of no other kind than in a list. -/
theorem kind_nullable : SchemaKind.of (nullable es) = SchemaKind.of es := by
  rw [nullable]
  split
  · next name hname =>
    rw [SchemaKind.of, get?_insert_self, SchemaKind.of, hname]
    dsimp only
    rw [filter_not_isNullName]
    by_cases hnull : name = Text.ofString "null"
    · rw [if_pos hnull, hnull]
      decide +kernel
    · rw [if_neg hnull]
      rfl
  · rfl

end Entries

namespace Value

/-- A schema with null among its types. References are left alone. -/
def nullable : Document → Document
  | .map es => if Entries.isReference es then .map es else .map (Entries.nullable es)
  | d => d

theorem nullable_map (es : Entries Empty) : nullable (.map es) =
    if Entries.isReference es then .map es else .map (Entries.nullable es) := rfl

theorem isMap_nullable (d : Document) : d.nullable.isMap = d.isMap := by
  cases d with
  | map es =>
    rw [nullable]
    split <;> rfl
  | scalar s => rfl
  | list items => rfl
  | ref label => rfl

theorem role_nullable (d : Document) : d.nullable.role = d.role := by
  cases d with
  | map es =>
    rw [nullable]
    split
    · rfl
    · rw [role, role, Entries.isReference_nullable, Entries.kind_nullable,
        Entries.get?_nullable (Entries.ne_type _ (by simp)), Entries.contains_eq_isSome_get?,
        Entries.contains_eq_isSome_get?, Entries.get?_nullable (Entries.ne_type _ (by simp))]
  | scalar s => rfl
  | list items => rfl
  | ref label => rfl

end Value

namespace Traversal

/-- Types do not lead to schemas, so the same ones are inside. -/
theorem parts_inner_nullable (role : SchemaRole) (d : Document) :
    (inner role).parts d.nullable = (inner role).parts d := by
  cases d with
  | map es =>
    rw [Value.nullable_map]
    split
    · rfl
    rw [Entries.nullable]
    split
    · exact parts_inner_insert type_not_mem_innerKeys role _ es
    · rfl
  | scalar s => rfl
  | list items => rfl
  | ref label => exact label.elim

theorem fill_inner_nullable (role : SchemaRole) (d : Document) (ws : List Document) :
    (inner role).fill d.nullable ws = ((inner role).fill d ws).nullable := by
  cases d with
  | map es =>
    obtain ⟨fs, hfs⟩ : ∃ fs, (inner role).fill (.map es) ws = .map fs := by
      cases role <;> exact ⟨_, rfl⟩
    have hkept : ∀ {key : Text}, key ∉ innerKeys → Entries.get? key fs = Entries.get? key es := by
      intro key hkey
      rw [← get?_fill_inner hkey role es ws, hfs]
      rfl
    have hreference : Entries.isReference fs = Entries.isReference es := by
      rw [Entries.isReference, hkept reference_not_mem_innerKeys, ← Entries.isReference]
    rw [hfs, Value.nullable_map, Value.nullable_map, hreference]
    split
    · exact hfs
    rw [Entries.nullable, Entries.nullable, hkept type_not_mem_innerKeys]
    split
    · rw [fill_inner_insert type_not_mem_innerKeys, hfs]
      rfl
    · exact hfs
  | scalar s => cases role <;> rfl
  | list items => cases role <;> rfl
  | ref label => exact label.elim

end Traversal

namespace Value

theorem inner_nullable (d : Document) : d.nullable.inner = d.inner := by
  rw [inner, role_nullable, Traversal.parts_inner_nullable, inner]

theorem withInner_nullable (d : Document) (ws : List Document) :
    d.nullable.withInner ws = (d.withInner ws).nullable := by
  rw [withInner_eq, role_nullable, Traversal.fill_inner_nullable, withInner_eq]

/-! ### Every schema that is reached -/

/-- The schemas that are reached from a schema, with the schema itself. -/
def reachable : Document → List Document := fold fun d inside => d :: inside.flatMap Prod.snd

/-- The schema with null among its types, and in the same way all schemas that are reached from
it. -/
def allNullable : Document → Document :=
  fold fun d inside => (d.withInner (inside.map Prod.snd) : Document).nullable

/-- What stands in the places of the schemas inside a schema when all are nullable. -/
def innerNullable (d : Document) : List Document := d.inner.map fun part => part.2.allNullable

theorem reachable_eq (d : Document) :
    d.reachable = d :: d.inner.flatMap fun part => part.2.reachable := by
  rw [reachable, fold_eq, List.flatMap_map]

theorem allNullable_eq (d : Document) : d.allNullable = (d.withInner d.innerNullable).nullable := by
  rw [allNullable, fold_eq, List.map_map]
  rfl

theorem isMap_allNullable (d : Document) : d.allNullable.isMap = d.isMap := by
  rw [allNullable_eq, isMap_nullable, isMap_withInner]

theorem keepsMaps_innerNullable (d : Document) : d.KeepsMaps d.innerNullable := by
  rw [KeepsMaps, innerNullable, List.forall₂_map_right_iff, List.forall₂_same]
  intro part _ hmap
  rwa [isMap_allNullable]

theorem role_allNullable (d : Document) : d.allNullable.role = d.role := by
  rw [allNullable_eq, role_nullable, role_withInner d.keepsMaps_innerNullable]

theorem isHoisted_allNullable (d : Document) : d.allNullable.isHoisted = d.isHoisted := by
  rw [isHoisted, isHoisted, role_allNullable]

theorem inner_allNullable (d : Document) :
    d.allNullable.inner = d.inner.map fun part => (part.1, part.2.allNullable) := by
  rw [allNullable_eq, inner_nullable, inner_withInner d.keepsMaps_innerNullable, innerNullable,
    List.zip_map']

theorem withInner_allNullable {d : Document} {ws : List Document} (h : ws.length = d.inner.length) :
    (d.allNullable.withInner ws : Document) = (d.withInner ws).nullable := by
  rw [allNullable_eq, withInner_nullable, withInner_withInner d.keepsMaps_innerNullable h]

theorem allNullable_of_isReference {es : Entries Empty} (h : Entries.isReference es = true) :
    allNullable (.map es) = .map es := by
  have hrole : role (.map es) = .inline := by rw [role, if_pos h]
  rw [allNullable_eq, withInner_eq, hrole]
  exact if_pos h

theorem occurrences_allNullable (d : Document) (c : Context) : d.allNullable.occurrences c =
    (d.occurrences c).map fun o => ⟨o.schema.allNullable, o.context⟩ := by
  induction d using schemaInduction generalizing c with
  | step d ih =>
    rw [occurrences_eq, occurrences_eq, inner_allNullable, isHoisted_allNullable, List.map_append,
      List.flatMap_map, List.map_flatMap]
    congr 1
    · exact List.flatMap_congr fun part hpart => ih part hpart _
    · split <;> rfl

/-! ### What stays in the place of a nullable schema -/

section Linked

variable {ν ν' : Document → Text}

theorem isMap_written_linked (ν : Document → Text) (d : Document) :
    (d.linked ν).written.isMap = d.isMap := by
  rw [linked_eq]
  split
  · next hhoisted => exact (isMap_of_isHoisted hhoisted).symm
  · rw [written_content, isMap_withInner]

theorem keepsMaps_linked (ν : Document → Text) (d : Document) :
    d.KeepsMaps (d.inner.map fun part => (part.2.linked ν).written) := by
  rw [KeepsMaps, List.forall₂_map_right_iff, List.forall₂_same]
  intro part _ hmap
  rwa [isMap_written_linked]

theorem nullable_content_of {d : Document}
    (h : ∀ part ∈ d.inner, (part.2.allNullable.linked ν').written =
      (part.2.linked ν).written.allNullable) :
    (d.allNullable.content ν').written = (d.content ν).written.allNullable := by
  have hlinked : (d.content ν).written.innerNullable =
      d.inner.map fun part => (part.2.allNullable.linked ν').written := by
    rw [written_content, innerNullable, inner_withInner (d.keepsMaps_linked ν), List.zip_map',
      List.map_map]
    exact List.map_congr_left fun part hpart => (h part hpart).symm
  rw [allNullable_eq (d.content ν).written, hlinked, written_content, inner_allNullable,
    List.map_map, written_content, withInner_withInner (d.keepsMaps_linked ν) (List.length_map _)]
  exact withInner_allNullable (List.length_map _)

/-- What stays in the place of a nullable schema is nullable, where there was a schema that
stays. -/
theorem written_linked_allNullable (d : Document) (h : ∀ i ∈ d.hoisted, ν' i.allNullable = ν i) :
    (d.allNullable.linked ν').written = (d.linked ν).written.allNullable := by
  induction d using schemaInduction with
  | step d ih =>
    rw [hoisted_eq] at h
    rw [linked_eq, linked_eq, isHoisted_allNullable]
    split
    · next hhoisted =>
      rw [h d (by rw [if_pos hhoisted]; exact List.mem_append_right _ (List.mem_cons_self ..))]
      exact (allNullable_of_isReference rfl).symm
    · exact nullable_content_of fun part hpart => ih part hpart fun i hi =>
        h i (List.mem_append_left _ (List.mem_flatMap.2 ⟨part, hpart, hi⟩))

theorem written_content_allNullable {d : Document}
    (h : ∀ i ∈ d.hoistedInside, ν' i.allNullable = ν i) :
    (d.allNullable.content ν').written = (d.content ν).written.allNullable :=
  nullable_content_of fun part hpart => written_linked_allNullable part.2 fun i hi =>
    h i (List.mem_flatMap.2 ⟨part, hpart, hi⟩)

end Linked

/-! ### Telling nullable schemas apart -/

/-- Is the document a schema that lists its types, and no reference? -/
def listsTypes : Document → Bool
  | .map es => !Entries.isReference es && match Entries.get? "type" es with
    | some (.list _) => true
    | _ => false
  | _ => false

end Value

namespace Entries

/-- The first of the types that are listed is given by its name. -/
def unlisted (es : Entries Empty) : Entries Empty :=
  match get? "type" es with
  | some (.list (.scalar (.text name) :: _)) => insert (.text "type") (.text name) es
  | _ => es

theorem get?_of_mem {es : Entries Empty} (h : Value.entriesAreJson es = true) {key : Text}
    {value : Document} (hmem : (.text key, value) ∈ es) : get? key es = some value := by
  induction es with
  | nil => cases hmem
  | cons entry rest ih =>
    obtain ⟨k, v⟩ := entry
    simp only [Value.entriesAreJson, Bool.and_eq_true, Bool.not_eq_true', List.any_eq_false,
      decide_eq_true_eq] at h
    rw [get?_cons]
    rcases List.mem_cons.1 hmem with heq | hmem
    · obtain ⟨rfl, rfl⟩ := Prod.mk.inj heq
      exact if_pos rfl
    · rw [if_neg fun hkey => h.1.1.2 _ hmem hkey.symm]
      exact ih h.2 hmem

theorem insert_get? {es : Entries Empty} (h : Value.entriesAreJson es = true) {key : Text}
    {value : Document} (hget : get? key es = some value) : insert (.text key) value es = es := by
  rw [insert_of_contains value (by rw [contains_eq_isSome_get?, hget]; rfl)]
  refine (List.map_congr_left fun entry hentry => ?_).trans (List.map_id es)
  obtain ⟨k, v⟩ := entry
  dsimp only
  split
  · next hkey =>
    rw [hkey] at hentry
    rw [Option.some.inj (hget.symm.trans (get?_of_mem h hentry))]
    rfl
  · rfl

end Entries

namespace Value

/-- A schema with the first of its listed types alone. References are left alone. -/
def unlisted : Document → Document
  | .map es => if Entries.isReference es then .map es else .map (Entries.unlisted es)
  | d => d

/-- The schema with the first of its listed types alone, and in the same way all schemas that are
reached from it. -/
def allUnlisted : Document → Document :=
  fold fun d inside => (d.withInner (inside.map Prod.snd) : Document).unlisted

theorem unlisted_nullable {d : Document} (hjson : d.isJson = true) (hplain : d.listsTypes = false) :
    d.nullable.unlisted = d := by
  cases d with
  | map es =>
    rw [nullable_map]
    split
    · next hreference => exact if_pos hreference
    next hreference =>
    rw [unlisted, Entries.isReference_nullable, if_neg hreference, Entries.nullable]
    congr 1
    split
    · next name hname =>
      rw [Entries.unlisted, Entries.get?_insert_self]
      exact (Entries.insert_insert _ _).trans (Entries.insert_get? hjson hname)
    · rw [Entries.unlisted]
      split
      · next htypes =>
        rw [listsTypes, htypes, (Bool.not_eq_true _).mp hreference] at hplain
        cases hplain
      · rfl
  | scalar s => rfl
  | list items => rfl
  | ref label => rfl

/-- Schemas that give their types by name can be told from what is nullable in their places. -/
theorem allUnlisted_allNullable {d : Document} (hjson : d.isJson = true)
    (hplain : ∀ e ∈ d.reachable, e.listsTypes = false) : d.allNullable.allUnlisted = d := by
  induction d using schemaInduction with
  | step d ih =>
    have hinside : d.inner.map (fun part => part.2.allNullable.allUnlisted) =
        d.inner.map fun part => (ofDocument part.2 : Document) := by
      refine List.map_congr_left fun part hpart => ?_
      rw [ofDocument_self]
      refine ih part hpart (isJson_inner hjson hpart).2 fun e he => hplain e ?_
      rw [reachable_eq]
      exact List.mem_cons_of_mem _ (List.mem_flatMap.2 ⟨part, hpart, he⟩)
    have hself : d ∈ d.reachable := by
      rw [reachable_eq]
      exact List.mem_cons_self ..
    -- what is inside is told apart already, which leaves the types of the schema itself
    rw [allUnlisted, fold_eq, ← allUnlisted, List.map_map, inner_allNullable, List.map_map]
    show (d.allNullable.withInner (d.inner.map fun part => part.2.allNullable.allUnlisted)).unlisted = d
    rw [withInner_allNullable (List.length_map _), hinside, withInner_inner, ofDocument_self,
      unlisted_nullable hjson (hplain d hself)]

/-! ### What a nullable schema has from the schema -/

theorem isJson_nullable {d : Document} (h : d.isJson = true) : d.nullable.isJson = true := by
  cases d with
  | map es =>
    rw [nullable_map]
    split
    · exact h
    rw [Entries.nullable]
    split
    · next name hname =>
      have htext := (isJson_of_mem h (Entries.mem_of_get?_eq_some hname)).2
      have htypes : isJson (.list [.text name, .text "null"]) = true := by
        rw [isJson, itemsAreJson, itemsAreJson, text, htext]
        decide +kernel
      rw [Entries.insert_of_contains _ (by rw [Entries.contains_eq_isSome_get?, hname]; rfl)]
      refine congruence_isJson.map ?_ h
      rw [List.forall₂_map_right_iff, List.forall₂_same]
      intro entry _
      refine ⟨rfl, fun hvalue => ?_⟩
      dsimp only
      split
      · exact htypes
      · exact hvalue
    · exact h
  | scalar s => exact h
  | list items => exact h
  | ref label => exact h

theorem isJson_allNullable {d : Document} (h : d.isJson = true) : d.allNullable.isJson = true := by
  induction d using schemaInduction with
  | step d ih =>
    rw [allNullable_eq]
    refine isJson_nullable (related_withInner_map congruence_isJson (fun part hpart => ?_) ?_)
    · rw [ofDocument_self]
      exact ih part hpart
    · rwa [ofDocument_self]

theorem text?_allNullable (d : Document) : d.allNullable.text? = d.text? := by
  cases d with
  | map es => exact text?_of_isMap (isMap_allNullable (.map es))
  | scalar s => rfl
  | list items => rfl
  | ref label => exact label.elim

theorem mem_refNames_nullable {d : Document} {name : Text} (h : name ∈ d.nullable.refNames) :
    name ∈ d.refNames := by
  cases d with
  | map es =>
    rw [nullable_map] at h
    split at h
    · exact h
    rw [Entries.nullable] at h
    split at h
    · rw [refNames_eq_addressed] at h ⊢
      have htype : Scalar.text (Text.ofString "type") ≠ addressKey :=
        fun heq => Entries.ne_type "$ref" (by simp) (Scalar.text.inj heq).symm
      exact (mem_addressedEntries_insert htype h).resolve_left List.not_mem_nil
    · exact h
  | scalar s => exact h
  | list items => exact h
  | ref label => exact h

theorem mem_refNames_allNullable {d : Document} {name : Text} (h : name ∈ d.allNullable.refNames) :
    name ∈ d.refNames := by
  induction d using schemaInduction generalizing name with
  | step d ih =>
    rw [allNullable_eq] at h
    have hrelated := related_withInner_map (ρ := Empty) (congruence_refNames fun _ => False)
      (d := d) (g := fun part => part.2.allNullable) fun part hpart => by
        rw [ofDocument_self]
        exact ⟨text?_allNullable part.2, fun name hname => Or.inl (ih part hpart hname)⟩
    rw [ofDocument_self] at hrelated
    exact (hrelated.2 name (mem_refNames_nullable h)).resolve_right id

/-! ### Identifiers -/

end Value

namespace Entries

theorem insert_comm {ρ : Type} {key other : Text} (hne : key ≠ other) {es : Entries ρ}
    (h : contains key es = true) (value more : Value ρ) :
    insert (.text key) value (insert (.text other) more es) =
      insert (.text other) more (insert (.text key) value es) := by
  have hkeys : Scalar.text key ≠ .text other := fun heq => hne (Scalar.text.inj heq)
  have hkept : ∀ {k l : Text} {v : Value ρ}, k ≠ l →
      contains k (insert (.text l) v es) = contains k es := by
    intro k l v hkl
    rw [contains_eq_isSome_get?, contains_eq_isSome_get?, get?_insert_of_ne hkl]
  rw [insert_of_contains value ((hkept hne).trans h), insert_of_contains value h]
  cases hother : contains other es with
  | true =>
    have hboth := (hkept (v := value) hne.symm).trans hother
    rw [insert_of_contains value h] at hboth
    rw [insert_of_contains more hother, insert_of_contains more hboth, List.map_map, List.map_map]
    refine List.map_congr_left fun entry _ => ?_
    simp only [Function.comp_apply]
    grind
  | false =>
    have hboth := (hkept (v := value) hne.symm).trans hother
    rw [insert_of_contains value h] at hboth
    rw [insert_of_not_contains more hother, insert_of_not_contains more hboth, List.map_append,
      List.map_cons, List.map_nil, if_neg hkeys.symm]

end Entries

namespace Value

theorem nullable_withId (name : Text) (d : Document) :
    (d.withId name).nullable = d.nullable.withId name := by
  cases d with
  | map es =>
    have hreference : Entries.isReference (Entries.insert (.text identifierKey) (.text name) es) =
        Entries.isReference es := by
      rw [Entries.isReference, Entries.get?_insert_of_ne (ne_identifierKey _ (by simp [roleKeys])),
        ← Entries.isReference]
    have htype : Text.ofString "type" ≠ identifierKey := ne_identifierKey _ (by simp [roleKeys])
    rw [withId, nullable_map, nullable_map, hreference]
    split
    · rfl
    rw [withId, Entries.nullable, Entries.get?_insert_of_ne htype, Entries.nullable]
    split
    · next t ht =>
      rw [Entries.insert_comm htype (by rw [Entries.contains_eq_isSome_get?, ht]; rfl)]
    · rfl
  | scalar s => rfl
  | list items => rfl
  | ref label => rfl

theorem role_withId (name : Text) (d : Document) : (d.withId name).role = d.role := by
  cases d with
  | map es =>
    exact role_eq_of_get? fun key hkey => Entries.get?_insert_of_ne (ne_identifierKey key hkey) _
  | scalar s => rfl
  | list items => rfl
  | ref label => rfl

theorem inner_withId (name : Text) (d : Document) : (d.withId name).inner = d.inner := by
  rw [inner, role_withId, inner]
  cases d with
  | map es => exact Traversal.parts_inner_insert identifierKey_not_mem_innerKeys _ _ es
  | scalar s => rfl
  | list items => rfl
  | ref label => rfl

theorem withInner_withId (name : Text) (d : Document) (ws : List Document) :
    ((d.withId name).withInner ws : Document) = (d.withInner ws).withId name := by
  rw [withInner_eq, role_withId, withInner_eq]
  cases d with
  | map es =>
    rw [withId, Traversal.fill_inner_insert identifierKey_not_mem_innerKeys]
    cases role (.map es) <;> rfl
  | scalar s => rfl
  | list items => rfl
  | ref label => rfl

theorem allNullable_marked (id? : Option Text) (d : Document) :
    (d.marked id?).allNullable = d.allNullable.marked id? := by
  cases id? with
  | none => rfl
  | some name =>
    show (d.withId name).allNullable = d.allNullable.withId name
    rw [allNullable_eq, innerNullable, inner_withId, withInner_withId, nullable_withId,
      allNullable_eq, innerNullable]

theorem id?_nullable (d : Document) : d.nullable.id? = d.id? := by
  cases d with
  | map es =>
    rw [nullable_map]
    split
    · rfl
    · exact Entries.get?_nullable (Entries.ne_type identifierKey (by simp))
  | scalar s => rfl
  | list items => rfl
  | ref label => rfl

theorem id?_allNullable (d : Document) : d.allNullable.id? = d.id? := by
  have hid : d.id?.map (ofDocument (ρ := Empty)) = d.id? := by
    rw [funext ofDocument_self, Option.map_id']
  rw [allNullable_eq, id?_nullable, id?_withInner, hid]

end Value

end NamedSchemas
