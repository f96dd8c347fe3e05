import Mathlib.Logic.Relation
import NamedSchemas.Proofs.Extraction.NamingContexts
import NamedSchemas.Proofs.Extraction.Refilling
import NamedSchemas.Proofs.Extraction.Settled
import NamedSchemas.Proofs.Shortening.Unfolded
/-!
# Nothing is left to extract

Go into a result from its bodies, or from the properties of the components that were added, through
the items of arrays: wherever this leads, there is a schema that stays inline. So an extraction
reaches what it has put among the components as well as what it has left in the bodies.
-/

namespace NamedSchemas

/-! ### The type of a schema -/

namespace Entries

/-- The one type of a schema with these entries, alone or listed with nothing but null. -/
def HasType (name : Text) (es : Entries Empty) : Prop :=
  get? "type" es = some (.text name) ∨ ∃ items, get? "type" es = some (.list items) ∧
    items.filter (fun item => !SchemaKind.isNullName item) = [.text name]

/-- A schema with these entries lists types, and those besides null are not just one name. -/
def HasTypes (es : Entries Empty) : Prop :=
  ∃ items, get? "type" es = some (.list items) ∧
    ∀ name, items.filter (fun item => !SchemaKind.isNullName item) ≠ [.text name]

variable {es : Entries Empty}

theorem HasType.kind {name : Text} (h : HasType name es) : SchemaKind.of es = .ofName name := by
  rcases h with h | ⟨items, h, hone⟩
  · rw [SchemaKind.of, h]
    rfl
  · rw [SchemaKind.of, h]
    simp only [hone, Value.text]

theorem HasTypes.kind (h : HasTypes es) : SchemaKind.of es = .other := by
  obtain ⟨items, h, hnone⟩ := h
  rw [SchemaKind.of, h]
  dsimp only
  split
  · next name hone => exact absurd hone (hnone name)
  · rfl

theorem hasType_or (es : Entries Empty) :
    (∃ name, HasType name es) ∨ HasTypes es ∨ SchemaKind.of es = .untyped := by
  cases h : get? "type" es with
  | none => exact Or.inr (Or.inr (by rw [SchemaKind.of, h]))
  | some v =>
    cases v with
    | scalar s =>
      cases s with
      | text name => exact Or.inl ⟨name, Or.inl h⟩
      | _ => exact Or.inr (Or.inr (by rw [SchemaKind.of, h]))
    | map inner => exact Or.inr (Or.inr (by rw [SchemaKind.of, h]))
    | ref label => exact label.elim
    | list items =>
      by_cases hone : ∃ name,
          items.filter (fun item => !SchemaKind.isNullName item) = [.text name]
      · obtain ⟨name, hone⟩ := hone
        exact Or.inl ⟨name, Or.inr ⟨items, h, hone⟩⟩
      · exact Or.inr (Or.inl ⟨items, h, not_exists.1 hone⟩)

theorem isReference_iff : isReference es = true ↔ ∃ address, get? "$ref" es = some (.text address) := by
  rw [isReference, Option.isSome_iff_exists]
  refine exists_congr fun address => ?_
  rw [Option.bind_eq_some_iff]
  refine ⟨?_, fun h => ⟨_, h, rfl⟩⟩
  rintro ⟨v, hv, htext⟩
  cases v with
  | scalar s =>
    cases s with
    | text t =>
      cases htext
      exact hv
    | _ => cases htext
  | _ => cases htext

theorem any_isMap_iff {key : Text} :
    (get? key es).any Value.isMap = true ↔ ∃ inner, get? key es = some (.map inner) := by
  constructor
  · intro h
    match hget : get? key es, h with
    | some (.map inner), _ => exact ⟨inner, rfl⟩
  · rintro ⟨inner, hget⟩
    rw [hget]
    rfl

end Entries

/-! ### Schemas that stay inline -/

open Entries in
/-- A schema stays inline when it is no map, a reference, an array with a map for its items, or not
listed by its values and of another type than object and array, or of several types. -/
inductive StaysInline : Document → Prop
  | value {d : Document} : d.isMap = false → StaysInline d
  | reference {es : Entries Empty} {address : Text} :
    get? "$ref" es = some (.text address) → StaysInline (.map es)
  | wrapper {es items : Entries Empty} :
    HasType "array" es → get? "items" es = some (.map items) → StaysInline (.map es)
  | plain {es : Entries Empty} {name : Text} : HasType name es → name ≠ Text.ofString "object" →
    name ≠ Text.ofString "array" → contains "enum" es = false → StaysInline (.map es)
  | mixed {es : Entries Empty} : HasTypes es → contains "enum" es = false → StaysInline (.map es)

namespace Value

theorem isHoisted_map (es : Entries Empty) : isHoisted (.map es) =
    (!Entries.isReference es && match SchemaKind.of es with
      | .array => !(Entries.get? "items" es).any isMap
      | .other => Entries.contains "enum" es
      | _ => true) := by
  rw [isHoisted, role]
  cases Entries.isReference es with
  | true => rfl
  | false =>
    cases SchemaKind.of es with
    | object => rfl
    | untyped => rfl
    | array => cases (Entries.get? "items" es).any isMap <;> rfl
    | other => cases Entries.contains "enum" es <;> rfl

theorem staysInline_iff {d : Document} : StaysInline d ↔ d.isHoisted = false := by
  constructor
  · intro h
    cases h with
    | value hmap =>
      cases hhoisted : d.isHoisted with
      | false => rfl
      | true => exact absurd (isMap_of_isHoisted hhoisted) (by rw [hmap]; decide)
    | reference haddress =>
      rw [isHoisted_map, Entries.isReference_iff.2 ⟨_, haddress⟩]
      rfl
    | wrapper harray hitems =>
      rw [isHoisted_map, harray.kind, hitems]
      exact Bool.and_false _
    | plain hname hobject harray henum =>
      rw [isHoisted_map, hname.kind, SchemaKind.ofName, if_neg hobject, if_neg harray, henum]
      exact Bool.and_false _
    | mixed hnames henum =>
      rw [isHoisted_map, hnames.kind, henum]
      exact Bool.and_false _
  · intro h
    cases hmap : d.isMap with
    | false => exact .value hmap
    | true =>
      obtain ⟨es, rfl⟩ : ∃ es, d = .map es := ⟨d.entries, (map_entries hmap).symm⟩
      rw [isHoisted_map, Bool.and_eq_false_iff, Bool.not_eq_false'] at h
      rcases h with hreference | hkind
      · obtain ⟨address, haddress⟩ := Entries.isReference_iff.1 hreference
        exact .reference haddress
      rcases Entries.hasType_or es with ⟨name, hname⟩ | hnames | huntyped
      · rw [hname.kind, SchemaKind.ofName] at hkind
        by_cases hobject : name = Text.ofString "object"
        · rw [if_pos hobject] at hkind
          cases hkind
        rw [if_neg hobject] at hkind
        by_cases harray : name = Text.ofString "array"
        · rw [if_pos harray] at hkind
          obtain ⟨items, hitems⟩ := Entries.any_isMap_iff.1 ((Bool.not_eq_false' _).mp hkind)
          exact .wrapper (harray ▸ hname) hitems
        · rw [if_neg harray] at hkind
          exact .plain hname hobject harray hkind
      · rw [hnames.kind] at hkind
        exact .mixed hnames hkind
      · rw [huntyped] at hkind
        cases hkind

/-! ### Settled schemas stay inline -/

theorem settled_entries (fs : Entries (Link Empty)) : (Value.map fs).settled =
    (Entries.isReference fs || match SchemaKind.of fs with
      | .array => (Entries.get? "items" fs).any isMapping && itemsSettled fs
      | .other => !Entries.contains "enum" fs
      | _ => false) := rfl

theorem settled_map (es : Entries Empty) : (ofDocument (.map es) : Linked Empty).settled =
    (Entries.isReference es || match SchemaKind.of es with
      | .array => (Entries.get? "items" es).any isMap &&
        itemsSettled (substEntries Empty.elim es : Entries (Link Empty))
      | .other => !Entries.contains "enum" es
      | _ => false) := by
  rw [ofDocument, subst, settled_entries, isReference_substEntries fun label => label.elim,
    kind_substEntries fun label => label.elim, Entries.get?_substEntries,
    Entries.contains_substEntries, any_isMapping_subst]

theorem isHoisted_of_settled {d : Document} (h : (ofDocument d : Linked Empty).settled = true) :
    d.isHoisted = false := by
  cases d with
  | map es =>
    rw [settled_map, Bool.or_eq_true] at h
    rw [isHoisted_map]
    rcases h with hreference | hkind
    · rw [hreference]
      rfl
    · split at hkind
      · next harray =>
        rw [Bool.and_eq_true] at hkind
        rw [hkind.1]
        exact Bool.and_false _
      · rw [Bool.not_eq_true'] at hkind
        rw [hkind]
        exact Bool.and_false _
      · cases hkind
  | scalar s => rfl
  | list items => rfl
  | ref label => exact label.elim

theorem settled_of_itemsSettled {es : Entries (Link Empty)} (h : itemsSettled es = true)
    {v : Linked Empty} (hget : Entries.get? "items" es = some v) : v.settled = true := by
  induction es with
  | nil => cases hget
  | cons entry rest ih =>
    obtain ⟨key, value⟩ := entry
    rw [itemsSettled, Bool.and_eq_true] at h
    rw [Entries.get?_cons] at hget
    split at hget
    · next hkey =>
      rw [if_pos hkey] at h
      exact Option.some.inj hget ▸ h.1
    · exact ih h.2 hget

end Value

/-- The second schema is that of the items of the first, which is an array. -/
inductive ItemsOf : Document → Document → Prop
  | intro {es items : Entries Empty} : Entries.isReference es = false →
    Entries.HasType "array" es → Entries.get? "items" es = some (.map items) →
    ItemsOf (.map es) (.map items)

theorem ItemsOf.settled {d x : Document} (h : ItemsOf d x)
    (hd : (Value.ofDocument d : Linked Empty).settled = true) :
    (Value.ofDocument x : Linked Empty).settled = true := by
  cases h with
  | intro hreference harray hitems =>
    have hkind := harray.kind.trans (show SchemaKind.ofName "array" = .array by decide +kernel)
    rw [Value.settled_map, hreference, hkind, Bool.false_or, Bool.and_eq_true] at hd
    refine Value.settled_of_itemsSettled hd.2 ?_
    rw [Entries.get?_substEntries, hitems]
    rfl

/-- Wherever the items of arrays lead from a schema, there is one that stays inline and does not
become a component. -/
def Exhausted (d : Document) : Prop :=
  ∀ x, Relation.ReflTransGen ItemsOf d x → StaysInline x ∧ x.isHoisted = false

theorem exhausted_of_settled {d : Document} (h : (Value.ofDocument d : Linked Empty).settled = true) :
    Exhausted d := by
  intro x hx
  have hsettled : (Value.ofDocument x : Linked Empty).settled = true := by
    induction hx with
    | refl => exact h
    | tail _ hstep ih => exact hstep.settled ih
  exact ⟨Value.staysInline_iff.2 (Value.isHoisted_of_settled hsettled),
    Value.isHoisted_of_settled hsettled⟩

/-! ### What stays in the place of a schema is settled -/

namespace Value

variable {ν : Document → Text}

theorem itemsSettled_of_forall₂ {es fs : Entries (Link Empty)}
    (h : List.Forall₂ (fun e f => e.1 = f.1 ∧ (e.1 = .text (Text.ofString "items") →
      f.2.settled = true)) es fs) : itemsSettled fs = true := by
  induction h with
  | nil => rfl
  | @cons e f es fs hentry _ ih =>
    obtain ⟨key, value⟩ := e
    obtain ⟨_, w⟩ := f
    obtain ⟨rfl, hitems⟩ := hentry
    rw [itemsSettled, ih, Bool.and_true]
    split
    · next hkey => exact hitems hkey
    · rfl

theorem settled_wrapper {d : Document} (hrole : d.role = .wrapper)
    (h : ∀ part ∈ d.inner, (part.2.linked ν).settled = true ∧
      (part.2.isMap = true → (part.2.linked ν).isMapping = true)) : (d.content ν).settled = true := by
  cases d with
  | map es =>
    rw [content, withInner, hrole]
    rw [inner, hrole] at h ⊢
    generalize hws : ((Traversal.inner .wrapper).parts (.map es)).map
      (fun part => part.2.linked ν) = ws
    have hparts : List.Forall₂ (fun part w => w.settled = true ∧
        (part.2.isMapping = true → w.isMapping = true))
        ((Traversal.inner .wrapper).parts (.map (substEntries Empty.elim es) : Linked Empty)) ws := by
      have hsubst := (Traversal.inner .wrapper).parts_ofDocument (ρ := Link Empty) (.map es)
      rw [ofDocument, subst] at hsubst
      rw [hsubst, ← hws, List.forall₂_map_left_iff, List.forall₂_map_right_iff]
      refine List.forall₂_same.2 fun part hpart => ?_
      rw [isMapping_ofDocument]
      exact h part hpart
    obtain ⟨fs, hfill, hfs⟩ := Traversal.forall₂_fill_atKey_here
      (Q := fun v w => w.settled = true ∧ (v.isMapping = true → w.isMapping = true)) hparts
    have hkept : ∀ key : Text, key ≠ Text.ofString "items" →
        Entries.get? key fs = Entries.get? key (substEntries Empty.elim es) := by
      intro key hne
      have hget := Traversal.get?_fill hne (.here (.text itemSegment) : Traversal Document)
        (substEntries Empty.elim es) ws
      rwa [hfill] at hget
    obtain ⟨-, hkind, hmap⟩ := role_eq_wrapper_iff.1 hrole
    have hsettled := itemsSettled_of_forall₂
      (hfs.imp fun e f hef => ⟨hef.1, fun hkey => (hef.2 hkey).1⟩)
    have hmapping := Entries.any_get?_of_forall₂
      (hfs.imp fun e f hef => ⟨hef.1, fun hkey => (hef.2 hkey).2⟩)
    have hkind' : SchemaKind.of fs = .array := by
      rw [SchemaKind.of, hkept _ (by decide +kernel), ← SchemaKind.of,
        kind_substEntries fun label => label.elim, hkind]
    have hmap' : (Entries.get? "items" fs).any isMapping = true := by
      refine hmapping ?_
      rw [Entries.get?_substEntries, any_isMapping_subst, hmap]
    rw [ofDocument, subst, Traversal.inner, hfill, settled, hkind', hmap', hsettled]
    exact Bool.or_true _
  | scalar s => cases hrole
  | list items => cases hrole
  | ref label => exact label.elim

theorem settled_of_role_eq_inline {d : Document} (h : d.role = .inline) :
    (ofDocument d : Linked Empty).settled = true := by
  cases d with
  | map es =>
    rw [settled_map]
    rw [role] at h
    split at h
    · next hreference => rw [hreference, Bool.true_or]
    split at h
    · cases h
    · split at h <;> cases h
    · next hkind =>
      split at h
      · cases h
      · next henum =>
        rw [Bool.not_eq_true] at henum
        rw [hkind, henum]
        exact Bool.or_true _
    · cases h
  | scalar s => rfl
  | list items => rfl
  | ref label => exact label.elim

/-- What stays in the place of a schema is settled, and a map does not turn into something else. -/
theorem settled_linked (ν : Document → Text) (d : Document) :
    (d.linked ν).settled = true ∧ (d.isMap = true → (d.linked ν).isMapping = true) := by
  induction d using schemaInduction with
  | step d ih =>
    rw [linked_eq]
    split
    · exact ⟨rfl, fun _ => rfl⟩
    next hhoisted =>
    constructor
    · cases hrole : d.role with
      | inline =>
        rw [content, withInner, hrole]
        exact settled_of_role_eq_inline hrole
      | wrapper => exact settled_wrapper hrole ih
      | single => exact absurd (by rw [isHoisted, hrole]; rfl) hhoisted
      | object => exact absurd (by rw [isHoisted, hrole]; rfl) hhoisted
    · intro hmap
      rw [← map_entries (v := d.content ν) (by rw [content, isMap_withInner, hmap])]
      rfl

theorem settled_written_linked (ν : Document → Text) (d : Document) :
    (ofDocument (d.linked ν).written : Linked Empty).settled = true := by
  rw [← renameAll_nil (d.linked ν), settled_written]
  exact (settled_linked ν d).1

/-! ### Properties of components -/

theorem mem_parts_of_mem_under {d : Document} {property : Scalar × Document}
    (h : property ∈ d.under propertiesKey) :
    (.scalar property.1, property.2) ∈ (Traversal.inner .object).parts d := by
  cases d with
  | map es =>
    rw [under, entries] at h
    cases hget : Entries.get? propertiesKey es with
    | none =>
      rw [hget] at h
      cases h
    | some v =>
      rw [hget, Option.getD_some] at h
      rw [Traversal.inner, Traversal.atKey, Traversal.parts_eachEntry]
      refine List.mem_flatMap.2 ⟨_, Entries.mem_of_get?_eq_some hget, ?_⟩
      rw [if_pos rfl]
      cases v with
      | map properties =>
        rw [Traversal.parts_eachEntry]
        exact List.mem_flatMap.2 ⟨property, h, List.mem_singleton.2 rfl⟩
      | scalar s => cases h
      | list items => cases h
      | ref label => exact label.elim
  | scalar s => cases h
  | list items => cases h
  | ref label => exact label.elim

theorem kind_marked {ρ : Type} (id? : Option Text) (v : Value ρ) :
    SchemaKind.of (v.marked id?).entries = SchemaKind.of v.entries := by
  cases id? with
  | none => rfl
  | some name =>
    cases v with
    | map es =>
      show SchemaKind.of (Entries.insert _ _ es) = SchemaKind.of es
      rw [SchemaKind.of, Entries.get?_insert_of_ne (ne_identifierKey _ (by simp [roleKeys])),
        ← SchemaKind.of]
    | scalar s => rfl
    | list items => rfl
    | ref label => rfl

theorem parts_inner_marked {ρ : Type} (id? : Option Text) (v : Value ρ) :
    (Traversal.inner .object).parts (v.marked id?) = (Traversal.inner .object).parts v := by
  cases id? with
  | none => rfl
  | some name =>
    cases v with
    | map es => exact Traversal.parts_inner_insert identifierKey_not_mem_innerKeys _ _ es
    | scalar s => rfl
    | list items => rfl
    | ref label => rfl

theorem role_of_kind_eq_object {d : Document} (hhoisted : d.isHoisted = true)
    (hkind : SchemaKind.of d.entries = .object) : d.role = .object := by
  cases d with
  | map es =>
    rw [isHoisted_map, Bool.and_eq_true, Bool.not_eq_true'] at hhoisted
    exact role_eq_object_iff.2 ⟨hhoisted.1, hkind⟩
  | scalar s => cases hhoisted
  | list items => cases hhoisted
  | ref label => exact label.elim

/-- The properties of an object that was stored are settled. -/
theorem settled_of_mem_under_content {d : Document} (hhoisted : d.isHoisted = true) {id? : Option Text}
    (hkind : SchemaKind.of ((d.content ν).marked id?).written.entries = .object)
    {property : Scalar × Document}
    (h : property ∈ ((d.content ν).marked id?).written.under propertiesKey) :
    (ofDocument property.2 : Linked Empty).settled = true := by
  rw [written, subst_marked _ _ (isMap_content hhoisted), ← written] at hkind h
  rw [kind_marked] at hkind
  have hpart := mem_parts_of_mem_under h
  rw [parts_inner_marked, written_content] at hpart
  rw [written_content] at hkind
  have hrole : d.role = .object := by
    cases hrole : d.role with
    | object => rfl
    | single =>
      rw [withInner, hrole] at hkind
      exact hrole.symm.trans (role_of_kind_eq_object hhoisted (by rwa [← ofDocument_self d]))
    | inline => rw [isHoisted, hrole] at hhoisted; cases hhoisted
    | wrapper => rw [isHoisted, hrole] at hhoisted; cases hhoisted
  rw [withInner, inner, hrole, (Traversal.inner .object).parts_fill _ _ (by
    rw [List.length_map, Traversal.length_parts_ofDocument])] at hpart
  obtain ⟨part, -, heq⟩ := List.mem_map.1 (List.of_mem_zip hpart).2
  rw [← heq]
  exact settled_written_linked ν part.2

end Value

/-! ### Results -/

/-- Nothing is left to extract in a result: not in the bodies, which are where they were, and not in
the properties of the objects that were added to the named schemas. -/
structure IsExhausted (mediaType : Text) (document result : Document) : Prop where
  places : (result.bodies mediaType).map Prod.fst = (document.bodies mediaType).map Prod.fst
  bodies : ∀ body ∈ result.bodies mediaType, Exhausted body.2
  components : ∃ added, result.namedSchemas = document.namedSchemas ++ added ∧
    ∀ component ∈ added, Entries.HasType "object" component.2.entries →
      ∀ property ∈ component.2.under propertiesKey, Exhausted property.2

variable {digest : Text → Text} {options : ExtractionOptions} {document : Document} {e : Extraction}

theorem extractWith_isExhausted (h : extractWith digest options document = .ok e) :
    IsExhausted options.mediaType document e.document := by
  obtain ⟨r, hr⟩ := isRecorded_of_extractWith h
  refine ⟨?_, fun body hbody => ?_, ?_⟩
  · rw [hr.result.bodies_linked, List.map_map]
    rfl
  · rw [hr.result.bodies_linked] at hbody
    obtain ⟨original, -, rfl⟩ := List.mem_map.1 hbody
    exact exhausted_of_settled (Value.settled_written_linked _ original.2)
  · rw [hr.result.document, Value.namedSchemas_assembled]
    refine ⟨_, rfl, fun component hcomponent hobject property hproperty => ?_⟩
    obtain ⟨entry, hentry, rfl⟩ := List.mem_map.1 hcomponent
    obtain ⟨d, hd, hname, hheld⟩ := hr.records.held entry (mem_reordered hentry)
    obtain ⟨o, ho, rfl⟩ := exists_of_mem_schemasOf hd
    have hhoisted := Value.isHoisted_of_mem_bodyOccurrences o ho
    obtain ⟨id?, hcontent⟩ := renamedComponent_storedEntries hr.result.plan
      ⟨digest, options.assignIds⟩ (r.nameOf digest) entry.1 hhoisted
    rw [← hheld] at hcontent
    dsimp only at hobject hproperty
    rw [hcontent] at hobject hproperty
    exact exhausted_of_settled
      (Value.settled_of_mem_under_content hhoisted hobject.kind hproperty)

/-- Extraction is exhaustive, with short names or without: whatever it leaves inline, in the bodies
or in the components that it adds, is to stay inline. -/
theorem extractComponents_isExhausted (h : extractComponents options document = .ok e) :
    IsExhausted options.mediaType document e.document := extractWith_isExhausted h

/-- Two components are renamed, one of which has a property that is an array of others. -/
theorem extractComponents_isExhausted_orders : ∃ e,
    extractComponents .usual ordersDocument = .ok e ∧ e.renamed.length = 2 ∧
      IsExhausted jsonMediaType ordersDocument e.document := by
  obtain ⟨e, h, -, hrenamed⟩ := exists_extraction_ordersDocument
  exact ⟨e, h, hrenamed, @extractComponents_isExhausted .usual ordersDocument e h⟩

end NamedSchemas
