import NamedSchemas.Proofs.Document.Places
import NamedSchemas.Proofs.Extraction.Merging
/-!
# Local references

The addresses in the result of an extraction are those that the document had and those of the added
components. The latter lead to the components. The former lead to what stands where they led, which
is a reference when a schema was moved from there, so only those that led inside a moved schema may
lead nowhere.
-/

namespace NamedSchemas

variable {digest : Text → Text} {options : ExtractionOptions} {document : Document}

namespace Value

/-! ### Places in schemas -/

/-- Do the tokens lead inside a schema that is moved, and not only to it? -/
def entersMoved : List Text → Document → Bool
  | [], _ => false
  | token :: rest, d => d.isHoisted ||
    (d.role = .wrapper && token = "items" && (Entries.get? token d.entries).any (entersMoved rest))

theorem entersAt_items {d : Document} (hrole : d.role = .wrapper) {tokens : List Text}
    (h : entersMoved tokens d = false) : entersAt "items" entersMoved tokens d = false := by
  cases tokens with
  | nil => rfl
  | cons token rest =>
    cases d with
    | scalar s => rfl
    | list items => rfl
    | ref label => exact label.elim
    | map entries =>
      rw [entersMoved, hrole, Bool.or_eq_false_iff] at h
      show (Entries.get? token entries).any (fun v => token = "items" && entersMoved rest v) = false
      cases hget : Entries.get? token entries with
      | none => rfl
      | some v =>
        have hinside := h.2
        rw [Value.entries, hget] at hinside
        exact hinside

section Linked

variable {ν : Document → Text}

/-- What stays in the place of a schema has the places that are not inside a moved schema. -/
theorem stillLeads_linked (d : Document) :
    StillLeads entersMoved d (d.linked ν).written := by
  induction d using schemaInduction with
  | step d ih =>
    rw [linked_eq]
    split
    · next hhoisted =>
      rintro (_ | ⟨token, rest⟩) - hexcept
      · rfl
      · rw [entersMoved, hhoisted, Bool.true_or] at hexcept
        cases hexcept
    · next hinline =>
      have hparts : List.Forall₂ (fun part w => StillLeads entersMoved part.2 w)
          ((Traversal.inner d.role).parts d)
          (d.inner.map fun part => (part.2.linked ν).written) :=
        List.forall₂_map_right_iff.2 (List.forall₂_same.2 ih)
      rw [written_content, withInner, ofDocument_self]
      rw [isHoisted] at hinline
      cases hrole : d.role with
      | inline => exact .refl _ _
      | wrapper =>
        rw [hrole] at hparts
        exact (Traversal.leads_atKey (Traversal.leads_here _) d _ hparts).mono fun tokens =>
          entersAt_items hrole
      | single => exact absurd (by rw [hrole]; rfl) hinline
      | object => exact absurd (by rw [hrole]; rfl) hinline

/-! ### Addresses in schemas -/

variable {more : Text → Prop}

theorem addresses_content_of {d : Document} (h : ∀ part ∈ d.inner,
      (part.2.linked ν).written.text? = part.2.text? ∧
        ∀ a ∈ (part.2.linked ν).written.addresses, a ∈ part.2.addresses ∨ more a) :
    (d.content ν).written.text? = d.text? ∧
      ∀ a ∈ (d.content ν).written.addresses, a ∈ d.addresses ∨ more a := by
  have hrelated := related_withInner_map (congruence_addressed some more) (d := d)
    (g := fun part => (part.2.linked ν).written) fun part hpart => by
      rw [ofDocument_self]
      exact h part hpart
  rwa [← written_content, ofDocument_self] at hrelated

theorem addresses_linked (d : Document) (h : ∀ i ∈ d.hoisted, more (componentAddress (ν i))) :
    (d.linked ν).written.text? = d.text? ∧
      ∀ a ∈ (d.linked ν).written.addresses, a ∈ d.addresses ∨ more a := by
  induction d using schemaInduction with
  | step d ih =>
    rw [hoisted_eq] at h
    rw [linked_eq]
    split
    · next hhoisted =>
      refine ⟨?_, fun a ha => Or.inr ?_⟩
      · rw [text?_of_isMap (isMap_of_isHoisted hhoisted)]
        rfl
      · have haddress : a ∈ [componentAddress (ν d)] := ha
        rw [List.mem_singleton.1 haddress]
        exact h d (by rw [if_pos hhoisted]; exact List.mem_append_right _ (List.mem_cons_self ..))
    · exact addresses_content_of fun part hpart => ih part hpart fun i hi =>
        h i (List.mem_append_left _ (List.mem_flatMap.2 ⟨part, hpart, hi⟩))

theorem addresses_content {d : Document} (h : ∀ i ∈ d.hoistedInside, more (componentAddress (ν i))) :
    ∀ a ∈ (d.content ν).written.addresses, a ∈ d.addresses ∨ more a :=
  (addresses_content_of fun part hpart => addresses_linked part.2 fun i hi =>
    h i (List.mem_flatMap.2 ⟨part, hpart, hi⟩)).2

end Linked

/-! ### Addresses of components -/

theorem addresses_of_mem_namedSchemas {d : Document} {entry : Scalar × Document}
    (hentry : entry ∈ d.namedSchemas) {a : Text}
    (ha : (entry.1 = addressKey ∧ entry.2.text?.bind some = some a) ∨ a ∈ entry.2.addressed some) :
    a ∈ d.addresses := by
  have hcomponents : a ∈ (map d.components).addressed some :=
    mem_addressed_under (mem_addressedEntries.2 ⟨entry, hentry, ha⟩)
  rw [addressed] at hcomponents
  exact mem_addressed_under hcomponents

theorem exists_of_mem_under {key : Text} {d : Document} {entry : Scalar × Document}
    (h : entry ∈ d.under key) :
    ∃ es, d = .map es ∧ Entries.get? key es = some (.map (d.under key)) := by
  rw [under] at h ⊢
  cases d with
  | map es =>
    refine ⟨es, rfl, ?_⟩
    rw [entries] at h ⊢
    cases hget : Entries.get? key es with
    | none =>
      rw [hget] at h
      cases h
    | some v =>
      rw [hget] at h
      cases v with
      | map inner => rfl
      | scalar s => cases h
      | list items => cases h
      | ref label => exact label.elim
  | scalar s => cases h
  | list items => cases h
  | ref label => exact label.elim

theorem resolves_componentAddress (reading : FragmentReading) {d : Document} {name : Text}
    (hname : name ∈ d.schemaNames) (hpoints : ∀ p ∈ name, p.isNamePoint = true) :
    d.resolves reading (componentAddress name) = true := by
  obtain ⟨entry, hentry, hkey⟩ := mem_schemaNames.1 hname
  obtain ⟨inner, heq, hschemas⟩ := exists_of_mem_under hentry
  rw [← map.inj heq] at hschemas
  obtain ⟨es, rfl, hcomponents⟩ := exists_of_mem_under (Entries.mem_of_get?_eq_some hschemas)
  rw [resolves, reading.tokens?_componentAddress hpoints]
  show (((Entries.get? "components" es).bind (at? ["schemas", name]))).isSome = true
  rw [hcomponents]
  show ((Entries.get? "schemas" (Value.map es).components).bind (at? [name])).isSome = true
  rw [hschemas]
  show ((Entries.get? name (Value.namedSchemas (.map es))).bind (at? [])).isSome = true
  cases hget : Entries.get? name (Value.namedSchemas (.map es)) with
  | none => exact absurd hkey (Entries.get?_eq_none_iff.1 hget entry hentry)
  | some v => rfl

end Value

/-! ### Addresses in results -/

/-- A component of the result is at the address, and its name needs no encoding. -/
def Extraction.HasAddress (e : Extraction) (address : Text) : Prop :=
  ∃ name ∈ e.document.schemaNames, (∀ p ∈ name, p.isNamePoint = true) ∧
    address = componentAddress name

namespace IsRecorded

variable {r : Registry Empty} {e : Extraction}

theorem hasAddress (h : IsRecorded digest options document r e) {d : Document}
    (hd : d ∈ schemasOf (document.bodyOccurrences options.mediaType)) :
    e.HasAddress (componentAddress (renamedAtOnce e.renamed (r.nameOf digest d))) := by
  have hkey := h.records.mem_keys hd
  obtain ⟨c, -, hname⟩ := h.names hkey
  exact ⟨_, h.result.mem_schemaNames.2 (Or.inr ⟨_, hkey, rfl⟩), Context.isNamePoint_of_mem_name hname,
    rfl⟩

theorem addresses_body (h : IsRecorded digest options document r e) {body : BodyPlace × Document}
    (hbody : body ∈ document.bodies options.mediaType) :
    ((body.2.linked (r.nameOf digest)).renameAll e.renamed).written.text? = body.2.text? ∧
      ∀ a ∈ ((body.2.linked (r.nameOf digest)).renameAll e.renamed).written.addresses,
        a ∈ body.2.addresses ∨ e.HasAddress a := by
  rw [h.result.plan.renameAll_linked]
  refine Value.addresses_linked body.2 fun i hi => h.hasAddress ?_
  rw [mem_schemasOf, h.occurrences]
  exact List.mem_flatMap.2 ⟨body, hbody, hi⟩

theorem addresses_component (h : IsRecorded digest options document r e)
    {entry : Text × Linked Empty} (hentry : entry ∈ r.schemas.entries) :
    (renamedComponent e.renamed entry).2.written.text? = none ∧
      ∀ a ∈ (renamedComponent e.renamed entry).2.written.addresses,
        a ∈ document.addresses ∨ e.HasAddress a := by
  obtain ⟨o, ho, -, id?, hvalue⟩ := h.component hentry
  have hhoisted := Value.isHoisted_of_mem_bodyOccurrences o ho
  have hmap := Value.isMap_content (ν := fun i => renamedAtOnce e.renamed (r.nameOf digest i)) hhoisted
  rw [hvalue, Value.written, Value.subst_marked _ _ hmap]
  constructor
  · rw [Value.text?_of_isMap]
    rw [Value.isMap_marked, Value.isMap_subst _ hmap]
  · intro a ha
    have hinside := (insideFirst_bodyOccurrences options.mediaType document).inside_met
      (List.prefix_refl _) (mem_schemasOf_of_mem ho)
    exact (Value.addresses_content (fun i hi => h.hasAddress (hinside i hi)) a
      (Value.mem_addressed_marked ha)).imp_left
        (Value.addressed_of_mem_schemasOf (mem_schemasOf_of_mem ho) a)

end IsRecorded

/-- The addresses in a result are those of the document and those of its components. -/
theorem addresses_of_extractWith {e : Extraction} (h : extractWith digest options document = .ok e) :
    ∀ a ∈ e.document.addresses, a ∈ document.addresses ∨ e.HasAddress a := by
  obtain ⟨r, h⟩ := isRecorded_of_extractWith h
  intro a ha
  rw [h.result.document, List.map_map] at ha
  rcases Value.mem_addressed_assembled (List.forall₂_map_right_iff.2 (List.forall₂_same.2
    fun body hbody => h.addresses_body hbody)) ha with hown | hbody | hschema
  · exact Or.inl hown
  · exact Or.inr hbody
  obtain ⟨entry, hentry, ha⟩ := Value.mem_addressedEntries.1 hschema
  rcases List.mem_append.1 hentry with hnamed | hadded
  · exact Or.inl (Value.addresses_of_mem_namedSchemas hnamed ha)
  · obtain ⟨component, hcomponent, rfl⟩ := List.mem_map.1 hadded
    obtain ⟨htext, haddresses⟩ := h.addresses_component (mem_reordered hcomponent)
    refine haddresses a (ha.resolve_left fun hown => ?_)
    rw [htext] at hown
    cases hown.2

/-- A result has the places of the document that are not inside a moved schema. -/
theorem stillLeads_of_extractWith {e : Extraction} (h : extractWith digest options document = .ok e) :
    Value.StillLeads (Value.entersBody options.mediaType Value.entersMoved) document e.document := by
  obtain ⟨es, rfl, hcomponents, hschemas⟩ := wellShaped_of_extractWith h
  obtain ⟨r, -, -, hresult, -⟩ := isRecorded_of_extractWith h
  rw [hresult.document]
  refine Value.stillLeads_assembled hcomponents hschemas ?_ _
  rw [List.map_map, List.forall₂_map_right_iff, List.forall₂_same]
  intro body _
  rw [Function.comp_apply, hresult.plan.renameAll_linked]
  exact Value.stillLeads_linked body.2

/-- When every local address of a document leads to a value in it, every local address of the result
leads to a value in the result, unless it led inside a schema that was moved. -/
theorem extractComponents_keepsLocalReferences (reading : FragmentReading) {e : Extraction}
    (hlocal : ∀ address ∈ document.addresses, isLocalAddress address = true →
      document.resolves reading address = true)
    (h : extractComponents options document = .ok e) :
    ∀ address ∈ e.document.addresses, isLocalAddress address = true →
      (∀ tokens, reading.tokens? address = some tokens →
        Value.entersBody options.mediaType Value.entersMoved tokens document = false) →
      e.document.resolves reading address = true := by
  intro address haddress hstarts houtside
  rcases addresses_of_extractWith h address haddress with hown | ⟨name, hname, hpoints, rfl⟩
  · -- its tokens led to a value before, and do not lead inside a moved schema
    have hresolves := hlocal address hown hstarts
    rw [Value.resolves] at hresolves ⊢
    cases htokens : reading.tokens? address with
    | none =>
      rw [htokens] at hresolves
      cases hresolves
    | some tokens =>
      rw [htokens] at hresolves
      exact stillLeads_of_extractWith h tokens hresolves (houtside tokens htokens)
  · exact Value.resolves_componentAddress reading hname hpoints

/-- A document with one operation at each of two paths: the body of the first has an object, the
body of the second a reference. -/
def referringDocument (address : Text) : Document :=
  .object [("paths", .object [
    ("/x", .object [("get", .object [
      ("operationId", .text "getA"),
      ("responses", .object [
        ("200", bodyWith (keyedSchema "a" (.object [("type", .text "string")])))])])]),
    ("/y", .object [("get", .object [
      ("operationId", .text "getB"),
      ("responses", .object [("200", bodyWith (.object [("$ref", .text address)]))])])])])]

def bodyAddress : Text := "#/paths/~1x/get/responses/200/content/application~1json/schema"

/-- The object is moved, and its address leads to a reference then. -/
theorem extractComponents_keepsLocalReferences_referring : ∃ e,
    (referringDocument bodyAddress).isJson = true ∧
      extractComponents .usual (referringDocument bodyAddress) = .ok e ∧ e.created = ["GetA.X"] ∧
      bodyAddress ∈ e.document.addresses ∧
      ∀ reading ∈ [FragmentReading.asIs, .percent], e.document.resolves reading bodyAddress = true := by
  have hlocal : ∀ reading ∈ [FragmentReading.asIs, .percent],
      ∀ address ∈ (referringDocument bodyAddress).addresses, isLocalAddress address = true →
        (referringDocument bodyAddress).resolves reading address = true := by decide +kernel
  have houtside : ∀ reading ∈ [FragmentReading.asIs, .percent],
      ∀ tokens ∈ reading.tokens? bodyAddress, Value.entersBody jsonMediaType Value.entersMoved tokens
        (referringDocument bodyAddress) = false := by decide +kernel
  have hresult : (extractComponents .usual (referringDocument bodyAddress)).toOption.map
      (fun e => (e.created, decide (bodyAddress ∈ e.document.addresses))) =
        some ([Text.ofString "GetA.X"], true) := by decide +kernel
  cases h : extractComponents .usual (referringDocument bodyAddress) with
  | error fault =>
    rw [h] at hresult
    cases hresult
  | ok e =>
    rw [h] at hresult
    obtain ⟨hcreated, haddress⟩ := Prod.mk.inj (Option.some.inj hresult)
    refine ⟨e, by decide +kernel, rfl, hcreated, of_decide_eq_true haddress, fun reading hreading => ?_⟩
    exact extractComponents_keepsLocalReferences reading (hlocal reading hreading) h bodyAddress
      (of_decide_eq_true haddress) (by decide +kernel) (houtside reading hreading)

/-- The address of the property of the object leads nowhere when the object has been moved. -/
theorem not_keepsLocalReferences_inside :
    let document := referringDocument (bodyAddress ++ Text.ofString "/properties/a")
    document.isJson = true ∧ ∃ e, extractComponents .usual document = .ok e ∧
      ∀ reading ∈ [FragmentReading.asIs, .percent],
        (∀ address ∈ document.addresses, isLocalAddress address = true →
          document.resolves reading address = true) ∧
        ∃ address ∈ e.document.addresses, isLocalAddress address = true ∧
          e.document.resolves reading address = false := by
  intro document
  have hlocal : ∀ reading ∈ [FragmentReading.asIs, .percent], ∀ address ∈ document.addresses,
      isLocalAddress address = true → document.resolves reading address = true := by decide +kernel
  have hlost : (extractComponents .usual document).toOption.map (fun e => decide
      (∀ reading ∈ [FragmentReading.asIs, .percent], ∃ address ∈ e.document.addresses,
        isLocalAddress address = true ∧ e.document.resolves reading address = false)) =
      some true := by decide +kernel
  refine ⟨by decide +kernel, ?_⟩
  cases h : extractComponents .usual document with
  | error fault =>
    rw [h] at hlost
    cases hlost
  | ok e =>
    rw [h] at hlost
    have hlost := of_decide_eq_true (Option.some.inj hlost)
    exact ⟨e, rfl, fun reading hreading => ⟨hlocal reading hreading, hlost reading hreading⟩⟩

end NamedSchemas
