import NamedSchemas.Proofs.Extraction.Nullable
/-!
# Owners of properties

A schema that occurs only as one property of an object is met just before each occurrence of the
object. So the contexts in which it occurs are those in which the object occurs, each one segment
longer.
-/

namespace NamedSchemas

/-! ### Keys of properties -/

namespace Value

theorem nodup_keys {es : Entries Empty} (h : entriesAreJson es = true) :
    (es.map Prod.fst).Nodup := by
  induction es with
  | nil => exact List.nodup_nil
  | cons entry rest ih =>
    simp only [entriesAreJson, Bool.and_eq_true, Bool.not_eq_true', List.any_eq_false,
      decide_eq_true_eq] at h
    rw [List.map_cons, List.nodup_cons]
    refine ⟨fun hmem => ?_, ih h.2⟩
    obtain ⟨other, hother, heq⟩ := List.mem_map.1 hmem
    exact h.1.1.2 other hother heq

theorem nodup_members {d : Document} (h : d.isJson = true) :
    (((Traversal.eachEntry fun key => Traversal.here (.scalar key : Document)).parts d).map
      Prod.fst).Nodup := by
  cases d with
  | map properties =>
    rw [Traversal.parts_eachEntry, List.map_flatMap]
    show (properties.flatMap fun entry => [(.scalar entry.1 : Document)]).Nodup
    rw [← List.map_eq_flatMap]
    have hkeys : ((properties.map Prod.fst).map fun key => (.scalar key : Document)).Nodup :=
      (nodup_keys h).map fun _ _ heq => Value.scalar.inj heq
    rwa [List.map_map] at hkeys
  | scalar s => exact List.nodup_nil
  | list items => exact List.nodup_nil
  | ref label => exact label.elim

theorem nodup_properties {d : Document} (hd : d.isJson = true) (hrole : d.role = .object) :
    (d.inner.map Prod.fst).Nodup := by
  rw [inner, hrole]
  cases d with
  | map entries =>
    rw [Traversal.inner, Traversal.atKey, Traversal.parts_eachEntry]
    clear hrole
    induction entries with
    | nil => exact List.nodup_nil
    | cons entry rest ih =>
      obtain ⟨key, value⟩ := entry
      simp only [isJson, entriesAreJson, Bool.and_eq_true, Bool.not_eq_true', List.any_eq_false,
        decide_eq_true_eq] at hd
      obtain ⟨⟨⟨-, hfresh⟩, hvalue⟩, hrest⟩ := hd
      rw [List.flatMap_cons]
      by_cases hkey : key = .text propertiesKey
      · -- no later entry is that of the properties
        have hlater : (rest.flatMap fun entry => (if entry.1 = .text propertiesKey then
            Traversal.eachEntry fun key => Traversal.here (.scalar key : Document)
            else Traversal.skip).parts entry.2) = [] := by
          refine List.flatMap_eq_nil_iff.2 fun entry hentry => ?_
          rw [if_neg fun heq => hfresh entry hentry (heq.trans hkey.symm)]
          rfl
        rw [hlater, List.append_nil, if_pos hkey]
        exact nodup_members hvalue
      · rw [if_neg hkey]
        exact ih hrest
  | scalar s => exact List.nodup_nil
  | list items => exact List.nodup_nil
  | ref label => exact label.elim

end Value

/-! ### Contexts inside a schema -/

theorem contextsOf_flatMap {α : Type} (xs : List α) (f : α → List Occurrence) (d : Document) :
    contextsOf (xs.flatMap f) d = xs.flatMap fun x => contextsOf (f x) d := by
  rw [contextsOf, List.filter_flatMap, List.map_flatMap]
  rfl

namespace Value

theorem contextsOf_occurrences_of_lt {d e : Document} (h : sizeOf d < sizeOf e) (c : Context) :
    contextsOf (d.occurrences c) e = [] := by
  refine contextsOf_eq_nil fun hmem => ?_
  rw [mem_schemasOf, map_schema_occurrences] at hmem
  have hle := sizeOf_hoisted d e hmem
  omega

theorem contextsOf_inside (d : Document) (c : Context) :
    (d.inner.flatMap fun part => contextsOf (part.2.occurrences (c.child part.1)) d) = [] :=
  List.flatMap_eq_nil_iff.2 fun _ hpart => contextsOf_occurrences_of_lt (sizeOf_inner hpart) _

theorem contextsOf_occurrences (d e : Document) (c : Context) : contextsOf (d.occurrences c) e =
    (d.inner.flatMap fun part => contextsOf (part.2.occurrences (c.child part.1)) e) ++
      if d.isHoisted = true ∧ d = e then [c] else [] := by
  rw [occurrences_eq, contextsOf_append, contextsOf_flatMap]
  congr 1
  cases d.isHoisted <;> by_cases h : d = e <;> simp [contextsOf, h]

theorem contextsOf_occurrences_self {d : Document} (h : d.isHoisted = true) (c : Context) :
    contextsOf (d.occurrences c) d = [c] := by
  rw [contextsOf_occurrences, contextsOf_inside, if_pos ⟨h, rfl⟩, List.nil_append]

theorem self_mem_reachable (d : Document) : d ∈ d.reachable := by
  rw [reachable_eq]
  exact List.mem_cons_self ..

theorem mem_reachable_of_mem_inner {d e : Document} {part : Document × Document}
    (hpart : part ∈ d.inner) (he : e ∈ part.2.reachable) : e ∈ d.reachable := by
  rw [reachable_eq]
  exact List.mem_cons_of_mem _ (List.mem_flatMap.2 ⟨part, hpart, he⟩)

theorem isJson_of_mem_reachable {d e : Document} (hd : d.isJson = true) (he : e ∈ d.reachable) :
    e.isJson = true := by
  induction d using schemaInduction with
  | step d ih =>
    rw [reachable_eq] at he
    rcases List.mem_cons.1 he with rfl | he
    · exact hd
    · obtain ⟨part, hpart, he⟩ := List.mem_flatMap.1 he
      exact ih part hpart (isJson_inner hd hpart).2 he

/-- A schema that becomes a component is the whole, or stands inside a schema that is reached. -/
theorem exists_inner_of_mem_hoisted {d e : Document} (he : e ∈ d.hoisted) (hne : d ≠ e) :
    ∃ i ∈ d.reachable, ∃ part ∈ i.inner, part.2 = e := by
  induction d using schemaInduction with
  | step d ih =>
    rw [hoisted_eq] at he
    rcases List.mem_append.1 he with hinside | hself
    · obtain ⟨part, hpart, he⟩ := List.mem_flatMap.1 hinside
      by_cases hwhole : part.2 = e
      · exact ⟨d, self_mem_reachable d, part, hpart, hwhole⟩
      · obtain ⟨i, hi, hfound⟩ := ih part hpart he hwhole
        exact ⟨i, mem_reachable_of_mem_inner hpart hi, hfound⟩
    · split at hself
      · exact absurd (List.mem_singleton.1 hself).symm hne
      · cases hself

/-! ### Properties of one object -/

section Owner

variable {owner owned : Document} {key : Text}

/-- Wherever the schema stands inside one that is reached, that one is the object, and the schema is
its property under the key. -/
def OwnedInside (owner : Document) (key : Text) (owned d : Document) : Prop :=
  ∀ i ∈ d.reachable, ∀ part ∈ i.inner, part.2 = owned → i = owner ∧ part.1 = .text key

theorem exists_inner_eq (hjson : owner.isJson = true) (hrole : owner.role = .object)
    (honly : OwnedInside owner key owned owner) (hmem : (.text key, owned) ∈ owner.inner) :
    ∃ before behind, owner.inner = before ++ (.text key, owned) :: behind ∧
      (∀ part ∈ before, part.2 ≠ owned) ∧ ∀ part ∈ behind, part.2 ≠ owned := by
  obtain ⟨before, behind, heq⟩ := List.append_of_mem hmem
  have hsame : ∀ part ∈ owner.inner, part.2 = owned → part.1 = .text key :=
    fun part hpart h => (honly owner (self_mem_reachable owner) part hpart h).2
  have hkeys := nodup_properties hjson hrole
  rw [heq, List.map_append, List.map_cons, List.nodup_append, List.nodup_cons] at hkeys
  obtain ⟨-, ⟨hlater, -⟩, hdisjoint⟩ := hkeys
  rw [heq] at hsame
  refine ⟨before, behind, heq, fun part hpart h => ?_, fun part hpart h => ?_⟩
  · have hkey := hsame part (List.mem_append_left _ hpart) h
    exact hdisjoint _ (List.mem_map_of_mem hpart) _ (List.mem_cons_self ..) hkey
  · have hkey := hsame part (List.mem_append_right _ (List.mem_cons_of_mem _ hpart)) h
    exact hlater (List.mem_map.2 ⟨part, hpart, hkey⟩)

/-- The property occurs where the object does, one segment further. -/
theorem contextsOf_owned (hjson : owner.isJson = true) (hrole : owner.role = .object)
    (hhoisted : owned.isHoisted = true) (hmem : (.text key, owned) ∈ owner.inner) (d : Document)
    (hd : d ≠ owned) (honly : OwnedInside owner key owned d) (c : Context) :
    contextsOf (d.occurrences c) owned =
      (contextsOf (d.occurrences c) owner).map fun c => c.child (.text key) := by
  induction d using schemaInduction generalizing c with
  | step d ih =>
    have hother : ∀ part ∈ d.inner, part.2 ≠ owned →
        contextsOf (part.2.occurrences (c.child part.1)) owned =
          (contextsOf (part.2.occurrences (c.child part.1)) owner).map
            fun c => c.child (.text key) := fun part hpart hne =>
      ih part hpart hne (fun i hi => honly i (mem_reachable_of_mem_inner hpart hi)) _
    rw [contextsOf_occurrences, contextsOf_occurrences, if_neg fun h => hd h.2, List.append_nil]
    by_cases howner : d = owner
    · -- the object holds the property once, and neither of them is inside its other properties
      subst howner
      obtain ⟨before, behind, heq, hbefore, hbehind⟩ := exists_inner_eq hjson hrole honly hmem
      have hnone : ∀ part ∈ d.inner, part.2 ≠ owned →
          contextsOf (part.2.occurrences (c.child part.1)) owned = [] := by
        intro part hpart hne
        rw [hother part hpart hne, contextsOf_occurrences_of_lt (sizeOf_inner hpart)]
        rfl
      have hobject : d.isHoisted = true := by rw [isHoisted, hrole]; rfl
      rw [contextsOf_inside, if_pos ⟨hobject, rfl⟩, heq, List.flatMap_append, List.flatMap_cons,
        contextsOf_occurrences_self hhoisted,
        List.flatMap_eq_nil_iff.2 fun part hpart => hnone part (heq ▸ List.mem_append_left _ hpart)
          (hbefore part hpart),
        List.flatMap_eq_nil_iff.2 fun part hpart => hnone part
          (heq ▸ List.mem_append_right _ (List.mem_cons_of_mem _ hpart)) (hbehind part hpart)]
      rfl
    · rw [if_neg fun h => howner h.2, List.append_nil, List.map_flatMap]
      refine List.flatMap_congr fun part hpart => hother part hpart fun heq => ?_
      exact howner (honly d (self_mem_reachable d) part hpart heq).1

end Owner

end Value

/-! ### Bodies -/

section Bodies

variable {mediaType : Text} {document owner owned : Document} {key : Text}

/-- Wherever the schema stands in the bodies of the document, it is this property of the object. -/
structure IsPropertyOf (mediaType : Text) (document owner : Document) (key : Text)
    (owned : Document) : Prop where
  object : owner.role = .object
  bodies : ∀ body ∈ document.bodies mediaType, body.2 ≠ owned
  inside : ∀ body ∈ document.bodies mediaType, Value.OwnedInside owner key owned body.2

theorem IsPropertyOf.exists_body (h : IsPropertyOf mediaType document owner key owned)
    (howned : owned ∈ schemasOf (document.bodyOccurrences mediaType)) :
    ∃ body ∈ document.bodies mediaType,
      owner ∈ body.2.reachable ∧ (.text key, owned) ∈ owner.inner := by
  obtain ⟨o, ho, rfl⟩ := exists_of_mem_schemasOf howned
  obtain ⟨body, hbody, ho⟩ := List.mem_flatMap.1 ho
  split at ho
  · next c _ =>
    have hmem : o.schema ∈ body.2.hoisted := by
      rw [← Value.map_schema_occurrences body.2 c]
      exact List.mem_map_of_mem ho
    obtain ⟨i, hi, part, hpart, heq⟩ := Value.exists_inner_of_mem_hoisted hmem (h.bodies body hbody)
    obtain ⟨rfl, hkey⟩ := h.inside body hbody i hi part hpart heq
    exact ⟨body, hbody, hi, hkey ▸ heq ▸ hpart⟩
  · cases ho

theorem IsPropertyOf.contextsOf_eq (h : IsPropertyOf mediaType document owner key owned)
    (hjson : document.isJson = true)
    (howned : owned ∈ schemasOf (document.bodyOccurrences mediaType)) :
    contextsOf (document.bodyOccurrences mediaType) owned =
      (contextsOf (document.bodyOccurrences mediaType) owner).map fun c =>
        c.child (.text key) := by
  obtain ⟨body, hbody, howner, hmem⟩ := h.exists_body howned
  have hownerJson := Value.isJson_of_mem_reachable (Value.isJson_bodies hjson hbody).2.2 howner
  obtain ⟨o, ho, heq⟩ := exists_of_mem_schemasOf howned
  have hhoisted : owned.isHoisted = true := heq ▸ Value.isHoisted_of_mem_bodyOccurrences o ho
  rw [Value.bodyOccurrences, contextsOf_flatMap, contextsOf_flatMap, List.map_flatMap]
  refine List.flatMap_congr fun body hbody => ?_
  split
  · exact Value.contextsOf_owned hownerJson h.object hhoisted hmem body.2 (h.bodies body hbody)
      (h.inside body hbody) _
  · rfl

theorem IsPropertyOf.owner_mem (h : IsPropertyOf mediaType document owner key owned)
    (hjson : document.isJson = true)
    (howned : owned ∈ schemasOf (document.bodyOccurrences mediaType)) :
    owner ∈ schemasOf (document.bodyOccurrences mediaType) := by
  by_contra hnone
  refine contextsOf_ne_nil howned ?_
  rw [h.contextsOf_eq hjson howned, contextsOf_eq_nil hnone]
  rfl

end Bodies

end NamedSchemas
