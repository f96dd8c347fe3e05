import Mathlib.Logic.Relation
import NamedSchemas.Proofs.Extraction.Grouping
import NamedSchemas.Proofs.Extraction.Written
import NamedSchemas.Proofs.Registry.Consistency
/-!
# Recognised schemas

A schema that was extracted is recognised from then on. An extraction may add to a registry, also
one that stops at a fault, but it takes nothing away. So the text of every schema that was moved is
found under the same name later, and with it the text of the schema around it, in which that name
stands.
-/

namespace NamedSchemas

variable {σ : Type} {digest : Text → Text} {ν : Document → Text} {r t u : Registry σ}

/-! ### Registries that grow -/

/-- A digest that has a name keeps it, with its text, and a name keeps its schema, its usages and
its references. -/
structure Registry.Extends (r t : Registry σ) : Prop where
  names : ∀ digest name, r.names.get? digest = some name → t.names.get? digest = some name
  canonicals : ∀ digest ∈ r.names.keys, t.canonicals.get? digest = r.canonicals.get? digest
  schemas : ∀ name ∈ r.schemas.keys, name ∈ t.schemas.keys
  usages : ∀ name ∈ r.usages.keys, name ∈ t.usages.keys
  references : ∀ name ∈ r.references.keys, name ∈ t.references.keys

namespace Registry.Extends

theorem refl (r : Registry σ) : r.Extends r :=
  ⟨fun _ _ h => h, fun _ _ => rfl, fun _ h => h, fun _ h => h, fun _ h => h⟩

theorem mem_names (h : r.Extends t) {digest : Text} (hdigest : digest ∈ r.names.keys) :
    digest ∈ t.names.keys := by
  obtain ⟨name, hname⟩ := Table.exists_get?_of_mem hdigest
  exact Table.mem_keys_of_mem (Table.get?_eq_some_iff.1 (h.names digest name hname))

theorem trans (h : r.Extends t) (h' : t.Extends u) : r.Extends u where
  names digest name hname := h'.names digest name (h.names digest name hname)
  canonicals digest hdigest := by
    rw [h'.canonicals digest (h.mem_names hdigest), h.canonicals digest hdigest]
  schemas name hname := h'.schemas name (h.schemas name hname)
  usages name hname := h'.usages name (h.usages name hname)
  references name hname := h'.references name (h.references name hname)

theorem keeps_hoist (s : ExtractionSettings) (entries : Entries (Link σ)) (c : Context) :
    RegistryM.Keeps r.Extends (hoist s entries c) := by
  intro t ht
  refine hoist_leaves ht entries c ?_ ?_
  · intro canonical name contexts _ _ _ _
    refine ht.trans ⟨fun _ _ h => h, fun _ _ => rfl, fun _ h => h, ?_, ?_⟩
    · exact fun _ => Table.mem_keys_insert_of_mem _ _
    · exact fun _ => Table.mem_keys_insert_of_mem _ _
  · intro canonical name _ _ hdigest _ _
    have hne : ∀ other ∈ t.names.keys, other ≠ s.digest canonical := fun other hother heq =>
      hdigest (heq ▸ hother)
    refine ht.trans ⟨?_, ?_, ?_, ?_, ?_⟩
    · intro other found hfound
      have hother := Table.mem_keys_of_mem (Table.get?_eq_some_iff.1 hfound)
      rwa [Registry.addReference, Table.get?_insert_of_ne _ _ (hne other hother)]
    · intro other hother
      rw [Registry.addReference, Table.get?_insert_of_ne _ _ (hne other hother)]
    · exact fun _ => Table.mem_keys_insert_of_mem _ _
    · exact fun _ => Table.mem_keys_insert_of_mem _ _
    · exact fun _ => Table.mem_keys_insert_of_mem _ _

theorem keeps_extract (s : ExtractionSettings) (v : Linked σ) (c : Context) :
    RegistryM.Keeps r.Extends (extract s v c) :=
  extract_keeps (keeps_hoist s) v c

theorem of_extract (s : ExtractionSettings) (v : Linked σ) (c : Context) (r : Registry σ) :
    r.Extends ((extract s v c).result r).2 :=
  keeps_extract s v c r (.refl r)

end Registry.Extends

/-! ### What a registry knows -/

/-- What is to be moved is found under a name, which has usages and references. -/
structure Registry.Knows (digest : Text → Text) (r : Registry σ) (content : Linked Empty)
    (name : Text) : Prop where
  found : ∃ text, canonicalText content = .ok text ∧
    r.lookup (digest text) text = .ok (some name)
  usages : name ∈ r.usages.keys
  references : name ∈ r.references.keys

theorem Registry.Extends.knows (h : r.Extends t) {content : Linked Empty} {name : Text}
    (hknows : r.Knows digest content name) : t.Knows digest content name := by
  obtain ⟨⟨text, htext, hlookup⟩, husage, hreference⟩ := hknows
  obtain ⟨hname, hcanonical⟩ := Registry.lookup_eq_some.1 hlookup
  refine ⟨⟨text, htext, Registry.lookup_eq_some.2 ⟨h.names _ _ hname, ?_⟩⟩, h.usages name husage,
    h.references name hreference⟩
  rw [h.canonicals _ (Table.mem_keys_of_mem (Table.get?_eq_some_iff.1 hname)), hcanonical]

/-- Every schema that is hoisted from a document is known under its name. -/
def Registry.Recognises (digest : Text → Text) (r : Registry σ) (ν : Document → Text)
    (d : Document) : Prop :=
  ∀ i ∈ d.hoisted, r.Knows digest (i.content ν) (ν i)

theorem Registry.Extends.recognises (h : r.Extends t) {d : Document}
    (hr : r.Recognises digest ν d) : t.Recognises digest ν d :=
  fun i hi => h.knows (hr i hi)

def Registry.nameFor (digest : Text → Text) (r : Registry σ) (content : Linked Empty) : Text :=
  ((canonicalText content).toOption.bind fun text => r.names.get? (digest text)).getD []

/-- What stays in the place of a schema when everything in it is found. -/
def Registry.recalled (digest : Text → Text) (r : Registry σ) : Document → Linked Empty :=
  Value.fold fun d inside =>
    if d.isHoisted then
      .ref (.component (r.nameFor digest (d.withInner (inside.map Prod.snd))))
    else d.withInner (inside.map Prod.snd)

def Registry.nameOf (digest : Text → Text) (r : Registry σ) (d : Document) : Text :=
  r.nameFor digest (d.withInner (d.inner.map fun part => r.recalled digest part.2))

theorem Registry.recalled_eq (r : Registry σ) (d : Document) :
    r.recalled digest d = d.linked (r.nameOf digest) := by
  induction d using Value.schemaInduction with
  | step d ih =>
    have hcontent : d.withInner (d.inner.map fun part => r.recalled digest part.2) =
        d.content (r.nameOf digest) := congrArg d.withInner (List.map_congr_left ih)
    rw [recalled, Value.fold_eq, List.map_map, Value.linked_eq, ← hcontent]
    rfl

theorem Registry.nameOf_eq (r : Registry σ) (d : Document) :
    r.nameOf digest d = r.nameFor digest (d.content (r.nameOf digest)) := by
  have hcontent : d.withInner (d.inner.map fun part => r.recalled digest part.2) =
      d.content (r.nameOf digest) :=
    congrArg d.withInner (List.map_congr_left fun part _ => r.recalled_eq part.2)
  rw [nameOf, hcontent]

/-! ### After an extraction -/

theorem RegistryM.forall₂_of_result_mapM {α β : Type} {xs : List α} {f : α → RegistryM σ β}
    {Q : α → β → Prop} (hgrows : ∀ x r, Keeps (Registry.Extends r) (f x))
    (hf : ∀ x ∈ xs, ∀ r t y, (f x).result r = (.ok y, t) → t.Extends u → Q x y) {ys : List β}
    (h : (xs.mapM f).result r = (.ok ys, t)) (hu : t.Extends u) : List.Forall₂ Q xs ys := by
  induction xs generalizing r ys with
  | nil =>
    rw [List.mapM_nil, result_pure] at h
    cases (Prod.mk.inj h).1
    exact .nil
  | cons x xs ih =>
    rw [List.mapM_cons, result_bind_eq_ok] at h
    obtain ⟨y, v, hx, h⟩ := h
    rw [result_bind_eq_ok] at h
    obtain ⟨rest, w, hrest, h⟩ := h
    obtain ⟨hys, rfl⟩ := Prod.mk.inj h
    cases hys
    have hlater : v.Extends ((xs.mapM f).result v).2 :=
      Keeps.mapM (fun x _ => hgrows x v) v (.refl v)
    rw [hrest] at hlater
    exact .cons (hf x (List.mem_cons_self ..) r v y hx (hlater.trans hu))
      (ih (fun z hz => hf z (List.mem_cons_of_mem x hz)) hrest)

theorem knows_of_hoist {s : ExtractionSettings} {entries : Entries (Link Empty)} {c : Context}
    {r t : Registry Empty} {w : Linked Empty} (h : (hoist s entries c).result r = (.ok w, t)) :
    ∃ name, w = .ref (.component name) ∧ t.Knows s.digest (.map entries) name := by
  obtain ⟨canonical, name, u, hcanonical, rfl, rfl, hstep⟩ := hoist_eq_ok h
  have hreference : name ∈ (u.addReference name).references.keys :=
    Table.mem_keys_insert_self ..
  refine ⟨name, rfl, ⟨canonical, hcanonical, ?_⟩, ?_, hreference⟩
  · rcases hstep with ⟨hlookup, hrecord⟩ | ⟨-, -, hregister⟩
    · obtain ⟨contexts, -, rfl⟩ := Registry.recordUsage_eq_ok.1 hrecord
      exact hlookup
    · obtain ⟨-, rfl⟩ := Registry.register_eq_ok.1 hregister
      exact Registry.lookup_eq_some.2 ⟨Table.get?_insert_self .., Table.get?_insert_self ..⟩
  · rcases hstep with ⟨-, hrecord⟩ | ⟨-, -, hregister⟩
    · obtain ⟨contexts, -, rfl⟩ := Registry.recordUsage_eq_ok.1 hrecord
      exact Table.mem_keys_insert_self ..
    · obtain ⟨-, rfl⟩ := Registry.register_eq_ok.1 hregister
      exact Table.mem_keys_insert_self ..

/-- After the visits of the schemas inside a document the registry knows those that were moved, and
their references stand in their places. -/
theorem knows_of_visits {s : ExtractionSettings} {d : Document} {c : Context}
    {r t u : Registry Empty} {ws : List (Linked Empty)}
    (hpart : ∀ part ∈ d.inner, ∀ (r t : Registry Empty) (w : Linked Empty),
      (extract s (.ofDocument part.2) (c.child part.1)).result r = (.ok w, t) → t.Extends u →
        w = part.2.linked (u.nameOf s.digest) ∧
          u.Recognises s.digest (u.nameOf s.digest) part.2)
    (h : (d.inner.mapM fun part => extract s (.ofDocument part.2) (c.child part.1)).result r =
      (.ok ws, t)) (hu : t.Extends u) :
    d.withInner ws = d.content (u.nameOf s.digest) ∧ ∀ i ∈ d.hoistedInside,
      u.Knows s.digest (i.content (u.nameOf s.digest)) (u.nameOf s.digest i) := by
  have hvisits := RegistryM.forall₂_of_result_mapM
    (Q := fun part w => u.Recognises s.digest (u.nameOf s.digest) part.2 ∧
      part.2.linked (u.nameOf s.digest) = w)
    (fun part r => Registry.Extends.keeps_extract s (.ofDocument part.2) (c.child part.1))
    (fun part hmem r t w hw ht => (hpart part hmem r t w hw ht).symm.imp_right Eq.symm) h hu
  rw [List.forall₂_and_left, ← List.forall₂_map_left_iff, List.forall₂_eq_eq_eq] at hvisits
  obtain ⟨hinside, rfl⟩ := hvisits
  refine ⟨rfl, fun i hi => ?_⟩
  obtain ⟨part, hpart, hi⟩ := List.mem_flatMap.1 hi
  exact hinside part hpart i hi

/-- A registry that extends the one that the extraction of a document leaves recognises the
document, and knows what stayed in its place. -/
theorem recognises_of_extract {s : ExtractionSettings} (d : Document) (c : Context)
    {r t : Registry Empty} {w : Linked Empty}
    (h : (extract s (.ofDocument d) c).result r = (.ok w, t)) {u : Registry Empty}
    (hu : t.Extends u) :
    w = d.linked (u.nameOf s.digest) ∧ u.Recognises s.digest (u.nameOf s.digest) d := by
  -- the names are those of `u` throughout, so what is known of the schemas inside carries over
  induction d using Value.schemaInduction generalizing c r t w with
  | step d ih =>
    rw [extract_ofDocument, RegistryM.result_bind_eq_ok] at h
    obtain ⟨v, t', hvisit, h⟩ := h
    obtain ⟨ws, hinner, rfl⟩ := RegistryM.result_map_eq_ok.1 hvisit
    have hlast : t'.Extends t := by
      split at h
      · have hkeeps := Registry.Extends.keeps_hoist s (d.withInner ws).entries c t' (.refl t')
        rwa [h] at hkeeps
      · rw [(Prod.mk.inj h).2]
        exact .refl t
    obtain ⟨hcontent, hknown⟩ := knows_of_visits
      (fun part hpart r t w hw ht => ih part hpart _ hw ht) hinner (hlast.trans hu)
    rw [hcontent] at h
    rw [Registry.Recognises, Value.hoisted_eq, Value.linked_eq]
    split at h
    · next hhoisted =>
      obtain ⟨name, rfl, hname⟩ := knows_of_hoist h
      rw [Value.map_entries (Value.isMap_content hhoisted)] at hname
      have hself : u.Knows s.digest (d.content (u.nameOf s.digest)) name := hu.knows hname
      have hnameOf : u.nameOf s.digest d = name := by
        obtain ⟨text, htext, hlookup⟩ := hself.found
        rw [Registry.nameOf_eq, Registry.nameFor, htext]
        show (u.names.get? (s.digest text)).getD [] = name
        rw [(Registry.lookup_eq_some.1 hlookup).1, Option.getD_some]
      rw [if_pos hhoisted, if_pos hhoisted, hnameOf]
      refine ⟨rfl, fun i hi => ?_⟩
      rcases List.mem_append.1 hi with hi | hi
      · exact hknown i hi
      · rw [List.mem_singleton.1 hi, hnameOf]
        exact hself
    · next hinline =>
      rw [if_neg hinline, if_neg hinline, List.append_nil]
      exact ⟨(Except.ok.inj (Prod.mk.inj h).1).symm, hknown⟩

/-! ### Using what is known -/

def contextsUnder (ν : Document → Text) (O : List Occurrence) (name : Text) : List Context :=
  (O.filter fun o => ν o.schema = name).map Occurrence.context

theorem contextsUnder_append (P Q : List Occurrence) (name : Text) :
    contextsUnder ν (P ++ Q) name = contextsUnder ν P name ++ contextsUnder ν Q name := by
  rw [contextsUnder, List.filter_append, List.map_append]
  rfl

/-- The second registry differs from the first one by the uses of these occurrences alone. -/
structure Registry.UsedAlso (ν : Document → Text) (O : List Occurrence) (r t : Registry σ) :
    Prop where
  reserved : t.reserved = r.reserved
  schemas : t.schemas = r.schemas
  names : t.names = r.names
  canonicals : t.canonicals = r.canonicals
  usages : t.usages.entries =
    r.usages.entries.map fun entry => (entry.1, entry.2 ++ contextsUnder ν O entry.1)
  references : t.references.entries = r.references.entries.map fun entry =>
    (entry.1, entry.2 ++
      List.replicate (contextsUnder ν O entry.1).length (componentAddress entry.1))

namespace Registry.UsedAlso

variable {P Q : List Occurrence}

theorem nil (r : Registry σ) : UsedAlso ν [] r r := by
  refine ⟨rfl, rfl, rfl, rfl, ?_, ?_⟩
  · simp [contextsUnder]
  · simp [contextsUnder]

theorem append (h : UsedAlso ν P r t) (h' : UsedAlso ν Q t u) : UsedAlso ν (P ++ Q) r u := by
  refine ⟨h'.reserved.trans h.reserved, h'.schemas.trans h.schemas, h'.names.trans h.names,
    h'.canonicals.trans h.canonicals, ?_, ?_⟩
  · rw [h'.usages, h.usages, List.map_map]
    refine List.map_congr_left fun entry _ => ?_
    simp only [Function.comp_apply, contextsUnder_append, List.append_assoc]
  · rw [h'.references, h.references, List.map_map]
    refine List.map_congr_left fun entry _ => ?_
    simp only [Function.comp_apply, contextsUnder_append, List.append_assoc, List.length_append,
      List.replicate_add]

theorem grows (h : UsedAlso ν P r t) : r.Extends t := by
  refine ⟨?_, ?_, ?_, ?_, ?_⟩
  · rw [h.names]
    exact fun _ _ hname => hname
  · rw [h.canonicals]
    exact fun _ _ => rfl
  · rw [h.schemas]
    exact fun _ hname => hname
  · rw [Table.keys, Table.keys, h.usages, List.map_map]
    exact fun _ hname => hname
  · rw [Table.keys, Table.keys, h.references, List.map_map]
    exact fun _ hname => hname

theorem single (o : Occurrence) {contexts : List Context}
    (hcontexts : r.usages.get? (ν o.schema) = some contexts)
    (hreference : ν o.schema ∈ r.references.keys) :
    UsedAlso ν [o] r
      ({ r with usages := r.usages.insert (ν o.schema) (contexts ++ [o.context]) }.addReference
        (ν o.schema)) := by
  have hunder : ∀ name, contextsUnder ν [o] name = if name = ν o.schema then [o.context] else [] := by
    intro name
    rw [contextsUnder, List.filter_singleton]
    by_cases hname : name = ν o.schema
    · simp [hname]
    · simp [hname, Ne.symm hname]
  obtain ⟨readings, hreadings⟩ := Table.exists_get?_of_mem hreference
  refine ⟨rfl, rfl, rfl, rfl, ?_, ?_⟩
  · rw [addReference, Table.entries_insert_append hcontexts]
    exact List.map_congr_left fun entry _ => by rw [hunder]
  · rw [addReference, hreadings, Option.getD_some, Table.entries_insert_append hreadings]
    refine List.map_congr_left fun entry _ => ?_
    rw [hunder]
    split
    · next hkey => rw [hkey]; rfl
    · rfl

end Registry.UsedAlso

theorem hoist_of_knows {s : ExtractionSettings} {d : Document} {c : Context} {entries : Entries (Link Empty)}
    {r : Registry Empty} (h : r.Knows s.digest (.map entries) (ν d)) :
    ∃ t, (hoist s entries c).result r = (.ok (.ref (.component (ν d))), t) ∧
      r.UsedAlso ν [⟨d, c⟩] t := by
  obtain ⟨⟨text, htext, hlookup⟩, husage, hreference⟩ := h
  obtain ⟨contexts, hcontexts⟩ := Table.exists_get?_of_mem husage
  refine ⟨_, ?_, .single ⟨d, c⟩ hcontexts hreference⟩
  rw [result_hoist, htext]
  dsimp only
  rw [hlookup]
  dsimp only
  rw [Registry.recordUsage_eq_ok.2 ⟨contexts, hcontexts, rfl⟩]

theorem mapM_of_recognises {parts : List (Document × Document)}
    {f : Document × Document → RegistryM Empty (Linked Empty)}
    {O : Document × Document → List Occurrence} {r : Registry Empty}
    (hf : ∀ part ∈ parts, ∀ r : Registry Empty, r.Recognises digest ν part.2 →
      ∃ t, (f part).result r = (.ok (part.2.linked ν), t) ∧ r.UsedAlso ν (O part) t)
    (h : ∀ part ∈ parts, r.Recognises digest ν part.2) :
    ∃ t, (parts.mapM f).result r = (.ok (parts.map fun part => part.2.linked ν), t) ∧
      r.UsedAlso ν (parts.flatMap O) t := by
  induction parts generalizing r with
  | nil => exact ⟨r, rfl, .nil r⟩
  | cons part parts ih =>
    obtain ⟨t, hpart, ht⟩ := hf part (List.mem_cons_self ..) r (h part (List.mem_cons_self ..))
    have hlater : ∀ other ∈ parts, t.Recognises digest ν other.2 := fun other hother =>
      ht.grows.recognises (h other (List.mem_cons_of_mem part hother))
    obtain ⟨u, hparts, hu⟩ := ih (fun other hother => hf other (List.mem_cons_of_mem part hother))
      hlater
    refine ⟨u, ?_, ht.append hu⟩
    rw [List.mapM_cons, RegistryM.result_bind_of_ok hpart, RegistryM.result_bind_of_ok hparts]
    rfl

/-- The extraction of a document that is recognised uses its components, and gives what stays in its
place. -/
theorem extract_of_recognises {s : ExtractionSettings} (d : Document) (c : Context)
    {r : Registry Empty} (h : r.Recognises s.digest ν d) :
    ∃ t, (extract s (.ofDocument d) c).result r = (.ok (d.linked ν), t) ∧
      r.UsedAlso ν (d.occurrences c) t := by
  induction d using Value.schemaInduction generalizing c r with
  | step d ih =>
    rw [Registry.Recognises, Value.hoisted_eq] at h
    have hinside : ∀ part ∈ d.inner, r.Recognises s.digest ν part.2 := fun part hpart i hi =>
      h i (List.mem_append_left _ (List.mem_flatMap.2 ⟨part, hpart, hi⟩))
    obtain ⟨t, hinner, ht⟩ := mapM_of_recognises
      (fun part hpart r hr => ih part hpart (c.child part.1) hr) hinside
    have hcontent : ((d.withInner <$> d.inner.mapM fun part =>
        extract s (.ofDocument part.2) (c.child part.1)).result r) = (.ok (d.content ν), t) := by
      rw [RegistryM.result_map, hinner]
      rfl
    rw [extract_ofDocument, RegistryM.result_bind_of_ok hcontent, Value.linked_eq,
      Value.occurrences_eq]
    split
    · next hhoisted =>
      have hknows : t.Knows s.digest (.map (d.content ν).entries) (ν d) := by
        rw [Value.map_entries (Value.isMap_content hhoisted)]
        apply ht.grows.knows
        apply h d
        rw [if_pos hhoisted]
        exact List.mem_append_right _ (List.mem_cons_self ..)
      obtain ⟨u, hhoist, hu⟩ := hoist_of_knows (c := c) hknows
      exact ⟨u, hhoist, ht.append hu⟩
    · rw [List.append_nil]
      exact ⟨t, rfl, ht⟩

/-! ### Extracting again -/

/-- One registry becomes the other by the extraction of some value, successful or not. -/
def Registry.ExtractsTo (digest : Text → Text) (r t : Registry Empty) : Prop :=
  ∃ assignIds v c, t = ((extract ⟨digest, assignIds⟩ v c).result r).2

theorem Registry.Extends.of_extractions {r t : Registry Empty}
    (h : Relation.ReflTransGen (Registry.ExtractsTo digest) r t) : r.Extends t := by
  induction h with
  | refl => exact .refl r
  | tail _ hstep ih =>
    obtain ⟨assignIds, v, c, rfl⟩ := hstep
    exact ih.trans (.of_extract _ v c _)

theorem Registry.ReadsAs.recognises {r t : Registry Empty} (h : t.ReadsAs r) {d : Document}
    (hr : r.Recognises digest ν d) : t.Recognises digest ν d := by
  intro i hi
  obtain ⟨⟨text, htext, hlookup⟩, husage, hreference⟩ := hr i hi
  refine ⟨⟨text, htext, ?_⟩, ?_, ?_⟩
  · rwa [Registry.lookup, h.names, h.canonicals]
  · rwa [h.usages]
  · rwa [h.references]

theorem schemas_of_extract {s : ExtractionSettings} (v : Linked σ) (c : Context) {r : Registry σ}
    (h : ((extract s v c).result r).2.names.keys.length = r.names.keys.length) :
    ((extract s v c).result r).2.schemas = r.schemas := by
  have hkeeps : RegistryM.Keeps (fun t : Registry σ =>
      (t.schemas = r.schemas ∧ t.names.keys.length = r.names.keys.length) ∨
        r.names.keys.length < t.names.keys.length) (extract s v c) := by
    refine extract_keeps (fun entries c t ht => hoist_leaves ht entries c ?_ ?_) v c
    · exact fun _ _ _ _ _ _ _ => ht
    · intro canonical name _ _ hdigest _ _
      right
      rw [Registry.addReference, Table.keys_insert_of_new _ hdigest, List.length_append,
        List.length_singleton]
      omega
  rcases hkeeps r (Or.inl ⟨rfl, rfl⟩) with hsame | hmore
  · exact hsame.1
  · omega

/-- When a value was extracted once, any value that is written alike is extracted in the same way
ever after, whatever was extracted in between. Each schema in it is found under a name that has
usages, and the registry only gains one more usage for each of its occurrences. -/
theorem extract_again {r t u : Registry Empty} {assignIds assignIds' : Bool} {v v' w : Linked Empty}
    {c c' : Context} (hsame : v.written = v'.written)
    (hfirst : (extract ⟨digest, assignIds⟩ v c).result r = (.ok w, t))
    (hlater : Relation.ReflTransGen (Registry.ExtractsTo digest) t u) :
    ∃ w' u' ν, (extract ⟨digest, assignIds'⟩ v' c').result u = (.ok w', u') ∧
      w'.written = w.written ∧ w'.written = (v'.written.linked ν).written ∧
      u.Recognises digest ν v'.written ∧ u.UsedAlso ν (v'.written.occurrences c') u' := by
  have hread := extract_alike Empty ⟨digest, assignIds⟩ v c (.refl r)
  rw [hfirst, subst_readOut, hsame] at hread
  obtain ⟨w₁, t₁, hdocument, hw, ht⟩ := hread.of_ok
  obtain ⟨rfl, hrecognises⟩ := recognises_of_extract v'.written c hdocument (.refl t₁)
  have hu : u.Recognises digest (t₁.nameOf digest) v'.written :=
    (Registry.Extends.of_extractions hlater).recognises (ht.recognises hrecognises)
  obtain ⟨u₁, hagain, hused⟩ := extract_of_recognises (s := ⟨digest, assignIds'⟩) v'.written c' hu
  have hread' := extract_alike Empty ⟨digest, assignIds'⟩ v' c' (.refl u)
  rw [subst_readOut, hagain] at hread'
  obtain ⟨w', u', hresult, hw', hu'⟩ := hread'.of_ok_right
  have hschemas := schemas_of_extract (s := ⟨digest, assignIds'⟩) v' c' (r := u)
  rw [hresult] at hschemas
  refine ⟨w', u', t₁.nameOf digest, hresult, hw'.trans hw.symm, hw', hu, ?_⟩
  exact ⟨hu'.reserved.trans hused.reserved, hschemas (by rw [hu'.names, hused.names]),
    hu'.names.trans hused.names, hu'.canonicals.trans hused.canonicals,
    hu'.usages ▸ hused.usages, hu'.references ▸ hused.references⟩

/-- Between the two extractions one stops at a name that is in use. The second one has no text in
its path, so it could not name a schema. -/
theorem extract_again_mishap :
    let schema : Linked Empty := wrapperSchema "a" (titledSchema "one")
    let c : Context := ⟨[.scalar (.int 1)], none, none, true⟩
    let t := ((extract ⟨Sha256.hex, true⟩ schema (contextAt "/x" "getA")).result (.empty [])).2
    let u := ((extract ⟨Sha256.hex, true⟩ (wrapperSchema "b" (titledSchema "two"))
      (contextAt "/x" "getA")).result t).2
    u.schemas.keys = ["GetA.X.A", "GetA.X", "GetA.X.B"] ∧ ∃ w' u', ∃ ν : Document → Text,
      (extract ⟨Sha256.hex, false⟩ schema c).result u = (.ok w', u') ∧
        w'.written = (Value.ref (.component "GetA.X") : Linked Empty).written ∧
        u.UsedAlso ν (schema.written.occurrences c) u' := by
  intro schema c t u
  have hvalue : ((extract ⟨Sha256.hex, true⟩ schema (contextAt "/x" "getA")).result (.empty [])).1 =
      .ok (.ref (.component "GetA.X")) := by decide +kernel
  have hfirst : (extract ⟨Sha256.hex, true⟩ schema (contextAt "/x" "getA")).result (.empty []) =
      (.ok (.ref (.component "GetA.X")), t) := by rw [← hvalue]
  have hlater : Relation.ReflTransGen (Registry.ExtractsTo Sha256.hex) t u :=
    .single ⟨true, _, _, rfl⟩
  obtain ⟨w', u', ν, hagain, hw, -, -, hused⟩ := @extract_again Sha256.hex (.empty []) t u true false
    schema schema _ (contextAt "/x" "getA") c rfl hfirst hlater
  exact ⟨by decide +kernel, w', u', ν, hagain, hw, hused⟩

end NamedSchemas
