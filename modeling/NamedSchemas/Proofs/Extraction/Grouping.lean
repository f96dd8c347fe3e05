import NamedSchemas.Proofs.Document.Inheritance
import NamedSchemas.Proofs.Extraction.Schemas
import NamedSchemas.Proofs.Naming.Characters
import NamedSchemas.Value.Equality
/-!
# Schemas by occurrence

The schemas that become components are known before any of them is moved: they are listed with their
contexts, those inside a schema before the schema itself, and equal ones are one group, named after
the first of its contexts. What stays in the place of a schema follows from the names.
-/

namespace NamedSchemas

/-- A schema that becomes a component, with where it was found. -/
structure Occurrence where
  schema : Document
  context : Context

namespace Value

/-- The occurrences in a schema: those in the schemas inside it, then its own. -/
def occurrences : Document → Context → List Occurrence :=
  fold fun d inside c => (inside.flatMap fun part => part.2 (c.child part.1)) ++
    if d.isHoisted then [⟨d, c⟩] else []

/-- The schemas in a schema that become components, wherever it is found. -/
def hoisted : Document → List Document :=
  fold fun d inside => inside.flatMap Prod.snd ++ if d.isHoisted then [d] else []

def hoistedInside (d : Document) : List Document := d.inner.flatMap fun part => part.2.hoisted

/-- What stays in the place of a schema when components have these names. -/
def linked (ν : Document → Text) : Document → Linked Empty :=
  fold fun d inside =>
    if d.isHoisted then .ref (.component (ν d)) else d.withInner (inside.map Prod.snd)

/-- A schema with what stays in the places of the schemas inside it. -/
def content (ν : Document → Text) (d : Document) : Linked Empty :=
  d.withInner (d.inner.map fun part => part.2.linked ν)

theorem occurrences_eq (d : Document) (c : Context) : d.occurrences c =
    (d.inner.flatMap fun part => part.2.occurrences (c.child part.1)) ++
      if d.isHoisted then [⟨d, c⟩] else [] := by
  rw [occurrences, fold_eq, List.flatMap_map]

theorem hoisted_eq (d : Document) :
    d.hoisted = d.hoistedInside ++ if d.isHoisted then [d] else [] := by
  rw [hoisted, fold_eq, List.flatMap_map]
  rfl

theorem linked_eq (ν : Document → Text) (d : Document) :
    d.linked ν = if d.isHoisted then .ref (.component (ν d)) else d.content ν := by
  rw [linked, fold_eq, List.map_map]
  rfl

theorem isMap_content {ν : Document → Text} {d : Document} (h : d.isHoisted = true) :
    (d.content ν).isMap = true := by
  rw [content, isMap_withInner]
  exact isMap_of_isHoisted h

theorem map_schema_occurrences (d : Document) (c : Context) :
    (d.occurrences c).map Occurrence.schema = d.hoisted := by
  induction d using schemaInduction generalizing c with
  | step d ih =>
    have hinside : ((d.inner.flatMap fun part => part.2.occurrences (c.child part.1)).map
        Occurrence.schema) = d.hoistedInside := by
      rw [List.map_flatMap, hoistedInside]
      exact List.flatMap_congr fun part hpart => ih part hpart _
    rw [occurrences_eq, hoisted_eq, List.map_append, hinside]
    split <;> rfl

/-! ### What stays in the place of a schema -/

section Linked

variable {ν : Document → Text}

theorem subst_content {σ : Type} {f : Link Empty → Value σ} {d : Document}
    (h : ∀ part ∈ d.inner, (part.2.linked ν).subst f = .ofDocument part.2) :
    (d.content ν).subst f = .ofDocument d := by
  rw [content, subst_withInner f (by rw [List.length_map]), List.map_map, ← withInner_inner d]
  exact congrArg d.withInner (List.map_congr_left h)

/-- Looking up the names of components gives back the schema. -/
theorem subst_linked {look : Text → Option Document} (d : Document)
    (h : ∀ i ∈ d.hoisted, look (ν i) = some i) : (d.linked ν).subst (expanded look) = d := by
  induction d using schemaInduction with
  | step d ih =>
    rw [hoisted_eq] at h
    rw [linked_eq]
    split
    · next hhoisted =>
      have hlook := h d (by rw [if_pos hhoisted]; exact List.mem_append_right _ (List.mem_cons_self ..))
      rw [subst, expanded, hlook, Option.getD_some]
    · rw [subst_content fun part hpart => ?_, ofDocument_self]
      rw [ofDocument_self]
      exact ih part hpart fun i hi =>
        h i (List.mem_append_left _ (List.mem_flatMap.2 ⟨part, hpart, hi⟩))

theorem subst_content_of_look {look : Text → Option Document} {d : Document}
    (h : ∀ i ∈ d.hoistedInside, look (ν i) = some i) :
    (d.content ν).subst (expanded look) = d := by
  rw [subst_content fun part hpart => ?_, ofDocument_self]
  rw [ofDocument_self]
  exact subst_linked part.2 fun i hi => h i (List.mem_flatMap.2 ⟨part, hpart, hi⟩)

/-- What stays refers to nothing that the schema does not refer to, other than the components. -/
theorem refNames_linked (d : Document) : (d.linked ν).text? = (ofDocument d : Linked Empty).text? ∧
    ∀ name ∈ (d.linked ν).refNames, name ∈ (ofDocument d : Linked Empty).refNames ∨ False := by
  induction d using schemaInduction with
  | step d ih =>
    rw [linked_eq]
    split
    · next hhoisted =>
      refine ⟨?_, fun name hname => absurd hname List.not_mem_nil⟩
      rw [text?_ofDocument, text?_of_isMap (isMap_of_isHoisted hhoisted)]
      rfl
    · exact related_withInner_map (congruence_refNames fun _ => False) ih

theorem refNames_content {d : Document} {name : Text} (hname : name ∈ (d.content ν).refNames) :
    name ∈ d.refNames := by
  have hrelated := related_withInner_map (congruence_refNames (ρ := Link Empty) fun _ => False)
    (d := d) (g := fun part => part.2.linked ν) fun part _ => refNames_linked part.2
  exact mem_refNames_ofDocument.1 ((hrelated.2 name hname).resolve_right id)

theorem written_content (d : Document) : (d.content ν).written =
    d.withInner (d.inner.map fun part => (part.2.linked ν).written) := by
  rw [content, written, subst_withInner _ (by rw [List.length_map]), List.map_map]
  rfl

theorem isJson_of_related {d : Document} (hd : d.isJson = true)
    (h : ∀ part ∈ d.inner, part.2.isJson = true → (part.2.linked ν).written.isJson = true) :
    (d.content ν).written.isJson = true := by
  rw [written_content]
  refine related_withInner_map congruence_isJson (fun part hpart => ?_) (by rwa [ofDocument_self])
  rw [ofDocument_self]
  exact h part hpart

theorem isJson_reference {name : Text} (h : ∀ p ∈ name, p.isNamePoint = true) :
    (Value.ref (.component name) : Linked Empty).written.isJson = true := by
  show isJson (.map [(addressKey, text (componentAddress name))]) = true
  have haddress := unpaired_componentAddress h
  simp only [isJson, entriesAreJson, text, Scalar.isJson, haddress]
  decide +kernel

theorem isJson_written_linked (d : Document) (hd : d.isJson = true)
    (h : ∀ i ∈ d.hoisted, ∀ p ∈ ν i, p.isNamePoint = true) : (d.linked ν).written.isJson = true := by
  induction d using schemaInduction with
  | step d ih =>
    rw [hoisted_eq] at h
    rw [linked_eq]
    split
    · next hhoisted =>
      exact isJson_reference (h d (by
        rw [if_pos hhoisted]; exact List.mem_append_right _ (List.mem_cons_self ..)))
    · exact isJson_of_related hd fun part hpart hjson => ih part hpart hjson fun i hi =>
        h i (List.mem_append_left _ (List.mem_flatMap.2 ⟨part, hpart, hi⟩))

theorem isJson_written_content {d : Document} (hd : d.isJson = true)
    (h : ∀ i ∈ d.hoistedInside, ∀ p ∈ ν i, p.isNamePoint = true) :
    (d.content ν).written.isJson = true :=
  isJson_of_related hd fun part hpart hjson => isJson_written_linked part.2 hjson fun i hi =>
    h i (List.mem_flatMap.2 ⟨part, hpart, hi⟩)

theorem expand_written_content {look : Text → Option Document} {d : Document}
    (hd : ∀ i ∈ d.hoistedInside, look (ν i) = some i)
    (hforeign : ∀ name ∈ d.refNames, look name = none) :
    expand look (d.content ν).written = d := by
  rw [expand_written _ fun name hname => hforeign name (refNames_content hname),
    subst_content_of_look hd]

/-- Schemas whose contents are written alike are the same schema, when the components inside them
can be told apart by name. -/
theorem content_injective {ν' : Document → Text} {look : Text → Option Document} {d e : Document}
    (hd : ∀ i ∈ d.hoistedInside, look (ν i) = some i)
    (he : ∀ i ∈ e.hoistedInside, look (ν' i) = some i)
    (hforeign : ∀ name, name ∈ d.refNames ∨ name ∈ e.refNames → look name = none)
    (h : (d.content ν).written = (e.content ν').written) : d = e := by
  rw [← expand_written_content hd fun name hname => hforeign name (Or.inl hname), h,
    expand_written_content he fun name hname => hforeign name (Or.inr hname)]

end Linked

/-! ### Other names for components -/

section Relabel

variable {ν μ : Document → Text} {f : Link Empty → Link Empty}

theorem relabel_content_of {d : Document}
    (h : ∀ part ∈ d.inner, (part.2.linked ν).relabel f = part.2.linked μ) :
    (d.content ν).relabel f = d.content μ := by
  rw [content, relabel, subst_withInner _ (by rw [List.length_map]), List.map_map]
  exact congrArg d.withInner (List.map_congr_left h)

theorem relabel_linked (d : Document) (h : ∀ i, f (.component (ν i)) = .component (μ i)) :
    (d.linked ν).relabel f = d.linked μ := by
  induction d using schemaInduction with
  | step d ih =>
    rw [linked_eq, linked_eq]
    split
    · exact congrArg ref (h d)
    · exact relabel_content_of ih

theorem relabel_content (d : Document) (h : ∀ i, f (.component (ν i)) = .component (μ i)) :
    (d.content ν).relabel f = d.content μ :=
  relabel_content_of fun part _ => relabel_linked part.2 h

end Relabel

/-! ### What an occurrence has from the whole -/

theorem gives_occurrences {P : Document → Prop} {K : Scalar → Prop} {C : Context → Prop}
    (hvalue : ∀ es, P (.map es) → ∀ entry ∈ es, K entry.1 ∧ P entry.2)
    (hitem : ∀ c, C c → C (c.child (.text itemSegment)))
    (hproperty : ∀ key c, K key → C c → C (c.child (.scalar key))) (d : Document) {c : Context}
    (hd : P d) (hc : C c) : ∀ o ∈ d.occurrences c, P o.schema ∧ C o.context := by
  induction d using schemaInduction generalizing c with
  | step d ih =>
    intro o ho
    rw [occurrences_eq] at ho
    rcases List.mem_append.1 ho with hinside | hself
    · obtain ⟨part, hpart, ho⟩ := List.mem_flatMap.1 hinside
      obtain ⟨hpartOf, hchild⟩ := Traversal.gives_inner (Q := fun part => P part.2 ∧
        ∀ c, C c → C (c.child part.1)) d.role hvalue hvalue (fun _ hd => ⟨hd, hitem⟩)
        (fun key _ hkey hd => ⟨hd, fun c => hproperty key c hkey⟩) d hd part hpart
      exact ih part hpart hpartOf (hchild c hc) o ho
    · split at hself
      · rw [List.mem_singleton.1 hself]
        exact ⟨hd, hc⟩
      · cases hself

end Value

/-! ### Schemas inside a schema come first -/

/-- Every schema comes after the schemas inside it that become components. -/
def InsideFirst (O : List Occurrence) : Prop :=
  ∀ before o, before ++ [o] <+: O → ∀ i ∈ o.schema.hoistedInside, i ∈ before.map Occurrence.schema

namespace InsideFirst

theorem nil : InsideFirst [] := fun before o h => absurd (List.prefix_nil.1 h) (by simp)

theorem append {O P : List Occurrence} (hO : InsideFirst O) (hP : InsideFirst P) :
    InsideFirst (O ++ P) := by
  intro before o h i hi
  rcases List.prefix_or_prefix_of_prefix h (List.prefix_append O P) with hbefore | hbefore
  · exact hO before o hbefore i hi
  rcases List.prefix_concat_iff.1 hbefore with rfl | ⟨rest, rfl⟩
  · exact hO before o (List.prefix_refl _) i hi
  · rw [List.append_assoc, List.prefix_append_right_inj] at h
    rw [List.map_append]
    exact List.mem_append_right _ (hP rest o h i hi)

theorem flatMap {α : Type} {xs : List α} {f : α → List Occurrence}
    (h : ∀ x ∈ xs, InsideFirst (f x)) : InsideFirst (xs.flatMap f) := by
  induction xs with
  | nil => exact nil
  | cons x xs ih =>
    rw [List.flatMap_cons]
    exact (h x (List.mem_cons_self ..)).append (ih fun y hy => h y (List.mem_cons_of_mem x hy))

theorem concat {O : List Occurrence} {o : Occurrence} (hO : InsideFirst O)
    (ho : ∀ i ∈ o.schema.hoistedInside, i ∈ O.map Occurrence.schema) : InsideFirst (O ++ [o]) := by
  intro before p h
  rcases List.prefix_concat_iff.1 h with heq | hbefore
  · obtain ⟨rfl, hlast⟩ := List.append_inj' heq rfl
    rwa [(List.cons.inj hlast).1]
  · exact hO before p hbefore

end InsideFirst

theorem insideFirst_occurrences (d : Document) (c : Context) : InsideFirst (d.occurrences c) := by
  induction d using Value.schemaInduction generalizing c with
  | step d ih =>
    have hinside := InsideFirst.flatMap fun part hpart => ih part hpart (c.child part.1)
    rw [Value.occurrences_eq]
    split
    · refine hinside.concat fun i hi => ?_
      obtain ⟨part, hpart, hi⟩ := List.mem_flatMap.1 hi
      rw [List.map_flatMap]
      refine List.mem_flatMap.2 ⟨part, hpart, ?_⟩
      rwa [Value.map_schema_occurrences]
    · exact hinside.append .nil

/-- The occurrences in the bodies of a document, in the order in which the bodies are visited. -/
def Value.bodyOccurrences (mediaType : Text) (d : Document) : List Occurrence :=
  (d.bodies mediaType).flatMap fun body =>
    match body.1.context with
    | .ok c => body.2.occurrences c
    | .error _ => []

theorem insideFirst_bodyOccurrences (mediaType : Text) (d : Document) :
    InsideFirst (d.bodyOccurrences mediaType) := by
  refine InsideFirst.flatMap fun body _ => ?_
  split
  · exact insideFirst_occurrences _ _
  · exact .nil

/-! ### Groups -/

/-- The schemas of occurrences, each where it occurs first. -/
def schemasOf (O : List Occurrence) : List Document := (O.map Occurrence.schema).eraseDups

def contextsOf (O : List Occurrence) (d : Document) : List Context :=
  (O.filter fun o => o.schema = d).map Occurrence.context

/-- The name of a context. A context without one has the empty text. -/
def Context.nameText (c : Context) : Text := c.name.toOption.getD []

/-- The context in which a schema occurs first. -/
def firstContext (O : List Occurrence) (d : Document) : Context :=
  (contextsOf O d).headD ⟨[], none, none, false⟩

/-- The name that a schema has: that of its first context. -/
def nameIn (O : List Occurrence) (d : Document) : Text := (firstContext O d).nameText

theorem mem_schemasOf {O : List Occurrence} {d : Document} :
    d ∈ schemasOf O ↔ d ∈ O.map Occurrence.schema := List.mem_eraseDups

theorem mem_schemasOf_of_mem {O : List Occurrence} {o : Occurrence} (ho : o ∈ O) :
    o.schema ∈ schemasOf O := mem_schemasOf.2 (List.mem_map_of_mem ho)

theorem exists_of_mem_schemasOf {O : List Occurrence} {d : Document} (hd : d ∈ schemasOf O) :
    ∃ o ∈ O, o.schema = d := List.mem_map.1 (mem_schemasOf.1 hd)

theorem schemasOf_prefix {O P : List Occurrence} (h : P <+: O) : ∀ d ∈ schemasOf P, d ∈ schemasOf O :=
  fun _ hd => mem_schemasOf.2 ((h.sublist.map _).subset (mem_schemasOf.1 hd))

/-- The schemas inside one that was met were met. -/
theorem InsideFirst.inside_met {O met : List Occurrence} (hO : InsideFirst O) (hbegins : met <+: O)
    {d : Document} (hd : d ∈ schemasOf met) : ∀ i ∈ d.hoistedInside, i ∈ schemasOf met := by
  obtain ⟨o, ho, rfl⟩ := exists_of_mem_schemasOf hd
  obtain ⟨before, after, rfl⟩ := List.append_of_mem ho
  intro i hi
  have hbefore : before ++ [o] <+: before ++ o :: after :=
    ⟨after, by rw [List.append_assoc, List.singleton_append]⟩
  rw [mem_schemasOf, List.map_append]
  exact List.mem_append_left _ (hO before o (hbefore.trans hbegins) i hi)

theorem Value.gives_schemasOf {P : Document → Prop}
    (hvalue : ∀ es, P (.map es) → ∀ entry ∈ es, P entry.2) {mediaType : Text} {d : Document}
    (hd : P d) : ∀ i ∈ schemasOf (d.bodyOccurrences mediaType), P i := by
  have hentry : ∀ es, P (.map es) → ∀ entry ∈ es, True ∧ P entry.2 :=
    fun es hes entry hentry => ⟨trivial, hvalue es hes entry hentry⟩
  intro i hi
  obtain ⟨o, ho, rfl⟩ := exists_of_mem_schemasOf hi
  obtain ⟨body, hbody, ho⟩ := List.mem_flatMap.1 ho
  have hbody := (Traversal.gives_bodies (K := fun _ => True) hentry mediaType d hd body hbody).2.2
  split at ho
  · exact (gives_occurrences (K := fun _ => True) (C := fun _ => True) hentry (fun _ _ => trivial)
      (fun _ _ _ _ => trivial) body.2 hbody trivial o ho).1
  · cases ho

theorem Value.addressed_of_mem_schemasOf {α : Type} {f : Text → Option α} {mediaType : Text}
    {d i : Document} (hi : i ∈ schemasOf (d.bodyOccurrences mediaType)) :
    ∀ a ∈ i.addressed f, a ∈ d.addressed f :=
  gives_schemasOf (P := fun e => ∀ a ∈ e.addressed f, a ∈ d.addressed f)
    (fun _ hes _ hentry a ha => hes a (mem_addressed_of_mem hentry ha)) (fun _ => id) i hi

theorem Value.refNames_of_mem_schemasOf {mediaType : Text} {d i : Document}
    (hi : i ∈ schemasOf (d.bodyOccurrences mediaType)) : ∀ name ∈ i.refNames, name ∈ d.refNames := by
  simp only [refNames_eq_addressed]
  exact addressed_of_mem_schemasOf hi

theorem schemasOf_concat (O : List Occurrence) (o : Occurrence) : schemasOf (O ++ [o]) =
    schemasOf O ++ if o.schema ∈ schemasOf O then [] else [o.schema] := by
  rw [schemasOf, List.map_append, List.eraseDups_append, ← schemasOf]
  congr 1
  rw [List.map_cons, List.map_nil, List.cons_removeAll]
  by_cases h : o.schema ∈ schemasOf O
  · rw [if_pos h, if_neg (by simpa using mem_schemasOf.1 h), List.nil_removeAll]
    rfl
  · rw [if_neg h, if_pos (by simpa using fun hmem => h (mem_schemasOf.2 hmem)), List.nil_removeAll]
    rfl

theorem schemasOf_concat_of_mem {O : List Occurrence} {o : Occurrence}
    (h : o.schema ∈ schemasOf O) : schemasOf (O ++ [o]) = schemasOf O := by
  rw [schemasOf_concat, if_pos h, List.append_nil]

theorem schemasOf_concat_of_not_mem {O : List Occurrence} {o : Occurrence}
    (h : o.schema ∉ schemasOf O) : schemasOf (O ++ [o]) = schemasOf O ++ [o.schema] := by
  rw [schemasOf_concat, if_neg h]

theorem contextsOf_append (O P : List Occurrence) (d : Document) :
    contextsOf (O ++ P) d = contextsOf O d ++ contextsOf P d := by
  rw [contextsOf, List.filter_append, List.map_append, ← contextsOf, ← contextsOf]

theorem contextsOf_concat (O : List Occurrence) (o : Occurrence) (d : Document) :
    contextsOf (O ++ [o]) d = contextsOf O d ++ if o.schema = d then [o.context] else [] := by
  rw [contextsOf_append]
  congr 1
  by_cases h : o.schema = d <;> simp [contextsOf, h]

theorem contextsOf_eq_nil {O : List Occurrence} {d : Document} (h : d ∉ schemasOf O) :
    contextsOf O d = [] := by
  rw [contextsOf, List.map_eq_nil_iff, List.filter_eq_nil_iff]
  intro o ho heq
  exact h (mem_schemasOf.2 (List.mem_map.2 ⟨o, ho, of_decide_eq_true heq⟩))

theorem firstContext_of_prefix {O met : List Occurrence} {o : Occurrence} (h : met ++ [o] <+: O)
    (hnew : o.schema ∉ schemasOf met) : firstContext O o.schema = o.context := by
  obtain ⟨rest, rfl⟩ := h
  rw [firstContext, contextsOf_append, contextsOf_concat, contextsOf_eq_nil hnew, if_pos rfl]
  rfl

theorem contextsOf_ne_nil {O : List Occurrence} {d : Document} (hd : d ∈ schemasOf O) :
    contextsOf O d ≠ [] := by
  obtain ⟨o, ho, rfl⟩ := exists_of_mem_schemasOf hd
  exact List.ne_nil_of_mem (List.mem_map.2 ⟨o, List.mem_filter.2 ⟨ho, by simp⟩, rfl⟩)

theorem exists_firstContext {O : List Occurrence} {d : Document} (hd : d ∈ schemasOf O) :
    ∃ o ∈ O, (contextsOf O d).head? = some (firstContext O d) ∧ firstContext O d = o.context := by
  cases hcontexts : contextsOf O d with
  | nil => exact absurd hcontexts (contextsOf_ne_nil hd)
  | cons c rest =>
    have hfirst : c ∈ contextsOf O d := by
      rw [hcontexts]
      exact List.mem_cons_self ..
    obtain ⟨first, hmem, rfl⟩ := List.mem_map.1 hfirst
    rw [firstContext, hcontexts]
    exact ⟨first, (List.mem_filter.1 hmem).1, rfl, rfl⟩

end NamedSchemas
