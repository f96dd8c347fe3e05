import NamedSchemas.Proofs.Document.Traversal
/-!
# Bodies as a traversal

The bodies of a document are the parts of one traversal, responses before the request body of an
operation wherever they stand in it. Visiting the bodies is visiting the list of them.
-/

namespace NamedSchemas

namespace Traversal

variable {ι : Type}

/-- Goes into every entry of a map, each in its own way. -/
def eachEntry (t : Scalar → Traversal ι) : Traversal ι := entries (fun _ => false) t

theorem parts_eachEntry {ρ : Type} (t : Scalar → Traversal ι) (es : Entries ρ) :
    (eachEntry t).parts (.map es) = es.flatMap fun entry => (t entry.1).parts entry.2 := by
  have hlate : phaseParts (fun _ => false) t true es = [] := by
    induction es with
    | nil => rfl
    | cons entry rest ih => exact ih
  show phaseParts (fun _ => false) t false es ++ phaseParts (fun _ => false) t true es = _
  rw [hlate, List.append_nil]
  induction es with
  | nil => rfl
  | cons entry rest ih =>
    rw [phaseParts, if_pos rfl, ih hlate, List.flatMap_cons]

def atKey (key : Text) (t : Traversal ι) : Traversal ι :=
  eachEntry fun k => if k = .text key then t else skip

/-- Goes to the schema that a response or a request body has for a media type. -/
def mediaSchema (mediaType : Text) (place : ι) : Traversal ι :=
  atKey "content" (atKey mediaType (atKey "schema" (here place)))

def atKeys (first : Text) (t : Traversal ι) (next : Text) (u : Traversal ι) : Traversal ι :=
  entries (fun key => key = .text next) fun key =>
    if key = .text next then u else if key = .text first then t else skip

def operationRoles (mediaType : Text) : Traversal BodyRole :=
  atKeys "responses" (eachEntry fun status => mediaSchema mediaType (.response status))
    "requestBody" (mediaSchema mediaType .request)

theorem operationId?_fill (mediaType : Text) {ρ : Type} (v : Value ρ) (ws : List (Value ρ)) :
    ((operationRoles mediaType).fill v ws).operationId? = v.operationId? := by
  cases v with
  | map es =>
    show (Entries.get? "operationId" (fillEntries _ _ es ws)).bind Value.text? = _
    rw [get?_fillEntries rfl]
    rfl
  | scalar s => rfl
  | list items => rfl
  | ref label => rfl

theorem operationId?_ofDocument {ρ : Type} (d : Document) :
    (Value.ofDocument d : Value ρ).operationId? = d.operationId? := by
  cases d with
  | map es =>
    show (Entries.get? "operationId" (Value.substEntries Empty.elim es)).bind Value.text? = _
    rw [Entries.get?_substEntries, Option.bind_map]
    exact congrArg _ (funext fun v => Value.text?_ofDocument v)
  | scalar s => rfl
  | list items => rfl
  | ref label => exact label.elim

/-- Goes to the bodies of one operation, each with its place in the document. -/
def operation (mediaType : Text) (path : Scalar) : Traversal BodyPlace :=
  (operationRoles mediaType).mapPlaces (fun v role => ⟨path, v.operationId?, role⟩)
    (fun v ws => by rw [operationId?_fill]) (fun d => by rw [operationId?_ofDocument])

/-- Goes to the bodies of a document. -/
def bodies (mediaType : Text) : Traversal BodyPlace :=
  atKey "paths" (eachEntry fun path => eachEntry fun key =>
    if (methodOf? key).isSome then operation mediaType path else skip)

/-! ### What parts have from the whole -/

section Hereditary

/-- The traversal finds parts with this property in every document with that one. -/
def Gives (t : Traversal ι) (P : Document → Prop) (Q : ι × Document → Prop) : Prop :=
  ∀ d, P d → ∀ part ∈ t.parts d, Q part

variable {P P' : Document → Prop} {K : Scalar → Prop} {Q : ι × Document → Prop}

theorem gives_skip : (skip : Traversal ι).Gives P Q := fun _ _ _ hpart => absurd hpart List.not_mem_nil

theorem gives_here {place : ι} (h : ∀ d, P d → Q (place, d)) : (here place).Gives P Q := by
  intro d hd part hpart
  rw [List.mem_singleton.1 hpart]
  exact h d hd

theorem exists_of_mem_phaseParts {ρ : Type} {late : Scalar → Bool} {t : Scalar → Traversal ι}
    {phase : Bool} {es : Entries ρ} {part : ι × Value ρ} (h : part ∈ phaseParts late t phase es) :
    ∃ entry ∈ es, part ∈ (t entry.1).parts entry.2 := by
  induction es with
  | nil => cases h
  | cons entry rest ih =>
    rcases List.mem_append.1 h with hfirst | hrest
    · split at hfirst
      · exact ⟨entry, List.mem_cons_self .., hfirst⟩
      · cases hfirst
    · obtain ⟨found, hfound, hpart⟩ := ih hrest
      exact ⟨found, List.mem_cons_of_mem _ hfound, hpart⟩

theorem gives_entries (hvalue : ∀ es, P (.map es) → ∀ entry ∈ es, K entry.1 ∧ P' entry.2)
    {late : Scalar → Bool} {t : Scalar → Traversal ι} (ht : ∀ key, K key → (t key).Gives P' Q) :
    (entries late t).Gives P Q := by
  intro d hd part hpart
  cases d with
  | map es =>
    have hmem : ∃ entry ∈ es, part ∈ (t entry.1).parts entry.2 :=
      (List.mem_append.1 hpart).elim exists_of_mem_phaseParts exists_of_mem_phaseParts
    obtain ⟨entry, hentry, hpart⟩ := hmem
    obtain ⟨hkey, hd⟩ := hvalue es hd entry hentry
    exact ht entry.1 hkey entry.2 hd part hpart
  | scalar s => cases hpart
  | list items => cases hpart
  | ref label => exact label.elim

theorem gives_atKey (hvalue : ∀ es, P (.map es) → ∀ entry ∈ es, K entry.1 ∧ P' entry.2)
    {key : Text} {t : Traversal ι} (ht : t.Gives P' Q) : (atKey key t).Gives P Q := by
  refine gives_entries hvalue fun k _ => ?_
  split
  · exact ht
  · exact gives_skip

variable (hvalue : ∀ es, P (.map es) → ∀ entry ∈ es, K entry.1 ∧ P entry.2)

include hvalue

theorem gives_mediaSchema {mediaType : Text} {place : ι} (h : ∀ d, P d → Q (place, d)) :
    (mediaSchema mediaType place).Gives P Q :=
  gives_atKey hvalue (gives_atKey hvalue (gives_atKey hvalue (gives_here h)))

/-- What every key and every value of a map has from the map, a body has from its document, and so
have the path and the status in its place. -/
theorem gives_bodies (mediaType : Text) : (bodies mediaType).Gives P fun body =>
    K body.1.path ∧ (∀ status, body.1.role = .response status → K status) ∧ P body.2 := by
  have hroles : (operationRoles mediaType).Gives P fun body =>
      (∀ status, body.1 = .response status → K status) ∧ P body.2 := by
    refine gives_entries hvalue fun key _ => ?_
    split
    · exact gives_mediaSchema hvalue fun d hd => ⟨fun status => nofun, hd⟩
    split
    · refine gives_entries hvalue fun status hstatus => gives_mediaSchema hvalue fun d hd => ⟨?_, hd⟩
      rintro _ ⟨⟩
      exact hstatus
    · exact gives_skip
  refine gives_atKey hvalue (gives_entries hvalue fun path hpath => gives_entries hvalue
    fun key _ => ?_)
  split
  · intro d hd part hpart
    obtain ⟨body, hbody, rfl⟩ := List.mem_map.1 hpart
    exact ⟨hpath, hroles d hd body hbody⟩
  · exact gives_skip

end Hereditary

/-! ### Visits of bodies -/

section Visits

variable {ρ : Type} {m : Type → Type} [Monad m] [LawfulMonad m]

theorem eachEntryM_eq_visit {t : Scalar → Traversal ι} {f : Value ρ → ι → m (Value ρ)}
    {g : Scalar → Value ρ → m (Value ρ)} (h : ∀ key v, g key v = (t key).visit f v) (v : Value ρ) :
    v.eachEntryM g = (eachEntry t).visit f v := by
  cases v with
  | map es =>
    have hlate : visitPhase (fun _ => false) t f true = pure := by
      funext es
      simp only [visitPhase, Bool.false_eq_true, if_false]
      exact (List.mapM_pure (f := id)).trans (by rw [List.map_id])
    rw [eachEntry, visit_entries, hlate, bind_pure, Value.eachEntryM]
    simp only [visitPhase, h, if_true, map_eq_pure_bind]
  | scalar s => exact (visit_of_parts_eq_nil rfl f).symm
  | list items => exact (visit_of_parts_eq_nil rfl f).symm
  | ref label => exact (visit_of_parts_eq_nil rfl f).symm

theorem atKeyM_eq_visit {key : Text} {t : Traversal ι} {f : Value ρ → ι → m (Value ρ)}
    {g : Value ρ → m (Value ρ)} (h : ∀ v, g v = t.visit f v) (v : Value ρ) :
    v.atKeyM key g = (atKey key t).visit f v := by
  refine eachEntryM_eq_visit (fun k w => ?_) v
  split
  · exact h w
  · rw [visit_skip]

theorem mediaSchemaM_eq_visit (mediaType : Text) (place : ι) {f : Value ρ → ι → m (Value ρ)}
    {g : Value ρ → m (Value ρ)} (h : ∀ v, g v = f v place) (v : Value ρ) :
    v.mediaSchemaM id mediaType g = (mediaSchema mediaType place).visit f v := by
  have hhere : ∀ v, g v = (here place).visit f v := fun v => by rw [visit_here, h]
  exact atKeyM_eq_visit (fun v => atKeyM_eq_visit (fun v => atKeyM_eq_visit hhere v) v) v

theorem visit_mapPlaces {κ : Type} (t : Traversal ι) (g : {ρ : Type} → Value ρ → ι → κ) (hfill)
    (hdocument) (f : Value ρ → κ → m (Value ρ)) (v : Value ρ) :
    (t.mapPlaces g hfill hdocument).visit f v = t.visit (fun w place => f w (g v place)) v := by
  simp only [visit, mapPlaces, List.mapM_map]
  rfl

theorem atKeyM_atKeyM_eq_visit {first next : Text} (hne : first ≠ next) {t u : Traversal ι}
    {f : Value ρ → ι → m (Value ρ)} {g h : Value ρ → m (Value ρ)} (hg : ∀ v, g v = t.visit f v)
    (hh : ∀ v, h v = u.visit f v) (v : Value ρ) :
    (v.atKeyM first g >>= fun v => v.atKeyM next h) = (atKeys first t next u).visit f v := by
  have hkeys : Scalar.text first ≠ .text next := fun heq => hne (Scalar.text.inj heq)
  cases v with
  | map es =>
    have hearly : ∀ entry : Scalar × Value ρ,
        ((if entry.1 = Scalar.text first then g entry.2 else pure entry.2) >>= fun w =>
          pure (entry.1, w)) =
        if decide (entry.1 = Scalar.text next) = false then do
          pure (entry.1, ← (if entry.1 = Scalar.text next then u else if entry.1 = Scalar.text first then t
            else skip).visit f entry.2)
        else pure entry := by
      intro entry
      by_cases hnext : entry.1 = Scalar.text next
      · simp only [hnext, hkeys.symm, decide_true, if_false, Bool.true_eq_false, pure_bind]
        rw [← hnext]
      · by_cases hfirst : entry.1 = Scalar.text first
        · simp only [hfirst, hkeys, decide_false, if_true, if_false, hg]
        · simp only [hfirst, hnext, decide_false, if_true, if_false, visit_skip, pure_bind]
    have hlate : ∀ entry : Scalar × Value ρ,
        ((if entry.1 = Scalar.text next then h entry.2 else pure entry.2) >>= fun w =>
          pure (entry.1, w)) =
        if decide (entry.1 = Scalar.text next) = true then do
          pure (entry.1, ← (if entry.1 = Scalar.text next then u else if entry.1 = Scalar.text first then t
            else skip).visit f entry.2)
        else pure entry := by
      intro entry
      by_cases hnext : entry.1 = Scalar.text next
      · simp only [hnext, decide_true, if_true, hh]
      · simp only [hnext, decide_false, if_false, Bool.false_eq_true, pure_bind]
    rw [atKeys, visit_entries]
    simp only [Value.atKeyM, Value.eachEntryM, bind_assoc, pure_bind, hearly, hlate, visitPhase,
      map_eq_pure_bind]
  | scalar s => rw [visit_of_parts_eq_nil rfl]; simp only [Value.atKeyM, Value.eachEntryM, pure_bind]
  | list items => rw [visit_of_parts_eq_nil rfl]; simp only [Value.atKeyM, Value.eachEntryM, pure_bind]
  | ref label => rw [visit_of_parts_eq_nil rfl]; simp only [Value.atKeyM, Value.eachEntryM, pure_bind]

theorem operationBodiesM_eq_visit (mediaType : Text) (f : Value ρ → BodyPlace → m (Value ρ))
    (path : Scalar) (v : Value ρ) :
    v.operationBodiesM id mediaType f path = (operation mediaType path).visit f v := by
  rw [operation, visit_mapPlaces, operationRoles, Value.operationBodiesM]
  have hmedia : ∀ role (w : Value ρ),
      w.mediaSchemaM id mediaType (fun schema => f schema ⟨path, v.operationId?, role⟩) =
        (mediaSchema mediaType role).visit (fun w role => f w ⟨path, v.operationId?, role⟩) w :=
    fun role => mediaSchemaM_eq_visit mediaType role
      (f := fun w role => f w ⟨path, v.operationId?, role⟩) fun _ => rfl
  have hresponses : ∀ w : Value ρ, w.eachEntryM (fun status => Value.mediaSchemaM id mediaType
        fun schema => f schema ⟨path, v.operationId?, .response status⟩) =
      (eachEntry fun status => mediaSchema mediaType (.response status)).visit
        (fun w role => f w ⟨path, v.operationId?, role⟩) w :=
    eachEntryM_eq_visit fun status => hmedia (.response status)
  have hne : Text.ofString "responses" ≠ Text.ofString "requestBody" := by decide +kernel
  exact atKeyM_atKeyM_eq_visit hne hresponses (hmedia .request) v

theorem bodiesM_eq_visit (mediaType : Text) (f : Value ρ → BodyPlace → m (Value ρ))
    (v : Value ρ) : v.bodiesM id mediaType f = (bodies mediaType).visit f v := by
  refine atKeyM_eq_visit (fun v => eachEntryM_eq_visit (fun path v => ?_) v) v
  refine eachEntryM_eq_visit (fun key v => ?_) v
  split
  · exact operationBodiesM_eq_visit mediaType f path v
  · rw [visit_skip]

end Visits

end Traversal

end NamedSchemas
