import NamedSchemas.Proofs.Extraction.Schemas
/-!
# Digests save comparisons

A digest only makes it faster to find a schema by its canonical text. When every text is its own
digest, schemas are found by their texts alone. An extraction with any other digests goes along with
that one until it moves a schema whose digest belongs to another text that it has moved before, and
there it stops.
-/

namespace NamedSchemas

variable {σ α β : Type} {digest : Text → Text} {seen : Text → Prop}

/-! ### Texts that are looked up -/

/-- A schema with this canonical text is moved into the registry, or recognised there, when a
document is extracted that finds the registry like this. -/
inductive Hoists (s : ExtractionSettings) : Document → Context → Registry Empty → Text → Prop
  | inside {d : Document} {c : Context} {r t : Registry Empty} {ws : List (Linked Empty)}
      {before after : List (Document × Document)} {part : Document × Document} {text : Text} :
      d.inner = before ++ part :: after →
      (before.mapM fun part => extract s (.ofDocument part.2) (c.child part.1)).result r =
        (.ok ws, t) →
      Hoists s part.2 (c.child part.1) t text → Hoists s d c r text
  | self {d : Document} {c : Context} {r t : Registry Empty} {ws : List (Linked Empty)}
      {text : Text} :
      d.isHoisted = true →
      (d.inner.mapM fun part => extract s (.ofDocument part.2) (c.child part.1)).result r =
        (.ok ws, t) →
      canonicalText (d.withInner ws) = .ok text → Hoists s d c r text

def visitBody (digest : Text → Text) (options : ExtractionOptions) (body : BodyPlace × Document) :
    RegistryM Empty (Linked Empty) := do
  extract ⟨digest, options.assignIds⟩ (.ofDocument body.2)
    (← RegistryM.ask fun _ => body.1.context)

/-- A schema with this canonical text is moved or recognised in the extraction of a document. -/
def HoistedIn (digest : Text → Text) (options : ExtractionOptions) (document : Document)
    (text : Text) : Prop :=
  ∃ before body after stays r c,
    document.bodies options.mediaType = before ++ body :: after ∧
      (before.mapM (visitBody digest options)).result (.empty document.schemaNames) =
        (.ok stays, r) ∧
      body.1.context = .ok c ∧
      Hoists ⟨digest, options.assignIds⟩ body.2 c r text

def extractionSteps (digest : Text → Text) (options : ExtractionOptions) (document : Document) :
    RegistryM Empty (List (Linked Empty) × List Text × List (Text × Text)) := do
  let stays ← visitBodies digest options document
  let created ← RegistryM.ask fun r => .ok r.schemas.keys
  let plan ← finish options
  pure (stays, created, plan)

theorem extractWith_eq_steps (digest : Text → Text) (options : ExtractionOptions)
    {document : Document} {p : Parts} (h : Parts.of (.ofDocument document) = .ok p) :
    extractWith digest options document =
      match (extractionSteps digest options document).result (.empty document.schemaNames) with
      | (.error fault, _) => .error fault
      | (.ok (stays, created, plan), last) =>
        .ok (resultOf options document stays created plan last) := by
  rw [extractWith_eq digest options h, extractionSteps, RegistryM.result_bind]
  cases (visitBodies digest options document).result (.empty document.schemaNames) with
  | mk outcome r =>
    cases outcome with
    | error fault => rfl
    | ok stays =>
      simp only [RegistryM.result_bind, RegistryM.result_ask]
      cases (finish options).result r with
      | mk outcome last => cases outcome <;> rfl

/-! ### Registries side by side -/

/-- The first registry has under the digest of a text what the second has under the text, and the
second has it under that text alone. -/
structure Aligned (digest : Text → Text) (seen : Text → Prop) (r t : Registry σ) : Prop where
  reserved : r.reserved = t.reserved
  schemas : r.schemas = t.schemas
  usages : r.usages = t.usages
  references : r.references = t.references
  names : r.names.entries = t.names.entries.map fun entry => (digest entry.1, entry.2)
  canonicals : r.canonicals.entries =
    t.canonicals.entries.map fun entry => (digest entry.1, entry.2)
  digests : t.names.keys = t.canonicals.keys
  texts : ∀ entry ∈ t.canonicals.entries, entry.1 = entry.2 ∧ seen entry.2

/-- Two different texts that were seen have the digest. -/
def Shared (digest : Text → Text) (seen : Text → Prop) (shared : Text) : Prop :=
  ∃ text other, text ≠ other ∧ seen text ∧ seen other ∧ digest text = shared ∧
    digest other = shared

/-- The first outcome is the second one, or the fault that two texts share a digest. -/
def GoesAlong (digest : Text → Text) (seen : Text → Prop) (p q : Except Fault α × Registry σ) :
    Prop :=
  (∃ shared name, p.1 = .error (.sharedDigest shared name) ∧ Shared digest seen shared) ∨
    (p.1 = q.1 ∧ (∀ shared name, q.1 ≠ .error (.sharedDigest shared name)) ∧
      Aligned digest seen p.2 q.2)

theorem aligned_empty (reserved : List Text) :
    Aligned digest seen (.empty reserved : Registry σ) (.empty reserved) :=
  ⟨rfl, rfl, rfl, rfl, rfl, rfl, rfl, fun _ h => absurd h List.not_mem_nil⟩

theorem Registry.repoint_map (old new : Text) (f : Text → Text) (entries : List (Text × Text)) :
    repoint old new (entries.map fun entry => (f entry.1, entry.2)) =
      (repoint old new entries).map fun entry => (f entry.1, entry.2) := by
  induction entries with
  | nil => rfl
  | cons entry rest ih =>
    rw [List.map_cons, repoint, repoint, ih]
    split <;> rfl

theorem planFrom_ne_sharedDigest {taken : List Text} {usages : List (Text × List Context)}
    {shared name : Text} : planFrom taken usages ≠ .error (.sharedDigest shared name) := by
  induction usages generalizing taken with
  | nil => exact fun heq => by cases heq
  | cons usage rest ih =>
    obtain ⟨old, contexts⟩ := usage
    intro heq
    rw [planFrom] at heq
    split at heq
    · next fault hdue =>
      cases heq
      unfold dueName at hdue
      split at hdue
      · split at hdue <;> cases hdue
      · cases hdue
    · exact ih heq
    next new _ =>
    split at heq
    · exact ih heq
    split at heq
    · cases heq
    cases hrest : planFrom (new :: taken.filter (· ≠ old)) rest with
    | ok plan =>
      rw [hrest] at heq
      cases heq
    | error fault =>
      rw [hrest] at heq
      cases heq
      exact ih hrest

theorem context_ne_sharedDigest {place : BodyPlace} {shared name : Text} :
    place.context ≠ .error (.sharedDigest shared name) := by
  intro heq
  rw [BodyPlace.context] at heq
  split at heq
  · next status _ =>
    cases hstatus : statusText status with
    | ok t =>
      rw [hstatus] at heq
      cases heq
    | error fault =>
      rw [hstatus] at heq
      cases heq
      unfold statusText at hstatus
      split at hstatus
      · split at hstatus <;> cases hstatus
      · cases hstatus
  · cases heq

namespace Aligned

variable {r t : Registry σ}

/-- The second registry finds a schema by its text alone. So does the first, when no other text has
its digest. -/
theorem lookup (h : Aligned digest seen r t) (text : Text) :
    t.lookup text text = .ok (t.names.get? text) ∧
      (r.lookup (digest text) text = .ok (t.names.get? text) ∨
        ∃ other name, text ≠ other ∧ seen other ∧ digest other = digest text ∧
          r.lookup (digest text) text = .error (.sharedDigest (digest text) name)) := by
  have hcanonical : ∀ other ∈ t.names.keys, (other, other) ∈ t.canonicals.entries ∧ seen other := by
    intro other hother
    rw [h.digests] at hother
    obtain ⟨⟨key, stored⟩, hentry, rfl⟩ := List.mem_map.1 hother
    obtain ⟨heq, hseen⟩ := h.texts _ hentry
    dsimp only at heq hseen ⊢
    subst heq
    exact ⟨hentry, hseen⟩
  have hstored : ∀ other ∈ t.names.keys, r.canonicals.get? (digest other) = some other := by
    intro other hother
    rw [Table.get?_eq_some_iff, h.canonicals]
    exact List.mem_map.2 ⟨_, (hcanonical other hother).1, rfl⟩
  have hname : ∀ {other name}, (other, name) ∈ t.names.entries →
      r.names.get? (digest other) = some name := by
    intro other name hentry
    rw [Table.get?_eq_some_iff, h.names]
    exact List.mem_map.2 ⟨_, hentry, rfl⟩
  cases hget : t.names.get? text with
  | some name =>
    have hentry := Table.get?_eq_some_iff.1 hget
    have hknown := Table.mem_keys_of_mem hentry
    have htext := Table.get?_eq_some_iff.2 (hcanonical text hknown).1
    exact ⟨Registry.lookup_eq_some.2 ⟨hget, htext⟩,
      Or.inl (Registry.lookup_eq_some.2 ⟨hname hentry, hstored text hknown⟩)⟩
  | none =>
    have hnew := Table.get?_eq_none_iff.1 hget
    refine ⟨Registry.lookup_eq_none.2 hnew, ?_⟩
    by_cases hdigest : digest text ∈ r.names.keys
    · rw [Table.keys, h.names, List.map_map] at hdigest
      obtain ⟨⟨other, name⟩, hentry, heq⟩ := List.mem_map.1 hdigest
      change digest other = digest text at heq
      have hother := Table.mem_keys_of_mem hentry
      have hne : text ≠ other := fun h => hnew (h ▸ hother)
      refine Or.inr ⟨other, name, hne, (hcanonical other hother).2, heq, ?_⟩
      rw [Registry.lookup, ← heq, hname hentry, hstored other hother]
      exact if_neg hne.symm
    · exact Or.inl (Registry.lookup_eq_none.2 hdigest)

theorem addReference (h : Aligned digest seen r t) (name : Text) :
    Aligned digest seen (r.addReference name) (t.addReference name) := by
  refine ⟨h.reserved, h.schemas, h.usages, ?_, h.names, h.canonicals, h.digests, h.texts⟩
  rw [Registry.addReference, Registry.addReference, h.references]

theorem setUsages (h : Aligned digest seen r t) (usages : Table Text (List Context)) :
    Aligned digest seen { r with usages := usages } { t with usages := usages } :=
  ⟨h.reserved, h.schemas, rfl, h.references, h.names, h.canonicals, h.digests, h.texts⟩

theorem register (h : Aligned digest seen r t) {name text : Text} (schema : Linked σ) (c : Context)
    (hseen : seen text) (hnew : text ∉ t.names.keys) (hdigest : digest text ∉ r.names.keys) :
    Aligned digest seen
      { r with
        schemas := r.schemas.insert name schema
        names := r.names.insert (digest text) name
        canonicals := r.canonicals.insert (digest text) text
        usages := r.usages.insert name [c] }
      { t with
        schemas := t.schemas.insert name schema
        names := t.names.insert text name
        canonicals := t.canonicals.insert text text
        usages := t.usages.insert name [c] } := by
  have hcanonical : text ∉ t.canonicals.keys := by rwa [← h.digests]
  have hdigests : r.canonicals.keys = r.names.keys := by
    have hmap : t.canonicals.keys.map digest = t.names.keys.map digest := by rw [h.digests]
    rw [Table.keys, Table.keys, h.names, h.canonicals, List.map_map, List.map_map]
    rw [Table.keys, Table.keys, List.map_map, List.map_map] at hmap
    exact hmap
  have hstored : digest text ∉ r.canonicals.keys := by rwa [hdigests]
  refine ⟨h.reserved, ?_, ?_, h.references, ?_, ?_, ?_, ?_⟩
  · dsimp only
    rw [h.schemas]
  · dsimp only
    rw [h.usages]
  · dsimp only
    rw [Table.entries_insert_of_new _ hdigest, Table.entries_insert_of_new _ hnew, List.map_append,
      h.names]
    rfl
  · dsimp only
    rw [Table.entries_insert_of_new _ hstored, Table.entries_insert_of_new _ hcanonical,
      List.map_append, h.canonicals]
    rfl
  · dsimp only
    rw [Table.keys_insert_of_new _ hnew, Table.keys_insert_of_new _ hcanonical, h.digests]
  · exact Table.forall_mem_insert ⟨rfl, hseen⟩ h.texts

end Aligned

/-! ### Steps side by side -/

namespace GoesAlong

variable {r t : Registry σ}

theorem of_eq {outcome : Except Fault α} (h : Aligned digest seen r t)
    (hfault : ∀ shared name, outcome ≠ .error (.sharedDigest shared name)) :
    GoesAlong digest seen (outcome, r) (outcome, t) :=
  Or.inr ⟨rfl, hfault, h⟩

theorem ok (h : Aligned digest seen r t) (a : α) :
    GoesAlong digest seen (.ok a, r) (.ok a, t) :=
  of_eq h fun _ _ heq => by cases heq

theorem bind {x x' : RegistryM σ α} {f f' : α → RegistryM σ β}
    (hx : GoesAlong digest seen (x.result r) (x'.result t))
    (hf : ∀ a u v, x.result r = (.ok a, u) → Aligned digest seen u v →
      GoesAlong digest seen ((f a).result u) ((f' a).result v)) :
    GoesAlong digest seen ((x >>= f).result r) ((x' >>= f').result t) := by
  rw [RegistryM.result_bind, RegistryM.result_bind]
  cases hp : x.result r with
  | mk outcome u =>
    cases hq : x'.result t with
    | mk outcome' v =>
      rw [hp, hq] at hx
      rcases hx with ⟨shared, name, heq, hshared⟩ | ⟨heq, hfault, halign⟩
      · dsimp only at heq
        subst heq
        exact Or.inl ⟨shared, name, rfl, hshared⟩
      · dsimp only at heq hfault
        subst heq
        cases outcome with
        | ok a => exact hf a u v hp halign
        | error fault => exact of_eq halign fun shared name heq => hfault shared name (by cases heq; rfl)

theorem map {x x' : RegistryM σ α} (hx : GoesAlong digest seen (x.result r) (x'.result t))
    (g : α → β) : GoesAlong digest seen ((g <$> x).result r) ((g <$> x').result t) := by
  rw [map_eq_pure_bind, map_eq_pure_bind]
  exact hx.bind fun a u v _ halign => ok halign (g a)

theorem mapM {xs : List α} {f f' : α → RegistryM σ β} (h : Aligned digest seen r t)
    (hf : ∀ before x after, xs = before ++ x :: after → ∀ ys u v,
      (before.mapM f).result r = (.ok ys, u) → Aligned digest seen u v →
        GoesAlong digest seen ((f x).result u) ((f' x).result v)) :
    GoesAlong digest seen ((xs.mapM f).result r) ((xs.mapM f').result t) := by
  induction xs generalizing r t with
  | nil =>
    rw [List.mapM_nil, List.mapM_nil]
    exact ok h []
  | cons x xs ih =>
    rw [List.mapM_cons, List.mapM_cons]
    refine (hf [] x xs rfl [] r t rfl h).bind fun y u v hx huv => ?_
    refine GoesAlong.bind (ih huv fun before z after hxs ys u' v' hbefore halign => ?_)
      fun ys u v _ halign => ok halign (y :: ys)
    refine hf (x :: before) z after (by rw [hxs]; rfl) (y :: ys) u' v' ?_ halign
    rw [List.mapM_cons, RegistryM.result_bind_of_ok hx, RegistryM.result_bind_of_ok hbefore,
      RegistryM.result_pure]

theorem hoist (h : Aligned digest seen r t) (assignIds : Bool) (entries : Entries (Link σ))
    (c : Context) (hseen : ∀ text, canonicalText (.map entries) = .ok text → seen text) :
    GoesAlong digest seen ((hoist ⟨digest, assignIds⟩ entries c).result r)
      ((NamedSchemas.hoist ⟨id, assignIds⟩ entries c).result t) := by
  rw [result_hoist, result_hoist]
  cases hcanonical : canonicalText (.map entries) with
  | error fault =>
    refine of_eq h fun shared name heq => ?_
    cases heq
    rw [canonicalText] at hcanonical
    split at hcanonical <;> cases hcanonical
  | ok text =>
    dsimp only [id]
    obtain ⟨ht, hr | ⟨other, name, hne, hother, heq, hr⟩⟩ := h.lookup text
    · rw [ht, hr]
      cases hname : t.names.get? text with
      | some name =>
        dsimp only
        rw [Registry.recordUsage, Registry.recordUsage, h.usages]
        cases t.usages.get? name with
        | none => exact of_eq h fun _ _ heq => by cases heq
        | some contexts => exact ok ((h.setUsages _).addReference name) _
      | none =>
        have hnew := Table.get?_eq_none_iff.1 hname
        rw [hname] at hr
        have hdigest := Registry.lookup_eq_none.1 hr
        cases c.name with
        | error fault => exact of_eq h fun _ _ heq => by cases heq
        | ok name =>
          have htaken : r.isTaken name = t.isTaken name := by
            rw [Registry.isTaken, Registry.isTaken, h.schemas, h.reserved]
          dsimp only
          rw [Registry.register, Registry.register, htaken]
          cases t.isTaken name with
          | false =>
            exact ok ((h.register _ c (hseen text hcanonical) hnew hdigest).addReference name) _
          | true =>
            cases c.pathText with
            | error fault => exact of_eq h fun _ _ heq => by cases heq
            | ok path => exact of_eq h fun _ _ heq => by cases heq
    · rw [hr]
      exact Or.inl ⟨_, name, rfl, text, other, hne, hseen text hcanonical, hother, rfl, heq⟩

/-- The extraction of a document goes along, as far as the texts that it hoists were seen. -/
theorem extract (assignIds : Bool) (d : Document) (c : Context) {r t : Registry Empty}
    (h : Aligned digest seen r t) (hseen : ∀ text, Hoists ⟨digest, assignIds⟩ d c r text → seen text) :
    GoesAlong digest seen ((extract ⟨digest, assignIds⟩ (.ofDocument d) c).result r)
      ((NamedSchemas.extract ⟨id, assignIds⟩ (.ofDocument d) c).result t) := by
  induction d using Value.schemaInduction generalizing c r t with
  | step d ih =>
    rw [extract_ofDocument, extract_ofDocument]
    have hinner : GoesAlong digest seen
        ((d.inner.mapM fun part => NamedSchemas.extract ⟨digest, assignIds⟩ (.ofDocument part.2)
          (c.child part.1)).result r)
        ((d.inner.mapM fun part => NamedSchemas.extract ⟨id, assignIds⟩ (.ofDocument part.2)
          (c.child part.1)).result t) := by
      refine mapM h fun before part after hparts ws u v hbefore halign => ?_
      have hpart : part ∈ d.inner := by
        rw [hparts]
        exact List.mem_append_right _ (List.mem_cons_self ..)
      exact ih part hpart (c.child part.1) halign fun text htext =>
        hseen text (.inside hparts hbefore htext)
    refine (hinner.map d.withInner).bind fun w u v hw halign => ?_
    obtain ⟨ws, hws, rfl⟩ := RegistryM.result_map_eq_ok.1 hw
    split
    · next hhoisted =>
      refine hoist halign assignIds _ c fun text htext => hseen text (.self hhoisted hws ?_)
      rwa [Value.map_entries (by rw [Value.isMap_withInner, Value.isMap_of_isHoisted hhoisted])]
        at htext
    · exact ok halign _

theorem rename [DecidableEq σ] (h : Aligned digest seen r t) (old new : Text) :
    GoesAlong digest seen ((RegistryM.rename old new).result r)
      ((RegistryM.rename old new).result t) := by
  obtain ⟨reserved, schemas, usages, references, names, canonicals⟩ := r
  obtain ⟨reserved', schemas', usages', references', names', canonicals'⟩ := t
  obtain rfl : reserved = reserved' := h.reserved
  obtain rfl : schemas = schemas' := h.schemas
  obtain rfl : usages = usages' := h.usages
  obtain rfl : references = references' := h.references
  rw [RegistryM.result_rename, RegistryM.result_rename, Registry.rename, Registry.rename]
  dsimp only
  cases schemas.get? old with
  | none => exact of_eq h fun _ _ heq => by cases heq
  | some schema =>
    by_cases hmapping : schema.isMapping = true
    · simp only [if_pos hmapping]
      refine Or.inr ⟨rfl, (fun _ _ heq => by cases heq), rfl, rfl, rfl, rfl, ?_, h.canonicals, ?_,
        h.texts⟩
      · exact (congrArg (Registry.repoint old new) h.names).trans
          (Registry.repoint_map old new digest names'.entries)
      · exact (Registry.map_fst_repoint old new names'.entries).trans h.digests
    · simp only [if_neg hmapping]
      exact Or.inr ⟨rfl, (fun _ _ heq => by cases heq), rfl, rfl, rfl, rfl, h.names, h.canonicals,
        h.digests, h.texts⟩

theorem renameAll [DecidableEq σ] (h : Aligned digest seen r t) (plan : List (Text × Text)) :
    GoesAlong digest seen ((renameAll plan).result r) ((NamedSchemas.renameAll plan).result t) := by
  induction plan generalizing r t with
  | nil => exact ok h ()
  | cons first rest ih =>
    rw [NamedSchemas.renameAll]
    exact (rename h first.1 first.2).bind fun _ u v _ halign => ih halign

theorem shorten [DecidableEq σ] (h : Aligned digest seen r t) :
    GoesAlong digest seen ((shorten : RegistryM σ _).result r)
      ((NamedSchemas.shorten : RegistryM σ _).result t) := by
  have hplan : GoesAlong digest seen ((RegistryM.ask Registry.plan : RegistryM σ _).result r)
      ((RegistryM.ask Registry.plan : RegistryM σ _).result t) := by
    have hsame : r.plan = t.plan := by
      rw [Registry.plan, Registry.plan, h.schemas, h.reserved, h.usages]
    rw [RegistryM.result_ask, RegistryM.result_ask, hsame]
    exact of_eq h fun shared name heq => planFrom_ne_sharedDigest heq
  rw [NamedSchemas.shorten]
  refine hplan.bind fun plan u v _ halign => ?_
  exact (renameAll halign plan).bind fun _ u v _ halign => ok halign plan

theorem visitBodies (digest : Text → Text) (options : ExtractionOptions) (document : Document) :
    GoesAlong digest (HoistedIn digest options document)
      ((visitBodies digest options document).result (.empty document.schemaNames))
      ((NamedSchemas.visitBodies id options document).result (.empty document.schemaNames)) := by
  show GoesAlong digest (HoistedIn digest options document)
    (((document.bodies options.mediaType).mapM (visitBody digest options)).result _)
    (((document.bodies options.mediaType).mapM (visitBody id options)).result _)
  apply mapM (aligned_empty document.schemaNames)
  intro before body after hbodies stays u v hbefore halign
  rw [visitBody, visitBody]
  have hcontext : GoesAlong digest (HoistedIn digest options document)
      ((RegistryM.ask fun _ => body.1.context : RegistryM Empty Context).result u)
      ((RegistryM.ask fun _ => body.1.context : RegistryM Empty Context).result v) := by
    rw [RegistryM.result_ask, RegistryM.result_ask]
    exact of_eq halign fun shared name heq => context_ne_sharedDigest heq
  refine hcontext.bind fun c u' v' hask halign => ?_
  rw [RegistryM.result_ask] at hask
  obtain ⟨hcontext, rfl⟩ := Prod.mk.inj hask
  exact extract options.assignIds body.2 c halign fun text htext =>
    ⟨before, body, after, stays, u, c, hbodies, hbefore, hcontext, htext⟩

theorem finish (options : ExtractionOptions) {r t : Registry Empty} (h : Aligned digest seen r t) :
    GoesAlong digest seen ((finish options).result r) ((NamedSchemas.finish options).result t) := by
  rw [NamedSchemas.finish]
  split
  · exact shorten h
  · exact ok h []

theorem extractionSteps (digest : Text → Text) (options : ExtractionOptions) (document : Document) :
    GoesAlong digest (HoistedIn digest options document)
      ((extractionSteps digest options document).result (.empty document.schemaNames))
      ((NamedSchemas.extractionSteps id options document).result (.empty document.schemaNames)) := by
  refine (visitBodies digest options document).bind fun stays r t _ halign => ?_
  have hcreated : GoesAlong digest (HoistedIn digest options document)
      ((RegistryM.ask fun r => .ok r.schemas.keys : RegistryM Empty (List Text)).result r)
      ((RegistryM.ask fun r => .ok r.schemas.keys : RegistryM Empty (List Text)).result t) := by
    rw [RegistryM.result_ask, RegistryM.result_ask, halign.schemas]
    exact ok halign _
  refine hcreated.bind fun created r t _ halign => ?_
  exact (finish options halign).bind fun plan r t _ halign => ok halign _

end GoesAlong

theorem parts_ne_sharedDigest {d : Document} {shared name : Text} :
    Parts.of (.ofDocument d) ≠ .error (.sharedDigest shared name) :=
  fun heq => nomatch Value.parts_ofDocument_eq_error.1 heq

/-- An extraction stops at a digest only when two different texts that it hoists have it. -/
theorem shared_of_extractWith {digest : Text → Text} {options : ExtractionOptions}
    {document : Document} {shared name : Text}
    (h : extractWith digest options document = .error (.sharedDigest shared name)) :
    Shared digest (HoistedIn digest options document) shared := by
  cases hparts : Parts.of (.ofDocument document) with
  | error fault =>
    rw [extractWith, hparts] at h
    cases Except.error.inj h
    exact absurd hparts parts_ne_sharedDigest
  | ok p =>
    rw [extractWith_eq_steps digest options hparts] at h
    have hsteps := GoesAlong.extractionSteps digest options document
    generalize (extractionSteps digest options document).result _ = p at h hsteps
    obtain ⟨outcome, r⟩ := p
    cases outcome with
    | ok result => cases h
    | error fault =>
      cases Except.error.inj h
      rcases hsteps with ⟨_, _, heq, hshared⟩ | ⟨heq, hfault, -⟩
      · cases heq
        exact hshared
      · exact absurd heq.symm (hfault shared name)

/-- Whatever stands in for the digest, an extraction gives what the extraction gives in which every
text is its own digest, unless two different texts that it hoists have the same digest. Then that
may be its fault, and only then. -/
theorem extractWith_goesAlong (digest : Text → Text) (options : ExtractionOptions)
    (document : Document) :
    (∃ shared name, extractWith digest options document = .error (.sharedDigest shared name) ∧
        Shared digest (HoistedIn digest options document) shared) ∨
      (extractWith digest options document = extractWith id options document ∧
        ∀ shared name, extractWith digest options document ≠ .error (.sharedDigest shared name)) := by
  cases hparts : Parts.of (.ofDocument document) with
  | error fault =>
    have hfault : ∀ digest, extractWith digest options document = .error fault := by
      intro digest
      rw [extractWith, hparts]
      rfl
    rw [hfault, hfault]
    refine Or.inr ⟨rfl, fun shared name heq => ?_⟩
    rw [Except.error.inj heq] at hparts
    exact parts_ne_sharedDigest hparts
  | ok p =>
    rw [extractWith_eq_steps digest options hparts, extractWith_eq_steps id options hparts]
    have hsteps := GoesAlong.extractionSteps digest options document
    generalize (extractionSteps digest options document).result _ = p at hsteps
    generalize (extractionSteps id options document).result _ = q at hsteps
    obtain ⟨outcome, r⟩ := p
    obtain ⟨outcome', t⟩ := q
    rcases hsteps with ⟨shared, name, heq, hshared⟩ | ⟨heq, hfault, halign⟩
    · dsimp only at heq
      subst heq
      exact Or.inl ⟨shared, name, rfl, hshared⟩
    dsimp only at heq hfault
    subst heq
    cases outcome with
    | error fault =>
      refine Or.inr ⟨rfl, fun shared name heq => hfault shared name ?_⟩
      rw [Except.error.inj heq]
    | ok result =>
      refine Or.inr ⟨?_, fun shared name heq => by cases heq⟩
      dsimp only
      rw [resultOf, resultOf, halign.schemas, halign.usages]

/-- When all texts have one digest, the second schema of a document is at fault. -/
example : (extractWith (fun _ => []) .usual ordersDocument).map (fun _ => ()) =
    .error (.sharedDigest [] "CreateOrder.Orders.Customer.Rank") := by decide +kernel

end NamedSchemas
