import NamedSchemas.Proofs.Document.Frame
import NamedSchemas.Proofs.Extraction.Digests
import NamedSchemas.Proofs.Extraction.Refinement
/-!
# Faults that an extraction can have

Most faults are guards: against a registry whose tables disagree, against paths that are no texts
and values that have no JSON text. From a document that JSON can hold, no step of an extraction
leads to where one of them would speak. What is left are faults of the document's shape, names that
are taken, and texts that share a digest.
-/

namespace NamedSchemas

variable {σ α β : Type}

/-! ### Steps and their faults -/

namespace RegistryM

/-- The step leads from registries with one property to such registries, its values have the second
property and its faults the third. -/
def Runs (P : Registry σ → Prop) (Q : α → Prop) (F : Fault → Prop) (step : RegistryM σ α) : Prop :=
  ∀ r, P r → P (step.result r).2 ∧ (∀ a, (step.result r).1 = .ok a → Q a) ∧
    ∀ fault, (step.result r).1 = .error fault → F fault

variable {P : Registry σ → Prop} {Q : α → Prop} {F : Fault → Prop}

theorem Runs.pure {a : α} (ha : Q a) : Runs P Q F (Pure.pure a : RegistryM σ α) := by
  intro r hr
  refine ⟨hr, fun b hb => ?_, fun fault hfault => ?_⟩
  · cases hb
    exact ha
  · cases hfault

theorem Runs.ask {f : Registry σ → Except Fault α} (hok : ∀ r a, P r → f r = .ok a → Q a)
    (herror : ∀ r fault, P r → f r = .error fault → F fault) : Runs P Q F (RegistryM.ask f) := by
  intro r hr
  rw [result_ask]
  exact ⟨hr, fun a ha => hok r a hr ha, fun fault hfault => herror r fault hr hfault⟩

theorem Runs.bind {x : RegistryM σ α} {f : α → RegistryM σ β} {S : β → Prop} (hx : Runs P Q F x)
    (hf : ∀ a, Q a → Runs P S F (f a)) : Runs P S F (x >>= f) := by
  intro r hr
  obtain ⟨hs, hok, herror⟩ := hx r hr
  rw [result_bind]
  generalize x.result r = p at hs hok herror
  obtain ⟨outcome, s⟩ := p
  cases outcome with
  | ok a => exact hf a (hok a rfl) s hs
  | error fault =>
    refine ⟨hs, fun b hb => ?_, fun found hfound => ?_⟩
    · cases hb
    · cases hfound
      exact herror fault rfl

theorem Runs.map {x : RegistryM σ α} {g : α → β} {S : β → Prop} (hx : Runs P Q F x)
    (hg : ∀ a, Q a → S (g a)) : Runs P S F (g <$> x) := by
  rw [map_eq_pure_bind]
  exact hx.bind fun a ha => Runs.pure (hg a ha)

theorem Runs.mapM {f : α → RegistryM σ β} {xs : List α} {R : α → β → Prop}
    (hf : ∀ x ∈ xs, Runs P (R x) F (f x)) : Runs P (List.Forall₂ R xs) F (xs.mapM f) := by
  induction xs with
  | nil =>
    rw [List.mapM_nil]
    exact Runs.pure .nil
  | cons x xs ih =>
    rw [List.mapM_cons]
    apply (hf x (List.mem_cons_self ..)).bind
    intro y hy
    apply (ih fun z hz => hf z (List.mem_cons_of_mem x hz)).bind
    exact fun ys hys => Runs.pure (.cons hy hys)

end RegistryM

/-! ### Schemas that JSON can hold -/

namespace Value

theorem isJson_inner {d : Document} (hd : d.isJson = true) {part : Document × Document}
    (hpart : part ∈ d.inner) : part.1.text?.isSome = true ∧ part.2.isJson = true := by
  refine Traversal.gives_inner (P := fun e => e.isJson = true) (R := fun e => e.isJson = true)
    (K := fun key => key.text?.isSome = true)
    (Q := fun part => part.1.text?.isSome = true ∧ part.2.isJson = true) d.role
    (fun _ hes _ hentry => isJson_of_mem hes hentry)
    (fun _ hes _ hentry => isJson_of_mem hes hentry) (fun _ he => ⟨rfl, he⟩) ?_ d hd part hpart
  intro key e hkey he
  cases key with
  | text t => exact ⟨rfl, he⟩
  | _ => cases hkey

theorem isJson_withInner {d : Document} (hd : d.isJson = true) {ws : List (Linked Empty)}
    (hws : List.Forall₂ (fun _ w => w.written.isJson = true) d.inner ws) :
    (d.withInner ws).written.isJson = true := by
  rw [written, subst_withInner _ hws.length_eq.symm]
  apply related_withInner congruence_isJson
  · rw [List.forall₂_map_right_iff]
    apply hws.imp
    intro part w hw _
    exact hw
  · rwa [ofDocument_self]

end Value

/-! ### Legible registries -/

/-- The tables tell of the same schemas, names are made of name characters, and every usage has a
path of texts. -/
structure Registry.Legible (digest : Text → Text) (existing : List Text) (r : Registry Empty) : Prop
    extends Registry.Consistent digest existing r where
  namePoints : ∀ name ∈ r.schemas.keys, ∀ p ∈ name, p.isNamePoint = true
  textPaths : ∀ entry ∈ r.usages.entries, ∀ c ∈ entry.2, c.HasTextPath

inductive Fault.OfMove : Fault → Prop
  | nameTaken (name : Text) (operation : Option Text) (path : Text) :
    OfMove (.nameTaken name operation path)
  | sharedDigest (digest name : Text) : OfMove (.sharedDigest digest name)

namespace Registry.Legible

variable {digest : Text → Text} {existing : List Text} {r : Registry Empty}

theorem empty : Legible digest existing (.empty existing) :=
  ⟨.empty, fun _ h => absurd h List.not_mem_nil, fun _ h => absurd h List.not_mem_nil⟩

theorem useAgain (hr : Legible digest existing r) {name : Text} {contexts : List Context}
    (hcontexts : r.usages.get? name = some contexts) {c : Context} (hc : c.HasTextPath) :
    Legible digest existing
      ({ r with usages := r.usages.insert name (contexts ++ [c]) }.addReference name) := by
  refine ⟨hr.toConsistent.useAgain hcontexts c, hr.namePoints, fun entry hentry used hused => ?_⟩
  have hmem := Table.get?_eq_some_iff.1 hcontexts
  rw [addReference, Table.entries_insert_of_mem _ (Table.mem_keys_of_mem hmem)] at hentry
  obtain ⟨old, hold, rfl⟩ := List.mem_map.1 hentry
  dsimp only at hused
  split at hused
  · rcases List.mem_append.1 hused with hbefore | hlast
    · exact hr.textPaths _ hmem used hbefore
    · rw [List.mem_singleton.1 hlast]
      exact hc
  · exact hr.textPaths old hold used hused

theorem addNew (hr : Legible digest existing r) {name canonical : Text} {schema : Linked Empty}
    (hschema : schema.isMapping = true) (hdigest : digest canonical ∉ r.names.keys)
    (hname : name ∉ r.schemas.keys) (hfresh : name ∉ existing) {c : Context} (hc : c.HasTextPath)
    (hc' : c.name = .ok name) : Legible digest existing ({ r with
      schemas := r.schemas.insert name schema
      names := r.names.insert (digest canonical) name
      canonicals := r.canonicals.insert (digest canonical) canonical
      usages := r.usages.insert name [c] }.addReference name) := by
  refine ⟨hr.toConsistent.addNew hschema hdigest hname hfresh c, ?_, ?_⟩
  · exact Table.forall_mem_keys_insert (Context.isNamePoint_of_mem_name hc') hr.namePoints
  · refine Table.forall_mem_insert (fun used hused => ?_) hr.textPaths
    rwa [List.mem_singleton.1 hused]

theorem register_eq_error {name : Text} {schema : Linked Empty} {found text : Text} {c : Context}
    (hc : c.HasTextPath) {fault : Fault} (h : r.register name schema found text c = .error fault) :
    Fault.OfMove fault := by
  obtain ⟨path, hpath⟩ := hc.exists_pathText
  rw [register, hpath] at h
  split at h
  · cases h
    exact .nameTaken ..
  · cases h

/-- Moving a schema that JSON can hold fails only at a name or a digest that another schema has. -/
theorem ofMove_of_hoist (hr : Legible digest existing r) {ids : Bool} {entries : Entries (Link Empty)}
    {c : Context} (hjson : (Value.map entries : Linked Empty).written.isJson = true)
    (hc : c.HasTextPath) {fault : Fault}
    (h : ((hoist ⟨digest, ids⟩ entries c).result r).1 = .error fault) : Fault.OfMove fault := by
  obtain ⟨canonical, hcanonical⟩ := exists_canonicalText hjson
  rw [result_hoist, hcanonical] at h
  dsimp only at h
  cases hlookup : r.lookup (digest canonical) canonical with
  | error found =>
    rw [hlookup] at h
    cases h
    obtain ⟨name, rfl⟩ := hr.lookup_eq_error hlookup
    exact .sharedDigest _ name
  | ok found =>
    cases found with
    | some name =>
      obtain ⟨contexts, -, hused, -⟩ := hr.used name (hr.mem_keys_of_lookup hlookup)
      have hrecord : r.recordUsage name c = .ok _ := recordUsage_eq_ok.2 ⟨contexts, hused, rfl⟩
      rw [hlookup] at h
      dsimp only at h
      rw [hrecord] at h
      cases h
    | none =>
      obtain ⟨name, hname⟩ := hc.exists_name
      rw [hlookup, hname] at h
      dsimp only at h
      split at h
      · next found hregister =>
        cases h
        exact register_eq_error hc hregister
      · cases h

theorem runs_hoist {s : ExtractionSettings} {entries : Entries (Link Empty)} {c : Context}
    (hjson : (Value.map entries : Linked Empty).written.isJson = true) (hc : c.HasTextPath) :
    RegistryM.Runs (Legible s.digest existing) (fun w => w.written.isJson = true) Fault.OfMove
      (hoist s entries c) := by
  intro r hr
  refine ⟨?_, ?_, fun fault => hr.ofMove_of_hoist hjson hc⟩
  · apply hoist_leaves hr
    · intro canonical name contexts _ _ _ hcontexts
      exact hr.useAgain hcontexts hc
    · intro canonical name _ hname hdigest hnew hreserved
      rw [hr.reserved] at hreserved
      exact hr.addNew rfl hdigest hnew hreserved hc hname
  · intro w hw
    obtain ⟨canonical, name, u, -, rfl, -, hstep⟩ := hoist_eq_ok (Prod.ext hw rfl)
    rcases hstep with ⟨hlookup, -⟩ | ⟨-, hname, -⟩
    · exact Value.isJson_reference (hr.namePoints name (hr.mem_keys_of_lookup hlookup))
    · exact Value.isJson_reference (Context.isNamePoint_of_mem_name hname)

/-- Extracting a schema that JSON can hold fails in no other way, and JSON can hold what stays in
its place. -/
theorem runs_extract (s : ExtractionSettings) (d : Document) (hd : d.isJson = true) {c : Context}
    (hc : c.HasTextPath) :
    RegistryM.Runs (Legible s.digest existing) (fun w => w.written.isJson = true) Fault.OfMove
      (extract s (.ofDocument d) c) := by
  induction d using Value.schemaInduction generalizing c with
  | step d ih =>
    have hinner : RegistryM.Runs (Legible s.digest existing)
        (List.Forall₂ (fun _ w => w.written.isJson = true) d.inner) Fault.OfMove
        (d.inner.mapM fun part => extract s (.ofDocument part.2) (c.child part.1)) := by
      apply RegistryM.Runs.mapM
      intro part hpart
      obtain ⟨hsegment, hpartJson⟩ := Value.isJson_inner hd hpart
      apply ih part hpart hpartJson
      intro segment hmem
      rcases List.mem_append.1 hmem with hold | hnew
      · exact hc segment hold
      · rwa [List.mem_singleton.1 hnew]
    have hwhole := hinner.map (S := fun w : Linked Empty => w.written.isJson = true ∧
      w.isMap = d.isMap) fun ws hws => ⟨Value.isJson_withInner hd hws, Value.isMap_withInner d ws⟩
    rw [extract_ofDocument]
    apply hwhole.bind
    intro w hw
    split
    · next hhoisted =>
      have hmap : w.isMap = true := hw.2.trans (Value.isMap_of_isHoisted hhoisted)
      rw [← Value.map_entries hmap] at hw
      exact runs_hoist hw.1 hc
    · exact RegistryM.Runs.pure hw.1

theorem runs_visitBodies (digest : Text → Text) (options : ExtractionOptions) {d : Document}
    (hd : d.isJson = true) : RegistryM.Runs (Legible digest existing) (fun _ => True) Fault.OfMove
      (visitBodies digest options d) := by
  have hbodies : RegistryM.Runs (Legible digest existing)
      (List.Forall₂ (fun _ w => w.written.isJson = true) (d.bodies options.mediaType)) Fault.OfMove
      (visitBodies digest options d) := by
    refine RegistryM.Runs.mapM fun body hbody => ?_
    obtain ⟨c, hcontext, hc⟩ := exists_context hd hbody
    refine RegistryM.Runs.bind (Q := fun found => found = c) (RegistryM.Runs.ask ?_ ?_) ?_
    · intro _ found _ hfound
      exact Except.ok.inj (hfound.symm.trans hcontext)
    · intro _ fault _ hfault
      cases hcontext.symm.trans hfault
    · rintro found rfl
      exact @runs_extract existing ⟨digest, options.assignIds⟩ body.2
        (Value.isJson_bodies hd hbody).2.2 found hc
  intro r hr
  obtain ⟨ht, -, hfault⟩ := hbodies r hr
  exact ⟨ht, fun _ _ => trivial, hfault⟩

end Registry.Legible

/-! ### Planning -/

theorem Registry.Legible.finish_eq_error {digest : Text → Text} {existing : List Text}
    {r t : Registry Empty} (hr : r.Legible digest existing) {options : ExtractionOptions}
    {fault : Fault} (h : (finish options).result r = (.error fault, t)) :
    ∃ old new, fault = .renameTaken old new := by
  rw [finish] at h
  split at h
  · rcases hr.toConsistent.result_shorten with ⟨found, hplan, hresult⟩ | ⟨plan, u, -, -, hresult, -⟩
    · cases hresult.symm.trans h
      refine (planFrom_eq_error hplan).resolve_right ?_
      rintro ⟨usage, husage, hne, found, -, hfound⟩
      obtain ⟨name, hname⟩ := (hr.textPaths usage husage _ (shallowestOf_mem hne)).exists_name
      cases hname.symm.trans hfound
    · cases hresult.symm.trans h
  · cases h

/-! ### Extractions -/

/-- The faults that an extraction from a document can have. -/
inductive CanFail (options : ExtractionOptions) (document : Document) : Fault → Prop
  | shape {fault : Fault} : Value.Misshapen document fault → CanFail options document fault
  | nameTaken (name : Text) (operation : Option Text) (path : Text) :
    CanFail options document (.nameTaken name operation path)
  | renameTaken (old new : Text) : CanFail options document (.renameTaken old new)
  | sharedDigest {shared : Text} (name : Text) :
    Shared Sha256.hex (HoistedIn Sha256.hex options document) shared →
      CanFail options document (.sharedDigest shared name)

/-- From a document that JSON can hold, an extraction fails in no other ways than these, and with a
fault of shape just when the document has it. -/
theorem extractComponents_canFail {document : Document} (hjson : document.isJson = true)
    (options : ExtractionOptions) :
    (∀ fault, extractComponents options document = .error fault →
        CanFail options document fault) ∧
      ∀ fault, Value.Misshapen document fault ↔ extractComponents options document = .error fault ∧
        fault ∈ [.documentNotObject, .componentsNotObject, .schemasNotObject] := by
  have hcan : ∀ fault, extractComponents options document = .error fault →
      CanFail options document fault := by
    intro fault h
    cases hparts : Parts.of (.ofDocument document) with
    | error found =>
      rw [extractComponents, extractWith, hparts] at h
      cases Except.error.inj h
      exact .shape (Value.parts_ofDocument_eq_error.1 hparts)
    | ok p =>
      have hwhole := h
      rw [extractComponents, extractWith_eq Sha256.hex options hparts] at h
      obtain ⟨hr, -, hmove⟩ := Registry.Legible.runs_visitBodies Sha256.hex options hjson
        (.empty document.schemaNames) .empty
      split at h
      · next found r hvisit =>
        cases h
        rw [hvisit] at hmove
        cases hmove fault rfl with
        | nameTaken name operation path => exact .nameTaken name operation path
        | sharedDigest shared name => exact .sharedDigest name (shared_of_extractWith hwhole)
      next stays r hvisit =>
      split at h
      · next found t hfinish =>
        cases h
        rw [hvisit] at hr
        obtain ⟨old, new, rfl⟩ := hr.finish_eq_error hfinish
        exact .renameTaken old new
      · cases h
  refine ⟨hcan, fun fault => ⟨fun hshape => ⟨?_, ?_⟩, ?_⟩⟩
  · rw [extractComponents, extractWith, Value.parts_ofDocument_eq_error.2 hshape]
    rfl
  · cases hshape <;> decide
  · rintro ⟨h, hfault⟩
    cases hcan fault h with
    | shape hshape => exact hshape
    | _ => simp at hfault

/-- A document with different bodies for two statuses that names do not tell apart. -/
def twoSuccessesDocument : Document :=
  .object [("paths", .object [("/orders", .object [("get", .object [
    ("operationId", .text "listOrders"),
    ("responses", .object [
      ("200", bodyWith customerSchema),
      ("201", bodyWith (.object [("type", .text "object")]))])])])])]

/-- The second body is due the name of the first. -/
theorem extractComponents_canFail_twoSuccesses : ∃ fault,
    extractComponents .usual twoSuccessesDocument = .error fault ∧
      fault = .nameTaken "ListOrders.Orders" (some "listOrders") "/orders" ∧
      CanFail .usual twoSuccessesDocument fault := by
  have hfault : (extractComponents .usual twoSuccessesDocument).map (fun _ => ()) =
      .error (.nameTaken "ListOrders.Orders" (some "listOrders") "/orders") := by decide +kernel
  cases h : extractComponents .usual twoSuccessesDocument with
  | ok e =>
    rw [h] at hfault
    cases hfault
  | error fault =>
    rw [h] at hfault
    exact ⟨fault, rfl, Except.error.inj hfault,
      (extractComponents_canFail (by decide +kernel) .usual).1 fault h⟩

end NamedSchemas
