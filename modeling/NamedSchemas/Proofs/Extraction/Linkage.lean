import NamedSchemas.Proofs.Document.Inheritance
import NamedSchemas.Proofs.Extraction.Schemas
/-!
# References during an extraction

Whatever document is extracted, every reference that is handed out is to a schema of the registry,
names that are in use elsewhere are not given again, and addresses that were there already are all
that there is besides.
-/

namespace NamedSchemas

/-- The references in a value are to components with these names, and the addresses in it refer to
known names. -/
structure Closed (known : Text → Prop) (names : List Text) (v : Linked Empty) : Prop where
  components : ∀ name, .component name ∈ v.labels → name ∈ names
  addresses : ∀ name ∈ v.refNames, known name

theorem Closed.mono {known : Text → Prop} {names more : List Text} {v : Linked Empty}
    (h : Closed known names v) (hsub : ∀ name ∈ names, name ∈ more) : Closed known more v :=
  ⟨fun name hname => hsub name (h.components name hname), h.addresses⟩

/-- Gives a map a name as its identifier. -/
def Value.withId {ρ : Type} (name : Text) : Value ρ → Value ρ
  | .map es => .map (Entries.insert (.text identifierKey) (.text name) es)
  | v => v

theorem Value.mem_addressed_withId {ρ α : Type} {f : Text → Option α} {name : Text} {v : Value ρ}
    {a : α} (h : a ∈ (v.withId name).addressed f) : a ∈ v.addressed f := by
  have hidentifier : Scalar.text identifierKey ≠ addressKey := by decide +kernel
  cases v with
  | map es => exact (mem_addressedEntries_insert hidentifier h).resolve_left List.not_mem_nil
  | scalar s => exact h
  | list items => exact h
  | ref label => exact h

theorem Value.mem_refNames_withId {ρ : Type} {name other : Text} {v : Value ρ}
    (h : other ∈ (v.withId name).refNames) : other ∈ v.refNames := by
  rw [refNames_eq_addressed] at h ⊢
  exact mem_addressed_withId h

theorem Value.isMap_withId {ρ : Type} (name : Text) (v : Value ρ) :
    (v.withId name).isMap = v.isMap := by
  cases v <;> rfl

theorem Value.isMap_subst {ρ σ : Type} (f : ρ → Value σ) {v : Value ρ} (h : v.isMap = true) :
    (v.subst f).isMap = true := by
  match v, h with
  | .map es, _ => rfl

theorem Value.subst_withId {ρ σ : Type} (f : ρ → Value σ) (name : Text) {v : Value ρ}
    (h : v.isMap = true) : (v.withId name).subst f = (v.subst f).withId name := by
  match v, h with
  | .map es, _ =>
    rw [withId, subst, Entries.substEntries_insert, subst, withId]
    rfl

theorem Value.mem_labels_withId {ρ : Type} {name : Text} {label : ρ} {v : Value ρ}
    (h : label ∈ (v.withId name).labels) : label ∈ v.labels := by
  cases v with
  | map es => exact (mem_entryLabels_insert h).resolve_left List.not_mem_nil
  | scalar s => exact h
  | list items => exact h
  | ref label => exact h

theorem Value.relabel_withId {ρ σ : Type} (f : ρ → σ) (name : Text) (v : Value ρ) :
    (v.withId name).relabel f = (v.relabel f).withId name := by
  cases v with
  | map es => exact subst_withId _ name rfl
  | scalar s => rfl
  | list items => rfl
  | ref label => rfl

theorem Value.withId_withId {ρ : Type} (first second : Text) (v : Value ρ) :
    (v.withId first).withId second = v.withId second := by
  cases v with
  | map es => rw [withId, withId, withId, Entries.insert_insert]
  | scalar s => rfl
  | list items => rfl
  | ref label => rfl

/-- A schema that has its name as its identifier gets a new one with a new name. -/
theorem Value.renameId_of_withId {σ : Type} {old : Text} {v : Linked σ} (h : v.withId old = v)
    (new : Text) : v.renameId old new = v.withId new := by
  cases v with
  | map es =>
    have hget : (Entries.get? identifierKey es).bind text? = some old := by
      rw [withId, Value.map.injEq] at h
      rw [← h, Entries.get?_insert_self]
      rfl
    rw [renameId, if_pos hget, withId]
  | scalar s => rfl
  | list items => rfl
  | ref label => rfl

theorem Closed.withId {known : Text → Prop} {names : List Text} {v : Linked Empty}
    (h : Closed known names v) (name : Text) : Closed known names (v.withId name) :=
  ⟨fun other hother => h.components other (Value.mem_labels_withId hother),
    fun other hother => h.addresses other (Value.mem_refNames_withId hother)⟩

/-- The registry names its schemas apart, and all references in them are to each other. -/
structure Linkage (s : ExtractionSettings) (existing : List Text) (known : Text → Prop)
    (r : Registry Empty) : Prop where
  reserved : r.reserved = existing
  usages : r.usages.keys = r.schemas.keys
  fresh : ∀ name ∈ r.schemas.keys, name ∉ existing
  closed : ∀ entry ∈ r.schemas.entries, Closed known r.schemas.keys entry.2
  isMap : ∀ entry ∈ r.schemas.entries, entry.2.isMap = true
  named : ∀ entry ∈ r.schemas.entries, s.assignIds = true → entry.2.withId entry.1 = entry.2

variable {s : ExtractionSettings} {existing : List Text} {known : Text → Prop}

theorem linkage_empty : Linkage s existing known (.empty existing) :=
  ⟨rfl, rfl, fun _ h => absurd h List.not_mem_nil, fun _ h => absurd h List.not_mem_nil,
    fun _ h => absurd h List.not_mem_nil, fun _ h => absurd h List.not_mem_nil⟩

/-! ### Moving a schema -/

theorem Closed.storedEntries {names : List Text} {entries : Entries (Link Empty)}
    (h : Closed known names (.map entries)) (s : ExtractionSettings) (name : Text) :
    Closed known names (.map (storedEntries s name entries)) := by
  rw [NamedSchemas.storedEntries, Entries.copied_eq]
  split
  · exact h.withId name
  · exact h

theorem withId_storedEntries {σ : Type} (name : Text) (entries : Entries (Link σ))
    (hids : s.assignIds = true) : (Value.map (storedEntries s name entries)).withId name =
      .map (storedEntries s name entries) := by
  rw [storedEntries, if_pos hids, Value.withId, Entries.insert_insert]

theorem Linkage.recordUsage {r t : Registry Empty} (hr : Linkage s existing known r) {name : Text}
    {c : Context} (h : r.recordUsage name c = .ok t) :
    Linkage s existing known t ∧ t.schemas = r.schemas ∧ name ∈ t.schemas.keys := by
  rw [Registry.recordUsage] at h
  split at h
  · next contexts hcontexts =>
    have hmem := Table.mem_keys_of_mem (Table.get?_eq_some_iff.1 hcontexts)
    rw [← Except.ok.inj h]
    refine ⟨⟨hr.reserved, ?_, hr.fresh, hr.closed, hr.isMap, hr.named⟩, rfl, ?_⟩
    · exact (Table.keys_insert_of_mem _ hmem).trans hr.usages
    · rwa [← hr.usages]
  · cases h

theorem Linkage.register {r t : Registry Empty} (hr : Linkage s existing known r) {name : Text}
    {entries : Entries (Link Empty)} (hentries : Closed known r.schemas.keys (.map entries))
    {digest canonical : Text} {c : Context}
    (h : r.register name (.map (NamedSchemas.storedEntries s name entries)) digest canonical c =
      .ok t) :
    Linkage s existing known t ∧ (∀ other ∈ r.schemas.keys, other ∈ t.schemas.keys) ∧
      name ∈ t.schemas.keys := by
  rw [Registry.register] at h
  split at h
  · split at h <;> cases h
  next hfree =>
  rw [Registry.isTaken, Bool.or_eq_true, Table.contains_iff, decide_eq_true_eq, not_or] at hfree
  have hschemas := Table.keys_insert_of_new
    (Value.map (NamedSchemas.storedEntries s name entries)) hfree.1
  have hgrown : ∀ other ∈ r.schemas.keys, other ∈ r.schemas.keys ++ [name] := fun _ hother =>
    List.mem_append_left _ hother
  rw [← Except.ok.inj h]
  refine ⟨⟨hr.reserved, ?_, ?_, ?_, ?_, ?_⟩, ?_, ?_⟩
  · rw [hschemas, Table.keys_insert_of_new _ (by rw [hr.usages]; exact hfree.1), hr.usages]
  · exact Table.forall_mem_keys_insert (hr.reserved ▸ hfree.2) hr.fresh
  · rw [hschemas]
    exact Table.forall_mem_insert ((hentries.storedEntries s name).mono hgrown)
      fun entry hentry => (hr.closed entry hentry).mono hgrown
  · exact Table.forall_mem_insert rfl hr.isMap
  · exact Table.forall_mem_insert (withId_storedEntries name entries) hr.named
  · intro other hother
    rw [hschemas]
    exact hgrown other hother
  · rw [hschemas]
    exact List.mem_append_right _ (List.mem_cons_self ..)

/-- Moving a schema whose references are to schemas of the registry leaves a reference to one. -/
theorem Linkage.hoist {r t : Registry Empty} (hr : Linkage s existing known r)
    {entries : Entries (Link Empty)} (hentries : Closed known r.schemas.keys (.map entries))
    {c : Context} {w : Linked Empty} (h : (hoist s entries c).result r = (.ok w, t)) :
    Linkage s existing known t ∧ (∀ name ∈ r.schemas.keys, name ∈ t.schemas.keys) ∧
      Closed known t.schemas.keys w ∧ w.text? = none := by
  obtain ⟨canonical, name, u, -, rfl, rfl, hstep⟩ := hoist_eq_ok h
  have hreference : name ∈ u.schemas.keys → Closed known u.schemas.keys (.ref (.component name)) := by
    intro hname
    refine ⟨fun other hother => ?_, fun other hother => absurd hother List.not_mem_nil⟩
    cases List.mem_singleton.1 hother
    exact hname
  rcases hstep with ⟨-, hrecord⟩ | ⟨-, -, hregister⟩
  · obtain ⟨hu, hsame, hname⟩ := hr.recordUsage hrecord
    refine ⟨⟨hu.reserved, hu.usages, hu.fresh, hu.closed, hu.isMap, hu.named⟩, fun other hother => ?_,
      hreference hname, rfl⟩
    show other ∈ u.schemas.keys
    rwa [hsame]
  · obtain ⟨hu, hgrown, hname⟩ := hr.register hentries hregister
    exact ⟨⟨hu.reserved, hu.usages, hu.fresh, hu.closed, hu.isMap, hu.named⟩, hgrown, hreference hname, rfl⟩

/-! ### Runs -/

theorem Linkage.mapM {α β : Type} {xs : List α} {f : α → RegistryM Empty β}
    {Q : α → List Text → β → Prop}
    (hmono : ∀ x names more b, (∀ name ∈ names, name ∈ more) → Q x names b → Q x more b)
    (hf : ∀ x ∈ xs, ∀ r t b, Linkage s existing known r → (f x).result r = (.ok b, t) →
      Linkage s existing known t ∧ (∀ name ∈ r.schemas.keys, name ∈ t.schemas.keys) ∧
        Q x t.schemas.keys b)
    {r t : Registry Empty} (hr : Linkage s existing known r) {bs : List β}
    (h : (xs.mapM f).result r = (.ok bs, t)) :
    Linkage s existing known t ∧ (∀ name ∈ r.schemas.keys, name ∈ t.schemas.keys) ∧
      List.Forall₂ (fun x b => Q x t.schemas.keys b) xs bs := by
  induction xs generalizing r bs with
  | nil =>
    obtain ⟨hbs, rfl⟩ := Prod.mk.inj h
    rw [← Except.ok.inj hbs]
    exact ⟨hr, fun _ hname => hname, .nil⟩
  | cons x xs ih =>
    rw [List.mapM_cons, RegistryM.result_bind_eq_ok] at h
    obtain ⟨b, u, hx, h⟩ := h
    rw [RegistryM.result_bind_eq_ok] at h
    obtain ⟨rest, v, hrest, h⟩ := h
    obtain ⟨hbs, rfl⟩ := Prod.mk.inj h
    rw [← Except.ok.inj hbs]
    obtain ⟨hu, hgrown, hb⟩ := hf x (List.mem_cons_self ..) r u b hr hx
    obtain ⟨ht, hmore, hbs⟩ := ih (fun y hy => hf y (List.mem_cons_of_mem x hy)) hu hrest
    exact ⟨ht, fun name hname => hmore name (hgrown name hname),
      .cons (hmono x _ _ b hmore hb) hbs⟩

/-- What stays in the place of a document: its references are to components with these names, and it
is text only where the document is. -/
def Stays (known : Text → Prop) (d : Document) (names : List Text) (w : Linked Empty) : Prop :=
  Closed known names w ∧ w.text? = (Value.ofDocument d : Linked Empty).text?

theorem Stays.mono {d : Document} {names more : List Text} {w : Linked Empty}
    (hsub : ∀ name ∈ names, name ∈ more) (h : Stays known d names w) : Stays known d more w :=
  ⟨h.1.mono hsub, h.2⟩

theorem closed_of_mem_stays {known : Text → Prop} {names : List Text}
    {bodies : List (BodyPlace × Document)} {stays : List (Linked Empty)}
    (h : List.Forall₂ (fun body w => Stays known body.2 names w) bodies stays) :
    ∀ w ∈ stays, Closed known names w := by
  induction h with
  | nil => exact fun _ hw => absurd hw List.not_mem_nil
  | cons hfirst _ ih => exact List.forall_mem_cons.2 ⟨hfirst.1, ih⟩

/-- A document stays when what is put in the places of the schemas inside it does. -/
theorem stays_withInner {d : Document} (hd : ∀ name ∈ d.refNames, known name) {names : List Text}
    {ws : List (Linked Empty)}
    (h : List.Forall₂ (fun part w => Stays known part.2 names w) d.inner ws) :
    Stays known d names (d.withInner ws) := by
  have hlabels := Value.related_withInner
    (Value.congruence_labels fun label => ∃ name ∈ names, label = Link.component name)
    (h.imp fun part w hw label hlabel => Or.inr <| by
      match label, hlabel with
      | .component name, hlabel => exact ⟨name, hw.1.components name hlabel, rfl⟩
      | .identifier schema _, _ => exact schema.elim)
  have hnames := Value.related_withInner (Value.congruence_refNames known)
    (h.imp fun part w hw => ⟨hw.2, fun name hname => Or.inr (hw.1.addresses name hname)⟩)
  refine ⟨⟨fun name hname => ?_, fun name hname => ?_⟩, hnames.1⟩
  · rcases hlabels _ hname with hown | ⟨other, hother, heq⟩
    · rw [Value.labels_ofDocument] at hown
      cases hown
    · cases heq
      exact hother
  · exact (hnames.2 name hname).elim (fun h => hd name (Value.mem_refNames_ofDocument.1 h)) id

theorem Value.mem_refNames_of_mem_inner {d : Document} {part : Document × Document}
    (hpart : part ∈ d.inner) {name : Text} (hname : name ∈ part.2.refNames) : name ∈ d.refNames := by
  have hvalue : ∀ es : Entries Empty, (∀ name ∈ (Value.map es).refNames, name ∈ d.refNames) →
      ∀ entry ∈ es, True ∧ ∀ name ∈ entry.2.refNames, name ∈ d.refNames :=
    fun es hes entry hentry => ⟨trivial, fun name hname => hes name (mem_refNames_of_mem hentry hname)⟩
  exact Traversal.gives_inner (P := fun e => ∀ name ∈ e.refNames, name ∈ d.refNames)
    (R := fun e => ∀ name ∈ e.refNames, name ∈ d.refNames) (K := fun _ => True)
    (Q := fun part => ∀ name ∈ part.2.refNames, name ∈ d.refNames) d.role hvalue hvalue
    (fun _ he => he) (fun _ _ _ he => he) d (fun _ => id) part hpart name hname

/-- The extraction of a document keeps the references of the registry together, and leaves
references to its schemas only. -/
theorem Linkage.extract (d : Document) (hd : ∀ name ∈ d.refNames, known name) (c : Context)
    {r t : Registry Empty} (hr : Linkage s existing known r) {w : Linked Empty}
    (h : (extract s (.ofDocument d) c).result r = (.ok w, t)) :
    Linkage s existing known t ∧ (∀ name ∈ r.schemas.keys, name ∈ t.schemas.keys) ∧
      Stays known d t.schemas.keys w := by
  induction d using Value.schemaInduction generalizing c r t w with
  | step d ih =>
    rw [extract_ofDocument, RegistryM.result_bind_eq_ok] at h
    obtain ⟨v, u, hvisit, h⟩ := h
    obtain ⟨ws, hinner, rfl⟩ := RegistryM.result_map_eq_ok.1 hvisit
    obtain ⟨hu, hgrown, hws⟩ := hr.mapM
      (Q := fun (part : Document × Document) names w => Stays known part.2 names w)
      (fun part names more w hsub hw => hw.mono hsub)
      (fun part hpart r t w hr hw => ih part hpart
        (fun name hname => hd name (Value.mem_refNames_of_mem_inner hpart hname)) _ hr hw) hinner
    have hstays := stays_withInner hd hws
    split at h
    · next hhoisted =>
      have hmap : Value.map (d.withInner ws : Linked Empty).entries = d.withInner ws :=
        Value.map_entries (by rw [Value.isMap_withInner, Value.isMap_of_isHoisted hhoisted])
      obtain ⟨ht, hmore, hw, htext⟩ := hu.hoist (by rw [hmap]; exact hstays.1) h
      refine ⟨ht, fun name hname => hmore name (hgrown name hname), hw, ?_⟩
      rw [htext, Value.text?_ofDocument, Value.text?_of_isMap (Value.isMap_of_isHoisted hhoisted)]
    · obtain ⟨hw, rfl⟩ := Prod.mk.inj h
      rw [← Except.ok.inj hw]
      exact ⟨hu, hgrown, hstays⟩

theorem linkage_visitBodies {digest : Text → Text} {options : ExtractionOptions}
    {document : Document} (hknown : ∀ name ∈ document.refNames, known name)
    {t : Registry Empty} {stays : List (Linked Empty)}
    (h : (visitBodies digest options document).result (.empty existing) = (.ok stays, t)) :
    Linkage ⟨digest, options.assignIds⟩ existing known t ∧
      List.Forall₂ (fun body w => Stays known body.2 t.schemas.keys w)
        (document.bodies options.mediaType) stays := by
  have hvisit : ∀ body ∈ document.bodies options.mediaType, ∀ (r t : Registry Empty) w,
      Linkage ⟨digest, options.assignIds⟩ existing known r →
      (do extract ⟨digest, options.assignIds⟩ (.ofDocument body.2)
            (← RegistryM.ask fun _ => body.1.context) :
          RegistryM Empty (Linked Empty)).result r = (.ok w, t) →
      Linkage ⟨digest, options.assignIds⟩ existing known t ∧
        (∀ name ∈ r.schemas.keys, name ∈ t.schemas.keys) ∧
        Stays known body.2 t.schemas.keys w := by
    intro body hbody r t w hr hw
    obtain ⟨c, u, hask, hw⟩ := RegistryM.result_bind_eq_ok.1 hw
    rw [RegistryM.result_ask] at hask
    obtain ⟨-, rfl⟩ := Prod.mk.inj hask
    exact hr.extract body.2 (fun name hname =>
      hknown name (Value.mem_refNames_of_mem_bodies hbody hname)) c hw
  obtain ⟨ht, -, hstays⟩ := Linkage.mapM
    (Q := fun (body : BodyPlace × Document) names w => Stays known body.2 names w)
    (fun body names more w hsub hw => hw.mono hsub) hvisit linkage_empty h
  exact ⟨ht, hstays⟩

end NamedSchemas
