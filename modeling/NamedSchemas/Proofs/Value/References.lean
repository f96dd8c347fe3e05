import NamedSchemas.Proofs.Value.Subst
/-!
# References to components in documents

A written reference is a map whose only entry is an address. Expanding a document puts values in the
place of written references, and renaming them changes their addresses. Both are substitutions in
the value that the document was written from.
-/

namespace NamedSchemas

variable {ρ σ : Type}

/-- The name that an address refers to. -/
def nameOfAddress? (address : Text) : Option Text :=
  if componentRoot.isPrefixOf address then some (address.drop componentRoot.length) else none

theorem nameOfAddress?_eq_some {address name : Text} :
    nameOfAddress? address = some name ↔ address = componentAddress name := by
  rw [nameOfAddress?, componentAddress]
  constructor
  · intro h
    split at h
    · next hbegins =>
      obtain ⟨rest, rfl⟩ := List.isPrefixOf_iff_prefix.1 hbegins
      rw [List.drop_left, Option.some.injEq] at h
      rw [h]
    · cases h
  · rintro rfl
    have hbegins : componentRoot.isPrefixOf (componentRoot ++ name) = true :=
      List.isPrefixOf_iff_prefix.2 (List.prefix_append _ _)
    rw [hbegins, if_pos rfl, List.drop_left]

theorem nameOfAddress?_componentAddress (name : Text) :
    nameOfAddress? (componentAddress name) = some name := nameOfAddress?_eq_some.2 rfl

/-- The key under which a reference has its address. -/
def addressKey : Scalar := .text (Text.ofString "$ref")

namespace Value

mutual

def refNames : Value ρ → List Text
  | .scalar _ => []
  | .list items => itemRefNames items
  | .map entries => entryRefNames entries
  | .ref _ => []

def itemRefNames : List (Value ρ) → List Text
  | [] => []
  | item :: rest => refNames item ++ itemRefNames rest

def entryRefNames : Entries ρ → List Text
  | [] => []
  | (key, value) :: rest =>
    (if key = addressKey then (value.text?.bind nameOfAddress?).toList else []) ++
      (refNames value ++ entryRefNames rest)

end

mutual

/-- What is read from the addresses in a value. -/
def addressed {α : Type} (f : Text → Option α) : Value ρ → List α
  | .scalar _ => []
  | .list items => addressedItems f items
  | .map entries => addressedEntries f entries
  | .ref _ => []

def addressedItems {α : Type} (f : Text → Option α) : List (Value ρ) → List α
  | [] => []
  | item :: rest => addressed f item ++ addressedItems f rest

def addressedEntries {α : Type} (f : Text → Option α) : Entries ρ → List α
  | [] => []
  | (key, value) :: rest =>
    (if key = addressKey then (value.text?.bind f).toList else []) ++
      (addressed f value ++ addressedEntries f rest)

end

def addresses (v : Value ρ) : List Text := v.addressed some

mutual

theorem refNames_eq_addressed : ∀ v : Value ρ, v.refNames = v.addressed nameOfAddress?
  | .scalar _ => rfl
  | .list items => itemRefNames_eq_addressed items
  | .map entries => entryRefNames_eq_addressed entries
  | .ref _ => rfl

theorem itemRefNames_eq_addressed : ∀ items : List (Value ρ),
    itemRefNames items = addressedItems nameOfAddress? items
  | [] => rfl
  | item :: rest => by
    rw [itemRefNames, addressedItems, refNames_eq_addressed item, itemRefNames_eq_addressed rest]

theorem entryRefNames_eq_addressed : ∀ entries : Entries ρ,
    entryRefNames entries = addressedEntries nameOfAddress? entries
  | [] => rfl
  | (key, value) :: rest => by
    rw [entryRefNames, addressedEntries, refNames_eq_addressed value,
      entryRefNames_eq_addressed rest]

end

/-- The name that a map with these entries refers to when it is a written reference. -/
def referredName? : Entries ρ → Option Text
  | [(key, value)] => if key = addressKey then value.text?.bind nameOfAddress? else none
  | _ => none

mutual

/-- Puts documents in the place of the written references that are looked up. -/
def expand (look : Text → Option Document) : Document → Document
  | .scalar s => .scalar s
  | .list items => .list (expandItems look items)
  | .map entries =>
    match (referredName? entries).bind look with
    | some d => d
    | none => .map (expandEntries look entries)
  | .ref label => .ref label

def expandItems (look : Text → Option Document) : List Document → List Document
  | [] => []
  | item :: rest => expand look item :: expandItems look rest

def expandEntries (look : Text → Option Document) : Entries Empty → Entries Empty
  | [] => []
  | (key, value) :: rest => (key, expand look value) :: expandEntries look rest

end

mutual

/-- Lets the addresses in a document refer to other names. -/
def renameRefs (f : Text → Text) : Document → Document
  | .scalar s => .scalar s
  | .list items => .list (renameRefItems f items)
  | .map entries => .map (renameRefEntries f entries)
  | .ref label => .ref label

def renameRefItems (f : Text → Text) : List Document → List Document
  | [] => []
  | item :: rest => renameRefs f item :: renameRefItems f rest

def renameRefEntries (f : Text → Text) : Entries Empty → Entries Empty
  | [] => []
  | (key, value) :: rest =>
    let name? := if key = addressKey then value.text?.bind nameOfAddress? else none
    (key, match name? with
      | some name => .text (componentAddress (f name))
      | none => renameRefs f value) :: renameRefEntries f rest

end

theorem text?_written (label : Link Empty) : label.written.text? = none := by
  match label with
  | .component name => rfl
  | .identifier schema _ => exact schema.elim

theorem referredName?_mem {entries : Entries ρ} {name : Text}
    (h : referredName? entries = some name) : name ∈ entryRefNames entries := by
  match entries, h with
  | [(key, value)], h =>
    rw [referredName?] at h
    rw [entryRefNames]
    split at h
    · next hkey =>
      rw [if_pos hkey, h]
      exact List.mem_append_left _ (List.mem_singleton.2 rfl)
    · cases h

theorem referredName?_substEntries {f : ρ → Value σ} (hf : ∀ label, (f label).text? = none)
    (entries : Entries ρ) : referredName? (substEntries f entries) = referredName? entries := by
  match entries with
  | [] => rfl
  | [(key, value)] => rw [substEntries, substEntries, referredName?, referredName?, text?_subst hf]
  | first :: second :: rest => rfl

/-! ### Expanding what was written -/

def expanded (look : Text → Option Document) : Link Empty → Document
  | .component name => (look name).getD (Link.component name : Link Empty).written
  | .identifier schema _ => schema.elim

mutual

/-- Expanding a written value puts what is looked up in the place of its references. -/
theorem expand_written {look : Text → Option Document} : ∀ v : Linked Empty,
    (∀ name ∈ v.refNames, look name = none) → expand look v.written = v.subst (expanded look)
  | .scalar _, _ => rfl
  | .list items, h => by
    rw [written, subst, expand, expandItems_written items h, subst]
  | .map entries, h => by
    have hnone : (referredName? (substEntries Link.written entries)).bind look = none := by
      rw [referredName?_substEntries text?_written]
      cases hname : referredName? entries with
      | none => rfl
      | some name => exact h name (referredName?_mem hname)
    rw [written, subst, expand, hnone, expandEntries_written entries h, subst]
  | .ref (.component name), _ => by
    have hname : referredName? [(addressKey, (text (componentAddress name) : Document))] =
        some name := by
      rw [referredName?, if_pos rfl]
      exact nameOfAddress?_componentAddress name
    show expand look (.map [(addressKey, text (componentAddress name))]) = _
    rw [expand, hname, subst, expanded]
    cases hlook : look name with
    | some d => simp only [Option.bind_some, hlook, Option.getD_some]
    | none =>
      simp only [Option.bind_some, hlook, Option.getD_none, expandEntries]
      rfl
  | .ref (.identifier schema _), _ => schema.elim

theorem expandItems_written {look : Text → Option Document} : ∀ items : List (Linked Empty),
    (∀ name ∈ itemRefNames items, look name = none) →
      expandItems look (substItems Link.written items) = substItems (expanded look) items
  | [], _ => rfl
  | item :: rest, h => by
    have hitem := expand_written item fun name hname => h name (List.mem_append_left _ hname)
    rw [written] at hitem
    rw [substItems, expandItems, hitem,
      expandItems_written rest fun name hname => h name (List.mem_append_right _ hname), substItems]

theorem expandEntries_written {look : Text → Option Document} : ∀ entries : Entries (Link Empty),
    (∀ name ∈ entryRefNames entries, look name = none) →
      expandEntries look (substEntries Link.written entries) = substEntries (expanded look) entries
  | [], _ => rfl
  | (key, value) :: rest, h => by
    have hvalue := expand_written value fun name hname =>
      h name (List.mem_append_right _ (List.mem_append_left _ hname))
    rw [written] at hvalue
    rw [substEntries, expandEntries, hvalue, expandEntries_written rest fun name hname =>
      h name (List.mem_append_right _ (List.mem_append_right _ hname)), substEntries]

end

/-! ### Renaming what was written -/

mutual

/-- Renaming in a written value is renaming its references, when addresses that were there already
keep their names. -/
theorem renameRefs_written {f : Text → Text} : ∀ v : Linked Empty,
    (∀ name ∈ v.refNames, f name = name) →
      renameRefs f v.written = (v.relabel (Link.mapName f)).written
  | .scalar _, _ => rfl
  | .list items, h => by
    have hitems := renameRefItems_written items h
    rw [written, subst, renameRefs, hitems]
    rfl
  | .map entries, h => by
    have hentries := renameRefEntries_written entries h
    rw [written, subst, renameRefs, hentries]
    rfl
  | .ref (.component name), _ => by
    show renameRefs f (.map [(addressKey, text (componentAddress name))]) = _
    rw [renameRefs, renameRefEntries, renameRefEntries]
    simp only [if_true, text, text?, Option.bind_some, nameOfAddress?_componentAddress]
    rfl
  | .ref (.identifier schema _), _ => schema.elim

theorem renameRefItems_written {f : Text → Text} : ∀ items : List (Linked Empty),
    (∀ name ∈ itemRefNames items, f name = name) →
      renameRefItems f (substItems Link.written items) =
        substItems Link.written (substItems (fun label => .ref (label.mapName f)) items)
  | [], _ => rfl
  | item :: rest, h => by
    have hitem := renameRefs_written item fun name hname => h name (List.mem_append_left _ hname)
    rw [written] at hitem
    rw [substItems, renameRefItems, hitem, renameRefItems_written rest fun name hname =>
      h name (List.mem_append_right _ hname)]
    rfl

theorem renameRefEntries_written {f : Text → Text} : ∀ entries : Entries (Link Empty),
    (∀ name ∈ entryRefNames entries, f name = name) →
      renameRefEntries f (substEntries Link.written entries) =
        substEntries Link.written (substEntries (fun label => .ref (label.mapName f)) entries)
  | [], _ => rfl
  | (key, value) :: rest, h => by
    have hvalue := renameRefs_written value fun name hname =>
      h name (List.mem_append_right _ (List.mem_append_left _ hname))
    rw [written] at hvalue
    rw [substEntries, renameRefEntries, renameRefEntries_written rest fun name hname =>
      h name (List.mem_append_right _ (List.mem_append_right _ hname)), text?_subst text?_written,
      substEntries, substEntries]
    congr 2
    cases hname : (if key = addressKey then value.text?.bind nameOfAddress? else none) with
    | none => exact hvalue
    | some name =>
      have hkeep := h name (List.mem_append_left _ (by
        split at hname
        · next hkey => rw [if_pos hkey, hname]; exact List.mem_singleton.2 rfl
        · cases hname))
      split at hname
      · obtain ⟨address, haddress, hname⟩ := Option.bind_eq_some_iff.1 hname
        have hvalue : value = text (componentAddress name) := by
          rw [← nameOfAddress?_eq_some.1 hname]
          match value, haddress with
          | .scalar (.text t), haddress => exact congrArg text (Option.some.inj haddress)
        rw [hvalue]
        show text (componentAddress (f name)) = _
        rw [hkeep]
        rfl
      · cases hname

end

/-! ### Names in what was put together -/

section Subst

variable {f : ρ → Value σ}

mutual

theorem mem_refNames_subst (hf : ∀ label, (f label).text? = none) (name : Text) : ∀ v : Value ρ,
    name ∈ (v.subst f).refNames ↔
      name ∈ v.refNames ∨ ∃ label ∈ v.labels, name ∈ (f label).refNames
  | .scalar _ => by simp [subst, refNames, labels]
  | .list items => by
    rw [subst, refNames, refNames, labels]
    exact mem_itemRefNames_subst hf name items
  | .map entries => by
    rw [subst, refNames, refNames, labels]
    exact mem_entryRefNames_subst hf name entries
  | .ref label => by simp [subst, refNames, labels]

theorem mem_itemRefNames_subst (hf : ∀ label, (f label).text? = none) (name : Text) :
    ∀ items : List (Value ρ), name ∈ itemRefNames (substItems f items) ↔
      name ∈ itemRefNames items ∨ ∃ label ∈ itemLabels items, name ∈ (f label).refNames
  | [] => by simp [substItems, itemRefNames, itemLabels]
  | item :: rest => by
    simp only [substItems, itemRefNames, itemLabels, List.mem_append,
      mem_refNames_subst hf name item, mem_itemRefNames_subst hf name rest, or_and_right, exists_or]
    exact or_or_or_comm

theorem mem_entryRefNames_subst (hf : ∀ label, (f label).text? = none) (name : Text) :
    ∀ entries : Entries ρ, name ∈ entryRefNames (substEntries f entries) ↔
      name ∈ entryRefNames entries ∨ ∃ label ∈ entryLabels entries, name ∈ (f label).refNames
  | [] => by simp [substEntries, entryRefNames, entryLabels]
  | (key, value) :: rest => by
    simp only [substEntries, entryRefNames, entryLabels, List.mem_append, text?_subst hf,
      mem_refNames_subst hf name value, mem_entryRefNames_subst hf name rest, or_and_right,
      exists_or, or_assoc]
    rw [or_left_comm (b := name ∈ entryRefNames rest)]

end

end Subst

theorem refNames_componentAddress (name : Text) :
    (Link.component name : Link Empty).written.refNames = [name] := by
  show refNames (.map [(addressKey, text (componentAddress name))] : Document) = [name]
  simp only [refNames, entryRefNames, if_true, text, text?, Option.bind_some,
    nameOfAddress?_componentAddress, Option.toList_some, List.append_nil]

/-- The names in a written value are those that addresses in it refer to and those of its
references. -/
theorem mem_refNames_written {name : Text} {v : Linked Empty} :
    name ∈ v.written.refNames ↔ name ∈ v.refNames ∨ Link.component name ∈ v.labels := by
  rw [written, mem_refNames_subst text?_written]
  refine or_congr_right ⟨?_, fun h => ⟨_, h, ?_⟩⟩
  · rintro ⟨label, hlabel, hname⟩
    match label, hlabel, hname with
    | .component other, hlabel, hname =>
      rw [refNames_componentAddress, List.mem_singleton] at hname
      rwa [hname]
    | .identifier schema _, _, _ => exact schema.elim
  · rw [refNames_componentAddress]
    exact List.mem_singleton.2 rfl

theorem mem_refNames_ofDocument {name : Text} {d : Document} :
    name ∈ (ofDocument d : Value ρ).refNames ↔ name ∈ d.refNames := by
  rw [ofDocument, mem_refNames_subst fun label => label.elim]
  constructor
  · rintro (h | ⟨label, -⟩)
    · exact h
    · exact label.elim
  · exact Or.inl

end Value

end NamedSchemas
