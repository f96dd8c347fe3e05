import NamedSchemas.Proofs.Document.Frame
import NamedSchemas.Proofs.Shared.Extraction
/-!
# Documents whose bodies stand in one place

What an extraction assigns, it assigns to the media types of the bodies and to the named schemas.
When no shared value is on the way to them, no shared value changes. Then the extraction from a
document is that from its tree, whatever else is shared in it: schemas, parts of schemas and all
that is not visited.
-/

namespace NamedSchemas

variable {ρ σ : Type} {d : SharedDocument}

/-! ### The ways to what changes -/

namespace Value

/-- Is the value no shared one, and do its entries pass a test? -/
def ownsEach (p : Scalar → Value (Position ρ) → Bool) : Value (Position ρ) → Bool
  | .map entries => entries.all fun entry => p entry.1 entry.2
  | v => v.isOwn

/-- Is the value no shared one, and does what it has under a key pass a test? -/
def ownsAt (key : Text) (p : Value (Position ρ) → Bool) : Value (Position ρ) → Bool :=
  ownsEach fun k v => k ≠ .text key || p v

/-- Is nothing shared on the way to the schema that a body has for a media type? -/
def ownsSchema (mediaType : Text) : Value (Position ρ) → Bool :=
  ownsAt "content" (ownsAt mediaType (ownsAt "schema" fun _ => true))

def ownsOperation (mediaType : Text) (v : Value (Position ρ)) : Bool :=
  v.ownsAt "responses" (ownsEach fun _ => ownsSchema mediaType) &&
    v.ownsAt "requestBody" (ownsSchema mediaType)

/-- Is nothing shared on the ways to the schemas of the bodies? -/
def ownsBodies (mediaType : Text) : Value (Position ρ) → Bool :=
  ownsAt "paths" (ownsEach fun _ => ownsEach fun key v =>
    !(methodOf? key).isSome || ownsOperation mediaType v)

/-- Is the value no shared one, and does what is found in it under a key pass a test? -/
def ownsUnder (key : Text) (p : Value (Position ρ) → Bool) : Value (Position ρ) → Bool
  | .map entries => (Entries.get? key entries).all p
  | v => v.isOwn

/-- Is nothing shared on the way to the named schemas? -/
def ownsSchemas : Value (Position ρ) → Bool :=
  ownsUnder "components" (ownsUnder "schemas" isOwn)

theorem isOwn_of_ownsEach {p : Scalar → Value (Position ρ) → Bool} {v : Value (Position ρ)}
    (h : v.ownsEach p = true) : v.isOwn = true := by
  cases v with
  | map entries => rfl
  | scalar s => rfl
  | list items => rfl
  | ref position => exact h

theorem isOwn_of_ownsUnder {key : Text} {p : Value (Position ρ) → Bool} {v : Value (Position ρ)}
    (h : v.ownsUnder key p = true) : v.isOwn = true := by
  cases v with
  | map entries => rfl
  | scalar s => rfl
  | list items => rfl
  | ref position => exact h

/-! ### Labels do not matter -/

section Relabel

variable (f : ρ → σ)

theorem isOwn_relabel (v : Value (Position ρ)) : (v.relabel (.map f)).isOwn = v.isOwn := by
  cases v with
  | ref position => cases position <;> rfl
  | scalar s => rfl
  | list items => rfl
  | map entries => rfl

theorem ownsEach_relabel {p : Scalar → Value (Position ρ) → Bool}
    {q : Scalar → Value (Position σ) → Bool} (h : ∀ key v, q key (v.relabel (.map f)) = p key v)
    (v : Value (Position ρ)) : (v.relabel (.map f)).ownsEach q = v.ownsEach p := by
  cases v with
  | map entries =>
    rw [relabel, subst, substEntries_eq_map, ownsEach, ownsEach, List.all_map]
    exact congrArg (List.all entries) (funext fun entry => h entry.1 entry.2)
  | ref position => exact isOwn_relabel f _
  | scalar s => rfl
  | list items => rfl

theorem ownsAt_relabel {key : Text} {p : Value (Position ρ) → Bool} {q : Value (Position σ) → Bool}
    (h : ∀ v, q (v.relabel (.map f)) = p v) (v : Value (Position ρ)) :
    (v.relabel (.map f)).ownsAt key q = v.ownsAt key p :=
  ownsEach_relabel f (fun k v => by rw [h]) v

theorem ownsSchema_relabel (mediaType : Text) (v : Value (Position ρ)) :
    (v.relabel (.map f)).ownsSchema mediaType = v.ownsSchema mediaType :=
  ownsAt_relabel f (ownsAt_relabel f (ownsAt_relabel f fun _ => rfl)) v

theorem ownsBodies_relabel (mediaType : Text) (v : Value (Position ρ)) :
    (v.relabel (.map f)).ownsBodies mediaType = v.ownsBodies mediaType := by
  refine ownsAt_relabel f (ownsEach_relabel f fun _ => ownsEach_relabel f fun key v => ?_) v
  rw [ownsOperation, ownsOperation, ownsAt_relabel f (ownsSchema_relabel f mediaType),
    ownsAt_relabel f (ownsEach_relabel f fun _ => ownsSchema_relabel f mediaType)]

theorem ownsUnder_relabel {key : Text} {p : Value (Position ρ) → Bool}
    {q : Value (Position σ) → Bool} (h : ∀ v, q (v.relabel (.map f)) = p v)
    (v : Value (Position ρ)) : (v.relabel (.map f)).ownsUnder key q = v.ownsUnder key p := by
  cases v with
  | map entries =>
    rw [relabel, subst, ownsUnder, ownsUnder, Entries.get?_substEntries, Option.all_map]
    exact congrArg (Option.all · _) (funext h)
  | ref position => exact isOwn_relabel f _
  | scalar s => rfl
  | list items => rfl

theorem ownsSchemas_relabel (v : Value (Position ρ)) :
    (v.relabel (.map f)).ownsSchemas = v.ownsSchemas :=
  ownsUnder_relabel f (ownsUnder_relabel f (isOwn_relabel f)) v

end Relabel

/-! ### What a visit leaves -/

theorem ownsAt_of_differsAt {key other : Text} (hne : other ≠ key)
    {R : Value (Position ρ) → Value (Position ρ) → Prop} {p : Value (Position ρ) → Bool}
    {v w : Value (Position ρ)} (h : v.DiffersAt key R w) (hv : v.ownsAt other p = true) :
    w.ownsAt other p = true := by
  cases v with
  | map entries =>
    obtain ⟨es, rfl, hes⟩ := h
    rw [ownsAt, ownsEach] at hv ⊢
    induction hes with
    | nil => rfl
    | cons hentry _ ih =>
      obtain ⟨hkey, hdiffers⟩ := hentry
      rw [List.all_cons, Bool.and_eq_true] at hv ⊢
      refine ⟨?_, ih hv.2⟩
      split at hdiffers
      · next heq =>
        rw [← hkey, heq]
        simp [Ne.symm hne]
      · rw [← hkey, hdiffers]
        exact hv.1
  | scalar s => rwa [show w = .scalar s from h]
  | list items => rwa [show w = .list items from h]
  | ref position => rwa [show w = .ref position from h]

theorem get?_of_differsAt {key other : Text} (hne : other ≠ key) {R : Value ρ → Value ρ → Prop}
    {es fs : Entries ρ} (h : DiffersAt key R (.map es) (.map fs)) :
    Entries.get? other fs = Entries.get? other es := by
  obtain ⟨_, heq, hes⟩ := h
  cases heq
  induction hes with
  | nil => rfl
  | @cons e f _ _ hentry _ ih =>
    obtain ⟨hkey, hdiffers⟩ := hentry
    rw [Entries.get?_cons, Entries.get?_cons, ih, ← hkey]
    split at hdiffers
    · next heq => rw [if_neg, if_neg] <;> simp [heq, Ne.symm hne]
    · rw [hdiffers]

theorem ownsAt_insert {key other : Text} (hne : other ≠ key) {p : Value (Position ρ) → Bool}
    {es : Entries (Position ρ)} (h : (map es).ownsAt key p = true) (v : Value (Position ρ)) :
    (map (Entries.insert (.text other) v es)).ownsAt key p = true := by
  rw [ownsAt, ownsEach, List.all_eq_true] at h ⊢
  intro entry hentry
  by_cases hother : entry.1 = .text other
  · simp [hother, hne]
  · refine h entry ?_
    cases hcontains : Entries.contains other es with
    | true =>
      rw [Entries.insert_of_contains v hcontains] at hentry
      obtain ⟨before, hbefore, rfl⟩ := List.mem_map.1 hentry
      dsimp only at hother ⊢
      rwa [if_neg hother]
    | false =>
      rw [Entries.insert_of_not_contains v hcontains, List.mem_append, List.mem_singleton] at hentry
      rcases hentry with hold | rfl
      · exact hold
      · exact absurd rfl hother

end Value

/-! ### Visiting the bodies -/

namespace Shared

theorem enter_of_isOwn {v : SharedValue} (h : v.isOwn = true)
    (visit : SharedValue → SharedM SharedValue) : enter visit v = visit v := by
  match v with
  | .ref (.own _) => rfl
  | .scalar _ => rfl
  | .list _ => rfl
  | .map _ => rfl

theorem operationId?_tree {v : SharedValue} (h : v.isOwn = true) :
    (d.links.tree v).operationId? = v.operationId? := by
  match v with
  | .map entries =>
    show (Entries.get? "operationId" (Value.substEntries d.links.meaning entries)).bind
      Value.text? = (Entries.get? "operationId" entries).bind Value.text?
    rw [Entries.get?_substEntries, Option.bind_map]
    exact congrArg _ (funext fun v => Value.text?_subst (Sharing.text?_meaning d.links_isProper) v)
  | .ref (.own link) =>
    rw [Sharing.tree, Value.subst, Sharing.meaning_own]
    rfl
  | .scalar _ => rfl
  | .list _ => rfl

section Visits

variable {P : Scalar → SharedValue → SharedValue → Prop}
  {test : Scalar → SharedValue → Bool} {p : SharedValue → Bool}

theorem eachEntryM_mirrors {f : Scalar → SharedValue → SharedM SharedValue}
    {g : Scalar → Linked Empty → RegistryM Empty (Linked Empty)}
    (h : ∀ key v, test key v = true →
      Mirrors d (fun a b => P key v a ∧ TreeOf d a b) (f key v) (g key (d.links.tree v)))
    {v : SharedValue} (hv : v.ownsEach test = true) :
    Mirrors d (fun a b => v.DiffersIn P a ∧ TreeOf d a b) (v.eachEntryM f)
      ((d.links.tree v).eachEntryM g) := by
  match v with
  | .map entries =>
    rw [Value.ownsEach, List.all_eq_true] at hv
    have hvisits := Mirrors.mapEntries fun entry hentry => h entry.1 entry.2 (hv entry hentry)
    refine hvisits.bind fun es fs hes => .pure ⟨⟨es, rfl, hes.1⟩, ?_⟩
    rw [hes.2]
    rfl
  | .ref (.own link) =>
    rw [Sharing.tree, Value.subst, Sharing.meaning_own]
    exact .pure ⟨rfl, (Sharing.meaning_own _ _).symm⟩
  | .scalar _ => exact .pure ⟨rfl, rfl⟩
  | .list _ => exact .pure ⟨rfl, rfl⟩

theorem atKeyM_mirrors {key : Text} {f : SharedValue → SharedM SharedValue}
    {g : Linked Empty → RegistryM Empty (Linked Empty)}
    (h : ∀ v, p v = true → Mirrors d (TreeOf d) (f v) (g (d.links.tree v)))
    {v : SharedValue} (hv : v.ownsAt key p = true) :
    Mirrors d (fun a b => v.DiffersAt key (fun _ _ => True) a ∧ TreeOf d a b) (v.atKeyM key f)
      ((d.links.tree v).atKeyM key g) := by
  refine eachEntryM_mirrors (fun k w hw => ?_) hv
  by_cases hkey : k = .text key
  · simp only [hkey, ne_eq, not_true, decide_false, Bool.false_or] at hw
    simp only [if_pos hkey]
    exact (h w hw).imp fun a b hab => ⟨trivial, hab⟩
  · simp only [if_neg hkey]
    exact .pure ⟨rfl, rfl⟩

/-- Entering a map that is no shared one is visiting it. -/
theorem enterEach_mirrors {f : Scalar → SharedValue → SharedM SharedValue}
    {g : Scalar → Linked Empty → RegistryM Empty (Linked Empty)}
    (h : ∀ key v, test key v = true → Mirrors d (TreeOf d) (f key v) (g key (d.links.tree v)))
    {v : SharedValue} (hv : v.ownsEach test = true) :
    Mirrors d (TreeOf d) (enter (Value.eachEntryM f) v)
      (id (Value.eachEntryM g) (d.links.tree v)) := by
  rw [enter_of_isOwn (Value.isOwn_of_ownsEach hv)]
  have hvisits := eachEntryM_mirrors (P := fun _ _ _ => True) (fun key w hw =>
    (h key w hw).imp fun a b hab => ⟨trivial, hab⟩) hv
  exact hvisits.imp fun a b hab => hab.2

theorem enterAt_mirrors {key : Text} {f : SharedValue → SharedM SharedValue}
    {g : Linked Empty → RegistryM Empty (Linked Empty)}
    (h : ∀ v, p v = true → Mirrors d (TreeOf d) (f v) (g (d.links.tree v)))
    {v : SharedValue} (hv : v.ownsAt key p = true) :
    Mirrors d (TreeOf d) (enter (Value.atKeyM key f) v)
      (id (Value.atKeyM key g) (d.links.tree v)) := by
  rw [enter_of_isOwn (Value.isOwn_of_ownsEach hv)]
  exact (atKeyM_mirrors h hv).imp fun a b hab => hab.2

end Visits

section Bodies

variable {mediaType : Text}

theorem mediaSchemaM_mirrors {f : SharedValue → SharedM SharedValue}
    {g : Linked Empty → RegistryM Empty (Linked Empty)}
    (h : ∀ v, Mirrors d (TreeOf d) (f v) (g (d.links.tree v))) {v : SharedValue}
    (hv : v.ownsSchema mediaType = true) : Mirrors d (TreeOf d) (v.mediaSchemaM enter mediaType f)
      ((d.links.tree v).mediaSchemaM id mediaType g) :=
  enterAt_mirrors (fun _ hcontent => enterAt_mirrors (fun _ hmedia =>
    enterAt_mirrors (fun schema _ => h schema) hmedia) hcontent) hv

variable {f : SharedValue → BodyPlace → SharedM SharedValue}
  {g : Linked Empty → BodyPlace → RegistryM Empty (Linked Empty)}
  (h : ∀ v place, Mirrors d (TreeOf d) (f v place) (g (d.links.tree v) place))

include h

theorem operationBodiesM_mirrors (path : Scalar) {v : SharedValue}
    (hv : v.ownsOperation mediaType = true) :
    Mirrors d (TreeOf d) (v.operationBodiesM enter mediaType f path)
      ((d.links.tree v).operationBodiesM id mediaType g path) := by
  rw [Value.ownsOperation, Bool.and_eq_true] at hv
  have hown := Value.isOwn_of_ownsEach hv.1
  have hne : Text.ofString "requestBody" ≠ Text.ofString "responses" := by decide +kernel
  rw [Value.operationBodiesM, enter_of_isOwn hown, Value.operationBodiesM, id,
    operationId?_tree hown]
  have hrole : ∀ role w, w.ownsSchema mediaType = true →
      Mirrors d (TreeOf d)
        (w.mediaSchemaM enter mediaType fun schema => f schema ⟨path, v.operationId?, role⟩)
        ((d.links.tree w).mediaSchemaM id mediaType fun schema =>
          g schema ⟨path, v.operationId?, role⟩) :=
    fun role w => mediaSchemaM_mirrors fun schema => h schema ⟨path, v.operationId?, role⟩
  refine (atKeyM_mirrors (fun w hw => enterEach_mirrors (fun status =>
    hrole (.response status)) hw) hv.1).bind fun a b hab => ?_
  rw [hab.2]
  have hrequest := Value.ownsAt_of_differsAt hne hab.1 hv.2
  exact (atKeyM_mirrors (hrole .request) hrequest).imp fun a b hab => hab.2

theorem bodiesM_mirrors {v : SharedValue} (hv : v.ownsBodies mediaType = true) :
    Mirrors d (fun a b => v.DiffersAt "paths" (fun _ _ => True) a ∧ TreeOf d a b)
      (v.bodiesM enter mediaType f) ((d.links.tree v).bodiesM id mediaType g) := by
  refine atKeyM_mirrors (fun paths hpaths => enterEach_mirrors (fun path item hitem =>
    enterEach_mirrors (fun key operation hoperation => ?_) hitem) hpaths) hv
  split
  · next hmethod =>
    rw [hmethod] at hoperation
    exact operationBodiesM_mirrors h path hoperation
  · exact .pure rfl

end Bodies

/-! ### The named schemas -/

theorem changeMap_own {key : Text} {fault : Fault} {p : SharedValue → Bool}
    (hp : ∀ v, p v = true → v.isOwn = true) (hempty : p (.map []) = true)
    {entries : Entries (Position (Link Empty))} {read : Entries (Link Empty)}
    (hread : subMap key fault (Value.substEntries d.links.meaning entries) = .ok read)
    (hv : (Value.map entries).ownsUnder key p = true) :
    ∃ inner, p (.map inner) = true ∧ read = Value.substEntries d.links.meaning inner ∧
      ∀ change, changeMap key change (.map entries) = (do
        let v ← change (.map inner)
        pure (.map (Entries.insert (.text key) v entries))) := by
  rw [subMap, Entries.get?_substEntries] at hread
  rw [Value.ownsUnder] at hv
  cases hget : Entries.get? key entries with
  | none =>
    rw [hget] at hread
    exact ⟨[], hempty, (Except.ok.inj hread).symm, fun change => by rw [changeMap, hget]⟩
  | some v =>
    rw [hget] at hread hv
    cases v with
    | map inner =>
      exact ⟨inner, hv, (Except.ok.inj hread).symm, fun change => by rw [changeMap, hget]; rfl⟩
    | ref position =>
      cases position with
      | own link =>
        rw [Option.map_some, Value.subst, Sharing.meaning_own] at hread
        cases hread
      | shared n => cases hp _ hv
    | list items => cases hread
    | scalar s =>
      cases s with
      | null =>
        exact ⟨[], hempty, (Except.ok.inj hread).symm, fun change => by rw [changeMap, hget]⟩
      | _ => cases hread

theorem substEntries_putAll_tree (added : List (Text × SharedValue))
    (entries : Entries (Position (Link Empty))) :
    Value.substEntries d.links.meaning (putAll added entries) =
      putAll (added.map fun pair => (pair.1, d.links.tree pair.2))
        (Value.substEntries d.links.meaning entries) := by
  induction added generalizing entries with
  | nil => rfl
  | cons pair rest ih =>
    rw [putAll, List.foldl_cons, ← putAll, ih, Entries.substEntries_insert]
    rfl

theorem exists_of_bind_eq_ok {ε α β : Type} {x : Except ε α} {f : α → Except ε β} {b : β}
    (h : x >>= f = .ok b) : ∃ a, x = .ok a ∧ f a = .ok b := by
  cases x with
  | ok a => exact ⟨a, rfl, h⟩
  | error e => cases h

theorem parts_of_eq_ok {v : Linked Empty} {parts : Parts} :
    Parts.of v = .ok parts ↔ v = .map parts.entries ∧
      subMap "components" .componentsNotObject parts.entries = .ok parts.components ∧
      subMap "schemas" .schemasNotObject parts.components = .ok parts.schemas := by
  constructor
  · intro h
    match v with
    | .map es =>
      obtain ⟨components, hcomponents, h⟩ := exists_of_bind_eq_ok h
      obtain ⟨schemas, hschemas, h⟩ := exists_of_bind_eq_ok h
      cases h
      exact ⟨rfl, hcomponents, hschemas⟩
    | .scalar _ => cases h
    | .list _ => cases h
    | .ref _ => cases h
  · rintro ⟨rfl, hcomponents, hschemas⟩
    rw [Parts.of]
    dsimp only [bind, Except.bind]
    rw [hcomponents]
    dsimp only
    rw [hschemas]
    rfl

theorem addSchemas_own {root : SharedValue} {parts : Parts}
    (hparts : Parts.of (d.links.tree root) = .ok parts) (hroot : root.ownsSchemas = true)
    (added : List (Text × SharedValue)) :
    ∃ entries components schemas root', root = .map entries ∧
      root' = .map (Entries.insert (.text "components")
        (.map (Entries.insert (.text "schemas") (.map schemas) components)) entries) ∧
      addSchemas added root = pure root' ∧
      NamedSchemas.addSchemas (added.map fun pair => (pair.1, d.links.tree pair.2))
        (d.links.tree root) = .ok (d.links.tree root') := by
  obtain ⟨htree, hcomponents, hschemas⟩ := parts_of_eq_ok.1 hparts
  match root with
  | .map entries =>
    have hentries : parts.entries = Value.substEntries d.links.meaning entries :=
      (Value.map.inj htree).symm
    rw [hentries] at hcomponents
    obtain ⟨components, hown, hread, hchange⟩ :=
      changeMap_own (fun _ => Value.isOwn_of_ownsUnder) rfl hcomponents hroot
    rw [hread] at hschemas
    obtain ⟨schemas, -, hread', hchange'⟩ := changeMap_own (fun _ h => h) rfl hschemas hown
    refine ⟨entries, components, putAll added schemas, _, rfl, rfl, ?_, ?_⟩
    · rw [addSchemas, hchange, hchange']
      rfl
    · rw [NamedSchemas.addSchemas, hparts]
      show Except.ok (Parts.document ⟨parts.entries, parts.components,
        putAll (added.map fun pair => (pair.1, d.links.tree pair.2)) parts.schemas⟩) = _
      rw [hread', ← substEntries_putAll_tree, Parts.document, hentries, hread, Sharing.tree,
        Value.subst, Entries.substEntries_insert, Value.subst, Entries.substEntries_insert, Value.subst]
  | .ref (.own link) =>
    rw [Sharing.tree, Value.subst, Sharing.meaning_own] at htree
    cases htree
  | .scalar _ => cases htree
  | .list _ => cases htree

/-! ### The whole extraction -/

/-- The map of named schemas of a document, and the map in which it is, are where they belong. -/
def HoldsSchemas (v : SharedValue) : Prop :=
  ∃ entries components schemas, v = .map entries ∧
    Entries.get? "components" entries = some (.map components) ∧
    Entries.get? "schemas" components = some (.map schemas)

namespace HoldsSchemas

variable {v w : SharedValue}

theorem of_insert (entries components schemas : Entries (Position (Link Empty))) :
    HoldsSchemas (.map (Entries.insert (.text "components")
      (.map (Entries.insert (.text "schemas") (.map schemas) components)) entries)) :=
  ⟨_, _, schemas, rfl, Entries.get?_insert_self _, Entries.get?_insert_self _⟩

theorem of_differsAt (hv : HoldsSchemas v)
    (h : v.DiffersAt "paths" (fun _ _ => True) w) : HoldsSchemas w := by
  obtain ⟨entries, components, schemas, rfl, hcomponents, hschemas⟩ := hv
  have hne : Text.ofString "components" ≠ Text.ofString "paths" := by decide +kernel
  obtain ⟨fs, rfl, hfs⟩ := id h
  refine ⟨fs, components, schemas, rfl, ?_, hschemas⟩
  rw [Value.get?_of_differsAt hne h, hcomponents]

theorem relabel (hv : HoldsSchemas v) (f : Link Empty → Link Empty) :
    HoldsSchemas (v.relabel (.map f)) := by
  obtain ⟨entries, components, schemas, rfl, hcomponents, hschemas⟩ := hv
  refine ⟨_, Value.substEntries (fun position => .ref (position.map f)) components,
    Value.substEntries (fun position => .ref (position.map f)) schemas, rfl, ?_, ?_⟩
  · rw [Entries.get?_substEntries, hcomponents]
    rfl
  · rw [Entries.get?_substEntries, hschemas]
    rfl

theorem isOwn (hv : HoldsSchemas v) : v.isOwn = true := by
  obtain ⟨entries, -, -, rfl, -⟩ := hv
  rfl

theorem ownsSchemas (hv : HoldsSchemas v) : v.ownsSchemas = true := by
  obtain ⟨entries, components, schemas, rfl, hcomponents, hschemas⟩ := hv
  rw [Value.ownsSchemas, Value.ownsUnder, hcomponents, Option.all_some, Value.ownsUnder, hschemas]
  rfl

theorem exists_parts (hv : HoldsSchemas v) : ∃ parts, Parts.of (d.links.tree v) = .ok parts := by
  obtain ⟨entries, components, schemas, rfl, hcomponents, hschemas⟩ := hv
  refine ⟨⟨Value.substEntries d.links.meaning entries, Value.substEntries d.links.meaning components,
    Value.substEntries d.links.meaning schemas⟩, parts_of_eq_ok.2 ⟨rfl, ?_, ?_⟩⟩
  · rw [subMap, Entries.get?_substEntries, hcomponents]
    rfl
  · rw [subMap, Entries.get?_substEntries, hschemas]
    rfl

end HoldsSchemas

theorem visit_mirrors (digest : Text → Text) (options : ExtractionOptions) (v : SharedValue)
    (place : BodyPlace) :
    Mirrors d (TreeOf d) (do
      let c ← onRegistry (RegistryM.ask fun _ => place.context)
      let shared := (← get).shared
      let depth := (shared.tree v).depth + 1
      pure ((← extract ⟨digest, options.assignIds⟩ shared depth v c).getD v))
      (do
        NamedSchemas.extract ⟨digest, options.assignIds⟩ (d.links.tree v)
          (← RegistryM.ask fun _ => place.context)) := by
  refine (Mirrors.ask _).bind fun c _ hc => ?_
  subst hc
  refine Mirrors.get_bind fun w hw => ?_
  rw [hw.shared, ← map_eq_pure_bind, ← id_map (NamedSchemas.extract _ _ _)]
  exact (extract_mirrors _ v c (Nat.lt_succ_self _)).map fun a b hab => hab

/-- The components are put among the named schemas as the registered schemas are. -/
theorem complete_mirrors {v : SharedValue} (hv : HoldsSchemas v) (created : List Text)
    (plan : List (Text × Text)) :
    Mirrors d (fun a b => b = (d.links.tree a.1, a.2)) (do
        let w ← get
        let root ← enter (addSchemas w.components.entries)
          (v.relabel (.map (.mapName (renamedBy plan))))
        pure (root, created, plan)) (do
      let complete ← RegistryM.ask fun r =>
        NamedSchemas.addSchemas r.schemas.entries ((d.links.tree v).renameAll plan)
      pure (complete, created, plan)) := by
  intro w hw
  have hrenamed := hv.relabel (.mapName (renamedBy plan))
  obtain ⟨parts, hparts⟩ := hrenamed.exists_parts (d := d)
  obtain ⟨-, -, -, root, -, -, hadd, htree⟩ :=
    addSchemas_own hparts hrenamed.ownsSchemas w.components.entries
  have hentries : w.registry.schemas.entries =
      w.components.entries.map fun pair => (pair.1, d.links.tree pair.2) := by
    rw [hw.schemas, Table.entries_mapValues]
  have hcomplete : (RegistryM.ask fun r => NamedSchemas.addSchemas r.schemas.entries
      ((d.links.tree v).renameAll plan)).result w.registry =
        (.ok (d.links.tree root), w.registry) := by
    rw [RegistryM.result_ask, hentries, Value.renameAll, ← d.tree_relabel, htree]
  rw [SharedM.result_bind_of_ok (SharedM.result_get w), enter_of_isOwn hrenamed.isOwn, hadd,
    pure_bind, RegistryM.result_bind_of_ok hcomplete]
  exact ⟨_, rfl, rfl, hw⟩

/-- The extraction from a document and the putting together of its result. -/
theorem extractBodies_mirrors (digest : Text → Text) (options : ExtractionOptions)
    {root : SharedValue} {parts : Parts} (hparts : Parts.of (d.links.tree root) = .ok parts)
    (hbodies : root.ownsBodies options.mediaType = true) (hschemas : root.ownsSchemas = true) :
    Mirrors d (fun a b => b = (d.links.tree a.1, a.2)) (extractBodies digest options root) (do
      let (visited, created, plan) ← NamedSchemas.extractBodies digest options parts.document
      let complete ← RegistryM.ask fun r => NamedSchemas.addSchemas r.schemas.entries visited
      pure (complete, created, plan)) := by
  obtain ⟨entries, components, schemas, root', rfl, rfl, hadd, htree⟩ :=
    addSchemas_own hparts hschemas []
  have hdocument : parts.document = d.links.tree (.map (Entries.insert (.text "components")
      (.map (Entries.insert (.text "schemas") (.map schemas) components)) entries)) := by
    rw [NamedSchemas.addSchemas, hparts] at htree
    exact Except.ok.inj htree
  have hbegun := HoldsSchemas.of_insert entries components schemas
  rw [extractBodies, enter_of_isOwn (Value.isOwn_of_ownsUnder hschemas), hadd, hdocument,
    NamedSchemas.extractBodies]
  simp only [bind_assoc, pure_bind]
  rw [enter_of_isOwn hbegun.isOwn]
  have hne : Text.ofString "components" ≠ Text.ofString "paths" := by decide +kernel
  refine (bodiesM_mirrors (visit_mirrors digest options)
    (Value.ownsAt_insert hne hbodies _)).bind fun a b hab => ?_
  refine Mirrors.get.bind fun w r hw => ?_
  have hholds := hbegun.of_differsAt hab.1
  rw [← hw.2, hab.2]
  cases options.shortenNames with
  | true =>
    simp only [if_true, bind_assoc, pure_bind]
    refine shorten_mirrors.bind fun plan _ hplan => ?_
    subst hplan
    exact complete_mirrors hholds _ plan
  | false =>
    simp only [Bool.false_eq_true, if_false, pure_bind]
    exact complete_mirrors hholds _ []

end Shared

/-- Are the ways to the bodies and to the named schemas of a document not shared? -/
def SharedDocument.ownsPlaces (mediaType : Text) (d : SharedDocument) : Bool :=
  d.root.ownsBodies mediaType && d.root.ownsSchemas

theorem extractWith_of_parts (digest : Text → Text) (options : ExtractionOptions)
    {document : Document} {parts : Parts} (h : Parts.of (.ofDocument document) = .ok parts) :
    extractWith digest options document =
      match RegistryM.result (do
          let (visited, created, plan) ← extractBodies digest options parts.document
          let complete ← RegistryM.ask fun r => addSchemas r.schemas.entries visited
          pure (complete, created, plan)) (.empty parts.names) with
      | (.ok (complete, created, plan), r) => .ok ⟨complete.written, created, plan, r.usages⟩
      | (.error fault, _) => .error fault := by
  rw [extractWith, h, RegistryM.result_bind]
  show (match (extractBodies digest options parts.document).result (.empty parts.names) with
    | (.ok (visited, created, plan), r) => do
      let complete ← addSchemas r.schemas.entries visited
      pure (⟨complete.written, created, plan, r.usages⟩ : Extraction)
    | (.error fault, _) => Except.error fault) = _
  cases (extractBodies digest options parts.document).result (.empty parts.names) with
  | mk outcome r =>
    cases outcome with
    | error fault => rfl
    | ok values =>
      obtain ⟨visited, created, plan⟩ := values
      dsimp only
      rw [RegistryM.result_bind, RegistryM.result_ask]
      cases addSchemas r.schemas.entries visited <;> rfl

/-- Where the ways to the bodies and to the named schemas are not shared, the extraction from a
document has the tree of the extraction from its tree. -/
theorem tree_extractSharedWith (digest : Text → Text) (options : ExtractionOptions)
    (h : d.ownsPlaces options.mediaType = true) :
    (extractSharedWith digest options d.toGraph).map SharedExtraction.tree =
      (extractWith digest options d.tree).mapError SharedFault.ofTree := by
  rw [SharedDocument.ownsPlaces, Bool.and_eq_true] at h
  rw [extractSharedWith, Graph.parts_eq d.proper]
  cases hparts : Parts.of (.ofDocument d.tree) with
  | error fault =>
    rw [extractWith, hparts]
    rfl
  | ok parts =>
    have hroot : Parts.of (d.links.tree (Shared.linked d.root)) = .ok parts := by
      rw [d.tree_linked]
      exact hparts
    have hagrees : (⟨.empty parts.names, d.links, ∅⟩ : SharedState).Agrees d :=
      ⟨rfl, rfl, fun _ hentry => absurd hentry List.not_mem_nil⟩
    have hmirrors := Shared.extractBodies_mirrors digest options hroot
      ((Value.ownsBodies_relabel _ _ _).trans h.1) ((Value.ownsSchemas_relabel _ _).trans h.2) _
      hagrees
    dsimp only [Except.mapError, bind, Except.bind]
    rw [extractWith_of_parts digest options hparts]
    cases hresult : (Shared.extractBodies digest options (Shared.linked d.root)).result
        ⟨.empty parts.names, d.links, ∅⟩ with
    | mk outcome w =>
      rw [hresult] at hmirrors
      rw [SharedM.result, SharedDocument.links] at hresult
      rw [hresult]
      cases outcome with
      | error fault =>
        obtain ⟨found, rfl, hy⟩ := hmirrors
        rw [hy]
        rfl
      | ok values =>
        obtain ⟨root, created, plan⟩ := values
        obtain ⟨b, hy, rfl, hw⟩ := hmirrors
        rw [hy]
        show Except.ok _ = Except.ok _
        rw [SharedExtraction.tree, Graph.tree, hw.shared, d.map_written_links, d.tree_written]

end NamedSchemas
