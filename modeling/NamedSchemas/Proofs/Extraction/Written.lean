import NamedSchemas.Proofs.Extraction.Settled
import NamedSchemas.Proofs.Value.References
/-!
# Extraction of what is written

A reference that was handed out and the map that it reads as are different things only as long as
names change. An extraction looks at what is written: values that are written alike are extracted
alike, and leave registries that read alike.
-/

namespace NamedSchemas

variable {τ α β γ δ : Type} {r : Registry Empty} {t : Registry τ}

/-- The registries hold the same, as far as it can be read. -/
structure Registry.ReadsAs (r : Registry Empty) (t : Registry τ) : Prop where
  reserved : r.reserved = t.reserved
  schemas : (r.schemas.mapValues fun _ v => v.written) = t.schemas.mapValues fun _ v => v.written
  usages : r.usages = t.usages
  references : r.references = t.references
  names : r.names = t.names
  canonicals : r.canonicals = t.canonicals

namespace Registry.ReadsAs

theorem refl (r : Registry Empty) : r.ReadsAs r := ⟨rfl, rfl, rfl, rfl, rfl, rfl⟩

theorem keys_schemas (h : r.ReadsAs t) : r.schemas.keys = t.schemas.keys := by
  rw [← Table.keys_mapValues (fun _ v => v.written), h.schemas, Table.keys_mapValues]

end Registry.ReadsAs

/-- The outcomes are the same fault or related values, and the registries read alike. -/
inductive Alike (R : α → β → Prop) :
    Except Fault α × Registry Empty → Except Fault β × Registry τ → Prop
  | ok {a : α} {b : β} {r : Registry Empty} {t : Registry τ} :
    R a b → r.ReadsAs t → Alike R (.ok a, r) (.ok b, t)
  | error {fault : Fault} {r : Registry Empty} {t : Registry τ} :
    r.ReadsAs t → Alike R (.error fault, r) (.error fault, t)

theorem Alike.of_ok {R : α → β → Prop} {a : α} {q : Except Fault β × Registry τ}
    (h : Alike R (.ok a, r) q) : ∃ b u, q = (.ok b, u) ∧ R a b ∧ r.ReadsAs u := by
  cases h with
  | ok hab hu => exact ⟨_, _, rfl, hab, hu⟩

theorem Alike.of_ok_right {R : α → β → Prop} {b : β} {p : Except Fault α × Registry Empty}
    (h : Alike R p (.ok b, t)) : ∃ a u, p = (.ok a, u) ∧ R a b ∧ u.ReadsAs t := by
  cases h with
  | ok hab hu => exact ⟨_, _, rfl, hab, hu⟩

theorem Alike.bind {R : α → β → Prop} {S : γ → δ → Prop} {x : RegistryM Empty α}
    {y : RegistryM τ β} {f : α → RegistryM Empty γ} {g : β → RegistryM τ δ}
    (hx : Alike R (x.result r) (y.result t))
    (hf : ∀ a b u v, R a b → u.ReadsAs v → Alike S ((f a).result u) ((g b).result v)) :
    Alike S ((x >>= f).result r) ((y >>= g).result t) := by
  rw [RegistryM.result_bind, RegistryM.result_bind]
  generalize x.result r = p at hx
  generalize y.result t = q at hx
  cases hx with
  | ok hab huv => exact hf _ _ _ _ hab huv
  | error huv => exact .error huv

theorem Alike.map {R : α → β → Prop} {S : γ → δ → Prop} {x : RegistryM Empty α}
    {y : RegistryM τ β} {f : α → γ} {g : β → δ} (hx : Alike R (x.result r) (y.result t))
    (hf : ∀ a b, R a b → S (f a) (g b)) : Alike S ((f <$> x).result r) ((g <$> y).result t) := by
  rw [map_eq_pure_bind, map_eq_pure_bind]
  apply hx.bind
  exact fun a b u v hab huv => .ok (hf a b hab) huv

/-! ### Moving a schema -/

def SameWritten (v : Linked Empty) (w : Linked τ) : Prop := v.written = w.written

def SameEntries (es : Entries (Link Empty)) (fs : Entries (Link τ)) : Prop :=
  Value.substEntries Link.written es = Value.substEntries Link.written fs

section

variable {es : Entries (Link Empty)} {fs : Entries (Link τ)} {v : Linked Empty} {w : Linked τ}

theorem SameEntries.map (h : SameEntries es fs) : SameWritten (.map es) (.map fs) :=
  congrArg Value.map h

theorem SameEntries.cons (key : Scalar) (hv : SameWritten v w) (h : SameEntries es fs) :
    SameEntries ((key, v) :: es) ((key, w) :: fs) :=
  congrArg₂ (fun value rest => (key, value) :: rest) hv h

theorem canonicalText_congr (h : SameWritten v w) : canonicalText v = canonicalText w := by
  rw [canonicalText, canonicalText, h]

theorem Entries.substEntries_copied {σ : Type} (entries : Entries (Link σ)) :
    Value.substEntries Link.written (copied entries) =
      Value.substEntries Link.written entries := by
  rw [copied, Value.substEntries_eq_map, Value.substEntries_eq_map, List.map_map]
  refine List.map_congr_left fun entry _ => ?_
  obtain ⟨key, value⟩ := entry
  cases value with
  | ref label => cases label <;> rfl
  | scalar s => rfl
  | list items => rfl
  | map es => rfl

theorem SameEntries.copied (h : SameEntries es fs) :
    SameEntries (Entries.copied es) (Entries.copied fs) := by
  rw [SameEntries, Entries.substEntries_copied, Entries.substEntries_copied, h]

theorem SameEntries.stored (h : SameEntries es fs) (s : ExtractionSettings) (name : Text) :
    SameEntries (storedEntries s name es) (storedEntries s name fs) := by
  rw [storedEntries, storedEntries]
  split
  · rw [SameEntries, Entries.substEntries_insert, Entries.substEntries_insert, h.copied]
    rfl
  · exact h.copied

end

theorem Registry.ReadsAs.addReference (h : r.ReadsAs t) (name : Text) :
    (r.addReference name).ReadsAs (t.addReference name) := by
  refine ⟨h.reserved, h.schemas, h.usages, ?_, h.names, h.canonicals⟩
  rw [Registry.addReference, Registry.addReference, h.references]

theorem Registry.ReadsAs.register (h : r.ReadsAs t) (name digest canonical : Text) (c : Context)
    {v : Linked Empty} {w : Linked τ} (hsame : SameWritten v w) :
    Registry.ReadsAs
      { r with
        schemas := r.schemas.insert name v
        names := r.names.insert digest name
        canonicals := r.canonicals.insert digest canonical
        usages := r.usages.insert name [c] }
      { t with
        schemas := t.schemas.insert name w
        names := t.names.insert digest name
        canonicals := t.canonicals.insert digest canonical
        usages := t.usages.insert name [c] } := by
  refine ⟨h.reserved, ?_, ?_, h.references, ?_, ?_⟩
  · show ((r.schemas.insert name v).mapValues fun _ v => v.written) =
      (t.schemas.insert name w).mapValues fun _ v => v.written
    rw [Table.mapValues_insert, Table.mapValues_insert, h.schemas, hsame]
  · exact congrArg (·.insert name [c]) h.usages
  · exact congrArg (·.insert digest name) h.names
  · exact congrArg (·.insert digest canonical) h.canonicals

theorem hoist_alike (h : r.ReadsAs t) {es : Entries (Link Empty)} {fs : Entries (Link τ)}
    (hsame : SameEntries es fs) (s : ExtractionSettings) (c : Context) :
    Alike SameWritten ((hoist s es c).result r) ((hoist s fs c).result t) := by
  rw [result_hoist, result_hoist, canonicalText_congr hsame.map]
  cases canonicalText (.map fs) with
  | error fault => exact .error h
  | ok text =>
    have hlookup : r.lookup (s.digest text) text = t.lookup (s.digest text) text := by
      rw [Registry.lookup, Registry.lookup, h.names, h.canonicals]
    dsimp only
    rw [hlookup]
    cases t.lookup (s.digest text) text with
    | error fault => exact .error h
    | ok found =>
      cases found with
      | some name =>
        dsimp only
        rw [Registry.recordUsage, Registry.recordUsage, h.usages]
        cases t.usages.get? name with
        | none => exact .error h
        | some contexts =>
          have hused : Registry.ReadsAs
              { r with usages := t.usages.insert name (contexts ++ [c]) }
              { t with usages := t.usages.insert name (contexts ++ [c]) } :=
            ⟨h.reserved, h.schemas, rfl, h.references, h.names, h.canonicals⟩
          exact .ok rfl (hused.addReference name)
      | none =>
        dsimp only
        cases c.name with
        | error fault => exact .error h
        | ok name =>
          have htaken : r.isTaken name = t.isTaken name := by
            rw [Registry.isTaken, Registry.isTaken, Table.contains, Table.contains, h.keys_schemas,
              h.reserved]
          dsimp only
          rw [Registry.register, Registry.register, htaken]
          cases t.isTaken name with
          | true =>
            cases c.pathText with
            | error fault => exact .error h
            | ok path => exact .error h
          | false =>
            exact .ok rfl ((h.register name _ text c (hsame.stored s name).map).addReference name)

/-! ### Extracting -/

section

variable (τ)

/-- The map that a reference reads as. -/
def readOut (label : Link Empty) : Linked τ := .ofDocument label.written

theorem standsIn_readOut (label : Link Empty) : StandsIn (readOut τ label) := by
  match label with
  | .component name => exact Or.inr ⟨_, rfl, rfl⟩
  | .identifier schema _ => exact schema.elim

theorem subst_readOut (v : Linked Empty) : v.subst (readOut τ) = .ofDocument v.written := by
  rw [Value.ofDocument, Value.written, Value.subst_subst]
  rfl

theorem sameWritten_readOut (v : Linked Empty) : SameWritten v (v.subst (readOut τ)) := by
  rw [subst_readOut, SameWritten, Value.written, Value.written, Value.ofDocument_subst,
    Value.ofDocument_self]

theorem sameEntries_readOut (es : Entries (Link Empty)) :
    SameEntries es (Value.substEntries (readOut τ) es) :=
  Value.map.inj (sameWritten_readOut τ (.map es))

/-- An extraction leaves the map that a reference reads as. -/
theorem extract_readOut (s : ExtractionSettings) (label : Link Empty) (c : Context) :
    extract s (readOut τ label) c = pure (readOut τ label) := by
  rcases standsIn_readOut τ label with ⟨name, heq⟩ | ⟨entries, heq, hreference⟩
  · rw [heq]
    rfl
  · rw [heq, extract, if_pos hreference]

mutual

/-- A value is extracted as what it reads as. -/
theorem extract_alike (s : ExtractionSettings) : ∀ (v : Linked Empty) (c : Context)
    {r : Registry Empty} {t : Registry τ}, r.ReadsAs t →
      Alike SameWritten ((extract s v c).result r)
        ((extract s (v.subst (readOut τ)) c).result t)
  | .map entries, c, r, t, h => by
    have hlabel : ∀ label, (readOut τ label).standsForMap = true := fun label =>
      (standsIn_readOut τ label).standsForMap
    have hitems : ((Entries.get? "items" entries).map (Value.subst (readOut τ))).any
        Value.isMapping = (Entries.get? "items" entries).any Value.isMapping := by
      cases Entries.get? "items" entries with
      | none => rfl
      | some v => exact isMapping_subst (standsIn_readOut τ) isMapping_ref v
    rw [Value.subst, extract, extract,
      isReference_substEntries fun label => Value.text?_of_standsForMap (hlabel label),
      kind_substEntries hlabel, Entries.get?_substEntries, Entries.contains_substEntries, hitems]
    split
    · exact .ok (sameWritten_readOut τ (.map entries)) h
    split
    · apply (extractProperties_alike s entries c h).bind
      exact fun es fs u v hsame huv => hoist_alike huv hsame s c
    · split
      · apply (extractItems_alike s entries c h).bind
        exact fun es fs u v hsame huv => .ok hsame.copied.map huv
      · exact hoist_alike h (sameEntries_readOut τ entries) s c
    · split
      · exact hoist_alike h (sameEntries_readOut τ entries) s c
      · exact .ok (sameWritten_readOut τ (.map entries)) h
    · exact hoist_alike h (sameEntries_readOut τ entries) s c
  | .scalar scalar, c, r, t, h => .ok rfl h
  | .list items, c, r, t, h => .ok (sameWritten_readOut τ (.list items)) h
  | .ref label, c, r, t, h => by
    rw [Value.subst, extract_readOut]
    exact .ok (sameWritten_readOut τ (.ref label)) h

theorem extractProperties_alike (s : ExtractionSettings) : ∀ (entries : Entries (Link Empty))
    (c : Context) {r : Registry Empty} {t : Registry τ}, r.ReadsAs t →
      Alike SameEntries ((extractProperties s entries c).result r)
        ((extractProperties s (Value.substEntries (readOut τ) entries) c).result t)
  | [], _, _, _, h => .ok rfl h
  | (key, .map properties) :: rest, c, r, t, h => by
    have hrest : ∀ es fs u u', SameEntries es fs → u.ReadsAs u' →
        Alike SameEntries
          ((do pure ((key, .map es) :: (← extractProperties s rest c)) :
            RegistryM Empty (Entries (Link Empty))).result u)
          ((do pure ((key, .map fs) ::
              (← extractProperties s (Value.substEntries (readOut τ) rest) c)) :
            RegistryM τ (Entries (Link τ))).result u') := by
      intro es fs u u' hsame huv
      apply (extractProperties_alike s rest c huv).bind
      exact fun es' fs' u u' hsame' huv => .ok (hsame'.cons key hsame.map) huv
    rw [Value.substEntries, Value.subst, extractProperties, extractProperties]
    split
    · apply ((extractEach_alike s properties c h).map fun _ _ hsame => hsame.copied).bind
      exact hrest
    · exact hrest properties _ r t (sameEntries_readOut τ properties) h
  | (key, .ref (.component name)) :: rest, c, r, t, h => by
    have hmember : extractEach s [(addressKey, .text (componentAddress name))] c =
        (pure [(addressKey, .text (componentAddress name))] : RegistryM τ (Entries (Link τ))) := by
      simp only [extractEach, Value.text, extract, pure_bind]
    have hmap : Value.subst (readOut τ) (.ref (.component name)) =
        .map [(addressKey, .text (componentAddress name))] := rfl
    have hvalue : SameWritten (if key = .text propertiesKey then
          .ofDocument (Link.component (σ := Empty) name).written else .ref (.component name))
        (.map [(addressKey, .text (componentAddress name))] : Linked τ) := by
      split
      · rfl
      · exact sameWritten_readOut τ (.ref (.component name))
    rw [Value.substEntries, hmap, extractProperties, extractProperties, hmember, map_pure]
    have hcopied : Entries.copied [(addressKey, .text (componentAddress name))] =
        ([(addressKey, .text (componentAddress name))] : Entries (Link τ)) := rfl
    rw [hcopied, ite_self, pure_bind]
    apply (extractProperties_alike s rest c h).bind
    exact fun es fs u v hsame huv => .ok (hsame.cons key hvalue) huv
  | (key, .ref (.identifier schema name)) :: rest, c, r, t, h => schema.elim
  | (key, .scalar scalar) :: rest, c, r, t, h => by
    apply (extractProperties_alike s rest c h).bind
    exact fun es fs u v hsame huv => .ok (hsame.cons key rfl) huv
  | (key, .list items) :: rest, c, r, t, h => by
    apply (extractProperties_alike s rest c h).bind
    exact fun es fs u v hsame huv => .ok (hsame.cons key (sameWritten_readOut τ (.list items))) huv

theorem extractEach_alike (s : ExtractionSettings) : ∀ (entries : Entries (Link Empty))
    (c : Context) {r : Registry Empty} {t : Registry τ}, r.ReadsAs t →
      Alike SameEntries ((extractEach s entries c).result r)
        ((extractEach s (Value.substEntries (readOut τ) entries) c).result t)
  | [], _, _, _, h => .ok rfl h
  | (key, value) :: rest, c, r, t, h => by
    apply (extract_alike s value _ h).bind
    intro v w u u' hvalue huv
    apply (extractEach_alike s rest c huv).bind
    exact fun es fs u u' hsame huv => .ok (hsame.cons key hvalue) huv

theorem extractItems_alike (s : ExtractionSettings) : ∀ (entries : Entries (Link Empty))
    (c : Context) {r : Registry Empty} {t : Registry τ}, r.ReadsAs t →
      Alike SameEntries ((extractItems s entries c).result r)
        ((extractItems s (Value.substEntries (readOut τ) entries) c).result t)
  | [], _, _, _, h => .ok rfl h
  | (key, value) :: rest, c, r, t, h => by
    have hrest : ∀ v w u u', SameWritten v w → u.ReadsAs u' →
        Alike SameEntries
          ((do pure ((key, v) :: (← extractItems s rest c)) :
            RegistryM Empty (Entries (Link Empty))).result u)
          ((do pure ((key, w) :: (← extractItems s (Value.substEntries (readOut τ) rest) c)) :
            RegistryM τ (Entries (Link τ))).result u') := by
      intro v w u u' hvalue huv
      apply (extractItems_alike s rest c huv).bind
      exact fun es fs u u' hsame huv => .ok (hsame.cons key hvalue) huv
    rw [Value.substEntries, extractItems, extractItems]
    split
    · exact (extract_alike s value _ h).bind hrest
    · exact hrest value _ r t (sameWritten_readOut τ value) h

end

end

end NamedSchemas
