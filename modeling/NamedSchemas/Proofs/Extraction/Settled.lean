import NamedSchemas.Proofs.Document.Assembly
import NamedSchemas.Proofs.Extraction.Kind
/-!
# Extracting twice

What an extraction leaves in a body is settled: another extraction leaves it alone and asks the
registry for nothing. References written out are settled too, so a second extraction of a whole
document changes nothing, whatever it is asked for.
-/

namespace NamedSchemas

variable {σ τ : Type}

namespace Value

mutual

/-- Would an extraction leave the value as it is? -/
def settled : Linked σ → Bool
  | .map entries =>
    Entries.isReference entries ||
      match SchemaKind.of entries with
      | .array => (Entries.get? "items" entries).any isMapping && itemsSettled entries
      | .other => !Entries.contains "enum" entries
      | _ => false
  | _ => true

def itemsSettled : Entries (Link σ) → Bool
  | [] => true
  | (key, value) :: rest =>
    (if key = .text (Text.ofString "items") then settled value else true) && itemsSettled rest

end

end Value

/-! ### Settled values stay -/

mutual

theorem extract_of_settled (s : ExtractionSettings) : ∀ (v : Linked Empty) (c : Context),
    v.settled = true → extract s v c = pure v
  | .map entries, c, h => by
    rw [extract]
    split
    · rfl
    · next hreference =>
      simp only [Value.settled, hreference, Bool.false_or] at h
      split at h
      · next hkind =>
        rw [Bool.and_eq_true] at h
        rw [hkind]
        simp only [h.1, if_true, extractItems_of_settled s entries c h.2, pure_bind,
          Entries.copied_eq]
      · next hkind =>
        rw [Bool.not_eq_true'] at h
        rw [hkind]
        simp only [h, Bool.false_eq_true, if_false]
      · cases h
  | .scalar _, _, _ => rfl
  | .list _, _, _ => rfl
  | .ref _, _, _ => rfl

theorem extractItems_of_settled (s : ExtractionSettings) : ∀ (entries : Entries (Link Empty))
    (c : Context), Value.itemsSettled entries = true → extractItems s entries c = pure entries
  | [], _, _ => rfl
  | (key, value) :: rest, c, h => by
    rw [Value.itemsSettled, Bool.and_eq_true] at h
    rw [extractItems, extractItems_of_settled s rest c h.2]
    split
    · next hkey =>
      rw [extract_of_settled s value _ (by simpa only [hkey, if_true] using h.1)]
      rfl
    · rfl

end

/-! ### What an extraction leaves is settled -/

theorem extractItems_cons_eq_ok {s : ExtractionSettings} {key : Scalar} {value : Linked σ}
    {rest es : Entries (Link σ)} {c : Context} {r t : Registry σ}
    (h : (extractItems s ((key, value) :: rest) c).result r = (.ok es, t)) :
    ∃ w fs u, es = (key, w) :: fs ∧ (extractItems s rest c).result u = (.ok fs, t) ∧
      ((key = .text (Text.ofString "items") ∧
          (extract s value (c.child (.text itemSegment))).result r = (.ok w, u)) ∨
        (key ≠ .text (Text.ofString "items") ∧ w = value ∧ u = r)) := by
  rw [extractItems] at h
  split at h
  · next hkey =>
    rw [RegistryM.result_bind_eq_ok] at h
    obtain ⟨w, u, hvalue, h⟩ := h
    rw [RegistryM.result_bind_eq_ok] at h
    obtain ⟨fs, u', hrest, h⟩ := h
    obtain ⟨hes, rfl⟩ := Prod.mk.inj h
    exact ⟨w, fs, u, (Except.ok.inj hes).symm, hrest, Or.inl ⟨hkey, hvalue⟩⟩
  · next hkey =>
    rw [RegistryM.result_bind_eq_ok] at h
    obtain ⟨w, u, hvalue, h⟩ := h
    obtain ⟨hw, rfl⟩ := Prod.mk.inj hvalue
    rw [RegistryM.result_bind_eq_ok] at h
    obtain ⟨fs, u', hrest, h⟩ := h
    obtain ⟨hes, rfl⟩ := Prod.mk.inj h
    exact ⟨w, fs, r, (Except.ok.inj hes).symm, hrest, Or.inr ⟨hkey, (Except.ok.inj hw).symm, rfl⟩⟩

theorem get?_extractItems {s : ExtractionSettings} {key : Text}
    (hne : key ≠ Text.ofString "items") {entries es : Entries (Link σ)} {c : Context}
    {r t : Registry σ} (h : (extractItems s entries c).result r = (.ok es, t)) :
    Entries.get? key es = Entries.get? key entries := by
  induction entries generalizing es r with
  | nil =>
    obtain ⟨hes, -⟩ := Prod.mk.inj h
    rw [← Except.ok.inj hes]
  | cons entry rest ih =>
    obtain ⟨k, value⟩ := entry
    obtain ⟨w, fs, u, rfl, hrest, hvalue⟩ := extractItems_cons_eq_ok h
    rw [Entries.get?_cons, Entries.get?_cons, ih hrest]
    rcases hvalue with ⟨rfl, -⟩ | ⟨-, rfl, -⟩
    · have hk : Scalar.text (Text.ofString "items") ≠ .text key :=
        fun heq => hne (Scalar.text.inj heq).symm
      rw [if_neg hk, if_neg hk]
    · rfl

mutual

/-- What an extraction leaves is settled, and a map does not turn into something else. -/
theorem settled_of_extract (s : ExtractionSettings) : ∀ (v : Linked Empty) (c : Context)
    {r t : Registry Empty} {w : Linked Empty}, (extract s v c).result r = (.ok w, t) →
      w.settled = true ∧ (v.isMapping = true → w.isMapping = true)
  | .map entries, c, r, t, w, h => by
    have hhoist : ∀ {es : Entries (Link Empty)} {u : Registry Empty},
        (hoist s es c).result u = (.ok w, t) →
          w.settled = true ∧ ((Value.map entries).isMapping = true → w.isMapping = true) := by
      intro es u hh
      obtain ⟨canonical, name, u', -, rfl, -⟩ := hoist_eq_ok hh
      exact ⟨rfl, fun _ => rfl⟩
    rw [extract] at h
    split at h
    · next hreference =>
      obtain ⟨hw, -⟩ := Prod.mk.inj h
      rw [← Except.ok.inj hw]
      exact ⟨by simp only [Value.settled, hreference, Bool.true_or], fun _ => rfl⟩
    next hreference =>
    split at h
    · obtain ⟨es, u, -, hh⟩ := RegistryM.result_bind_eq_ok.1 h
      exact hhoist hh
    · next hkind =>
      split at h
      · next hitems =>
        obtain ⟨es, u, hextract, h⟩ := RegistryM.result_bind_eq_ok.1 h
        obtain ⟨hw, rfl⟩ := Prod.mk.inj h
        rw [← Except.ok.inj hw, Entries.copied_eq]
        obtain ⟨hsettled, hmapping⟩ := itemsSettled_of_extractItems s entries c hextract
        have hkind' : SchemaKind.of es = .array := by
          rw [SchemaKind.of, get?_extractItems (by decide +kernel) hextract, ← SchemaKind.of, hkind]
        refine ⟨?_, fun _ => rfl⟩
        simp only [Value.settled, hkind', hmapping hitems, hsettled, Bool.and_self, Bool.or_true]
      · exact hhoist h
    · next hkind =>
      split at h
      · exact hhoist h
      · next henum =>
        obtain ⟨hw, -⟩ := Prod.mk.inj h
        rw [← Except.ok.inj hw]
        refine ⟨?_, fun _ => rfl⟩
        simp only [Value.settled, hkind, henum, Bool.not_false, Bool.or_true]
    · exact hhoist h
  | .scalar _, _, _, _, _, h => by
    obtain ⟨hw, -⟩ := Prod.mk.inj h
    rw [← Except.ok.inj hw]
    exact ⟨rfl, id⟩
  | .list _, _, _, _, _, h => by
    obtain ⟨hw, -⟩ := Prod.mk.inj h
    rw [← Except.ok.inj hw]
    exact ⟨rfl, id⟩
  | .ref _, _, _, _, _, h => by
    obtain ⟨hw, -⟩ := Prod.mk.inj h
    rw [← Except.ok.inj hw]
    exact ⟨rfl, id⟩

theorem itemsSettled_of_extractItems (s : ExtractionSettings) : ∀ (entries : Entries (Link Empty))
    (c : Context) {r t : Registry Empty} {es : Entries (Link Empty)},
    (extractItems s entries c).result r = (.ok es, t) → Value.itemsSettled es = true ∧
      ((Entries.get? "items" entries).any Value.isMapping = true →
        (Entries.get? "items" es).any Value.isMapping = true)
  | [], _, _, _, _, h => by
    obtain ⟨hes, -⟩ := Prod.mk.inj h
    rw [← Except.ok.inj hes]
    exact ⟨rfl, id⟩
  | (key, value) :: rest, c, r, t, es, h => by
    obtain ⟨w, fs, u, rfl, hrest, hvalue⟩ := extractItems_cons_eq_ok h
    obtain ⟨hsettled, hmapping⟩ := itemsSettled_of_extractItems s rest c hrest
    rw [Value.itemsSettled, hsettled, Bool.and_true, Entries.get?_cons, Entries.get?_cons]
    rcases hvalue with ⟨rfl, hextract⟩ | ⟨hkey, rfl, -⟩
    · obtain ⟨hw, hmap⟩ := settled_of_extract s value _ hextract
      simp only [if_true, Option.any_some]
      exact ⟨hw, hmap⟩
    · rw [if_neg hkey, if_neg hkey, if_neg hkey]
      exact ⟨rfl, hmapping⟩

end

/-! ### Written references are settled -/

/-- Can the value stand in the place of a reference? It is a reference itself, or the entry map that
one is written as. -/
def StandsIn (w : Linked σ) : Prop :=
  (∃ name, w = .ref (.component name)) ∨ ∃ entries, w = .map entries ∧ Entries.isReference entries = true

theorem StandsIn.settled {w : Linked σ} (h : StandsIn w) : w.settled = true := by
  rcases h with ⟨name, rfl⟩ | ⟨entries, rfl, hreference⟩
  · rfl
  · rw [Value.settled, hreference, Bool.true_or]

theorem StandsIn.isMapping {w : Linked σ} (h : StandsIn w) : w.isMapping = true := by
  rcases h with ⟨name, rfl⟩ | ⟨entries, rfl, -⟩ <;> rfl

theorem StandsIn.standsForMap {w : Linked σ} (h : StandsIn w) : w.standsForMap = true := by
  rcases h with ⟨name, rfl⟩ | ⟨entries, rfl, -⟩ <;> rfl

section Subst

variable {f : Link σ → Linked τ}

theorem isMapping_subst (hf : ∀ label, StandsIn (f label))
    (hcomponent : ∀ label : Link σ, (Value.ref label).isMapping = true) (v : Linked σ) :
    (v.subst f).isMapping = v.isMapping := by
  cases v with
  | ref label => rw [hcomponent label]; exact (hf label).isMapping
  | scalar s => rfl
  | list items => rfl
  | map es => rfl

mutual

theorem settled_subst (hf : ∀ label, StandsIn (f label))
    (hcomponent : ∀ label : Link σ, (Value.ref label).isMapping = true) :
    ∀ v : Linked σ, (v.subst f).settled = v.settled
  | .map entries => by
    have hitems : ((Entries.get? "items" entries).map (Value.subst f)).any Value.isMapping =
        (Entries.get? "items" entries).any Value.isMapping := by
      cases Entries.get? "items" entries with
      | none => rfl
      | some v => exact isMapping_subst hf hcomponent v
    rw [Value.subst, Value.settled, Value.settled,
      isReference_substEntries fun label => Value.text?_of_standsForMap (hf label).standsForMap,
      kind_substEntries fun label => (hf label).standsForMap,
      Entries.get?_substEntries, Entries.contains_substEntries, hitems,
      itemsSettled_substEntries hf hcomponent entries]
  | .scalar _ => rfl
  | .list _ => rfl
  | .ref label => (hf label).settled

theorem itemsSettled_substEntries (hf : ∀ label, StandsIn (f label))
    (hcomponent : ∀ label : Link σ, (Value.ref label).isMapping = true) :
    ∀ entries : Entries (Link σ),
      Value.itemsSettled (Value.substEntries f entries) = Value.itemsSettled entries
  | [] => rfl
  | (key, value) :: rest => by
    rw [Value.substEntries, Value.itemsSettled, Value.itemsSettled,
      settled_subst hf hcomponent value, itemsSettled_substEntries hf hcomponent rest]

end

end Subst

theorem standsIn_written (label : Link Empty) :
    StandsIn (Value.ofDocument label.written : Linked Empty) := by
  match label with
  | .component name => exact Or.inr ⟨_, rfl, rfl⟩
  | .identifier schema _ => exact schema.elim

theorem isMapping_ref (label : Link Empty) : (Value.ref label : Linked Empty).isMapping = true := by
  match label with
  | .component name => rfl
  | .identifier schema _ => exact schema.elim

theorem settled_written (plan : List (Text × Text)) (v : Linked Empty) :
    (Value.ofDocument (v.renameAll plan).written : Linked Empty).settled = v.settled := by
  rw [Value.ofDocument, Value.written, Value.renameAll, Value.relabel, Value.subst_subst,
    Value.subst_subst]
  exact settled_subst (fun label => standsIn_written _) isMapping_ref v

/-! ### Documents -/

/-- The visit of a body leaves it settled, and the body has a context. -/
theorem settled_of_visit {digest : Text → Text} {options : ExtractionOptions} {document : Document}
    {r t : Registry Empty} {stays : List (Linked Empty)}
    (h : (visitBodies digest options document).result r = (.ok stays, t)) :
    ∀ pair ∈ (document.bodies options.mediaType).zip stays,
      (∃ c, pair.1.1.context = .ok c) ∧ pair.2.settled = true := by
  intro pair hpair
  obtain ⟨u, w, hvisit⟩ := RegistryM.exists_of_result_mapM h pair hpair
  obtain ⟨c, u', hcontext, hextract⟩ := RegistryM.result_bind_eq_ok.1 hvisit
  rw [RegistryM.result_ask] at hcontext
  exact ⟨⟨c, (Prod.mk.inj hcontext).1⟩, (settled_of_extract _ _ _ hextract).1⟩

/-- Settled bodies are left as they are, and the registry is not asked for anything. -/
theorem result_visitBodies_of_settled (digest : Text → Text) (options : ExtractionOptions)
    {document : Document} (r : Registry Empty)
    (h : ∀ body ∈ document.bodies options.mediaType, (∃ c, body.1.context = .ok c) ∧
      (Value.ofDocument body.2 : Linked Empty).settled = true) :
    (visitBodies digest options document).result r =
      (.ok ((document.bodies options.mediaType).map fun body => .ofDocument body.2), r) := by
  refine RegistryM.result_mapM_of_unchanged fun body hbody => ?_
  obtain ⟨⟨c, hc⟩, hsettled⟩ := h body hbody
  have hask : (RegistryM.ask fun _ => body.1.context : RegistryM Empty Context).result r =
      (.ok c, r) := by rw [RegistryM.result_ask, hc]
  rw [RegistryM.result_bind_of_ok hask, extract_of_settled _ _ _ hsettled, RegistryM.result_pure]

theorem result_finish_empty (options : ExtractionOptions) (reserved : List Text) :
    (finish options).result (.empty reserved) = (.ok [], .empty reserved) := by
  rw [finish]
  split
  · rw [shorten, RegistryM.result_bind, RegistryM.result_ask]
    rfl
  · rfl

/-- An extraction of a document that was put together from settled bodies gives it back. -/
theorem extractWith_of_settled (digest : Text → Text) (options : ExtractionOptions)
    {document : Document} {bodies : List Document} (schemas : Entries Empty)
    (hlength : bodies.length = (document.bodies options.mediaType).length)
    (hsettled : ∀ body ∈ ((document.bodies options.mediaType).map Prod.fst).zip bodies,
      (∃ c, body.1.context = .ok c) ∧ (Value.ofDocument body.2 : Linked Empty).settled = true) :
    extractWith digest options (.assembled options.mediaType document bodies schemas) =
      .ok ⟨.assembled options.mediaType document bodies schemas, [], [], ∅⟩ := by
  rw [← Value.bodies_assembled options.mediaType hlength schemas] at hsettled
  obtain ⟨p, hp, -, -⟩ := Value.of_assembled options.mediaType document
    (bodies.map (Value.subst Empty.elim)) (Value.substEntries Empty.elim schemas)
  rw [← Value.subst_assembled options.mediaType Empty.elim hlength schemas] at hp
  have hself := Value.assembled_self (ρ := Link Empty) options.mediaType document bodies schemas
  generalize hresult : Value.assembled options.mediaType document bodies schemas = result at *
  have hschemas : result.namedSchemas = schemas := by
    rw [← hresult, Value.namedSchemas_assembled]
  have hrename : ∀ d : Document, (Value.ofDocument d : Linked Empty).renameAll [] = .ofDocument d :=
    fun d => Value.ofDocument_subst _ d
  have hdocument : (Value.assembled options.mediaType result
      (((result.bodies options.mediaType).map fun body =>
        (Value.ofDocument body.2 : Linked Empty)).map (Value.renameAll []))
      (putAll [] (Value.substEntries Empty.elim result.namedSchemas))).written = result := by
    simp only [List.map_map, Function.comp_def, hrename, putAll, List.foldl_nil, hschemas]
    rw [hself, Value.written, Value.ofDocument_subst, Value.ofDocument_self]
  rw [extractWith_eq digest options hp, result_visitBodies_of_settled digest options _ hsettled]
  simp only [result_finish_empty]
  exact congrArg Except.ok (congrArg (fun d => Extraction.mk d [] [] ∅) hdocument)

theorem extractWith_document_extractWith {digest : Text → Text} {options : ExtractionOptions}
    {document : Document} {e : Extraction} (h : extractWith digest options document = .ok e)
    (digest' : Text → Text) (assignIds shortenNames : Bool) :
    extractWith digest' ⟨options.mediaType, assignIds, shortenNames⟩ e.document =
      .ok ⟨e.document, [], [], ∅⟩ := by
  obtain ⟨stays, r, plan, last, hlength, hvisit, -, rfl⟩ := extractWith_eq_ok h
  rw [document_resultOf hlength]
  refine extractWith_of_settled digest' ⟨options.mediaType, assignIds, shortenNames⟩ _
    (by rw [List.length_map, hlength]) fun body hbody => ?_
  rw [List.zip_map] at hbody
  obtain ⟨pair, hpair, rfl⟩ := List.mem_map.1 hbody
  obtain ⟨hcontext, hsettled⟩ := settled_of_visit hvisit pair hpair
  exact ⟨hcontext, (settled_written plan pair.2).trans hsettled⟩

end NamedSchemas
