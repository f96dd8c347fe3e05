import Mathlib.Logic.Function.Basic
import NamedSchemas.Proofs.Extraction.Recognition
import NamedSchemas.Proofs.Extraction.Refinement
/-!
# What names mean

A schema is recognised by a text in which the names of components stand, and a renaming does not
change the text. So a name goes on to mean the document that it was given to, also after it was
taken from it. A text tells which document it was made from as long as no name is given to a second
document, and then every name that an extraction finds means the document that was extracted.
-/

namespace NamedSchemas

variable {σ τ : Type} {digest : Text → Text} {ν : Document → Text} {M : Text → Option Document}
  {r : Registry σ}

/-! ### Texts -/

/-- A schema that JSON can hold and that refers to no component. -/
structure Value.IsPlain (d : Document) : Prop where
  json : d.isJson = true
  refNames : d.refNames = []

instance : DecidablePred Value.IsPlain := fun d =>
  decidable_of_iff (d.isJson = true ∧ d.refNames = []) ⟨fun h => ⟨h.1, h.2⟩, fun h => ⟨h.1, h.2⟩⟩

theorem Value.IsPlain.of_mem_hoisted {d : Document} (h : d.IsPlain) :
    ∀ i ∈ d.hoisted, i.IsPlain := by
  intro i hi
  rw [← map_schema_occurrences d ⟨[], none, none, false⟩] at hi
  obtain ⟨o, ho, rfl⟩ := List.mem_map.1 hi
  have hentry : ∀ es, IsPlain (.map es) → ∀ entry ∈ es, True ∧ entry.2.IsPlain := by
    intro es hes entry hentry
    refine ⟨trivial, (isJson_of_mem hes.json hentry).2, ?_⟩
    rw [List.eq_nil_iff_forall_not_mem]
    intro name hname
    have hmem := mem_refNames_of_mem hentry hname
    rw [hes.refNames] at hmem
    exact List.not_mem_nil hmem
  exact (gives_occurrences (P := IsPlain) (K := fun _ => True) (C := fun _ => True) hentry
    (fun _ _ => trivial) (fun _ _ _ _ => trivial) d h trivial o ho).1

/-- The text is that of a document, and the names in it mean the schemas inside the document. -/
structure TextOf (M : Text → Option Document) (d : Document) (text : Text) : Prop where
  plain : d.IsPlain
  written : ∃ ν, canonicalText (d.content ν) = .ok text ∧ ∀ i ∈ d.hoistedInside, M (ν i) = some i

/-- The second meaning agrees with the first one wherever that says something. -/
def MeansAlso (M M' : Text → Option Document) : Prop := ∀ name d, M name = some d → M' name = some d

theorem TextOf.also {M' : Text → Option Document} (hM : MeansAlso M M') {d : Document} {text : Text}
    (h : TextOf M d text) : TextOf M' d text := by
  obtain ⟨ν, htext, hinside⟩ := h.written
  exact ⟨h.plain, ν, htext, fun i hi => hM _ _ (hinside i hi)⟩

theorem TextOf.unique (hpoints : ∀ name d, M name = some d → ∀ p ∈ name, p.isNamePoint = true)
    {d e : Document} {text : Text} (hd : TextOf M d text) (he : TextOf M e text) : d = e := by
  obtain ⟨ν, hdtext, hdinside⟩ := hd.written
  obtain ⟨μ, hetext, heinside⟩ := he.written
  have hdjson : (d.content ν).written.isJson = true :=
    Value.isJson_written_content hd.plain.json fun i hi => hpoints _ i (hdinside i hi)
  have hejson : (e.content μ).written.isJson = true :=
    Value.isJson_written_content he.plain.json fun i hi => hpoints _ i (heinside i hi)
  apply Value.content_injective hdinside heinside
  · intro name hname
    rw [hd.plain.refNames, he.plain.refNames] at hname
    exact absurd hname (by simp)
  · exact written_of_canonicalText_eq hdjson hejson hdtext hetext

/-! ### Registries -/

/-- Every text of the registry is that of the document that its name means. -/
structure Registry.Meant (M : Text → Option Document) (r : Registry σ) : Prop where
  texts : ∀ digest name text, r.names.get? digest = some name →
    r.canonicals.get? digest = some text → ∃ d, M name = some d ∧ TextOf M d text
  points : ∀ name d, M name = some d → ∀ p ∈ name, p.isNamePoint = true

theorem Registry.Meant.of_knows (hr : r.Meant M) {d : Document} (hd : d.IsPlain)
    (hinside : ∀ i ∈ d.hoistedInside, M (ν i) = some i)
    (hknows : r.Knows digest (d.content ν) (ν d)) : M (ν d) = some d := by
  obtain ⟨text, htext, hlookup⟩ := hknows.found
  obtain ⟨hname, hcanonical⟩ := Registry.lookup_eq_some.1 hlookup
  obtain ⟨e, he, hof⟩ := hr.texts _ _ text hname hcanonical
  rw [he, TextOf.unique hr.points hof ⟨hd, ν, htext, hinside⟩]

theorem Registry.Meant.of_recognises (hr : r.Meant M) (d : Document)
    (hd : ∀ i ∈ d.hoisted, i.IsPlain) (h : r.Recognises digest ν d) :
    ∀ i ∈ d.hoisted, M (ν i) = some i := by
  induction d using Value.schemaInduction with
  | step d ih =>
    rw [Registry.Recognises, Value.hoisted_eq] at h
    rw [Value.hoisted_eq] at hd ⊢
    have hinside : ∀ i ∈ d.hoistedInside, M (ν i) = some i := by
      intro i hi
      obtain ⟨part, hpart, hi⟩ := List.mem_flatMap.1 hi
      have hof : ∀ j ∈ part.2.hoisted, j ∈ d.hoistedInside := fun j hj =>
        List.mem_flatMap.2 ⟨part, hpart, hj⟩
      exact ih part hpart (fun j hj => hd j (List.mem_append_left _ (hof j hj)))
        (fun j hj => h j (List.mem_append_left _ (hof j hj))) i hi
    intro i hi
    rcases List.mem_append.1 hi with hi | hself
    · exact hinside i hi
    · have hmem := List.mem_append_right d.hoistedInside hself
      split at hself
      · rw [List.mem_singleton.1 hself] at hmem ⊢
        exact hr.of_knows (hd d hmem) hinside (h d hmem)
      · cases hself

theorem meansAlso_update {name : Text} (hname : M name = none) (d? : Option Document) :
    MeansAlso M (Function.update M name d?) := by
  intro other d h
  rwa [Function.update_of_ne]
  rintro rfl
  cases hname.symm.trans h

theorem Registry.Meant.addNew (hr : r.Meant M) {d : Document} {name text : Text} {c : Context}
    (hd : TextOf M d text) (hcontext : c.name = .ok name) (hnew : M name = none)
    (schema : Linked σ) (digest : Text) :
    Registry.Meant (Function.update M name (some d)) ({ r with
      schemas := r.schemas.insert name schema
      names := r.names.insert digest name
      canonicals := r.canonicals.insert digest text
      usages := r.usages.insert name [c] }.addReference name) := by
  have hM := meansAlso_update hnew (some d)
  refine ⟨fun other found stored hfound hstored => ?_, fun other e he => ?_⟩
  · by_cases hother : other = digest
    · subst hother
      rw [addReference, Table.get?_insert_self] at hfound hstored
      cases hfound
      cases hstored
      exact ⟨d, Function.update_self .., hd.also hM⟩
    · rw [addReference, Table.get?_insert_of_ne _ _ hother] at hfound hstored
      obtain ⟨e, he, hof⟩ := hr.texts other found stored hfound hstored
      exact ⟨e, hM _ _ he, hof.also hM⟩
  · by_cases hother : other = name
    · rw [hother]
      exact Context.isNamePoint_of_mem_name hcontext
    · rw [Function.update_of_ne hother] at he
      exact hr.points other e he

theorem Registry.mem_repoint {old new : Text} {entries : List (Text × Text)} {entry : Text × Text}
    (h : entry ∈ repoint old new entries) :
    entry ∈ entries ∨ entry.2 = new ∧ (entry.1, old) ∈ entries := by
  induction entries with
  | nil => cases h
  | cons first rest ih =>
    rw [repoint] at h
    split at h
    · next hfirst =>
      rcases List.mem_cons.1 h with rfl | h
      · exact Or.inr ⟨rfl, by rw [← hfirst]; exact List.mem_cons_self ..⟩
      · exact Or.inl (List.mem_cons_of_mem _ h)
    · rcases List.mem_cons.1 h with rfl | h
      · exact Or.inl (List.mem_cons_self ..)
      · exact (ih h).imp (List.mem_cons_of_mem _) (And.imp_right (List.mem_cons_of_mem _))

theorem Registry.Meant.rename [DecidableEq σ] (hr : r.Meant M) {t : Registry σ} {old new : Text}
    (h : r.rename old new = .ok t) (hnew : M new = none)
    (hpoints : ∀ p ∈ new, p.isNamePoint = true) :
    t.Meant (Function.update M new (M old)) := by
  have hM := meansAlso_update hnew (M old)
  rw [Registry.rename] at h
  split at h
  · cases h
  split at h
  · cases h
    refine ⟨fun digest name text hname htext => ?_, fun name d hd => ?_⟩
    · rcases mem_repoint (Table.get?_eq_some_iff.1 hname) with hkept | ⟨rfl, hold⟩
      · obtain ⟨d, hd, hof⟩ := hr.texts digest name text (Table.get?_eq_some_iff.2 hkept) htext
        exact ⟨d, hM _ _ hd, hof.also hM⟩
      · obtain ⟨d, hd, hof⟩ := hr.texts digest old text (Table.get?_eq_some_iff.2 hold) htext
        exact ⟨d, (Function.update_self ..).trans hd, hof.also hM⟩
    · by_cases hname : name = new
      · rwa [hname]
      · rw [Function.update_of_ne hname] at hd
        exact hr.points name d hd
  · cases h

/-! ### Extractions -/

/-- Every text of the registry is understood, and only names that are in use or were given up mean
something. -/
structure Registry.Interpreted (gone : List Text) (M : Text → Option Document) (r : Registry σ) :
    Prop extends Registry.Meant M r where
  used : ∀ name d, M name = some d → name ∈ r.schemas.keys ∨ name ∈ gone

/-- Unless a name that was given up is in use again, names have meanings that agree with these. -/
def Registry.InterpretedAlso (gone : List Text) (M : Text → Option Document) (r : Registry σ) : Prop :=
  (∀ name ∈ r.schemas.keys, name ∉ gone) → ∃ M', MeansAlso M M' ∧ r.Interpreted gone M'

variable {gone : List Text}

theorem Registry.InterpretedAlso.hoist {s : ExtractionSettings} {r : Registry Empty}
    (hr : r.InterpretedAlso gone M) {d : Document} (hd : d.isHoisted = true)
    (hplain : ∀ i ∈ d.hoisted, i.IsPlain) (c : Context)
    (hknows : ∀ part ∈ d.inner, r.Recognises s.digest ν part.2) :
    ((NamedSchemas.hoist s (d.content ν).entries c).result r).2.InterpretedAlso gone M := by
  rw [Value.hoisted_eq, if_pos hd] at hplain
  refine hoist_leaves (P := Registry.InterpretedAlso gone M) hr _ c ?_ ?_
  · -- one more use changes neither texts nor names
    intro canonical name contexts _ _ _ _ hfree
    obtain ⟨M', hM, hM'⟩ := hr hfree
    exact ⟨M', hM, ⟨hM'.texts, hM'.points⟩, hM'.used⟩
  · intro canonical name htext hname _ hnew _ hfree
    rw [Value.map_entries (Value.isMap_content hd)] at htext
    have hkept : ∀ other ∈ r.schemas.keys, other ∉ gone := fun other hother =>
      hfree other (Table.mem_keys_insert_of_mem _ _ hother)
    have hgone : name ∉ gone := hfree name (Table.mem_keys_insert_self ..)
    obtain ⟨M', hM, hM'⟩ := hr hkept
    have hnone : M' name = none := by
      rw [Option.eq_none_iff_forall_ne_some]
      intro e he
      exact (hM'.used name e he).elim hnew hgone
    have hinside : ∀ i ∈ d.hoistedInside, M' (ν i) = some i := by
      intro i hi
      obtain ⟨part, hpart, hi⟩ := List.mem_flatMap.1 hi
      refine hM'.toMeant.of_recognises part.2 (fun j hj => ?_) (hknows part hpart) i hi
      exact hplain j (List.mem_append_left _ (List.mem_flatMap.2 ⟨part, hpart, hj⟩))
    have hself : d.IsPlain := hplain d (List.mem_append_right _ (List.mem_cons_self ..))
    have hupdate := meansAlso_update hnone (some d)
    refine ⟨Function.update M' name (some d), fun other e he => hupdate other e (hM other e he),
      hM'.addNew ⟨hself, ν, htext, hinside⟩ hname hnone _ _, fun other e he => ?_⟩
    by_cases hother : other = name
    · exact Or.inl (Table.mem_keys_insert.2 (Or.inl hother))
    · rw [Function.update_of_ne hother] at he
      exact (hM'.used other e he).imp_left (Table.mem_keys_insert_of_mem _ _)

theorem Registry.InterpretedAlso.keeps_extract {s : ExtractionSettings} (d : Document)
    (hplain : ∀ i ∈ d.hoisted, i.IsPlain) (c : Context) :
    RegistryM.Keeps (Registry.InterpretedAlso gone M)
      (NamedSchemas.extract s (.ofDocument d : Linked Empty) c) := by
  induction d using Value.schemaInduction generalizing c with
  | step d ih =>
    intro r hr
    have hparts : RegistryM.Keeps (Registry.InterpretedAlso gone M) (d.inner.mapM fun part =>
        NamedSchemas.extract s (.ofDocument part.2 : Linked Empty) (c.child part.1)) := by
      apply RegistryM.Keeps.mapM
      intro part hpart
      refine ih part hpart (fun i hi => hplain i ?_) (c.child part.1)
      rw [Value.hoisted_eq]
      exact List.mem_append_left _ (List.mem_flatMap.2 ⟨part, hpart, hi⟩)
    have hu := (hparts.map d.withInner) r hr
    rw [extract_ofDocument]
    generalize hvisit : (d.withInner <$> _ : RegistryM Empty (Linked Empty)).result r = p at hu
    obtain ⟨outcome, u⟩ := p
    cases outcome with
    | error fault =>
      rw [RegistryM.result_bind_of_error hvisit]
      exact hu
    | ok v =>
      obtain ⟨ws, hinner, rfl⟩ := RegistryM.result_map_eq_ok.1 hvisit
      obtain ⟨hcontent, hknows⟩ := knows_of_visits
        (fun part _ _ _ _ hw ht => recognises_of_extract part.2 _ hw ht) hinner (.refl u)
      rw [RegistryM.result_bind_of_ok hvisit, hcontent]
      split
      · next hhoisted =>
        refine hu.hoist hhoisted hplain c fun part hpart i hi => ?_
        exact hknows i (List.mem_flatMap.2 ⟨part, hpart, hi⟩)
      · exact hu

/-! ### Registries with schemas that are held elsewhere -/

def Registry.reading (t : Registry τ) : Registry Empty :=
  ⟨t.reserved, t.schemas.mapValues fun _ v => .ofDocument v.written, t.usages, t.references, t.names,
    t.canonicals⟩

theorem Value.written_ofDocument {σ : Type} (d : Document) :
    (ofDocument d : Linked σ).written = d := by
  rw [written, ofDocument_subst, ofDocument_self]

theorem Registry.readsAs_reading (t : Registry τ) : t.reading.ReadsAs t := by
  refine ⟨rfl, Table.ext ?_, rfl, rfl, rfl, rfl⟩
  rw [reading, Table.entries_mapValues, Table.entries_mapValues, Table.entries_mapValues,
    List.map_map]
  exact List.map_congr_left fun entry _ => by
    rw [Function.comp_apply, Value.written_ofDocument]

theorem Registry.ReadsAs.interpreted_iff {r : Registry Empty} {t : Registry τ} (h : r.ReadsAs t) :
    r.Interpreted gone M ↔ t.Interpreted gone M := by
  constructor
  · rintro ⟨⟨htexts, hpoints⟩, hused⟩
    rw [h.names, h.canonicals] at htexts
    rw [h.keys_schemas] at hused
    exact ⟨⟨htexts, hpoints⟩, hused⟩
  · rintro ⟨⟨htexts, hpoints⟩, hused⟩
    rw [← h.names, ← h.canonicals] at htexts
    rw [← h.keys_schemas] at hused
    exact ⟨⟨htexts, hpoints⟩, hused⟩

/-- After the extraction of a document names go on to mean what they meant, and what stayed in the
place of the document means the document. -/
theorem Registry.Interpreted.extract {s : ExtractionSettings} {t u : Registry τ}
    (ht : t.Interpreted gone M) {d : Document} (hd : d.IsPlain) {c : Context}
    {outcome : Except Fault (Linked τ)}
    (h : (NamedSchemas.extract s (.ofDocument d : Linked τ) c).result t = (outcome, u))
    (hfree : ∀ name ∈ u.schemas.keys, name ∉ gone) :
    ∃ M', MeansAlso M M' ∧ u.Interpreted gone M' ∧
      ∀ w, outcome = .ok w → Value.expand M' w.written = d := by
  have halike := extract_alike τ s (.ofDocument d) c t.readsAs_reading
  rw [subst_readOut, Value.written_ofDocument, h] at halike
  have hkeeps : Registry.InterpretedAlso gone M
      ((NamedSchemas.extract s (.ofDocument d) c).result t.reading).2 := by
    apply Registry.InterpretedAlso.keeps_extract d hd.of_mem_hoisted c
    exact fun _ => ⟨M, fun _ _ hM => hM, t.readsAs_reading.interpreted_iff.2 ht⟩
  generalize hresult : (NamedSchemas.extract s (.ofDocument d : Linked Empty) c).result t.reading = p
    at halike hkeeps
  cases halike with
  | error hread =>
    obtain ⟨M', hM, hM'⟩ := hkeeps (by rwa [hread.keys_schemas])
    exact ⟨M', hM, hread.interpreted_iff.1 hM', fun w hw => by cases hw⟩
  | ok hsame hread =>
    obtain ⟨M', hM, hM'⟩ := hkeeps (by rwa [hread.keys_schemas])
    obtain ⟨rfl, hrecognises⟩ := recognises_of_extract d c hresult (.refl _)
    refine ⟨M', hM, hread.interpreted_iff.1 hM', fun w hw => ?_⟩
    cases hw
    rw [← hsame, Value.expand_written]
    · exact Value.subst_linked d
        (hM'.toMeant.of_recognises d hd.of_mem_hoisted hrecognises)
    · intro name hname
      have hmem := ((Value.refNames_linked d).2 name hname).resolve_right id
      rw [Value.mem_refNames_ofDocument, hd.refNames] at hmem
      exact absurd hmem List.not_mem_nil

/-- A reference that stands for a document that refers to no component is to a name with a
meaning. -/
theorem eq_some_of_expand_reference {v : Linked τ} {name : Text} {d : Document} (hd : d.IsPlain)
    (hv : v = .ref (.component name)) (h : Value.expand M v.written = d) : M name = some d := by
  have hexpand : Value.expand M (Value.written (.ref (.component name) : Linked Empty)) = d := by
    rw [← h, hv]
    rfl
  rw [Value.expand_written _ fun _ hname => absurd hname List.not_mem_nil] at hexpand
  cases hmeaning : M name with
  | some e =>
    rw [Value.subst, Value.expanded, hmeaning, Option.getD_some] at hexpand
    rw [hexpand]
  | none =>
    rw [Value.subst, Value.expanded, hmeaning, Option.getD_none] at hexpand
    have hnames := hd.refNames
    rw [← hexpand, Value.refNames_componentAddress] at hnames
    cases hnames

end NamedSchemas
