import NamedSchemas.Proofs.Extraction.Loaded
import NamedSchemas.Proofs.Json.Decoding
import NamedSchemas.Proofs.Shortening.Unfolded
/-!
# Schemas that become one component

A schema is recognised by its canonical text, and the text shows of a value what JSON shows of it:
of a date its text, of a key that is no text the text that it is written as. So two schemas that
become one component need not be equal, but they show the same. The names of components stand in the
texts, and are looked up from the inside out.
-/

namespace NamedSchemas

variable {digest : Text → Text} {options : ExtractionOptions} {document : Document}

namespace Value

/-! ### What is shown of contents -/

theorem congruence_shown (f : Link Empty → Document) :
    Congruence fun v w : Linked Empty => w.shown.subst f = v.shown.subst f where
  refl _ := rfl
  trans huv hvw := hvw.trans huv
  map {es fs} h := by
    simp only [shown, subst, map.injEq]
    induction h with
    | nil => rfl
    | @cons e f es fs hef _ ih =>
      obtain ⟨key, v⟩ := e
      obtain ⟨_, w⟩ := f
      obtain ⟨rfl, hvalue⟩ := hef
      simp only [shownEntries, substEntries, ih, hvalue]

section Contents

variable {ν μ : Document → Text} {look : Text → Option Document} {d e : Document}

theorem shown_content_of {f : Link Empty → Document}
    (h : ∀ part ∈ d.inner, (part.2.linked ν).shown.subst f = part.2.shown) :
    (d.content ν).shown.subst f = d.shown := by
  have hdocument : ∀ i : Document, (ofDocument i : Linked Empty).shown.subst f = i.shown := by
    intro i
    rw [shown_ofDocument, ofDocument_subst, ofDocument_self]
  rw [← hdocument d]
  refine related_withInner_map (congruence_shown f) fun part hpart => ?_
  rw [hdocument]
  exact h part hpart

/-- Looking up what components show gives back what the schema shows. -/
theorem shown_linked (d : Document) (h : ∀ i ∈ d.hoisted, look (ν i) = some i.shown) :
    (d.linked ν).shown.subst (expanded look) = d.shown := by
  induction d using schemaInduction with
  | step d ih =>
    rw [hoisted_eq] at h
    rw [linked_eq]
    split
    · next hhoisted =>
      have hlook := h d (by rw [if_pos hhoisted]; exact List.mem_append_right _ (List.mem_cons_self ..))
      rw [shown, subst, expanded, hlook, Option.getD_some]
    · exact shown_content_of fun part hpart => ih part hpart fun i hi =>
        h i (List.mem_append_left _ (List.mem_flatMap.2 ⟨part, hpart, hi⟩))

theorem expand_shown_content (hd : ∀ i ∈ d.hoistedInside, look (ν i) = some i.shown)
    (hpoints : ∀ name shown, look name = some shown → ∀ p ∈ name, p.isNamePoint = true)
    (hforeign : ∀ name ∈ d.refNames, look name = none) :
    expand look (d.content ν).written.shown = d.shown := by
  have hlabels : ∀ name, Link.component name ∈ (d.content ν).labels →
      ∀ p ∈ name, p.isNamePoint = true := by
    intro name hname
    obtain ⟨i, hi, heq⟩ := labels_content d _ hname
    cases heq
    exact hpoints _ _ (hd i hi)
  have hnames : ∀ name ∈ (d.content ν).shown.refNames, look name = none := by
    intro name hname
    cases hlook : look name with
    | none => rfl
    | some shown =>
      have hown := refNames_content (mem_refNames_of_shown (hpoints name shown hlook) _ hname)
      exact hlook.symm.trans (hforeign name hown)
  rw [shown_written hlabels, expand_written _ hnames]
  exact shown_content_of fun part hpart => shown_linked part.2 fun i hi =>
    hd i (List.mem_flatMap.2 ⟨part, hpart, hi⟩)

/-- Schemas whose contents show the same show the same, when what the components inside them show
can be told by name. -/
theorem shown_eq_of_content (hd : ∀ i ∈ d.hoistedInside, look (ν i) = some i.shown)
    (he : ∀ i ∈ e.hoistedInside, look (μ i) = some i.shown)
    (hpoints : ∀ name shown, look name = some shown → ∀ p ∈ name, p.isNamePoint = true)
    (hforeign : ∀ name, name ∈ d.refNames ∨ name ∈ e.refNames → look name = none)
    (h : (d.content ν).written.shown = (e.content μ).written.shown) : d.shown = e.shown := by
  rw [← expand_shown_content hd hpoints fun name hname => hforeign name (Or.inl hname), h,
    expand_shown_content he hpoints fun name hname => hforeign name (Or.inr hname)]

end Contents

end Value

/-! ### What names show -/

section Names

variable {ν : Document → Text} {ds : List Document} {name : Text}

/-- What the first of some schemas that has the name shows. -/
def shownUnder (ν : Document → Text) (ds : List Document) (name : Text) : Option Document :=
  (ds.find? fun d => ν d = name).map Value.shown

theorem shownUnder_of_mem (h : ∀ d ∈ ds, ∀ e ∈ ds, ν d = ν e → d.shown = e.shown) {d : Document}
    (hd : d ∈ ds) : shownUnder ν ds (ν d) = some d.shown := by
  rw [shownUnder]
  cases hfind : ds.find? fun e => ν e = ν d with
  | none => exact absurd (decide_eq_true rfl) (List.find?_eq_none.1 hfind d hd)
  | some e =>
    have hname : ν e = ν d := of_decide_eq_true (List.find?_some hfind :)
    rw [Option.map_some, h e (List.mem_of_find?_eq_some hfind) d hd hname]

theorem exists_of_shownUnder {shown : Document} (h : shownUnder ν ds name = some shown) :
    ∃ d ∈ ds, ν d = name := by
  obtain ⟨d, hfind, -⟩ := Option.map_eq_some_iff.1 h
  exact ⟨d, List.mem_of_find?_eq_some hfind, of_decide_eq_true (List.find?_some hfind :)⟩

end Names

/-! ### Names of the registry -/

section Registry

variable {s : ExtractionSettings} {existing : List Text} {ν : Document → Text} {O : List Occurrence}
  {r : Registry Empty}

theorem Registry.Consistent.canonicalText_eq (hr : r.Consistent digest existing)
    {v w : Linked Empty} {name : Text} (hv : r.Knows digest v name) (hw : r.Knows digest w name) :
    canonicalText v = canonicalText w := by
  obtain ⟨first, hfirst, hlookup⟩ := hv.found
  obtain ⟨second, hsecond, hlookup'⟩ := hw.found
  obtain ⟨hname, htext⟩ := lookup_eq_some.1 hlookup
  obtain ⟨hname', htext'⟩ := lookup_eq_some.1 hlookup'
  have hnodup : (r.names.entries.map Prod.snd).Nodup := hr.named.nodup_iff.2 r.schemas.nodup
  have hentry := List.inj_on_of_nodup_map hnodup (Table.get?_eq_some_iff.1 hname)
    (Table.get?_eq_some_iff.1 hname') rfl
  rw [(Prod.mk.inj hentry).1, htext'] at htext
  rw [hfirst, hsecond, Option.some.inj htext]

theorem shown_eq_of_canonicalText {v w : Linked Empty} {text : Text}
    (hv : canonicalText v = .ok text) (hw : canonicalText w = .ok text) :
    v.written.shown = w.written.shown := by
  rw [canonicalText] at hv hw
  split at hv
  · next cs hcs =>
    split at hw
    · next ds hds =>
      obtain rfl := Text.ofChars_injective ((Except.ok.inj hv).trans (Except.ok.inj hw).symm)
      exact Json.shown_eq_of_canonical hcs hds
    · cases hw
  · cases hv

theorem Registry.Records.isNamePoint (hr : r.Records s existing ν O) {d : Document}
    (hd : d ∈ schemasOf O) : ∀ p ∈ ν d, p.isNamePoint = true := by
  obtain ⟨c, -, hname⟩ := hr.namedAfter _ (hr.mem_keys hd)
  exact Context.isNamePoint_of_mem_name hname

theorem Registry.Records.shown_eq (hr : r.Records s existing ν O) (hinside : InsideFirst O)
    (hknown : ∀ d ∈ schemasOf O, ∀ name ∈ d.refNames, name ∈ existing) {d e : Document}
    (hd : d ∈ schemasOf O) (he : e ∈ schemasOf O) (hname : ν d = ν e) : d.shown = e.shown := by
  -- the schemas inside are smaller, and their names stand in the texts
  obtain ⟨n, hsize⟩ : ∃ n, sizeOf d < n ∧ sizeOf e < n := ⟨sizeOf d + sizeOf e + 1, by omega, by omega⟩
  induction n generalizing d e with
  | zero => exact absurd hsize.1 (Nat.not_lt_zero _)
  | succ n ih =>
    let inside := d.hoistedInside ++ e.hoistedInside
    have hmet : ∀ i ∈ inside, i ∈ schemasOf O ∧ sizeOf i < n := by
      intro i hi
      rcases List.mem_append.1 hi with hi | hi
      · exact ⟨hinside.inside_met (List.prefix_refl O) hd i hi,
          Nat.lt_of_lt_of_le (Value.sizeOf_hoistedInside hi) (Nat.le_of_lt_succ hsize.1)⟩
      · exact ⟨hinside.inside_met (List.prefix_refl O) he i hi,
          Nat.lt_of_lt_of_le (Value.sizeOf_hoistedInside hi) (Nat.le_of_lt_succ hsize.2)⟩
    have hlook : ∀ i ∈ inside, shownUnder ν inside (ν i) = some i.shown := fun i hi =>
      shownUnder_of_mem (fun i hi j hj hsame =>
        ih (hmet i hi).1 (hmet j hj).1 hsame ⟨(hmet i hi).2, (hmet j hj).2⟩) hi
    obtain ⟨text, htext, -⟩ := (hr.known d hd).found
    have htext' := hr.toConsistent.canonicalText_eq (hr.known d hd) (hname ▸ hr.known e he)
    refine Value.shown_eq_of_content (fun i hi => hlook i (List.mem_append_left _ hi))
      (fun i hi => hlook i (List.mem_append_right _ hi)) ?_ ?_
      (shown_eq_of_canonicalText htext (htext' ▸ htext))
    · intro name shown h
      obtain ⟨i, hi, rfl⟩ := exists_of_shownUnder h
      exact hr.isNamePoint (hmet i hi).1
    · intro name hown
      have hexisting : name ∈ existing := hown.elim (hknown d hd name) (hknown e he name)
      refine Option.eq_none_iff_forall_not_mem.2 fun shown h => ?_
      obtain ⟨i, hi, rfl⟩ := exists_of_shownUnder h
      exact hr.fresh _ (hr.mem_keys (hmet i hi).1) hexisting

end Registry

/-! ### Extractions -/

/-- An extraction replaces schemas by references to components with these names. Every schema in a
body that becomes a component occurs in the ledger under its name, and its component holds a schema
of this name, which may have been given an identifier. -/
structure Replaces (mediaType : Text) (document : Document) (ν : Document → Text) (e : Extraction) :
    Prop where
  occurrences : (document.bodyOccurrences mediaType).map Occurrence.schema =
    (document.bodies mediaType).flatMap fun body => body.2.hoisted
  bodies : e.document.bodies mediaType =
    (document.bodies mediaType).map fun body => (body.1, (body.2.linked ν).written)
  fresh : ∀ o ∈ document.bodyOccurrences mediaType, ν o.schema ∉ document.schemaNames
  components : ∀ o ∈ document.bodyOccurrences mediaType,
    ∃ other ∈ document.bodyOccurrences mediaType, ν other.schema = ν o.schema ∧ ∃ id?,
      (.text (ν o.schema), ((other.schema.content ν).marked id?).written) ∈ e.document.namedSchemas
  usages : ∀ o ∈ document.bodyOccurrences mediaType, e.usages.get? (ν o.schema) =
    some (contextsUnder ν (document.bodyOccurrences mediaType) (ν o.schema))

theorem IsRecorded.component {r : Registry Empty} {e : Extraction}
    (h : IsRecorded digest options document r e) {entry : Text × Linked Empty}
    (hentry : entry ∈ r.schemas.entries) :
    ∃ o ∈ document.bodyOccurrences options.mediaType, r.nameOf digest o.schema = entry.1 ∧
      ∃ id?, (renamedComponent e.renamed entry).2 =
        (o.schema.content fun i => renamedAtOnce e.renamed (r.nameOf digest i)).marked id? := by
  obtain ⟨d, hd, hname, hheld⟩ := h.records.held entry hentry
  obtain ⟨o, ho, rfl⟩ := exists_of_mem_schemasOf hd
  obtain ⟨id?, hcomponent⟩ := renamedComponent_storedEntries h.result.plan
    ⟨digest, options.assignIds⟩ (r.nameOf digest) entry.1
    (Value.isHoisted_of_mem_bodyOccurrences o ho)
  rw [← hheld] at hcomponent
  exact ⟨o, ho, hname, id?, hcomponent⟩

theorem IsRecorded.replaces {r : Registry Empty} {e : Extraction}
    (h : IsRecorded digest options document r e) :
    Replaces options.mediaType document (fun d => renamedAtOnce e.renamed (r.nameOf digest d)) e := by
  have hr := h.records
  have hresult := h.result
  have hkeys : ∀ o ∈ document.bodyOccurrences options.mediaType,
      r.nameOf digest o.schema ∈ r.schemas.keys :=
    fun o ho => hr.mem_keys (mem_schemasOf_of_mem ho)
  refine ⟨h.occurrences, hresult.bodies_linked, fun o ho => ?_, fun o ho => ?_, fun o ho => ?_⟩
  · exact hresult.plan.renamedAtOnce_fresh hresult.old hr.fresh (hkeys o ho)
  · obtain ⟨entry, hentry, hname⟩ := List.mem_map.1 (hkeys o ho)
    obtain ⟨other, hother, hsame, id?, hcomponent⟩ := h.component hentry
    refine ⟨other, hother, congrArg (renamedAtOnce e.renamed) (hsame.trans hname), id?, ?_⟩
    rw [hresult.document, Value.namedSchemas_assembled]
    refine List.mem_append_right _
      (List.mem_map.2 ⟨entry, mem_reordered_of_mem r.schemas.nodup hentry, ?_⟩)
    rw [hcomponent, hname]
  · have hused := hr.contexts _ (hkeys o ho)
    refine Table.get?_eq_some_iff.2 ?_
    rw [hresult.usages]
    refine List.mem_map.2 ⟨_, mem_reordered_of_mem r.usages.nodup (Table.get?_eq_some_iff.1 hused),
      Prod.ext rfl ?_⟩
    refine congrArg (List.map Occurrence.context) (List.filter_congr fun other hother => ?_)
    refine decide_eq_decide.2 ⟨congrArg (renamedAtOnce e.renamed), fun heq => ?_⟩
    exact hresult.renamedAtOnce_injective (hkeys other hother) (hkeys o ho) heq

theorem extractWith_mergesShown {e : Extraction}
    (hknown : ∀ name ∈ document.refNames, name ∈ document.schemaNames)
    (h : extractWith digest options document = .ok e) :
    ∃ ν, Replaces options.mediaType document ν e ∧
      ∀ o ∈ document.bodyOccurrences options.mediaType,
        ∀ other ∈ document.bodyOccurrences options.mediaType,
          ν o.schema = ν other.schema → o.schema.shown = other.schema.shown := by
  obtain ⟨r, h⟩ := isRecorded_of_extractWith h
  refine ⟨_, h.replaces, fun o ho other hother heq => ?_⟩
  have hr := h.records
  have ho := mem_schemasOf_of_mem ho
  have hother := mem_schemasOf_of_mem hother
  have hname := h.result.renamedAtOnce_injective (hr.mem_keys ho) (hr.mem_keys hother) heq
  exact hr.shown_eq (insideFirst_bodyOccurrences options.mediaType document)
    (fun d hd name hname => hknown name (Value.refNames_of_mem_schemasOf hd name hname)) ho hother hname

def illustratedSchema (value : Scalar) : Document :=
  .object [("type", .text "object"), ("example", .scalar value)]

/-- The schemas differ, and the bodies that had them refer to one component. -/
def AreMerged (first second : Document) : Prop :=
  first ≠ second ∧ ∃ e, extractComponents .usual (twoBodies first second) = .ok e ∧
    (e.document.bodies jsonMediaType).map Prod.snd =
      List.replicate 2 (Value.ref (.component "GetA.X") : Linked Empty).written

theorem areMerged_of_bodies {first second : Document} (hne : first ≠ second)
    (h : (extractComponents .usual (twoBodies first second)).toOption.map
      (fun e => (e.document.bodies jsonMediaType).map Prod.snd) =
        some (List.replicate 2 (Value.ref (.component "GetA.X") : Linked Empty).written)) :
    AreMerged first second := by
  refine ⟨hne, ?_⟩
  cases hresult : extractComponents .usual (twoBodies first second) with
  | error fault =>
    rw [hresult] at h
    cases h
  | ok e =>
    rw [hresult] at h
    exact ⟨e, rfl, Option.some.inj h⟩

end NamedSchemas
