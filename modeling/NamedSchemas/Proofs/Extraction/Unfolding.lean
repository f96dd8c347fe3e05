import Mathlib.Logic.Function.Iterate
import NamedSchemas.Proofs.Extraction.Grouping
import NamedSchemas.Proofs.Extraction.Linkage
/-!
# Unfolding references

References to components are replaced by the schemas that the components hold, again and again. The
components are smaller the deeper they are referred to, so no reference leads back to where it
stands, and what comes out in the end is the schema that was extracted, up to the identifiers that
were given.
-/

namespace NamedSchemas

namespace Value

variable {ρ σ : Type}

/-- Gives a map an identifier, when there is one to give. -/
def marked (id? : Option Text) (v : Value ρ) : Value ρ := id?.elim v fun name => v.withId name

theorem subst_marked (f : ρ → Value σ) (id? : Option Text) {v : Value ρ} (h : v.isMap = true) :
    (v.marked id?).subst f = (v.subst f).marked id? := by
  cases id? with
  | none => rfl
  | some name => exact subst_withId f name h

theorem isMap_marked (id? : Option Text) (v : Value ρ) : (v.marked id?).isMap = v.isMap := by
  cases id? with
  | none => rfl
  | some name => exact isMap_withId name v

/-- A schema in which the schemas that become components have been given identifiers. -/
def withIds (ids : Document → Option Text) : Document → Document :=
  fold fun d inside =>
    if d.isHoisted then (d.withInner (inside.map Prod.snd)).marked (ids d)
    else d.withInner (inside.map Prod.snd)

theorem withIds_eq (ids : Document → Option Text) (d : Document) : d.withIds ids =
    if d.isHoisted then
      (d.withInner (d.inner.map fun part => part.2.withIds ids) : Document).marked (ids d)
    else d.withInner (d.inner.map fun part => part.2.withIds ids) := by
  rw [withIds, fold_eq, List.map_map]
  rfl

/-! ### What components refer to -/

section Labels

variable {ν : Document → Text}

theorem labels_content_of {d : Document} {more : Link Empty → Prop}
    (h : ∀ part ∈ d.inner, ∀ label ∈ (part.2.linked ν).labels, more label) :
    ∀ label ∈ (d.content ν).labels, more label := by
  have hrelated := related_withInner_map (congruence_labels more)
    (g := fun part => part.2.linked ν) fun part hpart label hlabel => Or.inr (h part hpart label hlabel)
  intro label hlabel
  refine (hrelated label hlabel).resolve_left ?_
  rw [labels_ofDocument]
  exact List.not_mem_nil

theorem labels_linked (d : Document) :
    ∀ label ∈ (d.linked ν).labels, ∃ i ∈ d.hoisted, label = .component (ν i) := by
  induction d using schemaInduction with
  | step d ih =>
    rw [linked_eq, hoisted_eq]
    split
    · exact fun label hlabel =>
        ⟨d, List.mem_append_right _ (List.mem_cons_self ..), List.mem_singleton.1 hlabel⟩
    · refine labels_content_of fun part hpart label hlabel => ?_
      obtain ⟨i, hi, heq⟩ := ih part hpart label hlabel
      exact ⟨i, List.mem_append_left _ (List.mem_flatMap.2 ⟨part, hpart, hi⟩), heq⟩

theorem labels_content (d : Document) :
    ∀ label ∈ (d.content ν).labels, ∃ i ∈ d.hoistedInside, label = .component (ν i) := by
  refine labels_content_of fun part hpart label hlabel => ?_
  obtain ⟨i, hi, heq⟩ := labels_linked part.2 label hlabel
  exact ⟨i, List.mem_flatMap.2 ⟨part, hpart, hi⟩, heq⟩

end Labels

theorem sizeOf_hoisted (d : Document) : ∀ i ∈ d.hoisted, sizeOf i ≤ sizeOf d := by
  induction d using schemaInduction with
  | step d ih =>
    intro i hi
    rw [hoisted_eq] at hi
    rcases List.mem_append.1 hi with hinside | hself
    · obtain ⟨part, hpart, hi⟩ := List.mem_flatMap.1 hinside
      exact Nat.le_trans (ih part hpart i hi) (Nat.le_of_lt (sizeOf_inner hpart))
    · split at hself
      · exact Nat.le_of_eq (congrArg sizeOf (List.mem_singleton.1 hself))
      · cases hself

theorem sizeOf_hoistedInside {d i : Document} (h : i ∈ d.hoistedInside) : sizeOf i < sizeOf d := by
  obtain ⟨part, hpart, hi⟩ := List.mem_flatMap.1 h
  exact Nat.lt_of_le_of_lt (sizeOf_hoisted part.2 i hi) (sizeOf_inner hpart)

/-! ### Replacing references again and again -/

theorem iterate_subst_withInner (f : ρ → Value ρ) {d : Document} {ws : List (Value ρ)}
    (h : ws.length = d.inner.length) (k : Nat) :
    (subst f)^[k] (d.withInner ws) = d.withInner (ws.map (subst f)^[k]) := by
  induction k generalizing ws with
  | zero => rw [Function.iterate_zero, List.map_id]; rfl
  | succ k ih =>
    rw [Function.iterate_succ_apply, subst_withInner f h, ih (by rw [List.length_map, h]),
      List.map_map]
    rfl

theorem iterate_subst_marked (f : ρ → Value ρ) (id? : Option Text) {v : Value ρ}
    (h : v.isMap = true) (k : Nat) :
    (subst f)^[k] (v.marked id?) = ((subst f)^[k] v).marked id? := by
  induction k generalizing v with
  | zero => rfl
  | succ k ih =>
    rw [Function.iterate_succ_apply, subst_marked f id? h, ih (isMap_subst f h),
      Function.iterate_succ_apply]

/-- When every component holds its schema, references are gone after as many replacements as the
schema is large, and the schema is back. -/
theorem iterate_subst_linked {ν : Document → Text} {ids : Document → Option Text}
    {look : Link Empty → Linked Empty} (d : Document)
    (h : ∀ i ∈ d.hoisted, look (.component (ν i)) = (i.content ν).marked (ids i)) {k : Nat}
    (hk : sizeOf d ≤ k) : (subst look)^[k] (d.linked ν) = ofDocument (d.withIds ids) := by
  induction d using schemaInduction generalizing k with
  | step d ih =>
    rw [hoisted_eq] at h
    have hinside : ∀ k, (∀ part ∈ d.inner, sizeOf part.2 ≤ k) → (subst look)^[k] (d.content ν) =
        ofDocument (d.withInner (d.inner.map fun part => part.2.withIds ids)) := by
      intro k hsize
      rw [content, iterate_subst_withInner look (by rw [List.length_map]), ofDocument,
        subst_withInner Empty.elim (by rw [List.length_map]), List.map_map, List.map_map]
      exact congrArg d.withInner (List.map_congr_left fun part hpart => ih part hpart (fun i hi =>
        h i (List.mem_append_left _ (List.mem_flatMap.2 ⟨part, hpart, hi⟩))) (hsize part hpart))
    rw [linked_eq, withIds_eq]
    split
    · next hhoisted =>
      have hlook := h d (by rw [if_pos hhoisted]; exact List.mem_append_right _ (List.mem_cons_self ..))
      cases k with
      | zero => cases d <;> simp at hk
      | succ k =>
        have hsize : ∀ part ∈ d.inner, sizeOf part.2 ≤ k := fun part hpart =>
          Nat.le_of_lt_succ (Nat.lt_of_lt_of_le (sizeOf_inner hpart) hk)
        rw [Function.iterate_succ_apply, subst, hlook,
          iterate_subst_marked look _ (isMap_content hhoisted), hinside k hsize, ofDocument, ofDocument,
          subst_marked _ _ (by rw [isMap_withInner, isMap_of_isHoisted hhoisted])]
    · exact hinside k fun part hpart => Nat.le_trans (Nat.le_of_lt (sizeOf_inner hpart)) hk

/-- Expanding what was written again and again is substituting again and again before it is
written. -/
theorem iterate_expand_written {look : Text → Option Document} {f : Link Empty → Linked Empty}
    (hf : ∀ label, (f label).written = expanded look label) (htext : ∀ label, (f label).text? = none)
    (hnames : ∀ label, ∀ name ∈ (f label).refNames, look name = none) {v : Linked Empty}
    (hv : ∀ name ∈ v.refNames, look name = none) (k : Nat) :
    (expand look)^[k] v.written = ((subst f)^[k] v).written ∧
      ∀ name ∈ ((subst f)^[k] v).refNames, look name = none := by
  induction k generalizing v with
  | zero => exact ⟨rfl, hv⟩
  | succ k ih =>
    have hstep : expand look v.written = (v.subst f).written := by
      rw [expand_written v hv, written, subst_subst]
      exact congrArg v.subst (funext fun label => (hf label).symm)
    rw [Function.iterate_succ_apply, Function.iterate_succ_apply, hstep]
    refine ih fun name hname => ?_
    rcases (mem_refNames_subst htext name v).1 hname with hown | ⟨label, -, hlabel⟩
    · exact hv name hown
    · exact hnames label name hlabel

theorem mem_addressed_marked {α : Type} {f : Text → Option α} {id? : Option Text} {v : Value ρ} {a : α}
    (h : a ∈ (v.marked id?).addressed f) : a ∈ v.addressed f := by
  cases id? with
  | none => exact h
  | some id => exact mem_addressed_withId h

theorem mem_refNames_marked {id? : Option Text} {v : Value ρ} {name : Text}
    (h : name ∈ (v.marked id?).refNames) : name ∈ v.refNames := by
  rw [refNames_eq_addressed] at h ⊢
  exact mem_addressed_marked h

theorem mem_labels_marked {id? : Option Text} {v : Value ρ} {label : ρ}
    (h : label ∈ (v.marked id?).labels) : label ∈ v.labels := by
  cases id? with
  | none => exact h
  | some id => exact mem_labels_withId h

end Value

/-! ### Components that hold schemas -/

def heldBy {α : Type} (components : List (Text × α)) (name : Text) : Option α :=
  (components.find? fun component => component.1 = name).map Prod.snd

theorem heldBy_of_not_mem {α : Type} {components : List (Text × α)} {name : Text}
    (h : name ∉ components.map Prod.fst) : heldBy components name = none := by
  have hfind : components.find? (fun component => component.1 = name) = none :=
    List.find?_eq_none.2 fun component hcomponent heq =>
      h (List.mem_map.2 ⟨component, hcomponent, of_decide_eq_true heq⟩)
  rw [heldBy, hfind]
  rfl

/-- The component of one name refers to another component. -/
def RefersTo (components : List (Text × Document)) (name other : Text) : Prop :=
  other ∈ components.map Prod.fst ∧ ∃ d, (name, d) ∈ components ∧ other ∈ d.refNames

def writtenOut (components : List (Text × Linked Empty)) : List (Text × Document) :=
  components.map fun component => (component.1, component.2.written)

/-- What a reference is replaced by: the schema of its component, when there is one. -/
def referent (components : List (Text × Linked Empty)) : Link Empty → Linked Empty
  | .component name => (heldBy components name).getD (.ref (.component name))
  | .identifier schema _ => schema.elim

theorem map_fst_writtenOut (components : List (Text × Linked Empty)) :
    (writtenOut components).map Prod.fst = components.map Prod.fst := by
  rw [writtenOut, List.map_map]
  rfl

theorem heldBy_writtenOut (components : List (Text × Linked Empty)) (name : Text) :
    heldBy (writtenOut components) name = (heldBy components name).map Value.written := by
  rw [heldBy, writtenOut, List.find?_map, heldBy, Option.map_map, Option.map_map]
  rfl

theorem written_referent (components : List (Text × Linked Empty)) (label : Link Empty) :
    (referent components label).written = Value.expanded (heldBy (writtenOut components)) label := by
  match label with
  | .component name =>
    rw [Value.expanded, heldBy_writtenOut, referent]
    cases heldBy components name <;> rfl
  | .identifier schema _ => exact schema.elim

/-- The components hold these schemas under these names. What they refer to besides each other is no
component. -/
structure Holds (ν : Document → Text) (ids : Document → Option Text) (ds : List Document)
    (components : List (Text × Linked Empty)) : Prop where
  nodup : (components.map Prod.fst).Nodup
  mem_iff : ∀ component, component ∈ components ↔
    ∃ d ∈ ds, component = (ν d, (d.content ν).marked (ids d))
  injective : ∀ d ∈ ds, ∀ e ∈ ds, ν d = ν e → d = e
  hoisted : ∀ d ∈ ds, d.isHoisted = true
  inside : ∀ d ∈ ds, ∀ i ∈ d.hoistedInside, i ∈ ds
  foreign : ∀ d ∈ ds, ∀ name ∈ d.refNames, name ∉ components.map Prod.fst

namespace Holds

variable {ν : Document → Text} {ids : Document → Option Text} {ds : List Document}
  {components : List (Text × Linked Empty)}

theorem referent_eq (h : Holds ν ids ds components) {d : Document} (hd : d ∈ ds) :
    referent components (.component (ν d)) = (d.content ν).marked (ids d) := by
  have hmem := (h.mem_iff (ν d, (d.content ν).marked (ids d))).2 ⟨d, hd, rfl⟩
  rw [referent, heldBy, Table.find?_of_nodup (f := Prod.fst) h.nodup hmem]
  rfl

/-- A component refers to schemas inside its own, and they are smaller. -/
theorem refersTo (h : Holds ν ids ds components) {name other : Text}
    (hrefers : RefersTo (writtenOut components) name other) :
    ∃ d ∈ ds, ∃ i ∈ ds, name = ν d ∧ other = ν i ∧ sizeOf i < sizeOf d := by
  obtain ⟨hother, written, hcomponent, hname⟩ := hrefers
  obtain ⟨component, hcomponent, heq⟩ := List.mem_map.1 hcomponent
  obtain ⟨d, hd, rfl⟩ := (h.mem_iff component).1 hcomponent
  obtain ⟨rfl, rfl⟩ := Prod.mk.inj heq
  have hlabel : Link.component other ∈ (d.content ν).labels := by
    refine Value.mem_labels_marked ((Value.mem_refNames_written.1 hname).resolve_left fun hown => ?_)
    refine h.foreign d hd other (Value.refNames_content (Value.mem_refNames_marked hown)) ?_
    rwa [map_fst_writtenOut] at hother
  obtain ⟨i, hi, heq⟩ := Value.labels_content d _ hlabel
  exact ⟨d, hd, i, h.inside d hd i hi, rfl, Link.component.inj heq, Value.sizeOf_hoistedInside hi⟩

theorem refersTo_transGen (h : Holds ν ids ds components) {name other : Text}
    (hrefers : Relation.TransGen (RefersTo (writtenOut components)) name other) :
    ∃ d ∈ ds, ∃ i ∈ ds, name = ν d ∧ other = ν i ∧ sizeOf i < sizeOf d := by
  induction hrefers with
  | single hfirst => exact h.refersTo hfirst
  | tail _ hlast ih =>
    obtain ⟨d, hd, i, hi, hname, hmiddle, hsize⟩ := ih
    obtain ⟨j, hj, k, hk, hsame, hother, hsmaller⟩ := h.refersTo hlast
    obtain rfl := h.injective i hi j hj (hmiddle.symm.trans hsame)
    exact ⟨d, hd, k, hk, hname, hother, Nat.lt_trans hsmaller hsize⟩

/-- No component refers to itself, not even through others. -/
theorem acyclic (h : Holds ν ids ds components) (name : Text) :
    ¬ Relation.TransGen (RefersTo (writtenOut components)) name name := by
  intro hcycle
  obtain ⟨d, hd, i, hi, hname, hother, hsize⟩ := h.refersTo_transGen hcycle
  rw [h.injective d hd i hi (hname.symm.trans hother)] at hsize
  exact Nat.lt_irrefl _ hsize

theorem referent_cases (h : Holds ν ids ds components) (label : Link Empty) :
    referent components label = .ref label ∨
      ∃ d ∈ ds, referent components label = (d.content ν).marked (ids d) := by
  match label with
  | .identifier schema _ => exact schema.elim
  | .component name =>
    rw [referent]
    cases hheld : heldBy components name with
    | none => exact Or.inl rfl
    | some v =>
      obtain ⟨component, hfind, rfl⟩ := Option.map_eq_some_iff.1 hheld
      obtain ⟨d, hd, rfl⟩ := (h.mem_iff component).1 (List.mem_of_find?_eq_some hfind)
      exact Or.inr ⟨d, hd, rfl⟩

theorem text?_referent (h : Holds ν ids ds components) (label : Link Empty) :
    (referent components label).text? = none := by
  rcases h.referent_cases label with heq | ⟨d, hd, heq⟩
  · rw [heq]
    rfl
  · rw [heq, Value.text?_of_isMap]
    rw [Value.isMap_marked, Value.isMap_content (h.hoisted d hd)]

theorem heldBy_of_foreign {name : Text} (h : name ∉ components.map Prod.fst) :
    heldBy (writtenOut components) name = none := by
  rw [heldBy_writtenOut, heldBy_of_not_mem h]
  rfl

theorem refNames_referent (h : Holds ν ids ds components) (label : Link Empty) :
    ∀ name ∈ (referent components label).refNames, name ∉ components.map Prod.fst := by
  intro name hname
  rcases h.referent_cases label with heq | ⟨d, hd, heq⟩
  · rw [heq] at hname
    cases hname
  · rw [heq] at hname
    exact h.foreign d hd name (Value.refNames_content (Value.mem_refNames_marked hname))

/-- What stays in the place of a schema expands to the schema, and then there is nothing left to
expand. -/
theorem iterate_expand (h : Holds ν ids ds components) {d : Document}
    (hd : ∀ i ∈ d.hoisted, i ∈ ds) (hforeign : ∀ name ∈ d.refNames, name ∉ components.map Prod.fst) :
    (Value.expand (heldBy (writtenOut components)))^[sizeOf d] (d.linked ν).written =
        d.withIds ids ∧
      ∀ name ∈ (d.withIds ids).refNames, heldBy (writtenOut components) name = none := by
  have hlinked : ∀ name ∈ (d.linked ν).refNames, heldBy (writtenOut components) name = none := by
    intro name hname
    have hown := ((Value.refNames_linked d).2 name hname).resolve_right id
    exact heldBy_of_foreign (hforeign name (Value.mem_refNames_ofDocument.1 hown))
  have hresult := Value.iterate_expand_written (written_referent components) h.text?_referent
    (fun label name hname => heldBy_of_foreign (h.refNames_referent label name hname)) hlinked
    (sizeOf d)
  rw [Value.iterate_subst_linked d (fun i hi => h.referent_eq (hd i hi)) (Nat.le_refl _)] at hresult
  obtain ⟨hexpand, hnames⟩ := hresult
  refine ⟨hexpand.trans ?_, fun name hname => hnames name (Value.mem_refNames_ofDocument.2 hname)⟩
  rw [Value.written, Value.ofDocument_subst, Value.ofDocument_self]

end Holds

end NamedSchemas
