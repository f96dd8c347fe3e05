import NamedSchemas.Proofs.Value.Subst
import NamedSchemas.Shared.Document
/-!
# Trees of graphs

Following shared values ends at the same values from some depth on, when no value contains itself.
So the tree of a shared value is made of the trees of what it holds, and a document with its shared
values has the same tree before and after it is one that could refer to components.
-/

namespace NamedSchemas

variable {ρ σ : Type}

namespace Value

mutual

theorem allRefs_iff {p : ρ → Bool} : ∀ v : Value ρ,
    v.allRefs p = true ↔ ∀ label ∈ v.labels, p label = true
  | .scalar _ => by simp [allRefs, labels]
  | .list items => by rw [allRefs, labels, allItemRefs_iff items]
  | .map entries => by rw [allRefs, labels, allEntryRefs_iff entries]
  | .ref _ => by simp [allRefs, labels]

theorem allItemRefs_iff {p : ρ → Bool} : ∀ items : List (Value ρ),
    allItemRefs p items = true ↔ ∀ label ∈ itemLabels items, p label = true
  | [] => by simp [allItemRefs, itemLabels]
  | item :: rest => by
    rw [allItemRefs, itemLabels, Bool.and_eq_true, allRefs_iff item, allItemRefs_iff rest,
      List.forall_mem_append]

theorem allEntryRefs_iff {p : ρ → Bool} : ∀ entries : Entries ρ,
    allEntryRefs p entries = true ↔ ∀ label ∈ entryLabels entries, p label = true
  | [] => by simp [allEntryRefs, entryLabels]
  | (_, value) :: rest => by
    rw [allEntryRefs, entryLabels, Bool.and_eq_true, allRefs_iff value, allEntryRefs_iff rest,
      List.forall_mem_append]

end

theorem allRefs_relabel (p : σ → Bool) (f : ρ → σ) (v : Value ρ) :
    (v.relabel f).allRefs p = v.allRefs fun label => p (f label) := by
  rw [Bool.eq_iff_iff, allRefs_iff, allRefs_iff, relabel, labels_subst]
  simp only [labels, List.mem_flatMap, List.mem_singleton, forall_exists_index, and_imp]
  exact ⟨fun h label hlabel => h _ label hlabel rfl, fun h _ label hlabel heq =>
    heq ▸ h label hlabel⟩

theorem isFlat_relabel (f : ρ → σ) (v : Value ρ) : (v.relabel f).isFlat = v.isFlat := by
  have hcollection : ∀ v : Value ρ, (v.relabel f).isCollection = v.isCollection := by
    intro v
    cases v <;> rfl
  cases v with
  | list items =>
    rw [relabel, subst, substItems_eq_map, isFlat, isFlat, List.all_map]
    exact congrArg items.all (funext fun item => congrArg not (hcollection item))
  | map entries =>
    rw [relabel, subst, substEntries_eq_map, isFlat, isFlat, List.all_map]
    exact congrArg entries.all (funext fun entry => congrArg not (hcollection entry.2))
  | scalar s => rfl
  | ref label => rfl

theorem text?_of_isFlat {v : Value ρ} (h : v.isFlat = true) (f : ρ → Value σ) :
    (v.subst f).text? = none := by
  cases v with
  | list items => rfl
  | map entries => rfl
  | scalar s => cases h
  | ref label => cases h

end Value

namespace Sharing

variable {shared : Sharing ρ}

theorem expand_own (shared : Sharing ρ) (depth : Nat) (label : ρ) :
    shared.expand depth (.own label) = .ref label := by
  cases depth <;> rfl

@[simp] theorem meaning_own (shared : Sharing ρ) (label : ρ) :
    shared.meaning (.own label) = .ref label := expand_own shared _ label

theorem value_map {f : Value (Position ρ) → Value (Position σ)}
    (hf : f (.scalar .null) = .scalar .null) (shared : Sharing ρ) (n : Nat) :
    value (shared.map f) n = f (shared.value n) := by
  rw [value, value, List.getD_eq_getElem?_getD, List.getD_eq_getElem?_getD, List.getElem?_map]
  cases shared[n]? with
  | none => exact hf.symm
  | some v => rfl

theorem value_of_length_le {n : Nat} (h : shared.length ≤ n) : shared.value n = .scalar .null := by
  rw [value, List.getD_eq_getElem?_getD, List.getElem?_eq_none h, Option.getD_none]

theorem expand_of_length_le {n : Nat} (h : shared.length ≤ n) (depth : Nat) :
    shared.expand depth (.shared n) = .scalar .null := by
  cases depth with
  | zero => rfl
  | succ depth => rw [expand, value_of_length_le h]; rfl

theorem expand_of_endsWithin {depth more : Nat} {position : Position ρ}
    (h : shared.endsWithin depth position = true) (hmore : depth ≤ more) :
    shared.expand more position = shared.expand depth position := by
  induction depth generalizing more position with
  | zero =>
    cases position with
    | own label => rw [expand_own, expand_own]
    | shared n =>
      have hn : shared.length ≤ n := of_decide_eq_true h
      rw [expand_of_length_le hn, expand_of_length_le hn]
  | succ depth ih =>
    cases position with
    | own label => rw [expand_own, expand_own]
    | shared n =>
      obtain ⟨more, rfl⟩ : ∃ k, more = k + 1 := ⟨more - 1, by omega⟩
      have hparts := (Value.allRefs_iff _).1 h
      exact Value.subst_congr _ fun label hlabel =>
        ih (hparts label hlabel) (Nat.le_of_succ_le_succ hmore)

theorem isProper_iff : shared.isProper = true ↔ ∀ n < shared.length,
    (shared.value n).isFlat = true ∧ shared.endsWithin shared.length (.shared n) = true := by
  simp only [isProper, List.all_eq_true, List.mem_range, Bool.and_eq_true]

section Proper

variable (h : shared.isProper = true)

include h

theorem endsWithin_length (position : Position ρ) :
    shared.endsWithin shared.length position = true := by
  cases position with
  | own label => cases shared.length <;> rfl
  | shared n =>
    rcases Nat.lt_or_ge n shared.length with hn | hn
    · exact (isProper_iff.1 h n hn).2
    · cases hlength : shared.length with
      | zero => exact decide_eq_true (hlength ▸ hn)
      | succ k => rw [endsWithin, value_of_length_le hn]; rfl

theorem isFinite_of_isProper (v : Value (Position ρ)) : shared.isFinite v = true :=
  (Value.allRefs_iff v).2 fun position _ => endsWithin_length h position

/-- Following shared values further than there are many is of no use. -/
theorem expand_eq_meaning {depth : Nat} (hdepth : shared.length ≤ depth) (position : Position ρ) :
    shared.expand depth position = shared.meaning position :=
  expand_of_endsWithin (endsWithin_length h position) hdepth

theorem meaning_shared (n : Nat) : shared.meaning (.shared n) = shared.tree (shared.value n) := by
  rcases Nat.lt_or_ge n shared.length with hn | hn
  · obtain ⟨k, hk⟩ : ∃ k, shared.length = k + 1 := ⟨shared.length - 1, by omega⟩
    have hends := (isProper_iff.1 h n hn).2
    rw [hk] at hends
    have hparts := (Value.allRefs_iff _).1 hends
    rw [meaning, tree, meaning, hk]
    exact Value.subst_congr _ fun label hlabel =>
      (expand_of_endsWithin (hparts label hlabel) (Nat.le_succ k)).symm
  · rw [value_of_length_le hn, meaning, expand_of_length_le hn]
    rfl

theorem tree_resolve (v : Value (Position ρ)) : shared.tree (shared.resolve v) = shared.tree v := by
  match v with
  | .ref (.shared n) => exact (meaning_shared h n).symm
  | .ref (.own _) => rfl
  | .scalar _ => rfl
  | .list _ => rfl
  | .map _ => rfl

theorem isFlat_or_eq_null (n : Nat) :
    (shared.value n).isFlat = true ∨ shared.value n = .scalar .null := by
  rcases Nat.lt_or_ge n shared.length with hn | hn
  · exact Or.inl (isProper_iff.1 h n hn).1
  · exact Or.inr (value_of_length_le hn)

theorem exists_of_resolve_eq_ref {v : Value (Position ρ)} {position : Position ρ}
    (hv : shared.resolve v = .ref position) : ∃ label, v = .ref (.own label) := by
  match v with
  | .ref (.own label) => exact ⟨label, rfl⟩
  | .ref (.shared n) =>
    have hvalue : shared.value n = .ref position := hv
    rcases isFlat_or_eq_null h n with hflat | hnull
    · rw [hvalue] at hflat
      cases hflat
    · rw [hvalue] at hnull
      cases hnull
  | .scalar _ => cases hv
  | .list _ => cases hv
  | .map _ => cases hv

theorem text?_meaning (position : Position ρ) : (shared.meaning position).text? = none := by
  cases position with
  | own label => rw [meaning_own]; rfl
  | shared n =>
    rw [meaning_shared h]
    rcases isFlat_or_eq_null h n with hflat | hnull
    · exact Value.text?_of_isFlat hflat _
    · rw [hnull]
      rfl

end Proper

end Sharing

/-! ### Documents that could refer to components -/

namespace SharedDocument

variable (d : SharedDocument)

/-- The shared values of a document as those of one that could refer to components. -/
def links : Sharing (Link Empty) := d.shared.map Shared.linked

theorem value_links (n : Nat) : d.links.value n = Shared.linked (d.shared.value n) :=
  Sharing.value_map rfl _ n

theorem expand_links (depth : Nat) (position : Position Empty) :
    d.links.expand depth (position.map Empty.elim) = .ofDocument (d.shared.expand depth position) := by
  induction depth generalizing position with
  | zero =>
    cases position with
    | own label => exact label.elim
    | shared n => rfl
  | succ depth ih =>
    cases position with
    | own label => exact label.elim
    | shared n =>
      rw [Position.map, Sharing.expand, value_links, Shared.linked, Value.relabel,
        Value.subst_subst, Sharing.expand, Value.ofDocument, Value.subst_subst]
      exact congrArg (Value.subst · _) (funext ih)

theorem meaning_links (n : Nat) :
    d.links.meaning (.shared n) = .ofDocument (d.shared.meaning (.shared n)) := by
  rw [Sharing.meaning, links, List.length_map]
  exact d.expand_links _ (.shared n)

theorem tree_linked (v : Value (Position Empty)) :
    d.links.tree (Shared.linked v) = .ofDocument (d.shared.tree v) := by
  rw [Sharing.tree, Shared.linked, Value.relabel, Value.subst_subst, Sharing.tree, Value.ofDocument,
    Value.subst_subst]
  congr 1
  funext position
  cases position with
  | own label => exact label.elim
  | shared n => exact d.meaning_links n

/-- The shared values of a document refer to no components, so no renaming changes them. -/
theorem relabel_linked (f : Link Empty → Link Empty) (v : Value (Position Empty)) :
    (Shared.linked v).relabel (.map f) = Shared.linked v := by
  rw [Shared.linked, Value.relabel_relabel]
  congr 1
  funext position
  cases position with
  | own label => exact label.elim
  | shared n => rfl

theorem map_relabel_links (f : Link Empty → Link Empty) :
    d.links.map (Value.relabel (.map f)) = d.links := by
  rw [links, List.map_map]
  exact List.map_congr_left fun v _ => relabel_linked f v

theorem tree_relabel (f : Link Empty → Link Empty) (v : SharedValue) :
    d.links.tree (v.relabel (.map f)) = (d.links.tree v).relabel f := by
  rw [Sharing.tree, Value.relabel, Value.subst_subst, Sharing.tree, Value.relabel, Value.subst_subst]
  congr 1
  funext position
  cases position with
  | own link =>
    show d.links.meaning (.own (f link)) = (d.links.meaning (.own link)).subst _
    rw [Sharing.meaning_own, Sharing.meaning_own]
    rfl
  | shared n =>
    show d.links.meaning (.shared n) = (d.links.meaning (.shared n)).subst _
    rw [meaning_links, Value.ofDocument_subst]

theorem map_written_links : d.links.map Shared.written = d.shared := by
  rw [links, List.map_map]
  refine (List.map_congr_left fun v _ => ?_).trans (List.map_id _)
  rw [Function.comp_apply, Shared.linked, Shared.written, Value.relabel, Value.subst_subst]
  refine (Value.subst_congr v fun position _ => ?_).trans (Value.subst_ref v)
  cases position with
  | own label => exact label.elim
  | shared n => rfl

theorem tree_written (v : SharedValue) :
    d.shared.tree (Shared.written v) = (d.links.tree v).written := by
  rw [Sharing.tree, Shared.written, Value.subst_subst, Value.written, Sharing.tree,
    Value.subst_subst]
  congr 1
  funext position
  cases position with
  | own link =>
    rw [Sharing.meaning_own]
    exact (Value.ofDocument_subst _ _).trans (Value.ofDocument_self _)
  | shared n =>
    rw [meaning_links, Value.ofDocument_subst, Value.ofDocument_self]
    rfl

theorem endsWithin_links (depth : Nat) (position : Position Empty) :
    d.links.endsWithin depth (position.map Empty.elim) = d.shared.endsWithin depth position := by
  induction depth generalizing position with
  | zero =>
    cases position with
    | own label => exact label.elim
    | shared n => rw [Position.map, Sharing.endsWithin, Sharing.endsWithin, links, List.length_map]
  | succ depth ih =>
    cases position with
    | own label => exact label.elim
    | shared n =>
      rw [Position.map, Sharing.endsWithin, value_links, Shared.linked, Value.allRefs_relabel,
        Sharing.endsWithin]
      exact congrArg (Value.allRefs · _) (funext ih)

theorem links_isProper : d.links.isProper = true := by
  refine Sharing.isProper_iff.2 fun n _ => ?_
  have hlength : d.links.length = d.shared.length := List.length_map _
  obtain ⟨hflat, hends⟩ := Sharing.isProper_iff.1 d.proper n (by rwa [← hlength])
  constructor
  · rwa [value_links, Shared.linked, Value.isFlat_relabel]
  · rw [hlength]
    exact (d.endsWithin_links _ (.shared n)).trans hends

end SharedDocument

namespace Graph

theorem tree_ofDocument (document : Document) : (ofDocument document).tree = document := by
  rw [tree, Sharing.tree, ofDocument, Value.ofDocument_subst, Value.ofDocument_self]

theorem isFinite_ofDocument (document : Document) : (ofDocument document).isFinite = true := by
  have hproper : Sharing.isProper ([] : Sharing Empty) = true := rfl
  exact Sharing.isFinite_of_isProper hproper _

/-- The parts of a document that does not contain itself are those of its tree. -/
theorem parts_eq {g : Graph Empty} (h : g.shared.isProper = true) :
    g.parts = Parts.of (.ofDocument g.tree) := by
  have hexpand : g.shared.expand (g.shared.length + 3) = g.shared.meaning :=
    funext (Sharing.expand_eq_meaning h (Nat.le_add_right ..))
  rw [parts, hexpand]
  rfl

end Graph

end NamedSchemas
