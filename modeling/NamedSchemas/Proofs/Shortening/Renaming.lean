import NamedSchemas.Proofs.Registry.Steps
import NamedSchemas.Proofs.Shortening.Plan
import NamedSchemas.Proofs.Value.Subst
/-!
# Renaming in the registry

A renaming moves one entry to the end, and every reference to it follows. Renaming by a plan leaves
the entries that keep their names in front and the others behind them in the order of the plan.
-/

namespace NamedSchemas

variable {ν : Type}

/-- Entries with one of them moved to the end under a new name. -/
def moveEntry (change : Text → Text → ν → ν) (old new : Text) (entries : List (Text × ν)) :
    List (Text × ν) :=
  entries.filter (fun entry => entry.1 ≠ old) ++
    ((entries.find? fun entry => entry.1 = old).map fun entry => (new, change old new entry.2)).toList

/-- Entries with one after the other moved to the end. -/
def moveAll (change : Text → Text → ν → ν) : List (Text × Text) → List (Text × ν) → List (Text × ν)
  | [], entries => entries
  | (old, new) :: rest, entries => moveAll change rest (moveEntry change old new entries)

/-- Entries in the order in which a plan leaves them: first those that keep their names, then those
that the plan renames, in its order. -/
def reordered (plan : List (Text × Text)) (entries : List (Text × ν)) : List (Text × ν) :=
  entries.filter (fun entry => entry.1 ∉ plan.map Prod.fst) ++
    plan.filterMap fun pair => entries.find? fun entry => entry.1 = pair.1

theorem mem_reordered {plan : List (Text × Text)} {entries : List (Text × ν)} {entry : Text × ν}
    (h : entry ∈ reordered plan entries) : entry ∈ entries := by
  rcases List.mem_append.1 h with hkept | hmoved
  · exact (List.mem_filter.1 hkept).1
  · obtain ⟨pair, -, hfind⟩ := List.mem_filterMap.1 hmoved
    exact List.mem_of_find?_eq_some hfind

theorem mem_reordered_of_mem {plan : List (Text × Text)} {entries : List (Text × ν)}
    (hnodup : (entries.map Prod.fst).Nodup) {entry : Text × ν} (h : entry ∈ entries) :
    entry ∈ reordered plan entries := by
  by_cases hold : entry.1 ∈ plan.map Prod.fst
  · obtain ⟨pair, hpair, heq⟩ := List.mem_map.1 hold
    refine List.mem_append_right _ (List.mem_filterMap.2 ⟨pair, hpair, ?_⟩)
    rw [heq]
    exact Table.find?_of_nodup hnodup h
  · exact List.mem_append_left _ (List.mem_filter.2 ⟨h, decide_eq_true hold⟩)

/-- What a plan makes of an entry. -/
def renamedEntry (change : Text → Text → ν → ν) (plan : List (Text × Text)) (entry : Text × ν) :
    Text × ν :=
  (renamedAtOnce plan entry.1,
    if entry.1 ∈ plan.map Prod.fst then change entry.1 (renamedAtOnce plan entry.1) entry.2
    else entry.2)

theorem moveAll_eq_append (change : Text → Text → ν → ν) {taken : List Text}
    {plan : List (Text × Text)} (hplan : IsPlan taken plan) (entries : List (Text × ν)) :
    moveAll change plan entries =
      entries.filter (fun entry => entry.1 ∉ plan.map Prod.fst) ++ plan.filterMap fun pair =>
        (entries.find? fun entry => entry.1 = pair.1).map fun entry =>
          (pair.2, change pair.1 pair.2 entry.2) := by
  induction plan generalizing taken entries with
  | nil =>
    rw [moveAll, List.filterMap_nil, List.append_nil]
    exact (List.filter_eq_self.2 fun _ _ => decide_eq_true List.not_mem_nil).symm
  | cons first rest ih =>
    obtain ⟨old, new⟩ := first
    -- the entry that is moved first stands behind those that stay, and stays from then on
    have hkept : (moveEntry change old new entries).filter
          (fun entry => entry.1 ∉ rest.map Prod.fst) =
        entries.filter (fun entry => entry.1 ∉ ((old, new) :: rest).map Prod.fst) ++
          ((entries.find? fun entry => entry.1 = old).map fun entry =>
            (new, change old new entry.2)).toList := by
      rw [moveEntry, List.filter_append, List.filter_filter]
      congr 1
      · refine List.filter_congr fun entry _ => ?_
        simp only [List.map_cons, List.mem_cons, not_or, Bool.decide_and, Bool.and_comm]
      · refine List.filter_eq_self.2 fun entry hentry => decide_eq_true ?_
        obtain ⟨found, -, rfl⟩ := Option.map_eq_some_iff.1 (Option.mem_toList.1 hentry)
        exact hplan.new_not_mem_old
    have hmoved : ∀ pair ∈ rest,
        ((moveEntry change old new entries).find? fun entry => entry.1 = pair.1) =
          entries.find? fun entry => entry.1 = pair.1 := by
      intro pair hpair
      have hold := (hplan.2.1 pair hpair).2
      have hnew : new ≠ pair.1 := fun heq =>
        hplan.new_not_mem_old (List.mem_map.2 ⟨pair, hpair, heq.symm⟩)
      have hlast : (((entries.find? fun entry => entry.1 = old).map fun entry =>
          (new, change old new entry.2)).toList.find? fun entry => entry.1 = pair.1) = none := by
        refine List.find?_eq_none.2 fun entry hentry heq => hnew ?_
        obtain ⟨found, -, rfl⟩ := Option.map_eq_some_iff.1 (Option.mem_toList.1 hentry)
        exact of_decide_eq_true heq
      rw [moveEntry, List.find?_append, hlast, Option.or_none, List.find?_filter]
      congr 1
      funext entry
      by_cases hkey : entry.1 = pair.1
      · simp [hkey, hold]
      · simp [hkey]
    rw [moveAll, ih hplan.2.2.2, hkept, List.append_assoc, List.filterMap_cons]
    congr 1
    rw [List.filterMap_congr fun pair hpair => by rw [hmoved pair hpair]]
    cases entries.find? fun entry => entry.1 = old <;> rfl

/-- Moving entries by a plan puts them in order and makes of each what the plan makes of it. -/
theorem moveAll_eq (change : Text → Text → ν → ν) {taken : List Text} {plan : List (Text × Text)}
    (hplan : IsPlan taken plan) (entries : List (Text × ν)) :
    moveAll change plan entries = (reordered plan entries).map (renamedEntry change plan) := by
  rw [moveAll_eq_append change hplan, reordered, List.map_append, List.map_filterMap]
  congr 1
  · refine ((List.map_congr_left fun entry hentry => ?_).trans (List.map_id _)).symm
    have hkept := of_decide_eq_true (List.mem_filter.1 hentry).2
    rw [renamedEntry, if_neg hkept, renamedAtOnce_of_not_mem hkept]
    rfl
  · refine List.filterMap_congr fun pair hpair => ?_
    cases hfind : entries.find? fun entry => entry.1 = pair.1 with
    | none => rfl
    | some entry =>
      have hkey := List.find?_some hfind
      rw [decide_eq_true_eq] at hkey
      rw [Option.map_some, Option.map_some, renamedEntry, hkey, hplan.renamedAtOnce_of_mem hpair,
        if_pos (List.mem_map.2 ⟨pair, hpair, rfl⟩)]

theorem map_fst_moveEntry (change : Text → Text → ν → ν) (old new : Text)
    (entries : List (Text × ν)) : (moveEntry change old new entries).map Prod.fst =
      (entries.map Prod.fst).filter (· ≠ old) ++
        if old ∈ entries.map Prod.fst then [new] else [] := by
  rw [moveEntry, List.map_append, List.filter_map]
  congr 1
  cases hfind : entries.find? fun entry => entry.1 = old with
  | none =>
    rw [if_neg]
    · rfl
    · intro hmem
      obtain ⟨entry, hentry, heq⟩ := List.mem_map.1 hmem
      exact List.find?_eq_none.1 hfind entry hentry (decide_eq_true heq)
  | some entry =>
    have hkey := List.find?_some hfind
    rw [decide_eq_true_eq] at hkey
    rw [if_pos (List.mem_map.2 ⟨entry, List.mem_of_find?_eq_some hfind, hkey⟩)]
    rfl

theorem moveEntry_of_mem (change : Text → Text → ν → ν) {old : Text} (new : Text)
    {entries : List (Text × ν)} (hnodup : (entries.map Prod.fst).Nodup) {value : ν}
    (h : (old, value) ∈ entries) : moveEntry change old new entries =
      entries.filter (fun entry => entry.1 ≠ old) ++ [(new, change old new value)] := by
  rw [moveEntry, Table.find?_of_nodup hnodup h]
  rfl

theorem moveEntry_map {change : Text → Text → ν → ν} {g : ν → ν}
    (hg : ∀ old new v, change old new (g v) = g (change old new v)) (old new : Text)
    (entries : List (Text × ν)) :
    moveEntry change old new (entries.map fun entry => (entry.1, g entry.2)) =
      (moveEntry change old new entries).map fun entry => (entry.1, g entry.2) := by
  rw [moveEntry, moveEntry, List.map_append, List.filter_map, List.find?_map]
  congr 1
  cases hfind : entries.find? ((fun entry => decide (entry.1 = old)) ∘
      fun entry => (entry.1, g entry.2)) with
  | none =>
    rw [show (entries.find? fun entry => entry.1 = old) = none from hfind]
    rfl
  | some entry =>
    rw [show (entries.find? fun entry => entry.1 = old) = some entry from hfind]
    simp only [Option.map_some, Option.toList_some, List.map_cons, List.map_nil, hg]

theorem moveAll_map {change : Text → Text → ν → ν} {g : ν → ν}
    (hg : ∀ old new v, change old new (g v) = g (change old new v)) (plan : List (Text × Text))
    (entries : List (Text × ν)) :
    moveAll change plan (entries.map fun entry => (entry.1, g entry.2)) =
      (moveAll change plan entries).map fun entry => (entry.1, g entry.2) := by
  induction plan generalizing entries with
  | nil => rfl
  | cons first rest ih => rw [moveAll, moveAll, moveEntry_map hg, ih]

theorem perm_filter_append {old : Text} {value : ν} {entries : List (Text × ν)}
    (hnodup : (entries.map Prod.fst).Nodup) (h : (old, value) ∈ entries) :
    (entries.filter (fun entry => entry.1 ≠ old) ++ [(old, value)]).Perm entries := by
  induction entries with
  | nil => cases h
  | cons entry rest ih =>
    rw [List.map_cons, List.nodup_cons] at hnodup
    rcases List.mem_cons.1 h with rfl | hrest
    · have hkept : rest.filter (fun entry => entry.1 ≠ old) = rest :=
        List.filter_eq_self.2 fun entry hentry =>
          decide_eq_true fun heq => hnodup.1 (List.mem_map.2 ⟨entry, hentry, heq⟩)
      rw [List.filter_cons_of_neg (by simp), hkept]
      exact List.perm_append_singleton _ _
    · have hne : entry.1 ≠ old := fun heq => hnodup.1 (heq ▸ List.mem_map.2 ⟨_, hrest, rfl⟩)
      rw [List.filter_cons_of_pos (by simpa using hne), List.cons_append]
      exact (ih hnodup.2 hrest).cons entry

/-- An entry that is moved to a free name and back again is changed back, and then it is the
last. -/
theorem moveEntry_back {change : Text → Text → ν → ν} {old new : Text} {entries : List (Text × ν)}
    (hnodup : (entries.map Prod.fst).Nodup) {value : ν} (h : (old, value) ∈ entries)
    (hnew : new ∉ entries.map Prod.fst) (hback : change new old (change old new value) = value) :
    (moveEntry change new old (moveEntry change old new entries)).Perm entries := by
  have hkeys := map_fst_moveEntry change old new entries
  have hmem : old ∈ entries.map Prod.fst := List.mem_map.2 ⟨_, h, rfl⟩
  have hmoved : ((moveEntry change old new entries).map Prod.fst).Nodup := by
    rw [hkeys, if_pos hmem]
    refine List.nodup_append.2 ⟨hnodup.filter _, List.nodup_singleton new, ?_⟩
    rintro name hname _ hlast rfl
    rw [List.mem_singleton.1 hlast] at hname
    exact hnew (List.mem_filter.1 hname).1
  rw [moveEntry_of_mem change new hnodup h] at hmoved ⊢
  have hkept : (entries.filter (fun entry => entry.1 ≠ old)).filter (fun entry => entry.1 ≠ new) =
      entries.filter fun entry => entry.1 ≠ old := by
    refine List.filter_eq_self.2 fun entry hentry => decide_eq_true ?_
    rintro rfl
    exact hnew (List.mem_map.2 ⟨entry, (List.mem_filter.1 hentry).1, rfl⟩)
  rw [moveEntry_of_mem change old hmoved (List.mem_append_right _ (List.mem_singleton.2 rfl)),
    List.filter_append, hkept, hback, List.filter_cons_of_neg (by simp), List.filter_nil,
    List.append_nil]
  exact perm_filter_append hnodup h

/-! ### One renaming -/

theorem relink_empty (r : Registry Empty) (old new : Text) :
    r.relink old new = Link.mapName (renamed old new) := by
  funext label
  match label with
  | .component name => rfl
  | .identifier schema _ => exact schema.elim

theorem Value.renameId_relabel {σ : Type} (old new : Text) (f : Link σ → Link σ) (v : Linked σ) :
    (v.relabel f).renameId old new = (v.renameId old new).relabel f := by
  cases v with
  | map entries =>
    have hget : ((Entries.get? identifierKey (substEntries (fun label => ref (f label)) entries)).bind
        text?) = (Entries.get? identifierKey entries).bind text? := by
      rw [Entries.get?_substEntries, Option.bind_map]
      congr 1
      funext v
      exact text?_subst (fun _ => rfl) v
    rw [relabel, subst, renameId, renameId, hget]
    split
    · rw [relabel, subst, Entries.substEntries_insert]
      rfl
    · rfl
  | scalar s => rfl
  | list items => rfl
  | ref label => rfl

theorem Table.entries_move {t : Table Text ν} {old new : Text} {value : ν}
    (hget : t.get? old = some value) (hnew : new ∉ t.keys) (change : Text → Text → ν → ν) :
    ((t.erase old).insert new (change old new value)).entries =
      moveEntry change old new t.entries := by
  have hfree : new ∉ (t.erase old).keys := fun hmem => hnew (mem_keys_erase.1 hmem).1
  rw [entries_insert_of_new _ hfree, moveEntry_of_mem change new t.nodup (get?_eq_some_iff.1 hget)]
  rfl

theorem Registry.rename_eq_ok {σ : Type} [DecidableEq σ] {r t : Registry σ} {old new : Text}
    (h : r.rename old new = .ok t) (hkeys : r.usages.keys = r.schemas.keys)
    (hnew : new ∉ r.schemas.keys) :
    t.schemas.entries = (moveEntry Value.renameId old new r.schemas.entries).map (fun entry =>
        (entry.1, entry.2.relabel (r.relink old new))) ∧
      t.usages.entries = moveEntry (fun _ _ contexts => contexts) old new r.usages.entries := by
  rw [rename] at h
  split at h
  · cases h
  next schema hget =>
  split at h
  · rw [← Except.ok.inj h]
    obtain ⟨contexts, hcontexts⟩ : ∃ contexts, r.usages.get? old = some contexts := by
      refine Table.exists_get?_of_mem ?_
      rw [hkeys]
      exact Table.mem_keys_of_mem (Table.get?_eq_some_iff.1 hget)
    constructor
    · simp only [Table.entries_mapValues, Table.entries_move hget hnew Value.renameId]
    · rw [← hkeys] at hnew
      have hmove := Table.entries_move hcontexts hnew fun _ _ contexts => contexts
      rwa [hcontexts, Option.getD_some]
  · cases h

/-- The names in use after a renaming are those that the next one was checked against. -/
theorem Registry.keys_of_rename {σ : Type} [DecidableEq σ] {r t : Registry σ} {old new : Text}
    {taken : List Text} (h : r.rename old new = .ok t) (hkeys : r.usages.keys = r.schemas.keys)
    (hnew : new ∉ r.schemas.keys) (htaken : ∀ name ∈ r.schemas.keys, name ∈ taken) :
    t.usages.keys = t.schemas.keys ∧
      ∀ name ∈ t.schemas.keys, name ∈ new :: taken.filter (· ≠ old) := by
  obtain ⟨hschemas, husages⟩ := rename_eq_ok h hkeys hnew
  have hmoved : t.schemas.keys = r.schemas.keys.filter (· ≠ old) ++
      if old ∈ r.schemas.keys then [new] else [] := by
    rw [Table.keys, hschemas, List.map_map]
    exact map_fst_moveEntry _ old new r.schemas.entries
  constructor
  · rw [hmoved, Table.keys, husages, map_fst_moveEntry, ← Table.keys, hkeys]
  · intro name hname
    rw [hmoved, List.mem_append] at hname
    rcases hname with hkept | hgiven
    · obtain ⟨hmem, hne⟩ := List.mem_filter.1 hkept
      exact List.mem_cons_of_mem _ (List.mem_filter.2 ⟨htaken name hmem, hne⟩)
    · split at hgiven
      · rw [List.mem_singleton.1 hgiven]
        exact List.mem_cons_self ..
      · cases hgiven

theorem Value.renameAll_nil {σ : Type} (v : Linked σ) : v.renameAll [] = v := by
  have hlabel : (Link.mapName (renamedBy []) : Link σ → Link σ) = id := by
    funext label
    cases label <;> rfl
  rw [renameAll, hlabel, relabel_id]

theorem Value.renameAll_relabel {σ : Type} (old new : Text) (rest : List (Text × Text))
    (v : Linked σ) : (v.relabel (.mapName (renamed old new))).renameAll rest =
      v.renameAll ((old, new) :: rest) := by
  rw [renameAll, relabel_relabel, renameAll]
  congr 1
  funext label
  cases label <;> rfl

/-- Renaming by a plan moves the schemas and their usages, and every reference follows. -/
theorem result_renameAll {taken : List Text} {plan : List (Text × Text)} (hplan : IsPlan taken plan)
    {r t : Registry Empty} (h : (renameAll plan).result r = (.ok (), t))
    (hkeys : r.usages.keys = r.schemas.keys) (htaken : ∀ name ∈ r.schemas.keys, name ∈ taken) :
    t.schemas.entries = (moveAll Value.renameId plan r.schemas.entries).map (fun entry =>
        (entry.1, entry.2.renameAll plan)) ∧
      t.usages.entries = moveAll (fun _ _ contexts => contexts) plan r.usages.entries := by
  induction plan generalizing taken r with
  | nil =>
    rw [← (Prod.mk.inj h).2]
    refine ⟨((List.map_congr_left fun entry _ => ?_).trans (List.map_id _)).symm, rfl⟩
    rw [Value.renameAll_nil]
    rfl
  | cons first rest ih =>
    obtain ⟨old, new⟩ := first
    rw [renameAll, RegistryM.result_bind_eq_ok] at h
    obtain ⟨_, u, hrename, h⟩ := h
    have hnew : new ∉ r.schemas.keys := fun hmem => hplan.2.2.1 (htaken new hmem)
    have hrename := RegistryM.result_rename_eq_ok.1 hrename
    obtain ⟨hschemas, husages⟩ := Registry.rename_eq_ok hrename hkeys hnew
    obtain ⟨hkeysU, htakenU⟩ := Registry.keys_of_rename hrename hkeys hnew htaken
    obtain ⟨hrest, hrestUsages⟩ := ih hplan.2.2.2 h hkeysU htakenU
    have hcommute : ∀ (o n : Text) (v : Linked Empty),
        Value.renameId o n (v.relabel (Link.mapName (renamed old new))) =
          (v.renameId o n).relabel (Link.mapName (renamed old new)) :=
      fun o n v => Value.renameId_relabel o n _ v
    rw [hrest, hrestUsages, husages, hschemas, relink_empty, moveAll_map hcommute, List.map_map]
    simp only [Function.comp_def, Value.renameAll_relabel]
    exact ⟨rfl, rfl⟩

/-- Shortening makes the renamings that are planned before the first of them. -/
theorem shorten_eq_ok {σ : Type} [DecidableEq σ] {r t : Registry σ} {plan : List (Text × Text)}
    (h : (shorten : RegistryM σ _).result r = (.ok plan, t)) :
    r.plan = .ok plan ∧ (renameAll plan).result r = (.ok (), t) := by
  rw [shorten, RegistryM.result_bind_eq_ok] at h
  obtain ⟨planned, u, hask, h⟩ := h
  rw [RegistryM.result_ask] at hask
  obtain ⟨hplan, rfl⟩ := Prod.mk.inj hask
  rw [RegistryM.result_bind_eq_ok] at h
  obtain ⟨_, u, hrename, h⟩ := h
  obtain ⟨heq, rfl⟩ := Prod.mk.inj h
  rw [← Except.ok.inj heq]
  exact ⟨hplan, hrename⟩

end NamedSchemas
