import NamedSchemas.Proofs.Table
import NamedSchemas.Shortening
/-!
# Plans of renamings

A plan renames every schema at most once, and never to a name that is in use when its turn comes. A
name that was given up may be taken by a later renaming, but no renaming gives a name that a later
one takes away. So the renamings one after the other are one simultaneous renaming.
-/

namespace NamedSchemas

/-- The name that a name becomes under renamings that are made at once. -/
def renamedAtOnce (plan : List (Text × Text)) (name : Text) : Text :=
  ((plan.find? fun pair => pair.1 = name).map Prod.snd).getD name

/-- The plan is one for these names in use: its old names are in use and different, and each of its
new names is free when its turn comes. -/
def IsPlan (taken : List Text) : List (Text × Text) → Prop
  | [] => True
  | (old, new) :: rest =>
    old ∈ taken ∧ (∀ pair ∈ rest, pair.1 ∈ taken ∧ pair.1 ≠ old) ∧ new ∉ taken ∧
      IsPlan (new :: taken.filter (· ≠ old)) rest

variable {taken : List Text} {plan : List (Text × Text)}

/-! ### Plans that were made -/

/-- A usage whose name stays is skipped, and one that is due another name, which is free, is the
next of the plan. -/
theorem planFrom_cons_eq_ok {name : Text} {contexts : List Context}
    {rest : List (Text × List Context)} (h : planFrom taken ((name, contexts) :: rest) = .ok plan) :
    planFrom taken rest = .ok plan ∨ ∃ new later, dueName contexts = .ok (some new) ∧ new ∉ taken ∧
      planFrom (new :: taken.filter (· ≠ name)) rest = .ok later ∧ plan = (name, new) :: later := by
  rw [planFrom] at h
  split at h
  · cases h
  · exact Or.inl h
  next new hdue =>
  split at h
  · exact Or.inl h
  split at h
  · cases h
  next hfree =>
  cases hlater : planFrom (new :: taken.filter (· ≠ name)) rest with
  | error fault =>
    rw [hlater] at h
    cases h
  | ok later =>
    rw [hlater] at h
    exact Or.inr ⟨new, later, hdue, hfree, hlater, (Except.ok.inj h).symm⟩

theorem sublist_planFrom {usages : List (Text × List Context)}
    (h : planFrom taken usages = .ok plan) : (plan.map Prod.fst).Sublist (usages.map Prod.fst) := by
  induction usages generalizing taken plan with
  | nil =>
    rw [← Except.ok.inj h]
    exact List.Sublist.refl _
  | cons usage rest ih =>
    obtain ⟨name, contexts⟩ := usage
    rcases planFrom_cons_eq_ok h with hrest | ⟨new, later, -, -, hrest, rfl⟩
    · exact (ih hrest).cons _
    · exact (ih hrest).cons_cons name

theorem Registry.mem_keys_of_plan {σ : Type} {r : Registry σ}
    (hkeys : r.usages.keys = r.schemas.keys) (h : r.plan = .ok plan) :
    ∀ pair ∈ plan, pair.1 ∈ r.schemas.keys := by
  intro pair hpair
  rw [← hkeys]
  exact (sublist_planFrom h).subset (List.mem_map_of_mem hpair)

/-- What is planned for usages whose names are in use and different is a plan. -/
theorem isPlan_planFrom {usages : List (Text × List Context)}
    (hnodup : (usages.map Prod.fst).Nodup) (htaken : ∀ usage ∈ usages, usage.1 ∈ taken)
    (h : planFrom taken usages = .ok plan) : IsPlan taken plan := by
  induction usages generalizing taken plan with
  | nil =>
    rw [← Except.ok.inj h]
    trivial
  | cons usage rest ih =>
    obtain ⟨name, contexts⟩ := usage
    rw [List.map_cons, List.nodup_cons] at hnodup
    have hrest := fun usage husage => htaken usage (List.mem_cons_of_mem _ husage)
    rcases planFrom_cons_eq_ok h with hplan | ⟨new, later, -, hfree, hplan, rfl⟩
    · exact ih hnodup.2 hrest hplan
    · have hne : ∀ usage ∈ rest, usage.1 ≠ name := fun usage husage heq =>
        hnodup.1 (List.mem_map.2 ⟨usage, husage, heq⟩)
      refine ⟨htaken _ (List.mem_cons_self ..), fun pair hpair => ?_, hfree,
        ih hnodup.2 (fun usage husage => ?_) hplan⟩
      · obtain ⟨usage, husage, heq⟩ :=
          List.mem_map.1 ((sublist_planFrom hplan).subset (List.mem_map.2 ⟨pair, hpair, rfl⟩))
        rw [← heq]
        exact ⟨hrest usage husage, hne usage husage⟩
      · exact List.mem_cons_of_mem _ (List.mem_filter.2
          ⟨hrest usage husage, decide_eq_true (hne usage husage)⟩)

theorem Registry.isPlan_plan {σ : Type} {r : Registry σ} (hkeys : r.usages.keys = r.schemas.keys)
    (h : r.plan = .ok plan) : IsPlan (r.schemas.keys ++ r.reserved) plan := by
  refine isPlan_planFrom r.usages.nodup (fun usage husage => ?_) h
  rw [← hkeys]
  exact List.mem_append_left _ (Table.mem_keys_of_mem husage)

theorem shallowest_mem (first : Context) (rest : List Context) :
    shallowest first rest ∈ first :: rest := by
  induction rest generalizing first with
  | nil => exact List.mem_cons_self ..
  | cons second rest ih =>
    rw [shallowest, List.foldl_cons, ← shallowest]
    split
    · exact List.mem_cons_of_mem _ (ih second)
    · rcases List.mem_cons.1 (ih first) with heq | hmem
      · rw [heq]
        exact List.mem_cons_self ..
      · exact List.mem_cons_of_mem _ (List.mem_cons_of_mem _ hmem)

/-- The first of the shallowest of some contexts. -/
def shallowestOf : List Context → Context
  | [] => ⟨[], none, none, false⟩
  | first :: rest => shallowest first rest

theorem shallowestOf_mem {contexts : List Context} (h : contexts ≠ []) :
    shallowestOf contexts ∈ contexts := by
  cases contexts with
  | nil => exact absurd rfl h
  | cons first rest => exact shallowest_mem first rest

theorem name_of_dueName {contexts : List Context} {name : Text}
    (h : dueName contexts = .ok (some name)) :
    contexts ≠ [] ∧ (shallowestOf contexts).name = .ok name := by
  match contexts, h with
  | first :: second :: rest, h =>
    rw [dueName] at h
    cases hname : (shallowest first (second :: rest)).name with
    | error fault =>
      rw [hname] at h
      cases h
    | ok due =>
      rw [hname] at h
      cases h
      exact ⟨List.cons_ne_nil _ _, hname⟩

theorem nameless_of_dueName {contexts : List Context} {fault : Fault}
    (h : dueName contexts = .error fault) :
    contexts ≠ [] ∧ ∃ found, fault = .segment found ∧ (shallowestOf contexts).name = .error found := by
  match contexts, h with
  | first :: second :: rest, h =>
    rw [dueName] at h
    cases hname : (shallowest first (second :: rest)).name with
    | error found =>
      rw [hname] at h
      exact ⟨List.cons_ne_nil _ _, found, (Except.error.inj h).symm, hname⟩
    | ok due =>
      rw [hname] at h
      cases h

theorem exists_name_of_planFrom {usages : List (Text × List Context)}
    (h : planFrom taken usages = .ok plan) : ∀ pair ∈ plan, ∃ usage ∈ usages,
      usage.2 ≠ [] ∧ (shallowestOf usage.2).name = .ok pair.2 := by
  induction usages generalizing taken plan with
  | nil =>
    rw [← Except.ok.inj h]
    exact fun _ hpair => absurd hpair List.not_mem_nil
  | cons usage rest ih =>
    obtain ⟨name, contexts⟩ := usage
    have hlater : ∀ {names : List Text} {more : List (Text × Text)},
        planFrom names rest = .ok more → ∀ pair ∈ more, ∃ usage ∈ (name, contexts) :: rest,
          usage.2 ≠ [] ∧ (shallowestOf usage.2).name = .ok pair.2 := by
      intro names more h pair hpair
      obtain ⟨usage, husage, hname⟩ := ih h pair hpair
      exact ⟨usage, List.mem_cons_of_mem _ husage, hname⟩
    rcases planFrom_cons_eq_ok h with hrest | ⟨new, later, hdue, -, hrest, rfl⟩
    · exact hlater hrest
    · intro pair hpair
      rcases List.mem_cons.1 hpair with rfl | hpair
      · exact ⟨_, List.mem_cons_self .., name_of_dueName hdue⟩
      · exact hlater hrest pair hpair

/-- What cannot be planned is a renaming to a name that is in use, or one after a context that has
no name. -/
theorem planFrom_eq_error {usages : List (Text × List Context)} {fault : Fault}
    (h : planFrom taken usages = .error fault) : (∃ old new, fault = .renameTaken old new) ∨
      ∃ usage ∈ usages, usage.2 ≠ [] ∧
        ∃ found, fault = .segment found ∧ (shallowestOf usage.2).name = .error found := by
  induction usages generalizing taken with
  | nil => cases h
  | cons usage rest ih =>
    obtain ⟨name, contexts⟩ := usage
    have hrest : ∀ {names : List Text}, planFrom names rest = .error fault →
        (∃ old new, fault = .renameTaken old new) ∨ ∃ usage ∈ (name, contexts) :: rest,
          usage.2 ≠ [] ∧
            ∃ found, fault = .segment found ∧ (shallowestOf usage.2).name = .error found := by
      intro names h
      refine (ih h).imp_right ?_
      rintro ⟨usage, husage, hname⟩
      exact ⟨usage, List.mem_cons_of_mem _ husage, hname⟩
    rw [planFrom] at h
    split at h
    · next hdue =>
      cases h
      exact Or.inr ⟨_, List.mem_cons_self .., nameless_of_dueName hdue⟩
    · exact hrest h
    next new hdue =>
    split at h
    · exact hrest h
    split at h
    · exact Or.inl ⟨name, new, (Except.error.inj h).symm⟩
    cases hlater : planFrom (new :: taken.filter (· ≠ name)) rest with
    | ok later =>
      rw [hlater] at h
      cases h
    | error found =>
      rw [hlater] at h
      cases h
      exact hrest hlater

namespace IsPlan

/-! ### Names under a plan -/

theorem nodup_old (h : IsPlan taken plan) : (plan.map Prod.fst).Nodup := by
  induction plan generalizing taken with
  | nil => exact List.nodup_nil
  | cons first rest ih =>
    obtain ⟨old, new⟩ := first
    rw [List.map_cons, List.nodup_cons]
    refine ⟨fun hmem => ?_, ih h.2.2.2⟩
    obtain ⟨pair, hpair, heq⟩ := List.mem_map.1 hmem
    exact (h.2.1 pair hpair).2 heq

theorem not_mem_new (h : IsPlan taken plan) {name : Text} (hname : name ∈ taken)
    (hkept : name ∉ plan.map Prod.fst) : name ∉ plan.map Prod.snd := by
  induction plan generalizing taken with
  | nil => exact List.not_mem_nil
  | cons first rest ih =>
    obtain ⟨old, new⟩ := first
    rw [List.map_cons, List.mem_cons, not_or] at hkept ⊢
    refine ⟨?_, ih h.2.2.2 ?_ hkept.2⟩
    · rintro rfl
      exact h.2.2.1 hname
    · exact List.mem_cons_of_mem _ (List.mem_filter.2 ⟨hname, decide_eq_true hkept.1⟩)

/-- The name that the first renaming gives is not given up later. -/
theorem new_not_mem_old {old new : Text} {rest : List (Text × Text)}
    (h : IsPlan taken ((old, new) :: rest)) : new ∉ rest.map Prod.fst := by
  intro hmem
  obtain ⟨pair, hpair, heq⟩ := List.mem_map.1 hmem
  exact h.2.2.1 (heq ▸ (h.2.1 pair hpair).1)

/-- The first renaming gives a free name. After it the names that are given up later are still in
use, and all names in use are among those that the rest of the plan was checked against. -/
theorem next {old new : Text} {rest : List (Text × Text)} (h : IsPlan taken ((old, new) :: rest))
    {names existing : List Text} (hold : ∀ pair ∈ (old, new) :: rest, pair.1 ∈ names)
    (htaken : ∀ name ∈ names ++ existing, name ∈ taken) (hfresh : ∀ name ∈ names, name ∉ existing) :
    (new ∉ names ∧ new ∉ existing) ∧
      (∀ pair ∈ rest, pair.1 ∈ names.filter (· ≠ old) ++ [new]) ∧
      ∀ name ∈ (names.filter (· ≠ old) ++ [new]) ++ existing,
        name ∈ new :: taken.filter (· ≠ old) := by
  refine ⟨⟨fun hmem => h.2.2.1 (htaken new (List.mem_append_left _ hmem)),
    fun hmem => h.2.2.1 (htaken new (List.mem_append_right _ hmem))⟩, fun pair hpair => ?_, ?_⟩
  · exact List.mem_append_left _ (List.mem_filter.2
      ⟨hold pair (List.mem_cons_of_mem _ hpair), decide_eq_true (h.2.1 pair hpair).2⟩)
  · intro name hname
    rw [List.append_assoc, List.mem_append, List.mem_append, List.mem_singleton] at hname
    rcases hname with hkept | rfl | hname
    · obtain ⟨hmem, hne⟩ := List.mem_filter.1 hkept
      exact List.mem_cons_of_mem _
        (List.mem_filter.2 ⟨htaken name (List.mem_append_left _ hmem), hne⟩)
    · exact List.mem_cons_self ..
    · refine List.mem_cons_of_mem _ (List.mem_filter.2
        ⟨htaken name (List.mem_append_right _ hname), decide_eq_true ?_⟩)
      rintro rfl
      exact hfresh name (hold _ (List.mem_cons_self ..)) hname

theorem nodup_new (h : IsPlan taken plan) : (plan.map Prod.snd).Nodup := by
  induction plan generalizing taken with
  | nil => exact List.nodup_nil
  | cons first rest ih =>
    obtain ⟨old, new⟩ := first
    rw [List.map_cons, List.nodup_cons]
    exact ⟨h.2.2.2.not_mem_new (List.mem_cons_self ..) h.new_not_mem_old, ih h.2.2.2⟩

end IsPlan

/-! ### Renaming at once -/

theorem renamedAtOnce_of_not_mem {name : Text} (h : name ∉ plan.map Prod.fst) :
    renamedAtOnce plan name = name := by
  have hfind : plan.find? (fun pair => pair.1 = name) = none :=
    List.find?_eq_none.2 fun pair hpair heq =>
      h (List.mem_map.2 ⟨pair, hpair, of_decide_eq_true heq⟩)
  rw [renamedAtOnce, hfind]
  rfl

theorem renamedBy_of_not_mem {name : Text} (h : name ∉ plan.map Prod.fst) :
    renamedBy plan name = name := by
  induction plan with
  | nil => rfl
  | cons first rest ih =>
    rw [List.map_cons, List.mem_cons, not_or] at h
    rw [renamedBy, List.foldl_cons, renamed, if_neg h.1]
    exact ih h.2

/-- Renamings one after the other are one simultaneous renaming. -/
theorem IsPlan.renamedBy_eq (h : IsPlan taken plan) : renamedBy plan = renamedAtOnce plan := by
  funext name
  induction plan generalizing taken name with
  | nil => rfl
  | cons first rest ih =>
    obtain ⟨old, new⟩ := first
    rw [renamedBy, List.foldl_cons, ← renamedBy, renamed, renamedAtOnce, List.find?_cons]
    by_cases hname : name = old
    · rw [if_pos hname, decide_eq_true hname.symm, renamedBy_of_not_mem h.new_not_mem_old]
      rfl
    · rw [if_neg hname, decide_eq_false (Ne.symm hname), ih h.2.2.2, renamedAtOnce]

theorem IsPlan.renamedAtOnce_of_mem (h : IsPlan taken plan) {pair : Text × Text}
    (hpair : pair ∈ plan) : renamedAtOnce plan pair.1 = pair.2 := by
  rw [renamedAtOnce, Table.find?_of_nodup h.nodup_old hpair]
  rfl

theorem renamedAtOnce_eq_or_mem (plan : List (Text × Text)) (name : Text) :
    renamedAtOnce plan name = name ∨ renamedAtOnce plan name ∈ plan.map Prod.snd := by
  rw [renamedAtOnce]
  cases hfind : plan.find? fun pair => pair.1 = name with
  | none => exact Or.inl rfl
  | some pair =>
    exact Or.inr (List.mem_map.2 ⟨pair, List.mem_of_find?_eq_some hfind, rfl⟩)

/-- Names that are in use elsewhere are not given. -/
theorem IsPlan.new_fresh {names existing : List Text} (h : IsPlan (names ++ existing) plan)
    (hold : ∀ pair ∈ plan, pair.1 ∈ names) (hfresh : ∀ name ∈ names, name ∉ existing)
    {pair : Text × Text} (hpair : pair ∈ plan) : pair.2 ∉ existing := by
  intro hmem
  refine h.not_mem_new (List.mem_append_right _ hmem) (fun hgiven => ?_)
    (List.mem_map.2 ⟨pair, hpair, rfl⟩)
  obtain ⟨first, hfirst, heq⟩ := List.mem_map.1 hgiven
  exact hfresh first.1 (hold first hfirst) (heq ▸ hmem)

theorem IsPlan.renamedAtOnce_fresh {names existing : List Text} (h : IsPlan (names ++ existing) plan)
    (hold : ∀ pair ∈ plan, pair.1 ∈ names) (hfresh : ∀ name ∈ names, name ∉ existing) {name : Text}
    (hname : name ∈ names) : renamedAtOnce plan name ∉ existing := by
  rcases renamedAtOnce_eq_or_mem plan name with heq | hnew
  · rw [heq]
    exact hfresh name hname
  · obtain ⟨pair, hpair, heq⟩ := List.mem_map.1 hnew
    rw [← heq]
    exact h.new_fresh hold hfresh hpair

end NamedSchemas
