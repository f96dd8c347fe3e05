import NamedSchemas.Proofs.Extraction.NamingContexts
import NamedSchemas.Proofs.Registry.Consistency
/-!
# Targets

A schema that was used in several places has the name of the shallowest of them as its target,
another its own name. A plan takes every schema to its target. Extractions name a schema after its
first usage, so after them the target is the name of the shallowest usage for every schema.
-/

namespace NamedSchemas

/-- The name that a schema with this name and these usages is to have. -/
def targetName (usage : Text × List Context) : Except Fault Text :=
  (dueName usage.2).map fun due? => due?.getD usage.1

variable {taken : List Text} {plan : List (Text × Text)} {usage : Text × List Context}
  {usages : List (Text × List Context)}

/-! ### Plans by targets -/

theorem planFrom_cons (taken : List Text) (usage : Text × List Context)
    (rest : List (Text × List Context)) : planFrom taken (usage :: rest) =
      match targetName usage with
      | .error fault => .error fault
      | .ok new =>
        if new = usage.1 then planFrom taken rest
        else if new ∈ taken then .error (.renameTaken usage.1 new)
        else ((usage.1, new) :: ·) <$> planFrom (new :: taken.filter (· ≠ usage.1)) rest := by
  obtain ⟨name, contexts⟩ := usage
  rw [planFrom, targetName]
  cases dueName contexts with
  | error fault => rfl
  | ok due? =>
    cases due? with
    | none => exact (if_pos rfl).symm
    | some new => rfl

/-- A plan takes every usage to its target. -/
theorem targetName_of_planFrom (hnodup : (usages.map Prod.fst).Nodup)
    (h : planFrom taken usages = .ok plan) :
    ∀ usage ∈ usages, targetName usage = .ok (renamedAtOnce plan usage.1) := by
  induction usages generalizing taken plan with
  | nil => exact fun _ husage => absurd husage List.not_mem_nil
  | cons first rest ih =>
    rw [List.map_cons, List.nodup_cons] at hnodup
    -- the first name is not given up again, because it is none of the later ones
    have hfirst : ∀ {later : List (Text × Text)} {names : List Text},
        planFrom names rest = .ok later → first.1 ∉ later.map Prod.fst :=
      fun hlater hmem => hnodup.1 ((sublist_planFrom hlater).subset hmem)
    rw [planFrom_cons] at h
    split at h
    · cases h
    next new htarget =>
    split at h
    · next hsame =>
      refine List.forall_mem_cons.2 ⟨?_, ih hnodup.2 h⟩
      rw [htarget, hsame, renamedAtOnce_of_not_mem (hfirst h)]
    split at h
    · cases h
    cases hlater : planFrom (new :: taken.filter (· ≠ first.1)) rest with
    | error fault =>
      rw [hlater] at h
      cases h
    | ok later =>
      rw [hlater] at h
      cases h
      refine List.forall_mem_cons.2 ⟨?_, fun usage husage => ?_⟩
      · rw [htarget, renamedAtOnce, List.find?_cons, decide_eq_true rfl]
        rfl
      · have hne : first.1 ≠ usage.1 := fun heq =>
          hnodup.1 (List.mem_map.2 ⟨usage, husage, heq.symm⟩)
        rw [ih hnodup.2 hlater usage husage, renamedAtOnce, renamedAtOnce, List.find?_cons,
          decide_eq_false hne]

/-- A schema that has come to its target stays. -/
theorem targetName_of_target {name : Text} (h : targetName usage = .ok name) :
    targetName (name, usage.2) = .ok name := by
  rw [targetName] at h ⊢
  cases hdue : dueName usage.2 with
  | error fault =>
    rw [hdue] at h
    cases h
  | ok due? =>
    rw [hdue] at h
    cases due? with
    | none => rfl
    | some new => exact h

theorem planFrom_eq_nil (taken : List Text)
    (h : ∀ usage ∈ usages, targetName usage = .ok usage.1) : planFrom taken usages = .ok [] := by
  induction usages with
  | nil => rfl
  | cons first rest ih =>
    obtain ⟨hfirst, hrest⟩ := List.forall_mem_cons.1 h
    rw [planFrom_cons, hfirst]
    exact (if_pos rfl).trans (ih hrest)

/-! ### Names of first usages -/

/-- The schema has the name of its first usage. -/
def NamedFirst (usage : Text × List Context) : Prop :=
  ∃ c, usage.2.head? = some c ∧ c.name = .ok usage.1

theorem targetName_of_shared (name : Text) (first second : Context) (rest : List Context) :
    targetName (name, first :: second :: rest) =
      match (shallowestOf (first :: second :: rest)).name with
      | .ok name => .ok name
      | .error fault => .error (.segment fault) := by
  rw [targetName, dueName, shallowestOf]
  cases (shallowest first (second :: rest)).name <;> rfl

/-- The target of a schema that has the name of its first usage is the name of its shallowest
one. -/
theorem NamedFirst.shallowest (h : NamedFirst usage) {name : Text}
    (htarget : targetName usage = .ok name) : ∃ c, IsShallowest c usage.2 ∧ c.name = .ok name := by
  obtain ⟨own, contexts⟩ := usage
  obtain ⟨c, hc, hname⟩ := h
  match contexts, hc with
  | [c], rfl =>
    cases htarget
    exact ⟨c, ⟨[], [], rfl, by simp, by simp⟩, hname⟩
  | first :: second :: rest, _ =>
    refine ⟨_, isShallowest_shallowestOf (List.cons_ne_nil _ _), ?_⟩
    rw [targetName_of_shared] at htarget
    split at htarget
    · next hname =>
      cases htarget
      exact hname
    · cases htarget

/-! ### Extractions -/

/-- The registries that come of the empty one by extractions, whether they succeed or not. -/
inductive Registry.Extracted {σ : Type} (digest : Text → Text) (existing : List Text) :
    Registry σ → Prop
  | empty : Extracted digest existing (.empty existing)
  | extract {r : Registry σ} (assignIds : Bool) (schema : Linked σ) (c : Context) :
    Extracted digest existing r →
      Extracted digest existing ((NamedSchemas.extract ⟨digest, assignIds⟩ schema c).result r).2

namespace Registry

variable {σ : Type} {digest : Text → Text} {existing : List Text} {r : Registry σ}

theorem Extracted.reached [DecidableEq σ] (h : r.Extracted digest existing) :
    r.Reached digest existing := by
  induction h with
  | empty => exact .empty
  | extract assignIds schema c _ ih => exact ih.extract assignIds schema c

/-- Extractions keep the usage after which a schema was named in front. -/
theorem keeps_namedFirst (s : ExtractionSettings) (schema : Linked σ) (c : Context) :
    RegistryM.Keeps (fun r : Registry σ => ∀ usage ∈ r.usages.entries, NamedFirst usage)
      (extract s schema c) := by
  refine extract_keeps (fun entries c r hr => hoist_leaves hr entries c ?_ ?_) schema c
  · intro canonical name contexts _ _ _ hcontexts usage husage
    rcases Table.mem_entries_insert husage with rfl | hkept
    · obtain ⟨first, hfirst, hname⟩ := hr _ (Table.get?_eq_some_iff.1 hcontexts)
      exact ⟨first, by rw [List.head?_append, hfirst]; rfl, hname⟩
    · exact hr usage hkept
  · intro canonical name _ hname _ _ _ usage husage
    rcases Table.mem_entries_insert husage with rfl | hkept
    · exact ⟨c, rfl, hname⟩
    · exact hr usage hkept

theorem Extracted.namedFirst (h : r.Extracted digest existing) :
    ∀ usage ∈ r.usages.entries, NamedFirst usage := by
  induction h with
  | empty => exact fun _ husage => absurd husage List.not_mem_nil
  | extract assignIds schema c _ ih => exact keeps_namedFirst ⟨digest, assignIds⟩ schema c _ ih

end Registry

end NamedSchemas
