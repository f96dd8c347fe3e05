import NamedSchemas.Proofs.Shortening.Targets
import NamedSchemas.Proofs.Workspace.Sessions
/-!
# Shortening a workspace

After extractions, shortening either changes nothing or gives every schema the name of its
shallowest usage. A name that one schema gives up may be taken by another in the same plan. In the
end all names agree with the ledger, so that a second shortening finds nothing to do.
-/

namespace NamedSchemas

/-- References to components follow a change of names, and an identifier stays that of its
schema. -/
structure Link.Follows {σ : Type} (g : Text → Text) (f : Link σ → Link σ) : Prop where
  component : ∀ name, f (.component name) = .component (g name)
  identifier : ∀ schema name, ∃ other, f (.identifier schema name) = .identifier schema other

theorem Link.follows_relink {σ : Type} [DecidableEq σ] (r : Registry σ) (old new : Text) :
    Link.Follows (renamed old new) (r.relink old new) :=
  ⟨fun _ => rfl, fun _ _ => ⟨_, rfl⟩⟩

theorem Link.Follows.comp {σ : Type} {g h : Text → Text} {e f : Link σ → Link σ}
    (he : Link.Follows g e) (hf : Link.Follows h f) : Link.Follows (h ∘ g) (f ∘ e) := by
  constructor
  · intro name
    simp [he.component, hf.component]
  · intro schema name
    obtain ⟨other, hother⟩ := he.identifier schema name
    simpa [hother] using hf.identifier schema other

theorem perm_reordered {ν μ : Type} {plan : List (Text × Text)} {t : Table Text ν} {last : Table Text μ}
    (h : last.keys = (reordered plan t.entries).map fun entry => renamedAtOnce plan entry.1) :
    (reordered plan t.entries).Perm t.entries := by
  have hnodup := last.nodup_keys
  rw [h] at hnodup
  apply (List.perm_ext_iff_of_nodup (.of_map _ hnodup) (.of_map _ t.nodup)).2
  exact fun entry => ⟨mem_reordered, mem_reordered_of_mem t.nodup⟩

namespace Workspace

variable {digest : Text → Text} {existing : List Text} {w u : Workspace} {plan : List (Text × Text)}

/-- Renamings move the schemas and their usages, and references follow in the same way wherever they
are. -/
theorem renameEach_follows {taken : List Text} (hplan : IsPlan taken plan) {t : Registry Nat}
    (h : (renameAll plan).result w.registry = (.ok (), t))
    (hkeys : w.registry.usages.keys = w.registry.schemas.keys)
    (htaken : ∀ name ∈ w.registry.schemas.keys, name ∈ taken) :
    ∃ f, Link.Follows (renamedBy plan) f ∧
      (renameEach plan).result w = (.ok (), ⟨t, w.held.map (Value.relabel f)⟩) ∧
      t.schemas.entries = (moveAll Value.renameId plan w.registry.schemas.entries).map (fun entry =>
        (entry.1, entry.2.relabel f)) ∧
      t.usages.entries = moveAll (fun _ _ contexts => contexts) plan w.registry.usages.entries := by
  induction plan generalizing taken w with
  | nil =>
    obtain ⟨-, rfl⟩ := Prod.mk.inj h
    refine ⟨id, ⟨fun _ => rfl, fun _ name => ⟨name, rfl⟩⟩, ?_, ?_, rfl⟩
    · have hid : Value.relabel (id : Link Nat → Link Nat) = id := funext Value.relabel_id
      rw [hid, List.map_id]
      rfl
    · simp [Value.relabel_id, moveAll]
  | cons first rest ih =>
    obtain ⟨old, new⟩ := first
    rw [renameAll, RegistryM.result_bind_eq_ok] at h
    obtain ⟨_, r, hrename, h⟩ := h
    have hrename := RegistryM.result_rename_eq_ok.1 hrename
    have hnew : new ∉ w.registry.schemas.keys := fun hmem => hplan.2.2.1 (htaken new hmem)
    obtain ⟨hschemas, husages⟩ := Registry.rename_eq_ok hrename hkeys hnew
    obtain ⟨hkeysR, htakenR⟩ := Registry.keys_of_rename hrename hkeys hnew htaken
    let relink := w.registry.relink old new
    obtain ⟨f, hf, hresult, hrest, hrestUsages⟩ :=
      ih (w := ⟨r, w.held.map (Value.relabel relink)⟩) hplan.2.2.2 h hkeysR htakenR
    refine ⟨f ∘ relink, (Link.follows_relink w.registry old new).comp hf, ?_, ?_, ?_⟩
    · rw [renameEach, WorkspaceM.result_bind_of_ok (result_rename_of_ok hrename), hresult,
        List.map_map]
      simp [Function.comp_def, Value.relabel_relabel, relink]
    · rw [hrest]
      simp only [hschemas]
      rw [moveAll_map fun o n v => Value.renameId_relabel o n relink v, List.map_map]
      simp [Function.comp_def, Value.relabel_relabel, moveAll]
    · rw [hrestUsages]
      simp only [husages, moveAll]

/-! ### Extractions on a workspace -/

/-- The workspaces that come of the empty one by extractions, whether they succeed or not. -/
inductive Extracted (digest : Text → Text) (existing : List Text) : Workspace → Prop
  | empty : Extracted digest existing (.empty existing)
  | extract {w : Workspace} (assignIds : Bool) (schema : Linked Nat) (c : Context) :
    Extracted digest existing w →
      Extracted digest existing ((Workspace.extract ⟨digest, assignIds⟩ schema c).result w).2

theorem Extracted.registry (h : w.Extracted digest existing) :
    w.registry.Extracted digest existing := by
  induction h with
  | empty => exact .empty
  | @extract w assignIds schema c _ ih =>
    have hnext := ih.extract assignIds schema c
    cases hresult : (NamedSchemas.extract ⟨digest, assignIds⟩ schema c).result w.registry with
    | mk outcome r =>
      rw [hresult] at hnext
      cases outcome with
      | ok v => rwa [result_extract_of_ok hresult]
      | error fault => rwa [result_extract_of_error hresult]

/-! ### What a shortening leaves -/

/-- A workspace after the renamings of a plan: it holds the same schemas and usages under the
targets of their names, and every reference has followed. -/
structure Shortened (plan : List (Text × Text)) (w u : Workspace) : Prop where
  names : u.registry.schemas.keys.Perm (w.registry.schemas.keys.map (renamedAtOnce plan))
  ledger : u.registry.usages.entries.Perm
    (w.registry.usages.entries.map fun usage => (renamedAtOnce plan usage.1, usage.2))
  /-- Every schema has the name of its shallowest usage, the first of equally shallow ones. -/
  shallowest : ∀ name ∈ u.registry.schemas.keys, ∃ contexts c,
    u.registry.usages.get? name = some contexts ∧ IsShallowest c contexts ∧ c.name = .ok name
  follows : ∃ f, Link.Follows (renamedAtOnce plan) f ∧ u.held = w.held.map (Value.relabel f) ∧
    ∀ entry ∈ w.registry.schemas.entries, (renamedAtOnce plan entry.1,
      (renamedEntry Value.renameId plan entry).2.relabel f) ∈ u.registry.schemas.entries

/-- A plan that was made for a workspace is carried out, and every usage comes to its target. -/
theorem Extracted.exists_shortened (h : w.Extracted digest existing)
    (hplan : w.registry.plan = .ok plan) : ∃ u, shorten.result w = (.ok plan, u) ∧
      Shortened plan w u ∧ ∀ usage ∈ u.registry.usages.entries, targetName usage = .ok usage.1 := by
  have hconsistent := Registry.consistent_of_reached h.registry.reached
  rcases hconsistent.result_shorten with ⟨fault, hfault, -⟩ |
    ⟨planned, t, hplanned, hisPlan, hresult, ht, -⟩
  · cases hplan.symm.trans hfault
  cases hplan.symm.trans hplanned
  obtain ⟨f, hf, hrename, hschemas, husages⟩ := renameEach_follows hisPlan (shorten_eq_ok hresult).2
    hconsistent.usages fun name => List.mem_append_left _
  rw [moveAll_eq _ hisPlan] at hschemas husages
  have hkeys : t.schemas.keys = (reordered plan w.registry.schemas.entries).map
      fun entry => renamedAtOnce plan entry.1 := by
    rw [Table.keys, hschemas, List.map_map, List.map_map]
    rfl
  have hledger : t.usages.entries.Perm
      (w.registry.usages.entries.map fun usage => (renamedAtOnce plan usage.1, usage.2)) := by
    have hkeysU : t.usages.keys = (reordered plan w.registry.usages.entries).map
        fun usage => renamedAtOnce plan usage.1 := by
      rw [Table.keys, husages, List.map_map]
      rfl
    rw [husages]
    refine ((perm_reordered hkeysU).map _).trans (.of_eq (List.map_congr_left fun usage _ => ?_))
    rw [renamedEntry, ite_self]
  have hsettled : ∀ usage ∈ t.usages.entries, targetName usage = .ok usage.1 ∧
      ∃ c, IsShallowest c usage.2 ∧ c.name = .ok usage.1 := by
    intro usage husage
    obtain ⟨before, hbefore, rfl⟩ := List.mem_map.1 (hledger.subset husage)
    have htarget := targetName_of_planFrom w.registry.usages.nodup hplan before hbefore
    exact ⟨targetName_of_target htarget, (h.registry.namedFirst before hbefore).shallowest htarget⟩
  refine ⟨_, result_shorten_of_ok hplan hrename, ⟨?_, hledger, fun name hname => ?_,
    f, hisPlan.renamedBy_eq ▸ hf, rfl, fun entry hentry => ?_⟩, fun usage husage =>
      (hsettled usage husage).1⟩
  · show t.schemas.keys.Perm _
    rw [hkeys, Table.keys, List.map_map]
    exact (perm_reordered hkeys).map _
  · rw [← ht.usages] at hname
    obtain ⟨usage, husage, rfl⟩ := List.mem_map.1 hname
    obtain ⟨-, c, hc⟩ := hsettled usage husage
    exact ⟨usage.2, c, Table.get?_eq_some_iff.2 husage, hc⟩
  · show _ ∈ t.schemas.entries
    rw [hschemas, List.map_map]
    exact List.mem_map.2 ⟨entry, mem_reordered_of_mem w.registry.schemas.nodup hentry, rfl⟩

/-- Shortening after extractions is all or nothing, and what it does settles the names: a second
shortening renames nothing. -/
theorem shorten_settles (h : w.Extracted digest existing) :
    match shorten.result w with
    | (.error _, u) => u = w
    | (.ok plan, u) => Shortened plan w u ∧ shorten.result u = (.ok [], u) := by
  cases hplan : w.registry.plan with
  | error fault => rw [result_shorten_of_error hplan]
  | ok plan =>
    obtain ⟨u, hresult, hshortened, htargets⟩ := h.exists_shortened hplan
    have hagain : u.registry.plan = .ok [] := planFrom_eq_nil _ htargets
    rw [hresult]
    exact ⟨hshortened, result_shorten_of_ok hagain rfl⟩

/-- The first schema gives up a name, which the second one takes. -/
theorem shorten_settles_chain : ∃ w u, Extracted Sha256.hex [] w ∧
    shorten.result w = (.ok [("GetB.Y.D", "GetC.Z"), ("GetA.X.B", "GetB.Y.D")], u) ∧
      Shortened [("GetB.Y.D", "GetC.Z"), ("GetA.X.B", "GetB.Y.D")] w u ∧
      shorten.result u = (.ok [], u) := by
  obtain ⟨w, h, hplan⟩ : ∃ w, Extracted Sha256.hex [] w ∧ (shorten.result w).1 =
      .ok [("GetB.Y.D", "GetC.Z"), ("GetA.X.B", "GetB.Y.D")] := by
    refine ⟨_, (((Extracted.empty.extract true (titledSchema "two")
      ((contextAt "/y" "getB").child (.text "d"))).extract true (titledSchema "one")
      ((contextAt "/x" "getA").child (.text "b"))).extract true (titledSchema "one")
      (contextAt "/y/d" "getB")).extract true (titledSchema "two") (contextAt "/z" "getC"), ?_⟩
    decide +kernel
  have hsettles := shorten_settles h
  cases hresult : shorten.result w with
  | mk outcome u =>
    rw [hresult] at hplan hsettles
    obtain rfl : outcome = .ok _ := hplan
    exact ⟨w, u, h, hresult, hsettles⟩

end Workspace

end NamedSchemas
