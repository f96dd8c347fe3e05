import NamedSchemas.Proofs.Registry.Relabelling
import NamedSchemas.Proofs.Workspace.Sessions
/-!
# Renaming on a workspace

Values that were handed out refer to registered schemas, and they may be passed in again. Then a
renaming changes one name and nothing else: in the registry, in what references read, and in the
values that are held. Renaming back undoes it.
-/

namespace NamedSchemas

theorem Value.RefersTo.sharing {names : List Text} {v : Linked Nat} (h : v.RefersTo names)
    (place : Nat) : (Workspace.sharing place v).RefersTo names := by
  match v, h with
  | .scalar _, h => exact h
  | .list _, h => exact h
  | .ref _, h => exact h
  | .map entries, h =>
    intro name hname
    obtain ⟨entry, hentry, hlabel⟩ := mem_entryLabels.1 hname
    obtain ⟨before, hbefore, rfl⟩ := List.mem_map.1 hentry
    refine h name (mem_entryLabels.2 ⟨before, hbefore, ?_⟩)
    split at hlabel
    · split at hlabel
      · cases List.mem_singleton.1 hlabel
      · exact hlabel
    · exact hlabel

namespace Workspace

variable {digest : Text → Text} {existing : List Text} {w u v : Workspace} {old new : Text}

/-- The workspaces that come of the empty one by extractions with identifiers, whether they succeed
or not, of schemas that refer to registered schemas, by shortenings and by renamings of registered
schemas to free names. -/
inductive Reached (digest : Text → Text) (existing : List Text) : Workspace → Prop
  | empty : Reached digest existing (.empty existing)
  | extract {w : Workspace} (schema : Linked Nat) (c : Context) :
    Reached digest existing w → schema.RefersTo w.registry.schemas.keys →
      Reached digest existing ((Workspace.extract ⟨digest, true⟩ schema c).result w).2
  | shorten {w : Workspace} :
    Reached digest existing w → Reached digest existing (Workspace.shorten.result w).2
  | rename {w : Workspace} {old new : Text} :
    Reached digest existing w → old ∈ w.registry.schemas.keys → w.registry.isTaken new = false →
      Reached digest existing ((Workspace.rename old new).result w).2

/-- A tied registry, and values that refer to its schemas. -/
structure Tied (digest : Text → Text) (existing : List Text) (w : Workspace) : Prop where
  registry : w.registry.Tied digest existing
  held : ∀ v ∈ w.held, v.RefersTo w.registry.schemas.keys

structure Relabelled (old new : Text) (w u : Workspace) : Prop where
  registry : w.registry.Relabelled old new u.registry
  held : u.held = w.held.map (Value.relabel (.mapName (renamed old new)))

/-- The workspaces hold the same, the registered schemas in another order at most. -/
structure SameUpToOrder (w u : Workspace) : Prop where
  registry : w.registry.SameUpToOrder u.registry
  held : u.held = w.held

namespace Tied

theorem empty : Tied digest existing (.empty existing) :=
  ⟨.empty, fun _ h => absurd h List.not_mem_nil⟩

theorem extract (hw : w.Tied digest existing) {schema : Linked Nat}
    (hschema : schema.RefersTo w.registry.schemas.keys) (c : Context) :
    Tied digest existing ((Workspace.extract ⟨digest, true⟩ schema c).result w).2 := by
  obtain ⟨hleft, hgrown, hok⟩ :=
    @tied_extract Nat existing ⟨digest, true⟩ rfl schema c _ hw.registry hschema
  have hheld := fun v hv => (hw.held v hv).mono hgrown
  cases hresult : (NamedSchemas.extract ⟨digest, true⟩ schema c).result w.registry with
  | mk outcome r =>
    rw [hresult] at hleft hheld hok
    cases outcome with
    | error fault =>
      rw [result_extract_of_error hresult]
      exact ⟨hleft, hheld⟩
    | ok v =>
      rw [result_extract_of_ok hresult]
      refine ⟨hleft, fun other hother => ?_⟩
      rcases List.mem_append.1 hother with hother | hlast
      · exact hheld other hother
      · rw [List.mem_singleton.1 hlast]
        exact (hok v rfl).sharing _

/-- A renaming to a free name relabels the workspace, in which all references are to registered
schemas again. -/
theorem rename (hw : w.Tied digest existing) (hold : old ∈ w.registry.schemas.keys)
    (hfree : w.registry.isTaken new = false) :
    ∃ u, (Workspace.rename old new).result w = (.ok (), u) ∧ u.Tied digest existing ∧
      Relabelled old new w u ∧
      u.registry.schemas.keys = w.registry.schemas.keys.filter (· ≠ old) ++ [new] := by
  obtain ⟨t, hrename, ht, hrelabelled, hkeys⟩ := hw.registry.rename hold hfree
  have hresult := result_rename_of_ok hrename
  rw [hw.registry.relink_eq] at hresult
  refine ⟨_, hresult, ⟨ht, fun v hv => ?_⟩, ⟨hrelabelled, rfl⟩, hkeys⟩
  obtain ⟨before, hbefore, rfl⟩ := List.mem_map.1 hv
  rw [hkeys]
  exact (hw.held before hbefore).relabel old new

theorem renameEach {taken : List Text} {plan : List (Text × Text)} (hplan : IsPlan taken plan)
    (hw : w.Tied digest existing) (hold : ∀ pair ∈ plan, pair.1 ∈ w.registry.schemas.keys)
    (htaken : ∀ name ∈ w.registry.schemas.keys ++ existing, name ∈ taken) :
    ∃ u, (Workspace.renameEach plan).result w = (.ok (), u) ∧ u.Tied digest existing := by
  induction plan generalizing taken w with
  | nil => exact ⟨w, rfl, hw⟩
  | cons first rest ih =>
    obtain ⟨old, new⟩ := first
    obtain ⟨hfree, holdU, htakenU⟩ := hplan.next hold htaken hw.registry.fresh
    rw [← hw.registry.reserved] at hfree
    obtain ⟨u, hrename, hu, -, hkeys⟩ :=
      hw.rename (hold _ (List.mem_cons_self ..)) (Registry.isTaken_eq_false.2 hfree)
    rw [← hkeys] at holdU htakenU
    rw [Workspace.renameEach, WorkspaceM.result_bind_of_ok hrename]
    exact ih hplan.2.2.2 hu holdU htakenU

theorem shorten (hw : w.Tied digest existing) :
    Tied digest existing (Workspace.shorten.result w).2 := by
  rcases hw.registry.result_shorten with ⟨fault, hplan, -⟩ | ⟨plan, t, hplan, hisPlan, -⟩
  · rwa [result_shorten_of_error hplan]
  · have hold := Registry.mem_keys_of_plan hw.registry.usages hplan
    obtain ⟨u, hrename, hu⟩ := hw.renameEach hisPlan hold fun name hname => by
      rwa [hw.registry.reserved]
    rwa [result_shorten_of_ok hplan hrename]

end Tied

theorem Reached.tied (h : w.Reached digest existing) : w.Tied digest existing := by
  induction h with
  | empty => exact .empty
  | extract schema c _ hschema ih => exact ih.extract hschema c
  | shorten _ ih => exact ih.shorten
  | rename _ hold hfree ih =>
    obtain ⟨u, hresult, hu, -⟩ := ih.rename hold hfree
    rwa [hresult]

/-- Every reference in a registered schema or in a value that is held is one that was recorded under
its name when it was handed out, and what is recorded reads the address of that name. -/
theorem Reached.recorded (h : w.Reached digest existing) :
    (∀ v, v ∈ w.held ∨ v ∈ w.registry.schemas.entries.map Prod.snd →
      v.RefersTo w.registry.references.keys) ∧
    ∀ entry ∈ w.registry.references.entries, ∀ reading ∈ entry.2,
      reading = componentAddress entry.1 := by
  have hregistry := h.tied.registry
  refine ⟨fun v hv => ?_, fun entry hentry reading hreading => ?_⟩
  · rw [hregistry.references]
    rcases hv with hheld | hschema
    · exact h.tied.held v hheld
    · obtain ⟨entry, hentry, rfl⟩ := List.mem_map.1 hschema
      exact hregistry.refersTo entry hentry
  · have hname : entry.1 ∈ w.registry.schemas.keys :=
      hregistry.references ▸ Table.mem_keys_of_mem hentry
    obtain ⟨contexts, -, -, hrecord⟩ := hregistry.used entry.1 hname
    rw [Table.get?_eq_some_iff.2 hentry, Option.some.injEq] at hrecord
    rw [hrecord] at hreading
    exact List.eq_of_mem_replicate hreading

/-- So following the labels changes no value when no reference to the name was recorded. -/
theorem Reached.relabel_eq_self (h : w.Reached digest existing)
    (hold : old ∉ w.registry.references.keys) {v : Linked Nat}
    (hv : v ∈ w.held ∨ v ∈ w.registry.schemas.entries.map Prod.snd) (new : Text) :
    v.relabel (.mapName (renamed old new)) = v := by
  refine Value.relabel_eq_self fun label hlabel => ?_
  cases label with
  | identifier schema name => rfl
  | component name =>
    have hname := h.recorded.1 v hv name hlabel
    have hne : name ≠ old := fun heq => hold (heq ▸ hname)
    rw [Link.mapName, renamed, if_neg hne]

theorem Tied.sameUpToOrder (hw : w.Tied digest existing) (hold : old ∈ w.registry.schemas.keys)
    (hnew : new ∉ w.registry.schemas.keys) (hu : Relabelled old new w u)
    (hv : Relabelled new old u v) : SameUpToOrder w v := by
  refine ⟨hw.registry.sameUpToOrder hold hnew hu.registry hv.registry, ?_⟩
  rw [hv.held, hu.held, List.map_map]
  refine (List.map_congr_left fun value hvalue => ?_).trans (List.map_id _)
  exact (hw.held value hvalue).relabel_back hnew

/-- A renaming to a free name succeeds and changes that name alone, in the registry with its order,
in all references and in the answers to lookups. Renaming back restores what there was. -/
theorem rename_relabels (h : w.Reached digest existing) (hold : old ∈ w.registry.schemas.keys)
    (hfree : w.registry.isTaken new = false) :
    ∃ u v, (rename old new).result w = (.ok (), u) ∧ Relabelled old new w u ∧
      (∀ shared canonical, u.registry.lookup shared canonical =
        renamedAnswer old new (w.registry.lookup shared canonical)) ∧
      (rename new old).result u = (.ok (), v) ∧ SameUpToOrder w v ∧
      ∀ shared canonical,
        v.registry.lookup shared canonical = w.registry.lookup shared canonical := by
  obtain ⟨hnew, -⟩ := Registry.isTaken_eq_false.1 hfree
  obtain ⟨u, hthere, hu, hrelabelled, hkeys⟩ := h.tied.rename hold hfree
  have hfreeU : u.registry.isTaken old = false := by
    rw [Registry.isTaken_eq_false, hkeys, hu.registry.reserved]
    refine ⟨fun hmem => ?_, h.tied.registry.fresh old hold⟩
    rcases List.mem_append.1 hmem with hkept | hlast
    · exact of_decide_eq_true (List.mem_filter.1 hkept).2 rfl
    · exact hnew (List.mem_singleton.1 hlast ▸ hold)
  have hnewU : new ∈ u.registry.schemas.keys := by
    rw [hkeys]
    exact List.mem_append_right _ (List.mem_singleton.2 rfl)
  obtain ⟨v, hback, -, hagain, -⟩ := hu.rename hnewU hfreeU
  have hsame := h.tied.sameUpToOrder hold hnew hrelabelled hagain
  exact ⟨u, v, hthere, hrelabelled, hrelabelled.registry.lookup, hback, hsame,
    hsame.registry.lookup⟩

/-- The schema that is renamed was found twice, has a shorter name since then, and is referred to by
two others. One of these was passed in with the reference that had been handed out. -/
theorem rename_relabels_shared : ∃ w u v : Workspace, w.Reached Sha256.hex [] ∧
    w.registry.schemas.keys = ["GetA.X", "GetB.Y", "GetC.Z"] ∧
    (rename "GetB.Y" "Left").result w = (.ok (), u) ∧ Relabelled "GetB.Y" "Left" w u ∧
      (rename "Left" "GetB.Y").result u = (.ok (), v) ∧ SameUpToOrder w v := by
  have h : Reached Sha256.hex [] _ :=
    ((((@Reached.empty Sha256.hex []).extract (.ofDocument (wrapperSchema "a" (titledSchema "one")))
      (contextAt "/x" "getA") (.ofDocument _)).extract (.ofDocument (titledSchema "one"))
      (contextAt "/y" "getB") (.ofDocument _)).shorten).extract
      (wrapperSchema "c" (.ref (.component "GetB.Y"))) (contextAt "/z" "getC") (by decide +kernel)
  obtain ⟨u, v, hthere, hu, -, hback, hv, -⟩ := rename_relabels h
    (show Text.ofString "GetB.Y" ∈ _ by decide +kernel)
    (show Registry.isTaken _ (Text.ofString "Left") = false by decide +kernel)
  exact ⟨_, u, v, h, by decide +kernel, hthere, hu, hback, hv⟩

end Workspace

end NamedSchemas
