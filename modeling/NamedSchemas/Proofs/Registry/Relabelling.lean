import NamedSchemas.Proofs.Registry.Ties
import NamedSchemas.Proofs.Shortening.Renaming
/-!
# Renaming relabels

In a tied registry a renaming to a free name changes the one name and nothing else: the schema is
moved to the end with its usages and its new identifier, and its references and its digest follow.
So renaming it back gives what was there before, in another order at most.
-/

namespace NamedSchemas

variable {σ : Type}

/-- An answer to a lookup with one name replaced by another, also where the answer is that a schema
with another text has the digest. -/
def renamedAnswer (old new : Text) : Except Fault (Option Text) → Except Fault (Option Text)
  | .ok found => .ok (found.map (renamed old new))
  | .error (.sharedDigest digest name) => .error (.sharedDigest digest (renamed old new name))
  | .error fault => .error fault

theorem renamed_self (old new : Text) : renamed old new old = new := if_pos rfl

theorem renamed_of_ne {old new name : Text} (h : name ≠ old) : renamed old new name = name := if_neg h

theorem renamed_back {old new name : Text} (h : name ≠ new) :
    renamed new old (renamed old new name) = name := by
  by_cases hold : name = old
  · rw [hold, renamed_self, renamed_self]
  · rw [renamed_of_ne hold, renamed_of_ne h]

theorem Value.RefersTo.relabel {names : List Text} {v : Linked σ} (h : v.RefersTo names)
    (old new : Text) : (v.relabel (.mapName (renamed old new))).RefersTo
      (names.filter (· ≠ old) ++ [new]) := by
  refine (h.mapName _).mono fun name hname => ?_
  obtain ⟨before, hbefore, rfl⟩ := List.mem_map.1 hname
  by_cases heq : before = old
  · rw [heq, renamed_self]
    exact List.mem_append_right _ (List.mem_singleton.2 rfl)
  · rw [renamed_of_ne heq]
    exact List.mem_append_left _ (List.mem_filter.2 ⟨hbefore, decide_eq_true heq⟩)

theorem Value.RefersTo.relabel_back {names : List Text} {v : Linked σ} (h : v.RefersTo names)
    {old new : Text} (hnew : new ∉ names) :
    (v.relabel (.mapName (renamed old new))).relabel (.mapName (renamed new old)) = v := by
  rw [relabel_relabel]
  refine relabel_eq_self fun label hlabel => ?_
  match label, hlabel with
  | .component name, hlabel =>
    exact congrArg Link.component (renamed_back fun heq => hnew (heq ▸ h name hlabel))
  | .identifier _ _, _ => rfl

namespace Registry

/-- The first digest of a name is its only one, so that repointing it replaces the name wherever it
is. -/
theorem repoint_eq_map {old : Text} (new : Text) {entries : List (Text × Text)}
    (h : (entries.map Prod.snd).Nodup) :
    repoint old new entries = entries.map fun entry => (entry.1, renamed old new entry.2) := by
  induction entries with
  | nil => rfl
  | cons entry rest ih =>
    obtain ⟨digest, name⟩ := entry
    rw [List.map_cons, List.nodup_cons] at h
    rw [repoint, List.map_cons]
    by_cases hname : name = old
    · subst hname
      have hrest : rest.map (fun entry => (entry.1, renamed name new entry.2)) = rest := by
        refine (List.map_congr_left fun entry hentry => ?_).trans (List.map_id rest)
        rw [renamed_of_ne fun heq => h.1 (List.mem_map.2 ⟨entry, hentry, heq⟩)]
        rfl
      rw [if_pos rfl, renamed_self, hrest]
    · rw [if_neg hname, renamed_of_ne hname, ih h.2]

/-- What a renaming makes of a registry. -/
structure Relabelled (old new : Text) (r t : Registry σ) : Prop where
  reserved : t.reserved = r.reserved
  /-- The schema is moved and gets its new identifier, and then all references follow. -/
  schemas : t.schemas.entries =
    (moveEntry (fun _ name v => v.withId name) old new r.schemas.entries).map fun entry =>
      (entry.1, entry.2.relabel (.mapName (renamed old new)))
  usages : t.usages.entries = moveEntry (fun _ _ contexts => contexts) old new r.usages.entries
  /-- Every reference that was ever handed out for the schema reads the new address, also where the
  value that it was put into was given up. -/
  references : t.references.entries =
    moveEntry (fun _ name readings => readings.map fun _ => componentAddress name) old new
      r.references.entries
  names : t.names.entries = r.names.entries.map fun entry => (entry.1, renamed old new entry.2)
  canonicals : t.canonicals = r.canonicals

/-- The registries hold the same, the schemas in another order at most. -/
structure SameUpToOrder (r t : Registry σ) : Prop where
  reserved : t.reserved = r.reserved
  schemas : t.schemas.entries.Perm r.schemas.entries
  usages : t.usages.entries.Perm r.usages.entries
  references : t.references.entries.Perm r.references.entries
  names : t.names = r.names
  canonicals : t.canonicals = r.canonicals

variable {r t u : Registry σ} {digest : Text → Text} {existing : List Text} {old new : Text}

theorem Relabelled.lookup (h : Relabelled old new r t) (shared canonical : Text) :
    t.lookup shared canonical = renamedAnswer old new (r.lookup shared canonical) := by
  have hnames : t.names.get? shared = (r.names.get? shared).map (renamed old new) := by
    rw [Table.get?_of_entries h.names, Table.get?, Option.map_map]
    rfl
  rw [Registry.lookup, Registry.lookup, hnames, h.canonicals]
  cases r.names.get? shared with
  | none => rfl
  | some name =>
    cases r.canonicals.get? shared with
    | none => rfl
    | some found =>
      dsimp only [Option.map_some]
      split <;> rfl

theorem SameUpToOrder.lookup (h : SameUpToOrder r t) (shared canonical : Text) :
    t.lookup shared canonical = r.lookup shared canonical := by
  rw [Registry.lookup, Registry.lookup, h.names, h.canonicals]

theorem tables_of_rename [DecidableEq σ] (h : r.rename old new = .ok t) :
    t.reserved = r.reserved ∧ t.canonicals = r.canonicals ∧
      t.names.entries = repoint old new r.names.entries ∧
      t.references = (r.references.erase old).insert new
        (((r.references.erase old).get? new).getD [] ++
          ((r.references.get? old).getD []).map fun _ => componentAddress new) := by
  rw [rename] at h
  split at h
  · cases h
  split at h
  · cases h
    exact ⟨rfl, rfl, rfl, rfl⟩
  · cases h

namespace Tied

theorem sameUpToOrder (hr : r.Tied digest existing) (hold : old ∈ r.schemas.keys)
    (hnew : new ∉ r.schemas.keys) (ht : Relabelled old new r t) (hu : Relabelled new old t u) :
    SameUpToOrder r u := by
  obtain ⟨schema, hschema⟩ := Table.exists_get?_of_mem hold
  obtain ⟨contexts, -, hcontexts, hreadings⟩ := hr.used old hold
  have hmem := Table.get?_eq_some_iff.1 hschema
  refine ⟨hu.reserved.trans ht.reserved, ?_, ?_, ?_, Table.ext ?_,
    hu.canonicals.trans ht.canonicals⟩
  · have hback : (schema.withId new).withId old = schema :=
      (Value.withId_withId new old schema).trans (hr.identified _ hmem)
    -- both moves come first, since they do not look at references, and then both relabellings
    rw [hu.schemas, ht.schemas, moveEntry_map fun _ name v => (Value.relabel_withId _ name v).symm,
      List.map_map]
    refine ((moveEntry_back r.schemas.nodup hmem hnew hback).map _).trans (.of_eq ?_)
    refine (List.map_congr_left fun entry hentry => ?_).trans (List.map_id _)
    exact Prod.ext rfl ((hr.refersTo entry hentry).relabel_back hnew)
  · rw [hu.usages, ht.usages]
    rw [← hr.usages] at hnew
    exact moveEntry_back r.usages.nodup (Table.get?_eq_some_iff.1 hcontexts) hnew rfl
  · rw [hu.references, ht.references]
    rw [← hr.references] at hnew
    refine moveEntry_back r.references.nodup (Table.get?_eq_some_iff.1 hreadings) hnew ?_
    simp only [List.map_replicate]
  · rw [hu.names, ht.names, List.map_map]
    refine (List.map_congr_left fun entry hentry => ?_).trans (List.map_id _)
    have hname : entry.2 ∈ r.schemas.keys :=
      hr.named.mem_iff.1 (List.mem_map.2 ⟨entry, hentry, rfl⟩)
    exact Prod.ext rfl (renamed_back fun heq => hnew (heq ▸ hname))

/-- The schemas with one of them moved, before the references follow. -/
theorem of_mem_moveEntry (hr : r.Tied digest existing) {schema : Linked σ}
    (hmem : (old, schema) ∈ r.schemas.entries) {entry : Text × Linked σ}
    (h : entry ∈ moveEntry (fun _ name v => v.withId name) old new r.schemas.entries) :
    entry.2.isMap = true ∧ entry.2.withId entry.1 = entry.2 ∧ entry.2.RefersTo r.schemas.keys := by
  rw [moveEntry_of_mem _ new r.schemas.nodup hmem] at h
  rcases List.mem_append.1 h with hkept | hlast
  · have hkept := (List.mem_filter.1 hkept).1
    exact ⟨hr.isMap entry hkept, hr.identified entry hkept, hr.refersTo entry hkept⟩
  · rw [List.mem_singleton.1 hlast]
    exact ⟨(Value.isMap_withId new schema).trans (hr.isMap _ hmem),
      Value.withId_withId new new schema, (hr.refersTo _ hmem).withId new⟩

variable [DecidableEq σ]

/-- Schemas that have their names as their identifiers are not held outside the registry. -/
theorem relink_eq (hr : r.Tied digest existing) (old new : Text) :
    r.relink old new = Link.mapName (renamed old new) := by
  have hheld : (r.schemas.get? old).bind (Value.heldAs? old) = none := by
    rw [Option.bind_eq_none_iff]
    intro v hv
    have hid := hr.identified _ (Table.get?_eq_some_iff.1 hv)
    cases v with
    | map es =>
      have hget : Entries.get? identifierKey es = some (.text old) := by
        rw [Value.withId, Value.map.injEq] at hid
        rw [← hid, Entries.get?_insert_self]
      rw [Value.heldAs?, hget]
      rfl
    | scalar s => rfl
    | list items => rfl
    | ref label => rfl
  rw [relink, hheld]
  funext label
  cases label <;> rfl

/-- A tied registry in which a schema is renamed to a free name is relabelled, and it is tied. -/
theorem rename (hr : r.Tied digest existing) (hold : old ∈ r.schemas.keys)
    (hfree : r.isTaken new = false) :
    ∃ t, r.rename old new = .ok t ∧ t.Tied digest existing ∧ Relabelled old new r t ∧
      t.schemas.keys = r.schemas.keys.filter (· ≠ old) ++ [new] := by
  have hnew : new ∉ r.schemas.keys := (isTaken_eq_false.1 hfree).1
  obtain ⟨t, hrename, ht, hkeys⟩ := hr.toConsistent.rename hold hfree
  obtain ⟨schema, hschema⟩ := Table.exists_get?_of_mem hold
  obtain ⟨_, -, -, hreadings⟩ := hr.used old hold
  have hmem := Table.get?_eq_some_iff.1 hschema
  obtain ⟨hschemas, husages⟩ := rename_eq_ok hrename hr.usages hnew
  rw [moveEntry_of_mem _ new r.schemas.nodup hmem, Value.renameId_of_withId (hr.identified _ hmem),
    ← moveEntry_of_mem (fun _ name v => v.withId name) new r.schemas.nodup hmem,
    hr.relink_eq] at hschemas
  obtain ⟨hreserved, hcanonicals, hnames, hreferences⟩ := tables_of_rename hrename
  refine ⟨t, hrename, ⟨ht, ?_, ?_, ?_⟩, ⟨hreserved, hschemas, husages, ?_, ?_, hcanonicals⟩, hkeys⟩
  · rw [hschemas]
    intro entry hentry
    obtain ⟨before, hbefore, rfl⟩ := List.mem_map.1 hentry
    exact Value.isMap_subst _ (hr.of_mem_moveEntry hmem hbefore).1
  · rw [hschemas]
    intro entry hentry
    obtain ⟨before, hbefore, rfl⟩ := List.mem_map.1 hentry
    rw [← Value.relabel_withId, (hr.of_mem_moveEntry hmem hbefore).2.1]
  · rw [hschemas, hkeys]
    intro entry hentry
    obtain ⟨before, hbefore, rfl⟩ := List.mem_map.1 hentry
    exact (hr.of_mem_moveEntry hmem hbefore).2.2.relabel old new
  · have hreference : new ∉ r.references.keys := by rwa [hr.references]
    have hnone : (r.references.erase old).get? new = none :=
      Table.get?_eq_none_iff.2 fun h => hreference (Table.mem_keys_erase.1 h).1
    rw [hreferences, hnone, Option.getD_none, List.nil_append, hreadings, Option.getD_some]
    exact Table.entries_move hreadings hreference
      fun _ name readings => readings.map fun _ => componentAddress name
  · rw [hnames]
    exact repoint_eq_map new (hr.named.nodup_iff.2 r.schemas.nodup_keys)

end Tied

end Registry

end NamedSchemas
