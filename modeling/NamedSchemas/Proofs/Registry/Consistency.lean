import Mathlib.Data.List.Perm.Basic
import Mathlib.Data.List.Nodup
import NamedSchemas.Digest.Sha256
import NamedSchemas.Proofs.Registry.Steps
import NamedSchemas.Proofs.Shortening.Plan
/-!
# Consistent registries

A registry keeps what it knows of a schema in several tables. They are changed one after the other,
by steps that may stop at a fault, and a renaming looks its schema up in each of them. Whatever
steps were taken, the tables tell of the same schemas: each has one digest, and as many references
as usages, all of which read its address.
-/

namespace NamedSchemas

variable {σ : Type} {digest : Text → Text} {existing : List Text} {r : Registry σ}

/-- The tables of a registry tell of the same schemas. -/
structure Registry.Consistent (digest : Text → Text) (existing : List Text) (r : Registry σ) :
    Prop where
  reserved : r.reserved = existing
  usages : r.usages.keys = r.schemas.keys
  references : r.references.keys = r.schemas.keys
  fresh : ∀ name ∈ r.schemas.keys, name ∉ existing
  digests : r.names.keys = r.canonicals.keys
  fingerprint : ∀ entry ∈ r.canonicals.entries, entry.1 = digest entry.2
  /-- The names that digests have are those of the schemas, and no two digests have the same. -/
  named : (r.names.entries.map Prod.snd).Perm r.schemas.keys
  /-- There is a reference for every usage, and it reads the address of its name. -/
  used : ∀ name ∈ r.schemas.keys, ∃ contexts, contexts ≠ [] ∧ r.usages.get? name = some contexts ∧
    r.references.get? name = some (List.replicate contexts.length (componentAddress name))
  isMapping : ∀ entry ∈ r.schemas.entries, entry.2.isMapping = true

namespace Registry.Consistent

theorem empty : Consistent digest existing (.empty existing : Registry σ) :=
  ⟨rfl, rfl, rfl, fun _ h => absurd h List.not_mem_nil, rfl, fun _ h => absurd h List.not_mem_nil,
    .refl [], fun _ h => absurd h List.not_mem_nil, fun _ h => absurd h List.not_mem_nil⟩

/-! ### Moving a schema -/

theorem useAgain (hr : Consistent digest existing r) {name : Text} {contexts : List Context}
    (hcontexts : r.usages.get? name = some contexts) (c : Context) :
    Consistent digest existing
      ({ r with usages := r.usages.insert name (contexts ++ [c]) }.addReference name) := by
  have husage : name ∈ r.usages.keys := Table.mem_keys_of_mem (Table.get?_eq_some_iff.1 hcontexts)
  have hname : name ∈ r.schemas.keys := by rwa [← hr.usages]
  have hreference : name ∈ r.references.keys := by rwa [hr.references]
  refine ⟨hr.reserved, ?_, ?_, hr.fresh, hr.digests, hr.fingerprint, hr.named, ?_, hr.isMapping⟩
  · exact (Table.keys_insert_of_mem _ husage).trans hr.usages
  · exact (Table.keys_insert_of_mem _ hreference).trans hr.references
  · intro other hother
    obtain ⟨used, hused, husages, hreferences⟩ := hr.used other hother
    by_cases heq : other = name
    · subst heq
      cases hcontexts.symm.trans husages
      refine ⟨contexts ++ [c], by simp, Table.get?_insert_self _ _ _, ?_⟩
      rw [addReference, Table.get?_insert_self, hreferences, Option.getD_some, List.length_append,
        List.length_singleton, List.replicate_succ']
    · refine ⟨used, hused, ?_, ?_⟩
      · rw [addReference, Table.get?_insert_of_ne _ _ heq, husages]
      · rw [addReference, Table.get?_insert_of_ne _ _ heq, hreferences]

theorem addNew (hr : Consistent digest existing r) {name canonical : Text} {schema : Linked σ}
    (hschema : schema.isMapping = true) (hdigest : digest canonical ∉ r.names.keys)
    (hname : name ∉ r.schemas.keys) (hfresh : name ∉ existing) (c : Context) :
    Consistent digest existing ({ r with
      schemas := r.schemas.insert name schema
      names := r.names.insert (digest canonical) name
      canonicals := r.canonicals.insert (digest canonical) canonical
      usages := r.usages.insert name [c] }.addReference name) := by
  have hcanonical : digest canonical ∉ r.canonicals.keys := by rwa [← hr.digests]
  have husage : name ∉ r.usages.keys := by rwa [hr.usages]
  have hreference : name ∉ r.references.keys := by rwa [hr.references]
  have hkeys := Table.keys_insert_of_new schema hname
  refine ⟨hr.reserved, ?_, ?_, ?_, ?_, ?_, ?_, ?_, ?_⟩
  · rw [addReference, hkeys, Table.keys_insert_of_new _ husage, hr.usages]
  · rw [addReference, hkeys, Table.keys_insert_of_new _ hreference, hr.references]
  · exact Table.forall_mem_keys_insert hfresh hr.fresh
  · rw [addReference, Table.keys_insert_of_new _ hdigest, Table.keys_insert_of_new _ hcanonical,
      hr.digests]
  · exact Table.forall_mem_insert rfl hr.fingerprint
  · rw [addReference, hkeys, Table.entries_insert_of_new _ hdigest, List.map_append]
    exact hr.named.append_right [name]
  · intro other hother
    by_cases heq : other = name
    · subst heq
      refine ⟨[c], by simp, Table.get?_insert_self _ _ _, ?_⟩
      rw [addReference, Table.get?_insert_self, Table.get?_eq_none_iff.2 hreference]
      rfl
    · obtain ⟨used, hused, husages, hreferences⟩ :=
        hr.used other ((Table.mem_keys_insert.1 hother).resolve_left heq)
      refine ⟨used, hused, ?_, ?_⟩
      · rw [addReference, Table.get?_insert_of_ne _ _ heq, husages]
      · rw [addReference, Table.get?_insert_of_ne _ _ heq, hreferences]
  · exact Table.forall_mem_insert hschema hr.isMapping

/-- A registry that tells of the same schemas everywhere has a text for every digest that it
knows. -/
theorem lookup_eq_error (hr : Consistent digest existing r) {found text : Text} {fault : Fault}
    (h : r.lookup found text = .error fault) : ∃ name, fault = .sharedDigest found name := by
  rw [lookup] at h
  cases hname : r.names.get? found with
  | none =>
    rw [hname] at h
    cases h
  | some name =>
    have hknown : found ∈ r.canonicals.keys := by
      rw [← hr.digests]
      exact Table.mem_keys_of_mem (Table.get?_eq_some_iff.1 hname)
    obtain ⟨stored, hstored⟩ := Table.exists_get?_of_mem hknown
    rw [hname, hstored] at h
    dsimp only at h
    split at h
    · cases h
    · cases h
      exact ⟨name, rfl⟩

theorem mem_keys_of_lookup (hr : Consistent digest existing r) {found text name : Text}
    (h : r.lookup found text = .ok (some name)) : name ∈ r.schemas.keys := by
  obtain ⟨hname, -⟩ := lookup_eq_some.1 h
  exact hr.named.mem_iff.1 (List.mem_map.2 ⟨_, Table.get?_eq_some_iff.1 hname, rfl⟩)

theorem keeps_hoist {s : ExtractionSettings} (entries : Entries (Link σ)) (c : Context) :
    RegistryM.Keeps (Consistent s.digest existing) (hoist s entries c) := by
  intro r hr
  refine hoist_leaves hr entries c ?_ ?_
  · intro canonical name contexts _ _ _ hcontexts
    exact hr.useAgain hcontexts c
  · intro canonical name _ _ hdigest hname hreserved
    rw [hr.reserved] at hreserved
    exact hr.addNew rfl hdigest hname hreserved c

theorem keeps_extract {s : ExtractionSettings} (schema : Linked σ) (c : Context) :
    RegistryM.Keeps (Consistent s.digest existing) (extract s schema c) :=
  extract_keeps (fun entries c => keeps_hoist entries c) schema c

/-! ### Renaming -/

theorem map_snd_repoint {old : Text} (new : Text) {entries : List (Text × Text)}
    (h : old ∈ entries.map Prod.snd) :
    ((repoint old new entries).map Prod.snd).Perm (new :: (entries.map Prod.snd).erase old) := by
  induction entries with
  | nil => cases h
  | cons entry rest ih =>
    obtain ⟨digest, name⟩ := entry
    rw [repoint]
    by_cases heq : name = old
    · subst heq
      rw [if_pos rfl, List.map_cons, List.map_cons, List.erase_cons_head]
    · rw [if_neg heq, List.map_cons, List.map_cons, List.erase_cons_tail (by simpa using heq)]
      have hrest : old ∈ rest.map Prod.snd :=
        (List.mem_cons.1 h).resolve_left fun heq' => heq heq'.symm
      exact ((ih hrest).cons name).trans (.swap new name _)

theorem isMapping_renameId (old new : Text) {v : Linked σ} (h : v.isMapping = true) :
    (v.renameId old new).isMapping = true := by
  match v, h with
  | .map entries, _ =>
    rw [Value.renameId]
    split <;> rfl
  | .ref (.component name), _ => rfl

theorem isMapping_relabel [DecidableEq σ] (old new : Text) (named : Option σ) {v : Linked σ}
    (h : v.isMapping = true) : (v.relabel (.rename old new named)).isMapping = true := by
  match v, h with
  | .map entries, _ => rfl
  | .ref (.component name), _ => rfl

/-- When the digest of a name is given to a new one, digests still have the names of the schemas. -/
theorem named_repoint (hr : Consistent digest existing r) {old : Text} (new : Text)
    (hold : old ∈ r.schemas.keys) : ((repoint old new r.names.entries).map Prod.snd).Perm
      (r.schemas.keys.filter (· ≠ old) ++ [new]) := by
  have hdigest : old ∈ r.names.entries.map Prod.snd := hr.named.mem_iff.2 hold
  have hfilter : r.schemas.keys.erase old = r.schemas.keys.filter (· ≠ old) := by
    rw [List.Nodup.erase_eq_filter r.schemas.nodup_keys]
    exact List.filter_congr fun name _ => by by_cases h : name = old <;> simp [h]
  rw [← hfilter]
  exact ((map_snd_repoint new hdigest).trans ((hr.named.erase old).cons new)).trans
    (List.perm_append_singleton new _).symm

theorem isMapping_of_mem_moved (hr : Consistent digest existing r) (old new : Text)
    {schema : Linked σ} (hschema : schema.isMapping = true) :
    ∀ entry ∈ ((r.schemas.erase old).insert new (schema.renameId old new)).entries,
      entry.2.isMapping = true :=
  Table.forall_mem_insert (isMapping_renameId old new hschema) fun entry hentry =>
    hr.isMapping entry (List.mem_filter.1 hentry).1

/-- A schema that is renamed to a free name has all of its references, its usages and its digest
under the new name. -/
theorem rename [DecidableEq σ] (hr : Consistent digest existing r) {old new : Text}
    (hold : old ∈ r.schemas.keys) (hfree : r.isTaken new = false) :
    ∃ t, r.rename old new = .ok t ∧ Consistent digest existing t ∧
      t.schemas.keys = r.schemas.keys.filter (· ≠ old) ++ [new] := by
  obtain ⟨hnew, hreserved⟩ := Registry.isTaken_eq_false.1 hfree
  rw [hr.reserved] at hreserved
  obtain ⟨schema, hschema⟩ := Table.exists_get?_of_mem hold
  have hmapping := hr.isMapping _ (Table.get?_eq_some_iff.1 hschema)
  obtain ⟨contexts, hne, husages, hreferences⟩ := hr.used old hold
  have husage : new ∉ r.usages.keys := by rwa [hr.usages]
  have hreference : new ∉ r.references.keys := by rwa [hr.references]
  have hnone : (r.references.erase old).get? new = none :=
    Table.get?_eq_none_iff.2 fun h => hreference (Table.mem_keys_erase.1 h).1
  refine ⟨_, by rw [Registry.rename, hschema]; exact if_pos hmapping, ?_, ?_⟩
  · have hkeys : ∀ {ν : Type} {t : Table Text ν} (value : ν), t.keys = r.schemas.keys →
        ((t.erase old).insert new value).keys = r.schemas.keys.filter (· ≠ old) ++ [new] := by
      intro ν t value ht
      rw [Table.keys_move t value (by rwa [ht]), ht]
    have hschemas : ∀ (f : Text → Linked σ → Linked σ) (value : Linked σ),
        (((r.schemas.erase old).insert new value).mapValues f).keys =
          r.schemas.keys.filter (· ≠ old) ++ [new] := by
      intro f value
      rw [Table.keys_mapValues, hkeys value rfl]
    refine ⟨hr.reserved, ?_, ?_, ?_, ?_, hr.fingerprint, ?_, ?_, ?_⟩
    · rw [hschemas, hkeys _ hr.usages]
    · rw [hschemas, hkeys _ hr.references]
    · intro name hname
      rw [hschemas, List.mem_append] at hname
      rcases hname with hname | hname
      · exact hr.fresh name (List.mem_filter.1 hname).1
      · rwa [List.mem_singleton.1 hname]
    · exact (map_fst_repoint old new r.names.entries).trans hr.digests
    · rw [hschemas]
      exact hr.named_repoint new hold
    · intro name hname
      rw [hschemas, List.mem_append] at hname
      rcases hname with hname | hname
      · obtain ⟨hmem, hkept⟩ := List.mem_filter.1 hname
        have hkept : name ≠ old := of_decide_eq_true hkept
        have hother : name ≠ new := fun heq => hnew (heq ▸ hmem)
        obtain ⟨used, hused, husages, hreferences⟩ := hr.used name hmem
        refine ⟨used, hused, ?_, ?_⟩
        · rw [Table.get?_insert_of_ne _ _ hother, Table.get?_erase_of_ne _ hkept, husages]
        · rw [Table.get?_insert_of_ne _ _ hother, Table.get?_erase_of_ne _ hkept, hreferences]
      · rw [List.mem_singleton.1 hname]
        refine ⟨contexts, hne, ?_, ?_⟩
        · rw [Table.get?_insert_self, husages, Option.getD_some]
        · rw [Table.get?_insert_self, hnone, hreferences, Option.getD_some, Option.getD_none,
            List.nil_append, List.map_replicate]
    · intro entry hentry
      obtain ⟨moved, hmoved, rfl⟩ := List.mem_map.1 hentry
      exact isMapping_relabel old new _ (hr.isMapping_of_mem_moved old new hmapping moved hmoved)
  · rw [Table.keys_mapValues, Table.keys_move _ _ hnew]

theorem result_rename [DecidableEq σ] (hr : Consistent digest existing r) {old new : Text}
    (hold : old ∈ r.schemas.keys) (hfree : r.isTaken new = false) :
    ∃ t, (RegistryM.rename old new).result r = (.ok (), t) ∧ Consistent digest existing t ∧
      t.schemas.keys = r.schemas.keys.filter (· ≠ old) ++ [new] := by
  obtain ⟨t, hrename, ht⟩ := hr.rename hold hfree
  refine ⟨t, ?_, ht⟩
  rw [RegistryM.result_rename, hrename]

theorem result_renameAll [DecidableEq σ] {taken : List Text} {plan : List (Text × Text)}
    (hplan : IsPlan taken plan) (hr : Consistent digest existing r)
    (hold : ∀ pair ∈ plan, pair.1 ∈ r.schemas.keys)
    (htaken : ∀ name ∈ r.schemas.keys ++ existing, name ∈ taken) :
    ∃ t, (renameAll plan).result r = (.ok (), t) ∧ Consistent digest existing t ∧
      t.schemas.keys =
        r.schemas.keys.filter (· ∉ plan.map Prod.fst) ++ plan.map Prod.snd := by
  -- the names that are in use when a renaming is made are among those that its place in the plan
  -- was checked against
  induction plan generalizing taken r with
  | nil =>
    refine ⟨r, rfl, hr, ?_⟩
    rw [List.map_nil, List.map_nil, List.append_nil]
    exact (List.filter_eq_self.2 fun _ _ => decide_eq_true List.not_mem_nil).symm
  | cons first rest ih =>
    obtain ⟨old, new⟩ := first
    obtain ⟨hfree, holdT, htakenT⟩ := hplan.next hold htaken hr.fresh
    rw [← hr.reserved] at hfree
    obtain ⟨t, hrename, ht, hkeys⟩ :=
      hr.result_rename (hold _ (List.mem_cons_self ..)) (Registry.isTaken_eq_false.2 hfree)
    rw [← hkeys] at holdT htakenT
    obtain ⟨u, hrest, hu, hkeysU⟩ := ih hplan.2.2.2 ht holdT htakenT
    refine ⟨u, ?_, hu, ?_⟩
    · rw [renameAll, RegistryM.result_bind_of_ok hrename, hrest]
    · have hlast : [new].filter (· ∉ rest.map Prod.fst) = [new] :=
        List.filter_eq_self.2 fun name hname => by
          rw [List.mem_singleton.1 hname]
          exact decide_eq_true hplan.new_not_mem_old
      rw [hkeysU, hkeys, List.filter_append, List.filter_filter, hlast, List.append_assoc]
      congr 1
      refine List.filter_congr fun name _ => ?_
      simp only [List.map_cons, List.mem_cons, not_or, Bool.decide_and, Bool.and_comm]

/-- A plan that was made is carried out, and one that cannot be made changes nothing. The names that
are given stand behind those that are kept. -/
theorem result_shorten [DecidableEq σ] (hr : Consistent digest existing r) :
    (∃ fault, r.plan = .error fault ∧ (shorten : RegistryM σ _).result r = (.error fault, r)) ∨
      ∃ plan t, r.plan = .ok plan ∧ IsPlan (r.schemas.keys ++ r.reserved) plan ∧
        (shorten : RegistryM σ _).result r = (.ok plan, t) ∧ Consistent digest existing t ∧
        t.schemas.keys =
          r.schemas.keys.filter (· ∉ plan.map Prod.fst) ++ plan.map Prod.snd := by
  cases hplan : r.plan with
  | error fault =>
    refine Or.inl ⟨fault, rfl, RegistryM.result_bind_of_error ?_ _⟩
    rw [RegistryM.result_ask, hplan]
  | ok plan =>
    have hold := mem_keys_of_plan hr.usages hplan
    have hisPlan := isPlan_plan hr.usages hplan
    obtain ⟨t, hrename, ht⟩ := hr.result_renameAll hisPlan hold fun name hname => by
      rwa [hr.reserved]
    refine Or.inr ⟨plan, t, rfl, hisPlan, ?_, ht⟩
    rw [shorten, RegistryM.result_bind, RegistryM.result_ask, hplan]
    exact RegistryM.result_bind_of_ok hrename _

end Registry.Consistent

/-! ### Histories -/

/-- The registries that come of the empty one by extractions and shortenings, whether they succeed
or not, and by renamings of registered schemas to free names. -/
inductive Registry.Reached [DecidableEq σ] (digest : Text → Text) (existing : List Text) :
    Registry σ → Prop
  | empty : Reached digest existing (.empty existing)
  | extract {r : Registry σ} (assignIds : Bool) (schema : Linked σ) (c : Context) :
    Reached digest existing r →
      Reached digest existing ((NamedSchemas.extract ⟨digest, assignIds⟩ schema c).result r).2
  | shorten {r : Registry σ} :
    Reached digest existing r →
      Reached digest existing ((NamedSchemas.shorten : RegistryM σ _).result r).2
  | rename {r : Registry σ} {old new : Text} :
    Reached digest existing r → old ∈ r.schemas.keys → r.isTaken new = false →
      Reached digest existing ((RegistryM.rename old new).result r).2

theorem Registry.consistent_of_reached [DecidableEq σ] (h : r.Reached digest existing) :
    r.Consistent digest existing := by
  induction h with
  | empty => exact .empty
  | extract assignIds schema c _ ih =>
    exact @Consistent.keeps_extract σ existing ⟨digest, assignIds⟩ schema c _ ih
  | shorten _ ih =>
    rcases ih.result_shorten with ⟨fault, -, hresult⟩ | ⟨plan, t, -, -, hresult, ht, -⟩
    · rwa [hresult]
    · rwa [hresult]
  | rename _ hold hfree ih =>
    obtain ⟨t, hresult, ht, -⟩ := ih.result_rename hold hfree
    rwa [hresult]

def titledSchema {ρ : Type} (title : Text) : Value ρ :=
  .map [("type", .text "object"), ("title", .text title)]

def wrapperSchema {ρ : Type} (property : Text) (schema : Value ρ) : Value ρ :=
  .map [("type", .text "object"), ("properties", .map [(.text property, schema)])]

def contextAt (path operationId : Text) : Context := ⟨[.text path], some operationId, none, false⟩

/-- The third extraction stops at a name that is in use, after the schema inside has been
registered. What it leaves is renamed in the end. -/
theorem Registry.consistent_of_reached_mishap : ∃ r : Registry Empty, r.Reached Sha256.hex [] ∧
    r.schemas.keys = ["GetA.X", "GetB.Y", "Left"] ∧ r.Consistent Sha256.hex [] := by
  have h : Registry.Reached Sha256.hex [] _ :=
    ((((@Registry.Reached.empty Empty _ Sha256.hex []).extract true
      (wrapperSchema "a" (titledSchema "one")) (contextAt "/x" "getA")).extract true
      (titledSchema "one") (contextAt "/y" "getB")).extract true
      (wrapperSchema "b" (titledSchema "two")) (contextAt "/x" "getA")).shorten.rename
      (show Text.ofString "GetA.X.B" ∈ _ by decide +kernel)
      (show Registry.isTaken _ (Text.ofString "Left") = false by decide +kernel)
  exact ⟨_, h, by decide +kernel, Registry.consistent_of_reached h⟩

end NamedSchemas
