import NamedSchemas.Proofs.Document.Assembly
import NamedSchemas.Proofs.Shared.Tree
import NamedSchemas.Storage.Documents
/-!
# Documents that can be written

Whether a document has a JSON text is told by its keys and its integers: a date is no key, and an
integer may have too many digits. It is the same in every layout.
-/

namespace NamedSchemas

variable {ρ σ : Type}

namespace Scalar

def isWritable : Scalar → Bool
  | .int i => i.natAbs < 10 ^ Numeral.digitLimit
  | _ => true

def isWritableKey : Scalar → Bool
  | .date _ => false
  | .dateTime _ => false
  | s => s.isWritable

end Scalar

namespace Value

mutual

def isWritable : Value ρ → Bool
  | .scalar s => s.isWritable
  | .list items => itemsAreWritable items
  | .map entries => entriesAreWritable entries
  | .ref _ => true

def itemsAreWritable : List (Value ρ) → Bool
  | [] => true
  | item :: rest => isWritable item && itemsAreWritable rest

def entriesAreWritable : Entries ρ → Bool
  | [] => true
  | (key, value) :: rest => key.isWritableKey && isWritable value && entriesAreWritable rest

end

end Value

namespace Json

section Steps

variable {ε α β γ : Type}

private theorem not_exists_ok (fault : ε) : ¬ ∃ a : α, (.error fault : Except ε α) = .ok a := by
  rintro ⟨a, h⟩
  cases h

private theorem exists_map_iff {x : Except ε α} {f : α → β} :
    (∃ b, f <$> x = .ok b) ↔ ∃ a, x = .ok a := by
  cases x with
  | error fault => exact iff_of_false (not_exists_ok fault) (not_exists_ok fault)
  | ok a => exact iff_of_true ⟨f a, rfl⟩ ⟨a, rfl⟩

private theorem exists_bind_iff {x : Except ε α} {y : Except ε β} {f : α → β → γ} :
    (∃ c, (do pure (f (← x) (← y)) : Except ε γ) = .ok c) ↔
      (∃ a, x = .ok a) ∧ ∃ b, y = .ok b := by
  cases x with
  | error fault => exact iff_of_false (not_exists_ok fault) fun h => not_exists_ok fault h.1
  | ok a => exact (@exists_map_iff ε β γ y (f a)).trans (and_iff_right ⟨a, rfl⟩).symm

end Steps

theorem exists_writeScalar_iff (s : Scalar) :
    (∃ cs, writeScalar s = .ok cs) ↔ s.isWritable = true := by
  cases s with
  | int i =>
    rw [writeScalar, writeInt, Scalar.isWritable, decide_eq_true_eq]
    split
    · next h => exact iff_of_true ⟨_, rfl⟩ h
    · next h => exact iff_of_false (not_exists_ok _) h
  | _ => exact iff_of_true ⟨_, rfl⟩ rfl

theorem exists_writeKey_iff (layout : Layout) (s : Scalar) :
    (∃ cs, writeKey layout s = .ok cs) ↔ s.isWritableKey = true := by
  have hscalar : (∃ cs, (do pure ('"' :: (← writeScalar s) ++ ['"']) :
      Except WriteFault (List Char)) = .ok cs) ↔ s.isWritable = true := by
    rw [← exists_writeScalar_iff]
    exact exists_map_iff
  cases s with
  | text t => exact iff_of_true ⟨_, rfl⟩ rfl
  | date d => exact iff_of_false (not_exists_ok _) Bool.false_ne_true
  | dateTime t => exact iff_of_false (not_exists_ok _) Bool.false_ne_true
  | null => exact hscalar
  | bool b => exact hscalar
  | int i => exact hscalar
  | float x => exact hscalar

mutual

theorem exists_write_iff (layout : Layout) : ∀ (d : Document) (depth : Nat),
    (∃ pieces, write layout depth d = .ok pieces) ↔ d.isWritable = true
  | .scalar s, depth => by
    rw [write, Value.isWritable, ← exists_writeScalar_iff]
    exact exists_map_iff
  | .list items, depth => by
    rw [write, Value.isWritable, ← exists_writeItems_iff layout items (depth + 1)]
    exact exists_map_iff
  | .map entries, depth => by
    rw [write, Value.isWritable, ← exists_writeEntries_iff layout entries (depth + 1)]
    exact exists_map_iff
  | .ref label, _ => label.elim

theorem exists_writeItems_iff (layout : Layout) : ∀ (items : List Document) (depth : Nat),
    (∃ parts, writeItems layout depth items = .ok parts) ↔ Value.itemsAreWritable items = true
  | [], _ => iff_of_true ⟨_, rfl⟩ rfl
  | item :: rest, depth => by
    rw [writeItems, Value.itemsAreWritable, Bool.and_eq_true, ← exists_write_iff layout item depth,
      ← exists_writeItems_iff layout rest depth]
    exact exists_bind_iff

theorem exists_writeEntries_iff (layout : Layout) : ∀ (entries : Entries Empty) (depth : Nat),
    (∃ parts, writeEntries layout depth entries = .ok parts) ↔
      Value.entriesAreWritable entries = true
  | [], _ => iff_of_true ⟨_, rfl⟩ rfl
  | (key, value) :: rest, depth => by
    rw [writeEntries, Value.entriesAreWritable, Bool.and_eq_true, Bool.and_eq_true,
      ← exists_writeKey_iff layout key, ← exists_write_iff layout value depth,
      ← exists_writeEntries_iff layout rest depth]
    cases writeKey layout key with
    | error fault => exact iff_of_false (not_exists_ok _) fun h => not_exists_ok fault h.1.1
    | ok cs =>
      refine Iff.trans ?_ (and_congr_left' (and_iff_right ⟨cs, rfl⟩).symm)
      exact exists_bind_iff (f := fun pieces parts =>
        (cs :: keySeparator layout :: pieces) :: parts)

end

/-- A document has a text in one layout when it has one in another. -/
theorem exists_text_iff (layout : Layout) (d : Document) :
    (∃ cs, text layout d = .ok cs) ↔ d.isWritable = true := by
  rw [text, ← exists_write_iff layout d 0]
  exact exists_map_iff

end Json

/-- No library for YAML has a part in the JSON text of a document. -/
theorem dump_json_eq_ok {yaml : YamlLibrary} {pretty : Bool} {d : Document} {cs : List Char} :
    dump yaml .json pretty (.ofDocument d) = .ok cs ↔ jsonText pretty d = .ok cs := by
  rw [dump, Graph.tree_ofDocument, if_pos (Graph.isFinite_ofDocument d)]
  cases jsonText pretty d <;> simp [Except.mapError]

theorem exists_dump_iff (yaml : YamlLibrary) (pretty : Bool) (d : Document) :
    (∃ cs, dump yaml .json pretty (.ofDocument d) = .ok cs) ↔ d.isWritable = true := by
  simp only [dump_json_eq_ok]
  cases pretty with
  | false => exact Json.exists_text_iff .compact d
  | true =>
    rw [← Json.exists_text_iff .pretty d]
    show (∃ cs, (· ++ ['\n']) <$> Json.text .pretty d = .ok cs) ↔ _
    exact Json.exists_map_iff

/-! ### What was put together -/

namespace Value

theorem entriesAreWritable_iff {es : Entries ρ} : entriesAreWritable es = true ↔
    ∀ entry ∈ es, entry.1.isWritableKey = true ∧ entry.2.isWritable = true := by
  induction es with
  | nil => exact iff_of_true rfl fun _ h => absurd h List.not_mem_nil
  | cons entry rest ih =>
    rw [entriesAreWritable, Bool.and_eq_true, Bool.and_eq_true, ih, List.forall_mem_cons]

theorem entriesAreWritable_insert {key : Text} {value : Value ρ} {es : Entries ρ}
    (hvalue : value.isWritable = true) (hes : entriesAreWritable es = true) :
    entriesAreWritable (Entries.insert (.text key) value es) = true := by
  rw [entriesAreWritable_iff] at hes ⊢
  intro entry hentry
  cases hcontains : Entries.contains key es with
  | true =>
    rw [Entries.insert_of_contains value hcontains] at hentry
    obtain ⟨old, hold, rfl⟩ := List.mem_map.1 hentry
    dsimp only
    split
    · next hkey => exact ⟨(hes old hold).1, hvalue⟩
    · exact hes old hold
  | false =>
    rw [Entries.insert_of_not_contains value hcontains] at hentry
    rcases List.mem_append.1 hentry with hold | hlast
    · exact hes entry hold
    · rw [List.mem_singleton.1 hlast]
      exact ⟨rfl, hvalue⟩

theorem congruence_isWritable :
    Congruence fun v w : Value ρ => v.isWritable = true → w.isWritable = true where
  refl _ := id
  trans huv hvw := hvw ∘ huv
  map {es fs} h := by
    rw [isWritable, isWritable]
    induction h with
    | nil => exact id
    | @cons e f es fs hef _ ih =>
      obtain ⟨key, v⟩ := e
      obtain ⟨_, w⟩ := f
      obtain ⟨rfl, hvalue⟩ := hef
      simp only [entriesAreWritable, Bool.and_eq_true]
      exact fun hes => ⟨⟨hes.1.1, hvalue hes.1.2⟩, ih hes.2⟩

section Subst

variable {f : ρ → Value σ}

mutual

/-- What can be written in the places of references changes nothing. -/
theorem isWritable_subst (hf : ∀ label, (f label).isWritable = true) : ∀ v : Value ρ,
    (v.subst f).isWritable = v.isWritable
  | .scalar _ => rfl
  | .list items => by rw [subst, isWritable, isWritable, itemsAreWritable_substItems hf items]
  | .map entries => by rw [subst, isWritable, isWritable, entriesAreWritable_substEntries hf entries]
  | .ref label => hf label

theorem itemsAreWritable_substItems (hf : ∀ label, (f label).isWritable = true) :
    ∀ items : List (Value ρ), itemsAreWritable (substItems f items) = itemsAreWritable items
  | [] => rfl
  | item :: rest => by
    rw [substItems, itemsAreWritable, itemsAreWritable, isWritable_subst hf item,
      itemsAreWritable_substItems hf rest]

theorem entriesAreWritable_substEntries (hf : ∀ label, (f label).isWritable = true) :
    ∀ entries : Entries ρ, entriesAreWritable (substEntries f entries) = entriesAreWritable entries
  | [] => rfl
  | (key, value) :: rest => by
    rw [substEntries, entriesAreWritable, entriesAreWritable, isWritable_subst hf value,
      entriesAreWritable_substEntries hf rest]

end

end Subst

theorem isWritable_ofDocument (d : Document) : (ofDocument d : Value ρ).isWritable = d.isWritable :=
  isWritable_subst (fun label => label.elim) d

theorem isWritable_written (v : Linked σ) : v.written.isWritable = v.isWritable := by
  refine isWritable_subst (fun label => ?_) v
  cases label <;> rfl

theorem isWritable_relabel (f : ρ → σ) (v : Value ρ) : (v.relabel f).isWritable = v.isWritable :=
  isWritable_subst (fun _ => rfl) v

theorem entriesAreWritable_entries {v : Value ρ} (h : v.isWritable = true) :
    entriesAreWritable v.entries = true := by
  cases v with
  | map es => exact h
  | _ => rfl

theorem entriesAreWritable_under {key : Text} {v : Value ρ} (h : entriesAreWritable v.entries = true) :
    entriesAreWritable (v.under key) = true := by
  rw [under]
  cases hget : Entries.get? key v.entries with
  | none => rfl
  | some inner =>
    exact entriesAreWritable_entries
      (entriesAreWritable_iff.1 h _ (Entries.mem_of_get?_eq_some hget)).2

theorem isWritable_assembled {mediaType : Text} {d : Document} {ws : List Document}
    {schemas : Entries Empty} (hd : d.isWritable = true)
    (hws : List.Forall₂ (fun body w => body.2.isWritable = true → w.isWritable = true)
      (d.bodies mediaType) ws) (hschemas : entriesAreWritable schemas = true) :
    (assembled mediaType d ws schemas : Document).isWritable = true := by
  have hentries := entriesAreWritable_entries hd
  have hfill := (Traversal.bodies mediaType).fill_related congruence_isWritable d ws hws hd
  rw [assembled, isWritable, ofDocument_self, substEntries_elim_self]
  exact entriesAreWritable_insert (entriesAreWritable_insert hschemas
    (entriesAreWritable_under hentries)) (entriesAreWritable_entries hfill)

end Value

end NamedSchemas
