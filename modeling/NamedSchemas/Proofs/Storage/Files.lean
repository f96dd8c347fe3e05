import NamedSchemas.Proofs.Table
import NamedSchemas.Storage.FileTree
/-!
# Files in a tree

To write a file is to change its content and nothing else. Whether a path leads anywhere can be
told, unless the path or one of its components is too long.
-/

namespace NamedSchemas

/-- Neither the path nor a component of it has too many octets. -/
def Path.IsShort (path : Path) : Prop :=
  octetCount path.text < FileTree.pathLimit ∧
    ∀ part ∈ path.parts, octetCount part ≤ FileTree.componentLimit

instance : DecidablePred Path.IsShort := fun path => inferInstanceAs
  (Decidable (Path.octetCount path.text < FileTree.pathLimit ∧
    ∀ part ∈ path.parts, Path.octetCount part ≤ FileTree.componentLimit))

namespace FileTree

variable {t u : FileTree} {path : Path} {content : List UInt8} {place : Place}

/-! ### Where paths lead -/

/-- The path leads to a file or to a directory. -/
def Has (t : FileTree) (path : Path) : Prop := ∃ place, t.resolve path = .ok place ∧
  (t.isDirectory place || (t.content? place).isSome) = true

/-- On the way along the path something is too long for a name. -/
def TooLong (t : FileTree) (path : Path) : Prop :=
  ∃ other, t.resolve path = .error (.nameTooLong other)

theorem present_eq_true : t.present path = .ok true ↔ t.Has path := by
  rw [present, Has]
  cases t.resolve path with
  | ok place => simp
  | error fault => cases fault <;> simp

theorem not_has_of_present (h : t.present path = .ok false) : ¬ t.Has path := by
  intro hhas
  rw [present_eq_true.2 hhas] at h
  cases h

/-- No component of a path stops the way along it for its length. -/
theorem follow_ne_nameTooLong {parts : List Text}
    (h : ∀ part ∈ parts, Path.octetCount part ≤ componentLimit) (other : Path) :
    t.follow path place parts ≠ .error (.nameTooLong other) := by
  -- by induction on what is left of the path, from whatever place has been reached
  induction parts generalizing place with
  | nil => exact fun heq => by cases heq
  | cons part rest ih =>
    rw [List.forall_mem_cons] at h
    rw [follow, if_neg (Nat.not_lt.2 h.1)]
    split
    · cases step place part with
      | some next => exact ih h.2
      | none => exact fun heq => by cases heq
    · split <;> exact fun heq => by cases heq

theorem not_tooLong (h : path.IsShort) : ¬ t.TooLong path := by
  rintro ⟨other, hresolve⟩
  rw [resolve] at hresolve
  split at hresolve
  · cases hresolve
  · rw [if_neg (Nat.not_le.2 h.1)] at hresolve
    split at hresolve
    · cases hresolve
    · exact follow_ne_nameTooLong h.2 other hresolve

/-- It cannot be told whether a path that is too long leads anywhere, and of all others it can. -/
theorem exists_present : (∃ answer, t.present path = .ok answer) ↔ ¬ t.TooLong path := by
  rw [present, TooLong]
  cases t.resolve path with
  | ok place => simp
  | error fault => cases fault <;> simp

/-! ### Writing -/

theorem run_write (t : FileTree) (path : Path) (content : List UInt8) :
    (access.write path content).run t =
      match t.write path content with
      | .ok u => (.ok (), u)
      | .error fault => (.error fault, t) := by
  show (match t.write path content with
    | .ok u => (do set u; pure (.ok ()) : StateM FileTree (Except FileFault Unit))
    | .error fault => pure (.error fault)).run t = _
  cases t.write path content <;> rfl

/-- The file at the place has the content, and all else is as it was. The null device takes
everything and stays empty. -/
structure Written (place : Place) (content : List UInt8) (t u : FileTree) : Prop where
  directories : u.directories = t.directories
  content : place ≠ nullDevice → u.content? place = some content
  others : ∀ other, other ≠ place → u.content? other = t.content? other

theorem written_put (h : t.put content place = some u) : Written place content t u := by
  rw [put.eq_def] at h
  split at h
  · next parts =>
    rw [← Option.some.inj h]
    refine ⟨rfl, fun _ => Table.get?_insert_self _ _ _, fun other hother => ?_⟩
    match other, hother with
    | .below others, hother =>
      exact Table.get?_insert_of_ne _ _ fun heq => hother (congrArg Place.below heq)
    | .above, _ => rfl
    | .fromRoot _, _ => rfl
  · split at h
    · next hnull =>
      cases h
      exact ⟨rfl, fun hne => absurd hnull hne, fun _ _ => rfl⟩
    · cases h

theorem written_of_write (h : t.write path content = .ok u) :
    ∃ place, t.resolve path = .ok place ∧ Written place content t u := by
  rw [write] at h
  split at h
  · cases h
  next place hplace =>
  split at h
  · cases h
  split at h
  · next hput =>
    cases h
    exact ⟨place, hplace, written_put hput⟩
  · cases h

end FileTree

end NamedSchemas
