import Mathlib.Data.List.Forall2
import NamedSchemas.Document.Bodies
import NamedSchemas.Proofs.Value.Subst
/-!
# Traversals

A traversal finds parts of a value, each with where it stands, in an order of its own, and puts
other values in their places. A visit of all parts, in whatever monad, is then a visit of the list
of parts, and what it leaves is the value with the results filled in.
-/

namespace NamedSchemas

/-- A preorder of values that goes through maps: it holds of maps with the same keys when it holds
of the values under every key. -/
structure Congruence {ρ : Type} (R : Value ρ → Value ρ → Prop) : Prop where
  refl : ∀ v, R v v
  trans : ∀ {u v w}, R u v → R v w → R u w
  map : ∀ {es fs : Entries ρ}, List.Forall₂ (fun e f => e.1 = f.1 ∧ R e.2 f.2) es fs →
    R (.map es) (.map fs)

/-- Parts of a value in order, each with where it stands, and how others are put in their places. -/
structure Traversal (ι : Type) where
  /-- The parts of a value. -/
  parts {ρ : Type} : Value ρ → List (ι × Value ρ)
  /-- The value with others in the places of its parts. -/
  fill {ρ : Type} : Value ρ → List (Value ρ) → Value ρ
  parts_fill {ρ : Type} : ∀ (v : Value ρ) (ws : List (Value ρ)), ws.length = (parts v).length →
    parts (fill v ws) = ((parts v).map Prod.fst).zip ws
  fill_parts {ρ : Type} : ∀ v : Value ρ, fill v ((parts v).map Prod.snd) = v
  parts_ofDocument {ρ : Type} : ∀ d : Document,
    parts (Value.ofDocument d : Value ρ) = (parts d).map fun part => (part.1, .ofDocument part.2)
  fill_subst {ρ σ : Type} : ∀ (f : ρ → Value σ) (d : Document) (ws : List (Value ρ)),
    ws.length = (parts d).length →
      (fill (.ofDocument d) ws).subst f = fill (.ofDocument d) (ws.map (Value.subst f))
  fill_related {ρ : Type} {R : Value ρ → Value ρ → Prop} : Congruence R →
    ∀ (v : Value ρ) (ws : List (Value ρ)), List.Forall₂ (fun part w => R part.2 w) (parts v) ws →
      R v (fill v ws)

namespace Traversal

variable {ι κ ρ σ : Type}

theorem length_parts_ofDocument (t : Traversal ι) (d : Document) :
    (t.parts (Value.ofDocument d : Value ρ)).length = (t.parts d).length := by
  rw [t.parts_ofDocument, List.length_map]

def skip : Traversal ι where
  parts _ := []
  fill v _ := v
  parts_fill _ _ _ := by rw [List.map_nil, List.zip_nil_left]
  fill_parts _ := rfl
  parts_ofDocument _ := rfl
  fill_subst f d _ _ := Value.ofDocument_subst f d
  fill_related hR v _ _ := hR.refl v

/-- The traversal whose one part is the whole. -/
def here (place : ι) : Traversal ι where
  parts v := [(place, v)]
  fill v ws := ws.headD v
  parts_fill v ws h := by
    match ws, h with
    | [w], _ => rfl
  fill_parts _ := rfl
  parts_ofDocument _ := rfl
  fill_subst f d ws h := by
    match ws, h with
    | [w], _ => rfl
  fill_related _ v ws h := by
    match ws, h with
    | [w], .cons hw _ => exact hw

/-- A traversal with places told from the places of another and from the value. -/
def mapPlaces (t : Traversal ι) (g : {ρ : Type} → Value ρ → ι → κ)
    (hfill : ∀ {ρ : Type} (v : Value ρ) ws, g (t.fill v ws) = g v)
    (hdocument : ∀ {ρ : Type} (d : Document), g (.ofDocument d : Value ρ) = g d) :
    Traversal κ where
  parts v := (t.parts v).map fun part => (g v part.1, part.2)
  fill := t.fill
  parts_fill v ws h := by
    rw [List.length_map] at h
    have hplaces : ((t.parts v).map fun part => (g v part.1, part.2)).map Prod.fst =
        ((t.parts v).map Prod.fst).map (g v) := by
      rw [List.map_map, List.map_map]
      rfl
    rw [t.parts_fill v ws h, hfill, hplaces]
    exact List.zip_map_left.symm
  fill_parts v := by
    rw [List.map_map]
    exact t.fill_parts v
  parts_ofDocument d := by
    rw [t.parts_ofDocument, hdocument, List.map_map, List.map_map]
    rfl
  fill_subst f d ws h := t.fill_subst f d ws (by rwa [List.length_map] at h)
  fill_related hR v ws h := by
    rw [List.forall₂_map_left_iff] at h
    exact t.fill_related hR v ws h

/-! ### Entries of a map -/

/-- When the values are side by side with some parts and then others, the first of them are so with
the former, and the rest with the latter. -/
theorem forall₂_take_drop {α β : Type} {R : α → β → Prop} {as bs : List α} {ws : List β}
    (h : List.Forall₂ R (as ++ bs) ws) :
    List.Forall₂ R as (ws.take as.length) ∧ List.Forall₂ R bs (ws.drop as.length) := by
  have htake := List.forall₂_take as.length h
  have hdrop := List.forall₂_drop as.length h
  rw [List.take_left] at htake
  rw [List.drop_left] at hdrop
  exact ⟨htake, hdrop⟩

section Phases

variable (late : Scalar → Bool) (t : Scalar → Traversal ι)

def phaseParts (phase : Bool) : Entries ρ → List (ι × Value ρ)
  | [] => []
  | (key, value) :: rest =>
    (if late key = phase then (t key).parts value else []) ++ phaseParts phase rest

/-- The entries of a map with others in the places of the parts that one phase finds. -/
def fillPhase (phase : Bool) : Entries ρ → List (Value ρ) → Entries ρ
  | [], _ => []
  | (key, value) :: rest, ws =>
    if late key = phase then
      (key, (t key).fill value (ws.take ((t key).parts value).length)) ::
        fillPhase phase rest (ws.drop ((t key).parts value).length)
    else (key, value) :: fillPhase phase rest ws

variable {late t}

theorem phaseParts_fillPhase_self (phase : Bool) (entries : Entries ρ) (ws : List (Value ρ))
    (h : ws.length = (phaseParts late t phase entries).length) :
    phaseParts late t phase (fillPhase late t phase entries ws) =
      ((phaseParts late t phase entries).map Prod.fst).zip ws := by
  induction entries generalizing ws with
  | nil => rfl
  | cons entry rest ih =>
    obtain ⟨key, value⟩ := entry
    by_cases hphase : late key = phase
    · simp only [phaseParts, hphase, if_true, List.length_append] at h
      have htake : (ws.take ((t key).parts value).length).length = ((t key).parts value).length := by
        rw [List.length_take]
        omega
      have hdrop : (ws.drop ((t key).parts value).length).length =
          (phaseParts late t phase rest).length := by
        rw [List.length_drop]
        omega
      simp only [fillPhase, phaseParts, hphase, if_true, (t key).parts_fill value _ htake,
        ih _ hdrop, List.map_append]
      rw [← List.zip_append (by rw [List.length_map, htake]), List.take_append_drop]
    · simp only [phaseParts, hphase, if_false, List.nil_append] at h ⊢
      simp only [fillPhase, phaseParts, hphase, if_false, List.nil_append, ih ws h]

theorem phaseParts_fillPhase_of_ne {phase other : Bool} (hne : other ≠ phase)
    (entries : Entries ρ) (ws : List (Value ρ)) :
    phaseParts late t other (fillPhase late t phase entries ws) =
      phaseParts late t other entries := by
  induction entries generalizing ws with
  | nil => rfl
  | cons entry rest ih =>
    obtain ⟨key, value⟩ := entry
    by_cases hphase : late key = phase
    · simp only [fillPhase, phaseParts, hphase, if_true, if_false, ih, hne.symm]
    · simp only [fillPhase, phaseParts, hphase, if_false, ih]

theorem fillPhase_phaseParts (phase : Bool) (entries : Entries ρ) :
    fillPhase late t phase entries ((phaseParts late t phase entries).map Prod.snd) = entries := by
  induction entries with
  | nil => rfl
  | cons entry rest ih =>
    obtain ⟨key, value⟩ := entry
    by_cases hphase : late key = phase
    · simp only [fillPhase, phaseParts, hphase, if_true, List.map_append]
      rw [List.take_left' (by rw [List.length_map]), List.drop_left' (by rw [List.length_map]),
        (t key).fill_parts, ih]
    · simp only [fillPhase, phaseParts, hphase, if_false, List.nil_append, ih]

theorem phaseParts_substEntries (phase : Bool) (entries : Entries Empty) :
    phaseParts late t phase (Value.substEntries (Empty.elim : Empty → Value ρ) entries) =
      (phaseParts late t phase entries).map fun part => (part.1, .ofDocument part.2) := by
  induction entries with
  | nil => rfl
  | cons entry rest ih =>
    obtain ⟨key, value⟩ := entry
    by_cases hphase : late key = phase
    · have hvalue := (t key).parts_ofDocument (ρ := ρ) value
      rw [Value.ofDocument] at hvalue
      simp only [Value.substEntries, phaseParts, hphase, if_true, List.map_append, ih, hvalue]
    · simp only [Value.substEntries, phaseParts, hphase, if_false, List.nil_append, ih]

/-- Substitution goes into what is filled in, when there is no other place for it. -/
theorem substEntries_fillPhase (f : ρ → Value σ) (phase : Bool) (entries : Entries ρ)
    (ws : List (Value ρ))
    (hplain : ∀ entry ∈ entries, late entry.1 = phase → ∃ d : Document, entry.2 = .ofDocument d)
    (h : ws.length = (phaseParts late t phase entries).length) :
    Value.substEntries f (fillPhase late t phase entries ws) =
      fillPhase late t phase (Value.substEntries f entries) (ws.map (Value.subst f)) := by
  induction entries generalizing ws with
  | nil => rfl
  | cons entry rest ih =>
    obtain ⟨key, value⟩ := entry
    have hrest := fun entry hentry => hplain entry (List.mem_cons_of_mem _ hentry)
    by_cases hphase : late key = phase
    · obtain ⟨d, rfl⟩ := hplain (key, value) (by simp) hphase
      have hlength := (t key).length_parts_ofDocument (ρ := ρ) d
      simp only [phaseParts, hphase, if_true, List.length_append, hlength] at h
      have htake : (ws.take ((t key).parts d).length).length = ((t key).parts d).length := by
        rw [List.length_take]
        omega
      have hdrop : (ws.drop ((t key).parts d).length).length =
          (phaseParts late t phase rest).length := by
        rw [List.length_drop]
        omega
      simp only [fillPhase, Value.substEntries, hphase, if_true, hlength,
        (t key).fill_subst f d _ htake, ih _ hrest hdrop, Value.ofDocument_subst,
        (t key).length_parts_ofDocument (ρ := σ) d, List.map_take, List.map_drop]
    · simp only [phaseParts, hphase, if_false, List.nil_append] at h
      simp only [fillPhase, Value.substEntries, hphase, if_false, ih ws hrest h]

theorem mem_fillPhase_of_ne {phase : Bool} {entries : Entries ρ} {ws : List (Value ρ)}
    {entry : Scalar × Value ρ} (h : entry ∈ fillPhase late t phase entries ws)
    (hne : late entry.1 ≠ phase) : entry ∈ entries := by
  induction entries generalizing ws with
  | nil => exact h
  | cons first rest ih =>
    obtain ⟨key, value⟩ := first
    by_cases hphase : late key = phase
    · simp only [fillPhase, hphase, if_true] at h
      rcases List.mem_cons.1 h with rfl | h
      · exact absurd hphase hne
      · exact List.mem_cons_of_mem _ (ih h)
    · simp only [fillPhase, hphase, if_false] at h
      rcases List.mem_cons.1 h with rfl | h
      · exact List.mem_cons_self ..
      · exact List.mem_cons_of_mem _ (ih h)

variable (late t) in
/-- The parts of the entries of a map: first those in entries that are not late. -/
def entryParts (entries : Entries ρ) : List (ι × Value ρ) :=
  phaseParts late t false entries ++ phaseParts late t true entries

variable (late t) in
def fillEntries (entries : Entries ρ) (ws : List (Value ρ)) : Entries ρ :=
  fillPhase late t true
    (fillPhase late t false entries (ws.take (phaseParts late t false entries).length))
    (ws.drop (phaseParts late t false entries).length)

theorem entryParts_fillEntries (entries : Entries ρ) (ws : List (Value ρ))
    (h : ws.length = (entryParts late t entries).length) :
    entryParts late t (fillEntries late t entries ws) =
      ((entryParts late t entries).map Prod.fst).zip ws := by
  rw [entryParts, List.length_append] at h
  have htake : (ws.take (phaseParts late t false entries).length).length =
      (phaseParts late t false entries).length := by
    rw [List.length_take]
    omega
  have hdrop : (ws.drop (phaseParts late t false entries).length).length =
      (phaseParts late t true entries).length := by
    rw [List.length_drop]
    omega
  have hearly := phaseParts_fillPhase_self false entries _ htake
  have hlate : phaseParts late t true (fillPhase late t false entries
      (ws.take (phaseParts late t false entries).length)) = phaseParts late t true entries :=
    phaseParts_fillPhase_of_ne (by decide) entries _
  rw [entryParts, fillEntries, phaseParts_fillPhase_of_ne (show false ≠ true by decide), hearly,
    phaseParts_fillPhase_self true _ _ (by rw [hlate, hdrop]), hlate, entryParts, List.map_append,
    ← List.zip_append (by rw [List.length_map, htake]), List.take_append_drop]

theorem fillEntries_entryParts (entries : Entries ρ) :
    fillEntries late t entries ((entryParts late t entries).map Prod.snd) = entries := by
  rw [fillEntries, entryParts, List.map_append, List.take_left' (by rw [List.length_map]),
    List.drop_left' (by rw [List.length_map]), fillPhase_phaseParts, fillPhase_phaseParts]

theorem substEntries_fillEntries (f : ρ → Value σ) (entries : Entries Empty) (ws : List (Value ρ))
    (h : ws.length = (entryParts late t entries).length) :
    Value.substEntries f (fillEntries late t (Value.substEntries Empty.elim entries) ws) =
      fillEntries late t (Value.substEntries Empty.elim entries) (ws.map (Value.subst f)) := by
  rw [entryParts, List.length_append] at h
  have hlength : ∀ (τ : Type) phase, (phaseParts late t phase
      (Value.substEntries (Empty.elim : Empty → Value τ) entries)).length =
      (phaseParts late t phase entries).length := by
    intro τ phase
    rw [phaseParts_substEntries, List.length_map]
  have hplain : ∀ entry ∈ Value.substEntries (Empty.elim : Empty → Value ρ) entries,
      ∃ d : Document, entry.2 = .ofDocument d := by
    intro entry hentry
    rw [Value.substEntries_eq_map] at hentry
    obtain ⟨original, -, rfl⟩ := List.mem_map.1 hentry
    exact ⟨original.2, rfl⟩
  have htake : (ws.take (phaseParts late t false entries).length).length =
      (phaseParts late t false entries).length := by
    rw [List.length_take]
    omega
  have hdrop : (ws.drop (phaseParts late t false entries).length).length =
      (phaseParts late t true entries).length := by
    rw [List.length_drop]
    omega
  rw [fillEntries, fillEntries, hlength ρ, hlength σ, substEntries_fillPhase f true,
    substEntries_fillPhase f false, Value.substEntries_elim, List.map_take, List.map_drop]
  · exact fun entry hentry _ => hplain entry hentry
  · rw [htake, hlength]
  · intro entry hentry hlate
    exact hplain entry (mem_fillPhase_of_ne hentry (by rw [hlate]; decide))
  · rw [phaseParts_fillPhase_of_ne (by decide), hdrop, hlength]

/-- Every entry is filled in on its own. -/
theorem forall₂_fillEntries {Q : Value ρ → Value ρ → Prop} {es : Entries ρ} {ws : List (Value ρ)}
    (h : List.Forall₂ (fun part w => Q part.2 w) (entryParts late t es) ws) :
    List.Forall₂ (fun e f => e.1 = f.1 ∧ ∃ vs,
      List.Forall₂ (fun part w => Q part.2 w) ((t e.1).parts e.2) vs ∧ (t e.1).fill e.2 vs = f.2)
        es (fillEntries late t es ws) := by
  -- the phases take turns along the entries, so both go on with what is left of their values
  have hphases : ∀ early behind,
      List.Forall₂ (fun part w => Q part.2 w) (phaseParts late t false es) early →
      List.Forall₂ (fun part w => Q part.2 w) (phaseParts late t true es) behind →
      List.Forall₂ (fun e f => e.1 = f.1 ∧ ∃ vs,
        List.Forall₂ (fun part w => Q part.2 w) ((t e.1).parts e.2) vs ∧ (t e.1).fill e.2 vs = f.2)
          es (fillPhase late t true (fillPhase late t false es early) behind) := by
    clear h
    induction es with
    | nil => exact fun _ _ _ _ => .nil
    | cons entry rest ih =>
      obtain ⟨key, value⟩ := entry
      intro early behind hearly hbehind
      cases hlate : late key with
      | false =>
        simp only [phaseParts, hlate, if_true, Bool.false_eq_true, if_false, List.nil_append]
          at hearly hbehind
        obtain ⟨hhere, hrest⟩ := forall₂_take_drop hearly
        simp only [fillPhase, hlate, if_true, Bool.false_eq_true, if_false]
        exact .cons ⟨rfl, _, hhere, rfl⟩ (ih _ _ hrest hbehind)
      | true =>
        simp only [phaseParts, hlate, if_true, Bool.true_eq_false, if_false, List.nil_append]
          at hearly hbehind
        obtain ⟨hhere, hrest⟩ := forall₂_take_drop hbehind
        simp only [fillPhase, hlate, if_true, Bool.true_eq_false, if_false]
        exact .cons ⟨rfl, _, hhere, rfl⟩ (ih _ _ hearly hrest)
  obtain ⟨hearly, hbehind⟩ := forall₂_take_drop h
  exact hphases _ _ hearly hbehind

theorem related_fillEntries {R : Value ρ → Value ρ → Prop} (hR : Congruence R) {es : Entries ρ}
    {ws : List (Value ρ)} (h : List.Forall₂ (fun part w => R part.2 w) (entryParts late t es) ws) :
    R (.map es) (.map (fillEntries late t es ws)) := by
  refine hR.map ((forall₂_fillEntries h).imp fun e f hef => ⟨hef.1, ?_⟩)
  obtain ⟨vs, hvs, hfill⟩ := hef.2
  exact hfill ▸ (t e.1).fill_related hR e.2 vs hvs

theorem get?_fillPhase {key : Text} (hskip : t (.text key) = skip) (phase : Bool)
    (entries : Entries ρ) (ws : List (Value ρ)) :
    Entries.get? key (fillPhase late t phase entries ws) = Entries.get? key entries := by
  induction entries generalizing ws with
  | nil => rfl
  | cons entry rest ih =>
    obtain ⟨k, value⟩ := entry
    by_cases hphase : late k = phase
    · simp only [fillPhase, hphase, if_true, Entries.get?_cons, ih]
      split
      · next hk => rw [hk, hskip]; rfl
      · rfl
    · simp only [fillPhase, hphase, if_false, Entries.get?_cons, ih]

theorem get?_fillEntries {key : Text} (hskip : t (.text key) = skip) (entries : Entries ρ)
    (ws : List (Value ρ)) :
    Entries.get? key (fillEntries late t entries ws) = Entries.get? key entries := by
  rw [fillEntries, get?_fillPhase hskip, get?_fillPhase hskip]

variable (late t) in
/-- The traversal of a map that goes into its entries, each in its own way: first into those that
are not late, then into the late ones. -/
def entries : Traversal ι where
  parts
    | .map es => entryParts late t es
    | _ => []
  fill
    | .map es, ws => .map (fillEntries late t es ws)
    | v, _ => v
  parts_fill v ws h := by
    cases v with
    | map es => exact entryParts_fillEntries es ws h
    | scalar s => rfl
    | list items => rfl
    | ref label => rfl
  fill_parts v := by
    cases v with
    | map es => exact congrArg Value.map (fillEntries_entryParts es)
    | scalar s => rfl
    | list items => rfl
    | ref label => rfl
  parts_ofDocument d := by
    cases d with
    | map es =>
      show entryParts late t (Value.substEntries Empty.elim es) = _
      rw [entryParts, phaseParts_substEntries, phaseParts_substEntries, ← List.map_append]
      rfl
    | scalar s => rfl
    | list items => rfl
    | ref label => exact label.elim
  fill_subst f d ws h := by
    cases d with
    | map es => exact congrArg Value.map (substEntries_fillEntries f es ws h)
    | scalar s => rfl
    | list items =>
      exact Value.ofDocument_subst f (.list items)
    | ref label => exact label.elim
  fill_related hR v ws h := by
    cases v with
    | map es => exact related_fillEntries hR h
    | scalar s => exact hR.refl _
    | list items => exact hR.refl _
    | ref label => exact hR.refl _

end Phases

/-! ### Visits -/

section Visits

variable {m : Type → Type} [Monad m] [LawfulMonad m]

private theorem mapM_bind_congr {α β γ : Type} {xs : List α} {f : α → m β} {g h : List β → m γ}
    (heq : ∀ ys, ys.length = xs.length → g ys = h ys) : xs.mapM f >>= g = xs.mapM f >>= h := by
  induction xs generalizing g h with
  | nil => simp only [List.mapM_nil, pure_bind, heq [] rfl]
  | cons x xs ih =>
    simp only [List.mapM_cons, bind_assoc, pure_bind]
    congr 1
    funext y
    exact ih fun ys hys => heq (y :: ys) (by rw [List.length_cons, hys, List.length_cons])

/-- The value that is left when every part of a value is visited, in order. -/
def visit (t : Traversal ι) (f : Value ρ → ι → m (Value ρ)) (v : Value ρ) : m (Value ρ) :=
  t.fill v <$> (t.parts v).mapM fun part => f part.2 part.1

theorem visit_of_parts_eq_nil {t : Traversal ι} {v : Value ρ} (h : t.parts v = [])
    (f : Value ρ → ι → m (Value ρ)) : t.visit f v = pure v := by
  have hfill := t.fill_parts v
  rw [h, List.map_nil] at hfill
  rw [visit, h, List.mapM_nil, map_pure, hfill]

theorem visit_skip (f : Value ρ → ι → m (Value ρ)) (v : Value ρ) :
    (skip : Traversal ι).visit f v = pure v := visit_of_parts_eq_nil rfl f

theorem visit_here (place : ι) (f : Value ρ → ι → m (Value ρ)) (v : Value ρ) :
    (here place).visit f v = f v place := by
  simp only [visit, here, List.mapM_cons, List.mapM_nil, pure_bind, map_eq_pure_bind, bind_assoc,
    List.headD_cons, bind_pure]

variable (late : Scalar → Bool) (t : Scalar → Traversal ι)

def visitPhase (f : Value ρ → ι → m (Value ρ)) (phase : Bool) (entries : Entries ρ) :
    m (Entries ρ) :=
  entries.mapM fun entry =>
    if late entry.1 = phase then do pure (entry.1, ← (t entry.1).visit f entry.2) else pure entry

private theorem visitPhase_eq (f : Value ρ → ι → m (Value ρ)) (phase : Bool) (entries : Entries ρ) :
    visitPhase late t f phase entries = fillPhase late t phase entries <$>
      (phaseParts late t phase entries).mapM fun part => f part.2 part.1 := by
  induction entries with
  | nil => simp only [visitPhase, phaseParts, List.mapM_nil, map_pure, fillPhase]
  | cons entry rest ih =>
    obtain ⟨key, value⟩ := entry
    rw [visitPhase] at ih
    by_cases hphase : late key = phase
    · rw [visitPhase, List.mapM_cons, ih]
      simp only [visit, hphase, if_true, phaseParts, fillPhase, List.mapM_append,
        map_eq_pure_bind, bind_assoc, pure_bind]
      refine mapM_bind_congr fun early hearly => ?_
      congr 1
      funext ws
      rw [List.take_left' hearly, List.drop_left' hearly]
    · rw [visitPhase, List.mapM_cons, ih]
      simp only [hphase, if_false, phaseParts, List.nil_append, fillPhase, map_eq_pure_bind,
        bind_assoc, pure_bind]

/-- The entries of a map are visited in two phases. -/
theorem visit_entries (f : Value ρ → ι → m (Value ρ)) (es : Entries ρ) :
    (entries late t).visit f (.map es) =
      Value.map <$> (visitPhase late t f false es >>= visitPhase late t f true) := by
  show (fun ws => Value.map (fillEntries late t es ws)) <$>
    (entryParts late t es).mapM (fun part => f part.2 part.1) = _
  simp only [visitPhase_eq, entryParts, List.mapM_append, map_eq_pure_bind, bind_assoc, pure_bind]
  refine mapM_bind_congr fun early hearly => ?_
  rw [phaseParts_fillPhase_of_ne (by decide)]
  congr 1
  funext ws
  rw [fillEntries, List.take_left' hearly, List.drop_left' hearly]

end Visits

end Traversal

end NamedSchemas
