import NamedSchemas.Proofs.Naming.Characters
/-!
# Contexts that tell something

The parts of a name may all be missing, or hold nothing but signs that are left out. Then the name
is the empty text. In every other case it is not empty, and a component can have it as its key.
-/

namespace NamedSchemas

theorem CodePoint.upper_ne_nil (p : CodePoint) : p.upper ≠ [] := by
  rw [upper]
  split
  · exact List.cons_ne_nil _ _
  · have hletters : ∀ entry ∈ asciiUppers, Text.ofString entry.2 ≠ [] := by decide
    split
    · next hfind => exact hletters _ (List.mem_of_find?_eq_some hfind)
    · exact List.cons_ne_nil _ _

namespace Text

theorem upperFirst_ne_nil {t : Text} (h : t ≠ []) : t.upperFirst ≠ [] := by
  cases t with
  | nil => exact absurd rfl h
  | cons p rest => exact fun heq => p.upper_ne_nil (List.append_eq_nil_iff.1 heq).1

theorem split_of_not_mem {separator : CodePoint} {t : Text} (h : separator ∉ t) :
    split separator t = [t] := by
  induction t with
  | nil => rfl
  | cons p rest ih =>
    rw [List.mem_cons, not_or] at h
    rw [split, if_neg (Ne.symm h.1), ih h.2]

theorem split_ne_nil (separator : CodePoint) (t : Text) : split separator t ≠ [] := by
  cases t with
  | nil => exact List.cons_ne_nil _ _
  | cons p rest =>
    rw [split]
    split
    · exact List.cons_ne_nil _ _
    · split <;> exact List.cons_ne_nil _ _

theorem split_append_cons (separator : CodePoint) (t rest : Text) :
    split separator (t ++ separator :: rest) = split separator t ++ split separator rest := by
  induction t with
  | nil => simp only [List.nil_append, split, if_true, List.singleton_append]
  | cons p t ih =>
    rw [List.cons_append, split, split, ih]
    split
    · rfl
    · obtain ⟨part, parts, hparts⟩ := List.exists_cons_of_ne_nil (split_ne_nil separator t)
      rw [hparts]
      rfl

theorem split_append {separator : CodePoint} {part : Text} (h : separator ∉ part) (rest : Text) :
    split separator (part ++ separator :: rest) = part :: split separator rest := by
  rw [split_append_cons, split_of_not_mem h, List.singleton_append]

theorem mem_join_of_mem {separator part : Text} {parts : List Text} (hpart : part ∈ parts)
    {p : CodePoint} (hp : p ∈ part) : p ∈ join separator parts := by
  induction parts with
  | nil => cases hpart
  | cons first rest ih =>
    cases rest with
    | nil =>
      rw [List.mem_singleton.1 hpart] at hp
      rwa [join, List.intercalate, List.intersperse, List.flatten_cons, List.flatten_nil,
        List.append_nil]
    | cons second rest =>
      rw [join_cons_cons]
      rcases List.mem_cons.1 hpart with rfl | hpart
      · exact List.mem_append_left _ hp
      · exact List.mem_append_right _ (List.mem_append_right _ (ih hpart))

end Text

namespace Naming

/-- Does a piece of a text leave something in a name? Its first letter is capitalised, and the
letters and digits of ASCII are kept. -/
def contributes (piece : Text) : Bool := piece.upperFirst.any CodePoint.isAlnum

theorem cleaned_eq_nil_iff {t : Text} : cleaned t = [] ↔ t.any CodePoint.isAlnum = false := by
  rw [cleaned, List.filter_eq_nil_iff, List.any_eq_false]

theorem segmentsOfPart_eq_nil_iff {part : Text} :
    segmentsOfPart part = [] ↔ (part.split '.').any contributes = false := by
  rw [segmentsOfPart, List.filterMap_eq_nil_iff, List.any_eq_false]
  refine forall₂_congr fun piece _ => ?_
  rw [contributes, Bool.not_eq_true, ← cleaned_eq_nil_iff]
  cases cleaned piece.upperFirst with
  | nil => exact ⟨fun _ => rfl, fun _ => rfl⟩
  | cons p rest => exact iff_of_false (fun h => nomatch h) (List.cons_ne_nil _ _)

theorem ne_nil_of_mem_segmentsOfPart {part segment : Text} (h : segment ∈ segmentsOfPart part) :
    segment ≠ [] := by
  obtain ⟨piece, -, hpiece⟩ := List.mem_filterMap.1 h
  split at hpiece
  · cases hpiece
  · next hne =>
    cases Option.some.inj hpiece
    exact Text.upperFirst_ne_nil hne

theorem segmentsOfPart_titled_eq_nil_iff {element : Text} :
    segmentsOfPart (titled element) = [] ↔ (element.split '-').any contributes = false := by
  have hpieces : ((element.split '-').flatMap Text.upperFirst).any CodePoint.isAlnum =
      (element.split '-').any contributes := by
    rw [List.any_flatMap]
    rfl
  have halnum : ∀ p ∈ titled element, p.isAlnum = true := fun p hp =>
    Text.isAlnum_of_mem_upperFirst (fun q hq => isAlnum_of_mem_cleaned hq) hp
  have hdot : CodePoint.ofChar '.' ∉ titled element := by
    intro hmem
    have hpoint := halnum _ hmem
    revert hpoint
    decide
  rw [segmentsOfPart_eq_nil_iff, Text.split_of_not_mem hdot, List.any_cons, List.any_nil,
    Bool.or_false, ← hpieces, ← cleaned_eq_nil_iff]
  cases hcleaned : cleaned ((element.split '-').flatMap Text.upperFirst) with
  | nil =>
    have hempty : titled element = [] := by
      rw [titled, hcleaned]
      rfl
    rw [hempty]
    exact iff_of_true rfl rfl
  | cons q rest =>
    have hne : titled element ≠ [] := by
      rw [titled, hcleaned]
      exact Text.upperFirst_ne_nil (List.cons_ne_nil _ _)
    obtain ⟨p, hp⟩ := List.exists_mem_of_ne_nil _ (Text.upperFirst_ne_nil hne)
    have hcontributes : contributes (titled element) = true :=
      List.any_eq_true.2 ⟨p, hp, Text.isAlnum_of_mem_upperFirst halnum hp⟩
    rw [hcontributes]
    exact iff_of_false (by decide) (List.cons_ne_nil _ _)

end Naming

namespace Context

open Naming

/-- Is there something in a context that its name can be made of? It is that of a payload, or
something is left of the operation, of a status other than success, or of an element of the path. -/
def tells (c : Context) : Bool :=
  c.isPayload || ((c.operationId.getD []).split '.').any contributes ||
    ((statusPart c.status).split '.').any contributes ||
    match c.pathText with
    | .ok path => (elements path).any fun element => (element.split '-').any contributes
    | .error _ => false

theorem segments_eq_nil_iff {c : Context} {path : Text} (hpath : c.pathText = .ok path) :
    (parts c path).flatMap segmentsOfPart = [] ↔ c.tells = false := by
  have hpayload : segmentsOfPart (if c.isPayload = true then payloadMark else []) = [] ↔
      c.isPayload = false := by
    cases c.isPayload <;> decide
  have helements : (∀ element ∈ elements path, segmentsOfPart (titled element) = []) ↔
      ((elements path).any fun element => (element.split '-').any contributes) = false := by
    rw [List.any_eq_false]
    refine forall₂_congr fun element _ => ?_
    rw [segmentsOfPart_titled_eq_nil_iff, Bool.not_eq_true]
  rw [tells, hpath, parts, List.flatMap_cons, List.flatMap_cons, List.flatMap_cons,
    List.flatMap_map]
  simp only [List.append_eq_nil_iff, List.flatMap_eq_nil_iff, Bool.or_eq_false_iff, helements,
    hpayload]
  rw [segmentsOfPart_eq_nil_iff, segmentsOfPart_eq_nil_iff, and_left_comm, and_assoc, and_assoc]

/-- The name of a context is empty just when the context tells nothing. -/
theorem name_eq_nil_iff {c : Context} {name : Text} (h : c.name = .ok name) :
    name = [] ↔ c.tells = false := by
  obtain ⟨path, hpath, rfl⟩ := name_eq_ok.1 h
  rw [← segments_eq_nil_iff hpath]
  cases hsegments : (parts c path).flatMap segmentsOfPart with
  | nil => exact iff_of_true rfl rfl
  | cons first rest =>
    refine iff_of_false (fun hempty => ?_) (List.cons_ne_nil _ _)
    have hfirst : first ∈ (parts c path).flatMap segmentsOfPart := by
      rw [hsegments]
      exact List.mem_cons_self ..
    obtain ⟨part, -, hpart⟩ := List.mem_flatMap.1 hfirst
    obtain ⟨p, hp⟩ := List.exists_mem_of_ne_nil _ (ne_nil_of_mem_segmentsOfPart hpart)
    have hmem : p ∈ Text.join "." (generalisedTail (first :: rest)) :=
      Text.mem_join_of_mem (List.mem_cons_self ..) hp
    rw [hempty] at hmem
    cases hmem

end Context

/-! ### Keys of components -/

/-- Is the code point one of those that the keys of components are made of? -/
def CodePoint.isKeyPoint (p : CodePoint) : Bool := p.isAlnum || p = '.' || p = '-' || p = '_'

/-- Can a component have the text as its key? -/
def Text.isComponentKey (t : Text) : Bool := !t.isEmpty && t.all CodePoint.isKeyPoint

/-- The name of a context is the key of a component, unless the context tells nothing. -/
theorem Context.isComponentKey_name_iff {c : Context} {name : Text} (h : c.name = .ok name) :
    name.isComponentKey = true ↔ c.tells = true := by
  have hpoints : name.all CodePoint.isKeyPoint = true := by
    rw [List.all_eq_true]
    intro p hp
    have hpoint := isNamePoint_of_mem_name h p hp
    rw [CodePoint.isNamePoint, Bool.or_eq_true] at hpoint
    rw [CodePoint.isKeyPoint, Bool.or_eq_true, Bool.or_eq_true, Bool.or_eq_true]
    exact Or.inl (Or.inl hpoint)
  rw [Text.isComponentKey, hpoints, Bool.and_true, Bool.not_eq_true', ← Bool.not_eq_false,
    ← name_eq_nil_iff h, List.isEmpty_eq_false_iff]

end NamedSchemas
