import Mathlib.Data.List.Basic
import NamedSchemas.Proofs.Naming.Telling
/-!
# The language of names

A name is a list of segments with dots between them. A segment is made of ASCII letters and digits
and starts with a capital or a digit, and none after the first ends in `Id`. Every such list is the
name of some context, and an operation that is called by such a name has it as its name.
-/

namespace NamedSchemas

namespace Naming

/-- Is the text a segment, a capital or a digit before any number of letters and digits? -/
def isSegment : Text → Bool
  | [] => false
  | first :: rest => (first.isUpper || first.isDigit) && rest.all CodePoint.isAlnum

/-- Are the texts the segments of a name? None after the first may end in `Id`. -/
def areNameSegments : List Text → Bool
  | [] => true
  | first :: rest => isSegment first && rest.all fun s => isSegment s && !Text.endsWith "Id" s

end Naming

namespace CodePoint

theorem isAlnum_of_isUpper_or_isDigit {p : CodePoint} (h : (p.isUpper || p.isDigit) = true) :
    p.isAlnum = true := by
  rw [Bool.or_eq_true] at h
  rw [isAlnum, Bool.or_eq_true, Bool.or_eq_true]
  exact Or.inl h.symm

theorem isLower_eq_false_of_isUpper_or_isDigit {p : CodePoint} (h : (p.isUpper || p.isDigit) = true) :
    p.isLower = false := by
  simp only [isUpper, isDigit, Bool.or_eq_true, Bool.and_eq_true, decide_eq_true_eq] at h
  simp only [isLower, Bool.and_eq_false_iff, decide_eq_false_iff_not]
  omega

/-- The upper case of an ASCII letter or digit can start a segment. -/
theorem exists_upper_eq_singleton {p : CodePoint} (h : p.isAlnum = true) :
    ∃ q, p.upper = [q] ∧ (q.isUpper || q.isDigit) = true := by
  cases hlower : p.isLower with
  | true =>
    refine ⟨_, by rw [upper, if_pos hlower], ?_⟩
    simp only [isLower, Bool.and_eq_true, decide_eq_true_eq] at hlower
    simp only [isUpper, Bool.or_eq_true, Bool.and_eq_true, decide_eq_true_eq]
    omega
  | false =>
    refine ⟨p, upper_of_isLower_eq_false h hlower, ?_⟩
    simp only [isAlnum, hlower, Bool.or_false] at h
    rwa [Bool.or_comm]

end CodePoint

/-! ### Segments -/

namespace Naming

theorem isSegment_upperFirst {t : Text} (hne : t ≠ []) (ht : ∀ p ∈ t, p.isAlnum = true) :
    isSegment t.upperFirst = true := by
  obtain ⟨p, rest, rfl⟩ := List.exists_cons_of_ne_nil hne
  obtain ⟨q, hupper, hq⟩ := CodePoint.exists_upper_eq_singleton (ht p (List.mem_cons_self ..))
  rw [Text.upperFirst, hupper, List.singleton_append, isSegment, hq, Bool.true_and, List.all_eq_true]
  exact fun r hr => ht r (List.mem_cons_of_mem p hr)

theorem isSegment_of_mem_segmentsOfPart {part segment : Text} (h : segment ∈ segmentsOfPart part) :
    isSegment segment = true := by
  obtain ⟨piece, -, hpiece⟩ := List.mem_filterMap.1 h
  split at hpiece
  · cases hpiece
  · next hne =>
    cases Option.some.inj hpiece
    exact isSegment_upperFirst hne fun q hq => isAlnum_of_mem_cleaned hq

theorem isSegment_generalised {segment : Text} (h : isSegment segment = true) :
    (isSegment (generalised segment) && !Text.endsWith "Id" (generalised segment)) = true := by
  rw [generalised]
  split
  · decide
  · next hends => rw [h, Bool.true_and, Bool.not_eq_true', ← Bool.not_eq_true]; exact hends

theorem areNameSegments_generalisedTail {segments : List Text}
    (h : ∀ segment ∈ segments, isSegment segment = true) :
    areNameSegments (generalisedTail segments) = true := by
  cases segments with
  | nil => rfl
  | cons first rest =>
    rw [generalisedTail, areNameSegments, h first (List.mem_cons_self ..), Bool.true_and,
      List.all_map, List.all_eq_true]
    exact fun segment hsegment => isSegment_generalised (h segment (List.mem_cons_of_mem _ hsegment))

theorem isSegment_of_mem {segments : List Text} (h : areNameSegments segments = true) {segment : Text}
    (hsegment : segment ∈ segments) : isSegment segment = true := by
  cases segments with
  | nil => cases hsegment
  | cons first rest =>
    rw [areNameSegments, Bool.and_eq_true, List.all_eq_true] at h
    rcases List.mem_cons.1 hsegment with rfl | hrest
    · exact h.1
    · exact (Bool.and_eq_true _ _ ▸ h.2 segment hrest).1

theorem generalisedTail_of_areNameSegments {segments : List Text}
    (h : areNameSegments segments = true) : generalisedTail segments = segments := by
  cases segments with
  | nil => rfl
  | cons first rest =>
    rw [areNameSegments, Bool.and_eq_true, List.all_eq_true] at h
    have hsame : ∀ segment ∈ rest, generalised segment = segment := by
      intro segment hsegment
      have hends := (Bool.and_eq_true _ _ ▸ h.2 segment hsegment).2
      rw [Bool.not_eq_true'] at hends
      rw [generalised, hends]
      rfl
    rw [generalisedTail, List.map_congr_left hsame, List.map_id']

/-! ### Segments with dots between them -/

theorem isAlnum_of_isSegment {segment : Text} (h : isSegment segment = true) :
    ∀ p ∈ segment, p.isAlnum = true := by
  cases segment with
  | nil => cases h
  | cons first rest =>
    rw [isSegment, Bool.and_eq_true, List.all_eq_true] at h
    rw [List.forall_mem_cons]
    exact ⟨CodePoint.isAlnum_of_isUpper_or_isDigit h.1, h.2⟩

theorem dot_not_mem_of_isSegment {segment : Text} (h : isSegment segment = true) :
    CodePoint.ofChar '.' ∉ segment := by
  intro hmem
  have hdot := isAlnum_of_isSegment h _ hmem
  revert hdot
  decide

theorem upperFirst_of_isSegment {segment : Text} (h : isSegment segment = true) :
    segment.upperFirst = segment := by
  cases segment with
  | nil => cases h
  | cons first rest =>
    rw [isSegment, Bool.and_eq_true] at h
    rw [Text.upperFirst, CodePoint.upper_of_isLower_eq_false
      (CodePoint.isAlnum_of_isUpper_or_isDigit h.1)
      (CodePoint.isLower_eq_false_of_isUpper_or_isDigit h.1), List.singleton_append]

theorem cleaned_of_isSegment {segment : Text} (h : isSegment segment = true) :
    cleaned segment = segment := List.filter_eq_self.2 (isAlnum_of_isSegment h)

end Naming

theorem Text.split_join {separator : CodePoint} {parts : List Text} (hne : parts ≠ [])
    (h : ∀ part ∈ parts, separator ∉ part) : split separator (join [separator] parts) = parts := by
  induction parts with
  | nil => exact absurd rfl hne
  | cons first rest ih =>
    rw [List.forall_mem_cons] at h
    cases rest with
    | nil =>
      rw [join, List.intercalate, List.intersperse, List.flatten_cons, List.flatten_nil,
        List.append_nil, split_of_not_mem h.1]
    | cons second rest =>
      rw [join_cons_cons, List.singleton_append, split_append h.1, ih (List.cons_ne_nil _ _) h.2]

namespace Naming

/-- A part that is a list of segments with dots between them contributes these segments. -/
theorem segmentsOfPart_join {segments : List Text}
    (h : ∀ segment ∈ segments, isSegment segment = true) :
    segmentsOfPart (Text.join "." segments) = segments := by
  cases segments with
  | nil => decide
  | cons first rest =>
    have hdots : ∀ segment ∈ first :: rest, CodePoint.ofChar '.' ∉ segment :=
      fun segment hsegment => dot_not_mem_of_isSegment (h segment hsegment)
    have hcut : (Text.join "." (first :: rest)).split '.' = first :: rest :=
      Text.split_join (List.cons_ne_nil _ _) hdots
    rw [segmentsOfPart, hcut]
    refine (List.filterMap_congr fun segment hsegment => ?_).trans List.filterMap_some
    have hs := h segment hsegment
    rw [upperFirst_of_isSegment hs, cleaned_of_isSegment hs]
    cases segment with
    | nil => cases hs
    | cons p rest => simp only [upperFirst_of_isSegment hs]

end Naming

/-! ### Names -/

/-- Is the text a name, that is, are there segments of a name of which it is made? The empty text
is, with no segments. -/
def Text.IsName (t : Text) : Prop :=
  ∃ segments, Naming.areNameSegments segments = true ∧ t = Text.join "." segments

namespace Context

/-- The context of an operation, at no path. -/
def ofOperation (operationId : Text) : Context := ⟨[], some operationId, none, false⟩

theorem isName_of_name_eq_ok {c : Context} {name : Text} (h : c.name = .ok name) : name.IsName := by
  obtain ⟨path, -, rfl⟩ := name_eq_ok.1 h
  refine ⟨_, Naming.areNameSegments_generalisedTail fun segment hsegment => ?_, rfl⟩
  obtain ⟨part, -, hpart⟩ := List.mem_flatMap.1 hsegment
  exact Naming.isSegment_of_mem_segmentsOfPart hpart

theorem name_ofOperation_of_isName {t : Text} (h : t.IsName) : (ofOperation t).name = .ok t := by
  obtain ⟨segments, hsegments, rfl⟩ := h
  have hparts : (Naming.parts (ofOperation (Text.join "." segments)) []).flatMap
      Naming.segmentsOfPart = segments := by
    have hnone : Naming.segmentsOfPart [] = [] := by decide
    have helements : Naming.elements [] = [] := by decide
    simp only [Naming.parts, ofOperation, Option.getD_some, Bool.false_eq_true, if_false,
      Naming.statusPart, helements, List.map_nil, List.flatMap_cons, List.flatMap_nil, hnone,
      List.append_nil]
    exact Naming.segmentsOfPart_join fun _ => Naming.isSegment_of_mem hsegments
  refine name_eq_ok.2 ⟨[], rfl, ?_⟩
  rw [hparts, Naming.generalisedTail_of_areNameSegments hsegments]

/-- The names of contexts with text paths are exactly the texts of the language, and an operation
that is called by the name of a context has that name. -/
theorem name_language :
    (∀ t : Text, (∃ c : Context, c.HasTextPath ∧ c.name = .ok t) ↔ t.IsName) ∧
      ∀ c : Context, c.HasTextPath → ∃ name, c.name = .ok name ∧ name.IsName ∧
        (ofOperation name).name = .ok name := by
  refine ⟨fun t => ⟨?_, fun h => ?_⟩, fun c hc => ?_⟩
  · rintro ⟨c, -, hname⟩
    exact isName_of_name_eq_ok hname
  · exact ⟨ofOperation t, fun _ hmem => (List.not_mem_nil hmem).elim, name_ofOperation_of_isName h⟩
  · obtain ⟨name, hname⟩ := hc.exists_name
    have hlanguage := isName_of_name_eq_ok hname
    exact ⟨name, hname, hlanguage, name_ofOperation_of_isName hlanguage⟩

def oneJob : Context :=
  ⟨[.text "/v1/jobs/{jobId}", .text "error-list"], some "getJob", some (.text "404"), false⟩

/-- The element that picks one job reads as "one of", here and in the operation of that name. -/
theorem name_language_oneJob : oneJob.HasTextPath ∧
    oneJob.name = .ok "GetJob.404.V1.Jobs.One.ErrorList" ∧
      Text.IsName "GetJob.404.V1.Jobs.One.ErrorList" ∧
      (ofOperation "GetJob.404.V1.Jobs.One.ErrorList").name =
        .ok "GetJob.404.V1.Jobs.One.ErrorList" := by
  have hpath : oneJob.HasTextPath :=
    (by decide : ∀ segment ∈ oneJob.path, segment.text?.isSome = true)
  have hname : oneJob.name = .ok "GetJob.404.V1.Jobs.One.ErrorList" := by decide +kernel
  obtain ⟨name, hsame, hlanguage, hfixed⟩ := name_language.2 oneJob hpath
  cases hsame.symm.trans hname
  exact ⟨hpath, hname, hlanguage, hfixed⟩

end Context

end NamedSchemas
