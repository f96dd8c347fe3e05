import NamedSchemas.Proofs.Naming.Language
/-!
# Names along a path

One more segment of the path adds segments at the end of a name and leaves those before them alone.
What it adds is told by the path segment alone, unless nothing stands before it. So the name of a
longer path depends on the name of the path and on nothing else that the context tells.
-/

namespace NamedSchemas

namespace Naming

/-- The segments that a path segment contributes to a name before they are generalised. A path
segment may hold slashes, and its elements may hold dots. -/
def segmentsOfKey (key : Text) : List Text := ((elements key).map titled).flatMap segmentsOfPart

/-- The dotted segments that a path segment adds to a name that is not empty. -/
def dotted (key : Text) : Text :=
  ((segmentsOfKey key).map generalised).flatMap fun segment => CodePoint.ofChar '.' :: segment

/-- The segments that a path segment adds to a name that is not empty. -/
def addedSegments (key : Text) : List Text := (segmentsOfKey key).map generalised

/-- Can the text be a segment of a name after the first? It does not end in `Id`. -/
def isLaterSegment (segment : Text) : Bool := isSegment segment && !Text.endsWith "Id" segment

theorem isSegment_of_isLaterSegment {segment : Text} (h : isLaterSegment segment = true) :
    isSegment segment = true := (Bool.and_eq_true _ _ ▸ h).1

theorem isLaterSegment_of_mem_addedSegments {key segment : Text} (h : segment ∈ addedSegments key) :
    isLaterSegment segment = true := by
  obtain ⟨plain, hplain, rfl⟩ := List.mem_map.1 h
  obtain ⟨part, -, hpart⟩ := List.mem_flatMap.1 hplain
  exact isSegment_generalised (isSegment_of_mem_segmentsOfPart hpart)

/-- A name is cut at its dots into the segments of which it is made. -/
theorem split_join_of_segments {segments : List Text} (hne : segments ≠ [])
    (h : ∀ segment ∈ segments, isSegment segment = true) :
    (Text.join "." segments).split '.' = segments :=
  Text.split_join hne fun segment hsegment => dot_not_mem_of_isSegment (h segment hsegment)

theorem elements_append_cons (path key : Text) :
    elements (path ++ CodePoint.ofChar '/' :: key) = elements path ++ elements key := by
  rw [elements, elements, elements, Text.split_append_cons, List.filter_append]

theorem generalisedTail_append {segments : List Text} (h : segments ≠ []) (more : List Text) :
    generalisedTail (segments ++ more) = generalisedTail segments ++ more.map generalised := by
  obtain ⟨first, rest, rfl⟩ := List.exists_cons_of_ne_nil h
  rw [List.cons_append, generalisedTail, generalisedTail, List.map_append, List.cons_append]

theorem generalisedTail_ne_nil {segments : List Text} (h : segments ≠ []) :
    generalisedTail segments ≠ [] := by
  obtain ⟨first, rest, rfl⟩ := List.exists_cons_of_ne_nil h
  exact List.cons_ne_nil _ _

end Naming

theorem Text.join_cons (separator first : Text) (rest : List Text) :
    join separator (first :: rest) = first ++ rest.flatMap fun part => separator ++ part := by
  induction rest generalizing first with
  | nil => simp [join, List.intercalate]
  | cons second rest ih => rw [join_cons_cons, ih, List.flatMap_cons, List.append_assoc]

theorem Text.join_append {parts : List Text} (h : parts ≠ []) (separator : Text) (more : List Text) :
    join separator (parts ++ more) =
      join separator parts ++ more.flatMap fun part => separator ++ part := by
  obtain ⟨first, rest, rfl⟩ := List.exists_cons_of_ne_nil h
  rw [List.cons_append, join_cons, join_cons, List.flatMap_append, List.append_assoc]

namespace Context

open Naming

theorem textsFrom_append_text {segments : List Document} {texts : List Text} {index : Nat}
    (h : textsFrom index segments = .ok texts) (key : Text) :
    textsFrom index (segments ++ [.text key]) = .ok (texts ++ [key]) := by
  induction segments generalizing index texts with
  | nil =>
    cases h
    rfl
  | cons segment rest ih =>
    rw [textsFrom] at h
    rw [List.cons_append, textsFrom]
    cases hsegment : segment.text? with
    | none =>
      rw [hsegment] at h
      cases h
    | some t =>
      rw [hsegment] at h
      cases hrest : textsFrom (index + 1) rest with
      | error fault =>
        simp only [hrest] at h
        cases h
      | ok later =>
        simp only [hrest] at h
        cases h
        simp only [ih hrest]
        rfl

theorem exists_pathText_child {c : Context} {path : Text} (h : c.pathText = .ok path) (key : Text) :
    ∃ longer, (c.child (.text key)).pathText = .ok longer ∧
      elements longer = elements path ++ elements key := by
  rw [pathText] at h
  cases htexts : textsFrom 0 c.path with
  | error fault =>
    rw [htexts] at h
    cases h
  | ok texts =>
    rw [htexts] at h
    cases h
    refine ⟨Text.join "/" (texts ++ [key]), ?_, ?_⟩
    · rw [pathText, child, textsFrom_append_text htexts]
      rfl
    · cases texts with
      | nil =>
        rw [List.nil_append, Text.join_cons, List.flatMap_nil, List.append_nil]
        rfl
      | cons first rest =>
        rw [Text.join_append (List.cons_ne_nil _ _), List.flatMap_singleton]
        exact elements_append_cons _ _

theorem exists_segments_child {c : Context} {path : Text} (h : c.pathText = .ok path) (key : Text) :
    ∃ longer, (c.child (.text key)).pathText = .ok longer ∧
      (parts (c.child (.text key)) longer).flatMap segmentsOfPart =
        (parts c path).flatMap segmentsOfPart ++ segmentsOfKey key := by
  obtain ⟨longer, hlonger, helements⟩ := exists_pathText_child h key
  refine ⟨longer, hlonger, ?_⟩
  simp only [parts, child, helements, List.map_append, List.flatMap_cons, List.flatMap_append,
    List.append_assoc, segmentsOfKey]
  rfl

/-- A name that is not empty has segments, and those of the path segment stand behind them when the
path goes on. -/
theorem exists_segments_name_child {c : Context} {name : Text} (h : c.name = .ok name) (hne : name ≠ [])
    (key : Text) : ∃ segments, segments ≠ [] ∧ areNameSegments segments = true ∧
      name = Text.join "." segments ∧
      (c.child (.text key)).name = .ok (Text.join "." (segments ++ addedSegments key)) := by
  obtain ⟨path, hpath, rfl⟩ := name_eq_ok.1 h
  obtain ⟨longer, hlonger, hparts⟩ := exists_segments_child hpath key
  have hsegments : (parts c path).flatMap segmentsOfPart ≠ [] := by
    intro hnil
    rw [hnil] at hne
    exact hne rfl
  refine ⟨_, generalisedTail_ne_nil hsegments, areNameSegments_generalisedTail fun segment hsegment => ?_,
    rfl, name_eq_ok.2 ⟨longer, hlonger, ?_⟩⟩
  · obtain ⟨part, -, hpart⟩ := List.mem_flatMap.1 hsegment
    exact isSegment_of_mem_segmentsOfPart hpart
  · rw [hparts, generalisedTail_append hsegments]
    rfl

/-- A name that is not empty stays at the beginning when the path goes on, and what comes after it
is told by the path segment. -/
theorem name_child {c : Context} {name : Text} (h : c.name = .ok name) (hne : name ≠ []) (key : Text) :
    (c.child (.text key)).name = .ok (name ++ dotted key) := by
  obtain ⟨segments, hsegments, -, rfl, hchild⟩ := exists_segments_name_child h hne key
  rw [hchild, Text.join_append hsegments]
  rfl

/-- Behind an empty name the first segment that comes is the first of the name, and is not
generalised. -/
theorem name_child_of_nil {c : Context} (h : c.name = .ok []) (key : Text) :
    (c.child (.text key)).name = .ok (Text.join "." (generalisedTail (segmentsOfKey key))) := by
  obtain ⟨path, hpath, -⟩ := name_eq_ok.1 h
  obtain ⟨longer, hlonger, hparts⟩ := exists_segments_child hpath key
  have hnone := (segments_eq_nil_iff hpath).2 ((name_eq_nil_iff h).1 rfl)
  refine name_eq_ok.2 ⟨longer, hlonger, ?_⟩
  rw [hparts, hnone, List.nil_append]

theorem name_eq_error {c : Context} {fault : SegmentFault} :
    c.name = .error fault ↔ textsFrom 0 c.path = .error fault := by
  rw [name, nameSegments, pathText]
  cases textsFrom 0 c.path with
  | error found =>
    constructor
    · intro h
      cases h
      rfl
    · intro h
      cases h
      rfl
  | ok texts => exact iff_of_false (fun h => by cases h) (fun h => by cases h)

theorem textsFrom_append_of_error {segments : List Document} {fault : SegmentFault} {index : Nat}
    (h : textsFrom index segments = .error fault) (more : List Document) :
    textsFrom index (segments ++ more) = .error fault := by
  induction segments generalizing index with
  | nil => cases h
  | cons segment rest ih =>
    rw [textsFrom] at h
    rw [List.cons_append, textsFrom]
    cases hsegment : segment.text? with
    | none =>
      rw [hsegment] at h
      exact h
    | some t =>
      rw [hsegment] at h
      cases hrest : textsFrom (index + 1) rest with
      | error found =>
        simp only [hrest] at h
        cases h
        simp only [ih hrest]
        rfl
      | ok later =>
        simp only [hrest] at h
        cases h

/-- What a longer path is called depends on what the path is called, and on nothing else of the
context. -/
theorem name_child_congr {c₁ c₂ : Context} (h : c₁.name = c₂.name) (key : Text) :
    (c₁.child (.text key)).name = (c₂.child (.text key)).name := by
  cases hname : c₁.name with
  | error fault =>
    rw [name_eq_error.2 (textsFrom_append_of_error (name_eq_error.1 hname) _),
      name_eq_error.2 (textsFrom_append_of_error (name_eq_error.1 (h.symm.trans hname)) _)]
  | ok name =>
    by_cases hnil : name = []
    · subst hnil
      rw [name_child_of_nil hname, name_child_of_nil (h.symm.trans hname)]
    · rw [name_child hname hnil, name_child (h.symm.trans hname) hnil]

/-- Naming goes along the path: a path segment adds to a name that is not empty the same segments
wherever it stands, and contexts with the same name go on having the same name. -/
theorem name_compositional :
    (∃ added : Text → List Text, (∀ key, ∀ segment ∈ added key, isLaterSegment segment = true) ∧
      ∀ c : Context, c.HasTextPath → ∀ key, ∃ name longer, c.name = .ok name ∧
        (c.child (.text key)).name = .ok longer ∧
        (name ≠ [] → longer.split '.' = name.split '.' ++ added key)) ∧
      ∀ c₁ c₂ : Context, c₁.name = c₂.name → ∀ key : Text,
        (c₁.child (.text key)).name = (c₂.child (.text key)).name := by
  refine ⟨⟨addedSegments, fun key segment => isLaterSegment_of_mem_addedSegments, fun c hc key => ?_⟩,
    fun c₁ c₂ h => name_child_congr h⟩
  obtain ⟨name, hname⟩ := hc.exists_name
  obtain ⟨longer, hlonger⟩ := (hc.child key).exists_name
  refine ⟨name, longer, hname, hlonger, fun hne => ?_⟩
  obtain ⟨segments, hsegments, hare, rfl, hchild⟩ := exists_segments_name_child hname hne key
  cases hlonger.symm.trans hchild
  rw [split_join_of_segments (List.append_ne_nil_of_left_ne_nil hsegments _) fun s hs => ?_,
    split_join_of_segments hsegments fun s => isSegment_of_mem hare]
  rcases List.mem_append.1 hs with hbefore | hadded
  · exact isSegment_of_mem hare hbefore
  · exact isSegment_of_isLaterSegment (isLaterSegment_of_mem_addedSegments hadded)

def jobByPath : Context := ⟨[.text "getJob/404/v1/jobs/{jobId}/error-list"], none, none, false⟩

/-- One of the contexts has an operation and a status, the other only a path. They have the same
name, to which a key with a slash in it adds two segments. -/
theorem name_compositional_oneJob :
    oneJob.HasTextPath ∧ oneJob.name = .ok "GetJob.404.V1.Jobs.One.ErrorList" ∧
      oneJob.name = jobByPath.name ∧
      (oneJob.child (.text "line-items/{shiftId}")).name =
        (jobByPath.child (.text "line-items/{shiftId}")).name ∧
      ∃ added : Text → List Text, added "line-items/{shiftId}" = ["LineItems", "One"] ∧
        ∀ segment ∈ added "line-items/{shiftId}", Naming.isLaterSegment segment = true := by
  have hpath : oneJob.HasTextPath :=
    (by decide : ∀ segment ∈ oneJob.path, segment.text?.isSome = true)
  have hname : oneJob.name = .ok "GetJob.404.V1.Jobs.One.ErrorList" := by decide +kernel
  have hsame : oneJob.name = jobByPath.name := by decide +kernel
  obtain ⟨⟨added, hlater, hadds⟩, hcongr⟩ := name_compositional
  refine ⟨hpath, hname, hsame, hcongr _ _ hsame _, added, ?_, hlater _⟩
  obtain ⟨name, longer, hname', hlonger, hsegments⟩ := hadds oneJob hpath "line-items/{shiftId}"
  cases hname'.symm.trans hname
  have hchild : (oneJob.child (.text "line-items/{shiftId}")).name =
      .ok "GetJob.404.V1.Jobs.One.ErrorList.LineItems.One" := by decide +kernel
  cases hlonger.symm.trans hchild
  have hcut : Text.split '.' "GetJob.404.V1.Jobs.One.ErrorList.LineItems.One" =
      Text.split '.' "GetJob.404.V1.Jobs.One.ErrorList" ++
        [Text.ofString "LineItems", Text.ofString "One"] := by decide +kernel
  have hne : Text.ofString "GetJob.404.V1.Jobs.One.ErrorList" ≠ [] := by decide
  exact List.append_cancel_left ((hsegments hne).symm.trans hcut)

end Context

end NamedSchemas
