import NamedSchemas.Naming.Name
import NamedSchemas.Proofs.Json.Text
/-!
# The characters of names

A name is made of ASCII letters and digits with dots between them. A context whose path is text has
a name.
-/

namespace NamedSchemas

namespace CodePoint

theorem upper_of_isLower_eq_false {p : CodePoint} (hp : p.isAlnum = true) (h : p.isLower = false) :
    p.upper = [p] := by
  have hascii : p.toNat < 0x7B := by
    simp only [isAlnum, isDigit, isUpper, isLower, Bool.or_eq_true, Bool.and_eq_true,
      decide_eq_true_eq] at hp
    omega
  have hbeyond : ∀ entry ∈ asciiUppers, 0x7B ≤ entry.1 := by decide
  have hnone : (asciiUppers.find? fun entry => entry.1 = p.toNat) = none := by
    rw [List.find?_eq_none]
    intro entry hentry heq
    have := hbeyond entry hentry
    have := of_decide_eq_true heq
    omega
  simp only [upper, h, Bool.false_eq_true, if_false, hnone]

theorem isAlnum_of_mem_upper {p q : CodePoint} (hp : p.isAlnum = true) (hq : q ∈ p.upper) :
    q.isAlnum = true := by
  cases hlower : p.isLower with
  | true =>
    rw [upper, if_pos hlower] at hq
    rw [List.mem_singleton.1 hq]
    simp only [isLower, Bool.and_eq_true, decide_eq_true_eq] at hlower
    simp only [isAlnum, isUpper, isDigit, isLower, Bool.or_eq_true, Bool.and_eq_true,
      decide_eq_true_eq]
    omega
  | false =>
    rw [upper_of_isLower_eq_false hp hlower] at hq
    rw [List.mem_singleton.1 hq]
    exact hp

end CodePoint

theorem Text.isAlnum_of_mem_upperFirst {t : Text} (ht : ∀ p ∈ t, p.isAlnum = true) {q : CodePoint}
    (hq : q ∈ t.upperFirst) : q.isAlnum = true := by
  cases t with
  | nil => cases hq
  | cons p rest =>
    rcases List.mem_append.1 hq with hupper | hrest
    · exact CodePoint.isAlnum_of_mem_upper (ht p (List.mem_cons_self ..)) hupper
    · exact ht q (List.mem_cons_of_mem p hrest)

namespace Naming

theorem isAlnum_of_mem_cleaned {t : Text} {p : CodePoint} (hp : p ∈ cleaned t) :
    p.isAlnum = true := (List.mem_filter.1 hp).2

theorem isAlnum_of_mem_segmentsOfPart {part segment : Text} (hsegment : segment ∈ segmentsOfPart part)
    {p : CodePoint} (hp : p ∈ segment) : p.isAlnum = true := by
  obtain ⟨piece, -, hpiece⟩ := List.mem_filterMap.1 hsegment
  split at hpiece
  · cases hpiece
  · next hne =>
    cases Option.some.inj hpiece
    exact Text.isAlnum_of_mem_upperFirst (fun q hq => isAlnum_of_mem_cleaned hq) hp

theorem isAlnum_of_mem_generalised {segment : Text} (hsegment : ∀ p ∈ segment, p.isAlnum = true)
    {p : CodePoint} (hp : p ∈ generalised segment) : p.isAlnum = true := by
  have hone : ∀ q ∈ Text.ofString "One", q.isAlnum = true := by decide
  rw [generalised] at hp
  split at hp
  · exact hone p hp
  · exact hsegment p hp

theorem isAlnum_of_mem_generalisedTail {segments : List Text}
    (hsegments : ∀ segment ∈ segments, ∀ p ∈ segment, p.isAlnum = true) {segment : Text}
    (hsegment : segment ∈ generalisedTail segments) {p : CodePoint} (hp : p ∈ segment) :
    p.isAlnum = true := by
  cases segments with
  | nil => cases hsegment
  | cons first rest =>
    rcases List.mem_cons.1 hsegment with rfl | htail
    · exact hsegments segment (List.mem_cons_self ..) p hp
    · obtain ⟨plain, hplain, rfl⟩ := List.mem_map.1 htail
      exact isAlnum_of_mem_generalised (hsegments plain (List.mem_cons_of_mem _ hplain)) hp

end Naming

/-- Is the code point one of those that names are made of? -/
def CodePoint.isNamePoint (p : CodePoint) : Bool := p.isAlnum || p = '.'

theorem Text.join_cons_cons (separator first second : Text) (rest : List Text) :
    Text.join separator (first :: second :: rest) =
      first ++ (separator ++ Text.join separator (second :: rest)) := rfl

theorem Text.mem_join {separator : Text} {parts : List Text} {p : CodePoint}
    (hp : p ∈ Text.join separator parts) : p ∈ separator ∨ ∃ part ∈ parts, p ∈ part := by
  induction parts with
  | nil => cases hp
  | cons first rest ih =>
    cases rest with
    | nil =>
      rw [Text.join, List.intercalate, List.intersperse, List.flatten_cons, List.flatten_nil,
        List.append_nil] at hp
      exact Or.inr ⟨first, List.mem_cons_self .., hp⟩
    | cons second rest =>
      rw [Text.join_cons_cons, List.mem_append, List.mem_append] at hp
      rcases hp with hfirst | hseparator | hrest
      · exact Or.inr ⟨first, List.mem_cons_self .., hfirst⟩
      · exact Or.inl hseparator
      · rcases ih hrest with hseparator | ⟨part, hpart, hp⟩
        · exact Or.inl hseparator
        · exact Or.inr ⟨part, List.mem_cons_of_mem _ hpart, hp⟩

namespace Context

theorem name_eq_ok {c : Context} {name : Text} : c.name = .ok name ↔ ∃ path,
    c.pathText = .ok path ∧ name = Text.join "." (Naming.generalisedTail
      ((Naming.parts c path).flatMap Naming.segmentsOfPart)) := by
  rw [Context.name, nameSegments]
  cases c.pathText with
  | error fault =>
    constructor
    · intro h
      cases h
    · rintro ⟨path, h, -⟩
      cases h
  | ok path =>
    constructor
    · intro h
      exact ⟨path, rfl, (Except.ok.inj h).symm⟩
    · rintro ⟨_, hpath, rfl⟩
      cases hpath
      rfl

/-- A name is made of ASCII letters and digits with dots between them. -/
theorem isNamePoint_of_mem_name {c : Context} {name : Text} (h : c.name = .ok name) :
    ∀ p ∈ name, p.isNamePoint = true := by
  obtain ⟨path, -, rfl⟩ := name_eq_ok.1 h
  intro p hp
  rw [CodePoint.isNamePoint, Bool.or_eq_true]
  rcases Text.mem_join hp with hdot | ⟨segment, hsegment, hp⟩
  · rw [List.mem_singleton.1 hdot]
    exact Or.inr (by decide)
  · refine Or.inl (Naming.isAlnum_of_mem_generalisedTail (fun s hs q hq => ?_) hsegment hp)
    obtain ⟨part, -, hpart⟩ := List.mem_flatMap.1 hs
    exact Naming.isAlnum_of_mem_segmentsOfPart hpart hq

/-- The path of the context consists of texts. -/
def HasTextPath (c : Context) : Prop := ∀ segment ∈ c.path, segment.text?.isSome = true

theorem exists_textsFrom {segments : List Document}
    (h : ∀ segment ∈ segments, segment.text?.isSome = true) (index : Nat) :
    ∃ texts, textsFrom index segments = .ok texts := by
  induction segments generalizing index with
  | nil => exact ⟨[], rfl⟩
  | cons segment rest ih =>
    obtain ⟨t, ht⟩ := Option.isSome_iff_exists.1 (h segment (List.mem_cons_self ..))
    obtain ⟨texts, htexts⟩ := ih (fun s hs => h s (List.mem_cons_of_mem _ hs)) (index + 1)
    refine ⟨t :: texts, ?_⟩
    rw [textsFrom, ht]
    simp only [htexts]
    rfl

theorem HasTextPath.exists_pathText {c : Context} (h : c.HasTextPath) :
    ∃ path, c.pathText = .ok path := by
  obtain ⟨texts, htexts⟩ := exists_textsFrom h 0
  exact ⟨_, by rw [pathText, htexts]; rfl⟩

theorem HasTextPath.exists_name {c : Context} (h : c.HasTextPath) : ∃ name, c.name = .ok name := by
  obtain ⟨path, hpath⟩ := h.exists_pathText
  exact ⟨_, by rw [name, nameSegments, hpath]; rfl⟩

theorem HasTextPath.child {c : Context} (h : c.HasTextPath) (t : Text) :
    (c.child (.text t)).HasTextPath := by
  intro segment hsegment
  rcases List.mem_append.1 hsegment with hold | hnew
  · exact h segment hold
  · rw [List.mem_singleton.1 hnew]
    rfl

end Context

theorem CodePoint.lt_of_isNamePoint {p : CodePoint} (h : p.isNamePoint = true) : p.toNat < 0x80 := by
  rw [isNamePoint, Bool.or_eq_true, decide_eq_true_eq] at h
  rcases h with halnum | rfl
  · simp only [isAlnum, isDigit, isUpper, isLower, Bool.or_eq_true, Bool.and_eq_true,
      decide_eq_true_eq] at halnum
    omega
  · decide

theorem CodePoint.isNamePoint_not_high {p : CodePoint} (h : p.isNamePoint = true) :
    p.isHighSurrogate = false :=
  not_high_of_lt (Nat.lt_trans (lt_of_isNamePoint h) (by decide))

theorem unpaired_componentAddress {name : Text} (h : ∀ p ∈ name, p.isNamePoint = true) :
    (componentAddress name).unpaired = true := by
  have hroot : ∀ p ∈ componentRoot, p.isHighSurrogate = false := by decide +kernel
  refine Text.unpaired_of_no_surrogates fun p hp => ?_
  rcases List.mem_append.1 hp with hp | hp
  · exact hroot p hp
  · exact CodePoint.isNamePoint_not_high (h p hp)

end NamedSchemas
