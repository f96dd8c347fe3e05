import NamedSchemas.Text.Utf8
import NamedSchemas.Proofs.Naming.Telling
import NamedSchemas.Proofs.Value.References
/-!
# Pointers into documents

A local address leads from the root of its document to a value in it, key by key in maps and item by
item in lists. It stands in the fragment of a reference, where it may be written as it is or with
percent signs, and in its tokens slashes and tildes are escaped.
-/

namespace NamedSchemas

/-! ### Fragments -/

/-- A way to read fragments. What needs no encoding is read as it stands. -/
structure FragmentReading where
  /-- What a fragment says, if it says anything. -/
  decode : Text → Option Text
  plain : ∀ t : Text, (∀ p ∈ t, p.isNamePoint = true ∨ p = CodePoint.ofChar '/') → decode t = some t

namespace FragmentReading

/-- Fragments say what they read. -/
def asIs : FragmentReading := ⟨some, fun _ _ => rfl⟩

/-- The octet that two hexadecimal digits write. -/
def octet? (a b : CodePoint) : Option UInt8 :=
  match a.toChar?, b.toChar? with
  | some a, some b =>
    if Numeral.isHex a && Numeral.isHex b then some (UInt8.ofNat (Numeral.value 16 [a, b])) else none
  | _, _ => none

def encoded? (octets : List UInt8) : Option Text :=
  match Utf8.decode octets with
  | .ok cs => some (Text.ofChars cs)
  | .error _ => none

/-- What a fragment says behind these octets, where a percent sign and two digits write an octet. -/
def percentDecoded (octets : List UInt8) : Text → Option Text
  | [] => encoded? octets
  | p :: rest =>
    if p = '%' then
      match rest with
      | a :: b :: rest => do percentDecoded (octets ++ [← octet? a b]) rest
      | _ => none
    else do pure ((← encoded? octets) ++ p :: (← percentDecoded [] rest))

theorem percentDecoded_of_not_mem {t : Text} (h : CodePoint.ofChar '%' ∉ t) :
    percentDecoded [] t = some t := by
  have hnone : encoded? [] = some [] := rfl
  induction t with
  | nil => rfl
  | cons p rest ih =>
    rw [List.mem_cons, not_or] at h
    rw [percentDecoded.eq_def]
    simp only [if_neg (Ne.symm h.1), hnone, ih h.2]
    rfl

/-- Octets may be written as percent signs and two digits. -/
def percent : FragmentReading where
  decode := percentDecoded []
  plain t h := by
    refine percentDecoded_of_not_mem fun hmem => ?_
    rcases h _ hmem with hname | hslash
    · exact absurd hname (by decide)
    · exact absurd hslash (by decide)

end FragmentReading

/-! ### Tokens -/

/-- A token with its escapes read: `~1` stands for a slash, and `~0` for a tilde. -/
def Text.unescaped : Text → Option Text
  | [] => some []
  | p :: rest =>
    if p = '~' then
      match rest with
      | q :: rest =>
        if q = '0' then (CodePoint.ofChar '~' :: ·) <$> unescaped rest
        else if q = '1' then (CodePoint.ofChar '/' :: ·) <$> unescaped rest
        else none
      | [] => none
    else (p :: ·) <$> unescaped rest

/-- Does the address lead into the document in which it stands? -/
def isLocalAddress (address : Text) : Bool := Text.startsWith "#/" address

def FragmentReading.tokens? (reading : FragmentReading) (address : Text) : Option (List Text) :=
  if isLocalAddress address then do
    (Text.split '/' (← reading.decode (address.drop 2))).mapM Text.unescaped
  else none

theorem Text.unescaped_of_not_mem {t : Text} (h : CodePoint.ofChar '~' ∉ t) : t.unescaped = some t := by
  induction t with
  | nil => rfl
  | cons p rest ih =>
    rw [List.mem_cons, not_or] at h
    rw [unescaped.eq_def]
    simp only [if_neg (Ne.symm h.1), ih h.2]
    rfl

theorem componentAddress_eq (name : Text) : componentAddress name = Text.ofString "#/" ++
    (Text.ofString "components" ++ CodePoint.ofChar '/' ::
      (Text.ofString "schemas" ++ CodePoint.ofChar '/' :: name)) := by
  have hroot : componentRoot = Text.ofString "#/" ++ (Text.ofString "components" ++
      CodePoint.ofChar '/' :: (Text.ofString "schemas" ++ [CodePoint.ofChar '/'])) := by
    decide +kernel
  rw [componentAddress, hroot]
  simp only [List.append_assoc, List.cons_append, List.nil_append]

theorem Text.unescaped_of_isNamePoint {t : Text} (h : ∀ p ∈ t, p.isNamePoint = true) :
    t.unescaped = some t := by
  have htilde : CodePoint.isNamePoint '~' = false := by decide +kernel
  refine unescaped_of_not_mem fun hmem => ?_
  rw [h _ hmem] at htilde
  cases htilde

theorem Text.slash_not_mem_of_isNamePoint {t : Text} (h : ∀ p ∈ t, p.isNamePoint = true) :
    CodePoint.ofChar '/' ∉ t := by
  have hslash : CodePoint.isNamePoint '/' = false := by decide +kernel
  intro hmem
  rw [h _ hmem] at hslash
  cases hslash

theorem FragmentReading.tokens?_componentAddress (reading : FragmentReading) {name : Text}
    (hname : ∀ p ∈ name, p.isNamePoint = true) :
    reading.tokens? (componentAddress name) =
      some [Text.ofString "components", Text.ofString "schemas", name] := by
  have hcomponents : ∀ p ∈ Text.ofString "components", p.isNamePoint = true := by decide +kernel
  have hschemas : ∀ p ∈ Text.ofString "schemas", p.isNamePoint = true := by decide +kernel
  have hlocal : isLocalAddress (componentAddress name) = true := by
    rw [componentAddress_eq]
    exact List.isPrefixOf_iff_prefix.2 (List.prefix_append _ _)
  have hplain : ∀ p ∈ (componentAddress name).drop 2,
      p.isNamePoint = true ∨ p = CodePoint.ofChar '/' := by
    rw [componentAddress_eq, List.drop_left' (by decide +kernel)]
    simp only [List.forall_mem_append, List.forall_mem_cons]
    exact ⟨fun p hp => Or.inl (hcomponents p hp), Or.inr trivial,
      fun p hp => Or.inl (hschemas p hp), Or.inr trivial, fun p hp => Or.inl (hname p hp)⟩
  rw [tokens?, if_pos hlocal, reading.plain _ hplain, componentAddress_eq,
    List.drop_left' (by decide +kernel)]
  simp only [Option.bind_eq_bind, Option.bind_some]
  rw [Text.split_append (Text.slash_not_mem_of_isNamePoint hcomponents),
    Text.split_append (Text.slash_not_mem_of_isNamePoint hschemas),
    Text.split_of_not_mem (Text.slash_not_mem_of_isNamePoint hname)]
  simp only [List.mapM_cons, List.mapM_nil, Text.unescaped_of_isNamePoint hcomponents,
    Text.unescaped_of_isNamePoint hschemas, Text.unescaped_of_isNamePoint hname,
    Option.bind_eq_bind, Option.bind_some, Option.pure_def]

/-! ### The value at a place -/

namespace Value

variable {ρ : Type}

/-- The item of a list that a token tells by its number, which is written without leading zeros. -/
def item? (token : Text) (items : List (Value ρ)) : Option (Value ρ) :=
  (items.zipIdx.find? fun item => Text.ofChars (Numeral.natural item.2) = token).map Prod.fst

def at? : List Text → Value ρ → Option (Value ρ)
  | [], v => some v
  | token :: rest, .map entries => (Entries.get? token entries).bind (at? rest)
  | token :: rest, .list items => (item? token items).bind (at? rest)
  | _ :: _, _ => none

def resolves (reading : FragmentReading) (d : Document) (address : Text) : Bool :=
  (reading.tokens? address).any fun tokens => (d.at? tokens).isSome

end Value

end NamedSchemas
