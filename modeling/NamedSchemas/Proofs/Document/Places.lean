import NamedSchemas.Proofs.Document.Assembly
import NamedSchemas.Proofs.Value.Pointer
/-!
# Places that stay

Tokens that lead to a value in a document lead to one in what a traversal makes of the document,
unless they lead into a part that was replaced. So do tokens that lead through maps to which entries
are added.
-/

namespace NamedSchemas

namespace Value

/-- Tokens that led to a value in the first document do so in the second, unless they are
excepted. -/
def StillLeads (except : List Text → Document → Bool) (d w : Document) : Prop :=
  ∀ tokens, (d.at? tokens).isSome = true → except tokens d = false → (w.at? tokens).isSome = true

/-- Do the tokens lead through an entry of a map, and then where they should not? -/
def entersEntry (enters : Text → List Text → Document → Bool) : List Text → Document → Bool
  | token :: rest, .map entries => (Entries.get? token entries).any (enters token rest)
  | _, _ => false

def entersAt (key : Text) (enters : List Text → Document → Bool) : List Text → Document → Bool :=
  entersEntry fun token rest v => token = key && enters rest v

/-- Do the tokens lead through the schema that a response or a request body has for a media type? -/
def entersSchema (mediaType : Text) (enters : List Text → Document → Bool) :
    List Text → Document → Bool :=
  entersAt "content" (entersAt mediaType (entersAt "schema" enters))

def entersOperation (mediaType : Text) (enters : List Text → Document → Bool) :
    List Text → Document → Bool :=
  entersEntry fun token rest v =>
    if token = "requestBody" then entersSchema mediaType enters rest v
    else if token = "responses" then entersEntry (fun _ => entersSchema mediaType enters) rest v
    else false

/-- Do the tokens lead through a body of a document? -/
def entersBody (mediaType : Text) (enters : List Text → Document → Bool) :
    List Text → Document → Bool :=
  entersAt "paths" (entersEntry fun _ => entersEntry fun token rest v =>
    (methodOf? (.text token)).isSome && entersOperation mediaType enters rest v)

theorem StillLeads.refl (except : List Text → Document → Bool) (d : Document) :
    StillLeads except d d := fun _ h _ => h

theorem StillLeads.mono {except more : List Text → Document → Bool} {d w : Document}
    (h : StillLeads except d w) (hsub : ∀ tokens, more tokens d = false → except tokens d = false) :
    StillLeads more d w :=
  fun tokens htokens hmore => h tokens htokens (hsub tokens hmore)

theorem StillLeads.trans {except : List Text → Document → Bool} {d v w : Document}
    (h : StillLeads except d v) (h' : StillLeads (fun _ _ => false) v w) : StillLeads except d w :=
  fun tokens htokens hexcept => h' tokens (h tokens htokens hexcept) rfl

theorem stillLeads_map {except : Text → List Text → Document → Bool} {es fs : Entries Empty}
    (h : List.Forall₂ (fun e f => e.1 = f.1 ∧ ∀ token, e.1 = .text token →
      StillLeads (except token) e.2 f.2) es fs) :
    StillLeads (entersEntry except) (.map es) (.map fs) := by
  rintro (_ | ⟨token, rest⟩) htokens hexcept
  · rfl
  rw [at?] at htokens ⊢
  rw [entersEntry] at hexcept
  induction h with
  | nil => exact htokens
  | @cons e f es fs hef _ ih =>
    obtain ⟨key, v⟩ := e
    obtain ⟨_, w⟩ := f
    obtain ⟨rfl, hvalue⟩ := hef
    rw [Entries.get?_cons] at htokens hexcept ⊢
    by_cases hkey : key = .text token
    · rw [if_pos hkey] at htokens hexcept ⊢
      exact hvalue token hkey rest htokens hexcept
    · rw [if_neg hkey] at htokens hexcept ⊢
      exact ih htokens hexcept

end Value

/-! ### What a traversal fills in -/

namespace Traversal

variable {ι : Type}

/-- When tokens go on leading to values in the parts, but for some, they do so in the whole, but for
some. -/
def Leads (t : Traversal ι) (inside except : List Text → Document → Bool) : Prop :=
  ∀ d ws, List.Forall₂ (fun part w => Value.StillLeads inside part.2 w) (t.parts d) ws →
    Value.StillLeads except d (t.fill d ws)

variable {inside except : List Text → Document → Bool}

theorem leads_skip : (skip : Traversal ι).Leads inside except := fun d _ _ => .refl except d

theorem leads_here (place : ι) : (here place).Leads inside inside := by
  intro d ws h
  match ws, h with
  | [w], .cons hw _ => exact hw

theorem leads_mapPlaces {κ : Type} {t : Traversal ι} {g : {ρ : Type} → Value ρ → ι → κ} {hfill}
    {hdocument} (h : t.Leads inside except) : (t.mapPlaces g hfill hdocument).Leads inside except := by
  intro d ws hws
  have hparts : List.Forall₂ (fun part w => Value.StillLeads inside part.2 w)
      ((t.parts d).map fun part => (g d part.1, part.2)) ws := hws
  rw [List.forall₂_map_left_iff] at hparts
  exact h d ws hparts

theorem leads_entries {late : Scalar → Bool} {t : Scalar → Traversal ι}
    {except : Text → List Text → Document → Bool}
    (h : ∀ token, (t (.text token)).Leads inside (except token)) :
    (entries late t).Leads inside (Value.entersEntry except) := by
  intro d ws hws
  cases d with
  | map es =>
    refine Value.stillLeads_map ?_
    refine (forall₂_fillEntries (Q := Value.StillLeads inside) hws).imp fun e f hef => ⟨hef.1, ?_⟩
    intro token hkey
    obtain ⟨vs, hvs, hfill⟩ := hef.2
    rw [hkey] at hvs hfill
    exact hfill ▸ h token e.2 vs hvs
  | scalar s => exact .refl _ _
  | list items => exact .refl _ _
  | ref label => exact label.elim

theorem leads_atKey {key : Text} {t : Traversal ι} (h : t.Leads inside except) :
    (atKey key t).Leads inside (Value.entersAt key except) := by
  refine leads_entries fun token => ?_
  by_cases hkey : token = key
  · rw [if_pos (congrArg Scalar.text hkey)]
    intro d ws hws
    refine (h d ws hws).mono fun tokens hexcept => ?_
    rwa [decide_eq_true hkey, Bool.true_and] at hexcept
  · rw [if_neg fun heq => hkey (Scalar.text.inj heq)]
    exact leads_skip

theorem leads_mediaSchema (mediaType : Text) (place : ι) :
    (mediaSchema mediaType place).Leads inside (Value.entersSchema mediaType inside) :=
  leads_atKey (leads_atKey (leads_atKey (leads_here place)))

theorem leads_operationRoles (mediaType : Text) :
    (operationRoles mediaType).Leads inside (Value.entersOperation mediaType inside) := by
  refine leads_entries fun token => ?_
  by_cases hrequest : token = "requestBody"
  · subst hrequest
    simp only [if_true]
    exact leads_mediaSchema mediaType _
  by_cases hresponses : token = "responses"
  · subst hresponses
    simp only [Scalar.text.injEq, if_neg hrequest, if_true]
    exact leads_entries fun status => leads_mediaSchema mediaType _
  · simp only [Scalar.text.injEq, if_neg hrequest, if_neg hresponses]
    exact leads_skip

/-- What is put in the places of the bodies leaves every place outside them. -/
theorem leads_bodies (mediaType : Text) :
    (bodies mediaType).Leads inside (Value.entersBody mediaType inside) := by
  refine leads_atKey (leads_entries fun path => leads_entries fun token => ?_)
  split
  · next hmethod =>
    intro d ws hws
    refine (leads_mapPlaces (leads_operationRoles mediaType) d ws hws).mono fun tokens hexcept => ?_
    rwa [hmethod, Bool.true_and] at hexcept
  · exact leads_skip

end Traversal

namespace Value

/-! ### Entries that are added -/

theorem stillLeads_append (es more : Entries Empty) :
    StillLeads (fun _ _ => false) (.map es) (.map (es ++ more)) := by
  rintro (_ | ⟨token, rest⟩) htokens -
  · rfl
  rw [at?] at htokens ⊢
  rw [Entries.get?_append]
  cases hget : Entries.get? token es with
  | none =>
    rw [hget] at htokens
    cases htokens
  | some v =>
    rw [hget] at htokens
    exact htokens

theorem stillLeads_insert {key : Text} {es inner : Entries Empty} (hkey : Entries.HoldsMap key es)
    (h : StillLeads (fun _ _ => false) (.map ((Value.map es).under key)) (.map inner)) :
    StillLeads (fun _ _ => false) (.map es) (.map (Entries.insert (.text key) (.map inner) es)) := by
  rintro (_ | ⟨token, rest⟩) htokens -
  · rfl
  rw [at?] at htokens ⊢
  by_cases htoken : token = key
  · subst htoken
    rw [Entries.get?_insert_self]
    cases hget : Entries.get? token es with
    | none =>
      rw [hget] at htokens
      cases htokens
    | some v =>
      rw [hget] at htokens
      rw [under, entries, hget] at h
      rcases hkey v hget with rfl | ⟨old, rfl⟩
      · cases rest with
        | nil => rfl
        | cons next rest => cases htokens
      · exact h rest htokens rfl
  · rwa [Entries.get?_insert_of_ne htoken]

/-- A document that was put together from its own frame and named schemas, to which others were
added, has the places that it had outside the bodies, and those in them that the new bodies have. -/
theorem stillLeads_assembled {mediaType : Text} {inside : List Text → Document → Bool}
    {es : Entries Empty} (hcomponents : Entries.HoldsMap "components" es)
    (hschemas : Entries.HoldsMap "schemas" (Value.map es).components) {ws : List Document}
    (hws : List.Forall₂ (fun body w => StillLeads inside body.2 w)
      ((Value.map es).bodies mediaType) ws) (added : Entries Empty) :
    StillLeads (entersBody mediaType inside) (.map es)
      (.assembled mediaType (.map es) ws ((Value.map es).namedSchemas ++ added)) := by
  have hfill := Traversal.leads_bodies mediaType (.map es) ws hws
  obtain ⟨fs, heq, hkept, hunder, hassembled⟩ := assembled_map mediaType es ws
    ((Value.map es).namedSchemas ++ added)
  have hholds : Entries.HoldsMap "components" fs := fun v hv => hcomponents v (hkept ▸ hv)
  rw [heq] at hfill
  rw [hassembled]
  refine hfill.trans (stillLeads_insert hholds ?_)
  rw [hunder]
  exact stillLeads_insert hschemas (stillLeads_append _ added)

end Value

end NamedSchemas
