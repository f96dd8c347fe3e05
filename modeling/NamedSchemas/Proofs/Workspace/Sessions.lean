import Mathlib.Data.List.Induction
import Mathlib.Data.List.Infix
import NamedSchemas.Proofs.Extraction.Meaning
import NamedSchemas.Proofs.Shortening.Renaming
import NamedSchemas.Workspace
/-!
# Sessions

A session makes extractions and shortenings on one workspace, in any order. It is meant to hold
references to one component only where equal schemas were passed in. But the text of a schema keeps
the names that its properties had when it was registered: when a shortening takes such a name away
and a later extraction gives it to another schema, the text reads like that of a schema with the
other one inside, and the two are merged. Where no name that was given up is given again, only equal
schemas are merged.
-/

namespace NamedSchemas

variable {digest : Text → Text} {existing : List Text} {M : Text → Option Document}

/-! ### Steps on a workspace -/

namespace WorkspaceM

variable {α β : Type}

def result (step : WorkspaceM α) (w : Workspace) : Except Fault α × Workspace := step.run.run w

theorem result_bind (x : WorkspaceM α) (f : α → WorkspaceM β) (w : Workspace) :
    (x >>= f).result w =
      match x.result w with
      | (.ok a, w) => (f a).result w
      | (.error fault, w) => (.error fault, w) := by
  simp only [result, ExceptT.run_bind, StateT.run_bind]
  generalize StateT.run (ExceptT.run x) w = p
  obtain ⟨outcome, u⟩ := p
  cases outcome <;> rfl

theorem result_bind_of_ok {x : WorkspaceM α} {w u : Workspace} {a : α}
    (h : x.result w = (.ok a, u)) (f : α → WorkspaceM β) : (x >>= f).result w = (f a).result u := by
  rw [result_bind, h]

end WorkspaceM

namespace Workspace

variable {w : Workspace} {r : Registry Nat}

theorem result_onRegistry {α : Type} (step : RegistryM Nat α) (w : Workspace) :
    (onRegistry step).result w =
      ((step.result w.registry).1, ⟨(step.result w.registry).2, w.held⟩) := by
  rw [onRegistry, RegistryM.result]
  generalize hstep : step.run.run w.registry = p
  obtain ⟨outcome, r⟩ := p
  have hget : (get : WorkspaceM Workspace).result w = (.ok w, w) := rfl
  rw [WorkspaceM.result_bind_of_ok hget, hstep]
  cases outcome <;> rfl

theorem result_extract_of_ok {s : ExtractionSettings} {schema v : Linked Nat} {c : Context}
    (h : (NamedSchemas.extract s schema c).result w.registry = (.ok v, r)) :
    (extract s schema c).result w =
      (.ok (sharing w.held.length v), ⟨r, w.held ++ [sharing w.held.length v]⟩) := by
  have hstep := result_onRegistry (NamedSchemas.extract s schema c) w
  rw [h] at hstep
  exact WorkspaceM.result_bind_of_ok hstep _

theorem result_extract_of_error {s : ExtractionSettings} {schema : Linked Nat} {c : Context}
    {fault : Fault} (h : (NamedSchemas.extract s schema c).result w.registry = (.error fault, r)) :
    (extract s schema c).result w = (.error fault, ⟨r, w.held⟩) := by
  rw [extract, WorkspaceM.result_bind, result_onRegistry, h]

theorem result_rename_of_ok {old new : Text} (h : w.registry.rename old new = .ok r) :
    (rename old new).result w =
      (.ok (), ⟨r, w.held.map (Value.relabel (w.registry.relink old new))⟩) := by
  have hstep := result_onRegistry (RegistryM.rename old new) w
  rw [RegistryM.result_rename_eq_ok.2 h] at hstep
  show (onRegistry (RegistryM.rename old new) >>= fun _ => modify fun u =>
    { u with held := u.held.map (Value.relabel (w.registry.relink old new)) }).result w = _
  exact WorkspaceM.result_bind_of_ok hstep _

theorem result_shorten_of_error {fault : Fault} (h : w.registry.plan = .error fault) :
    shorten.result w = (.error fault, w) := by
  rw [shorten, WorkspaceM.result_bind, result_onRegistry, RegistryM.result_ask, h]

theorem result_shorten_of_ok {plan : List (Text × Text)} {u : Workspace}
    (h : w.registry.plan = .ok plan) (hrename : (renameEach plan).result w = (.ok (), u)) :
    shorten.result w = (.ok plan, u) := by
  have hstep := result_onRegistry (RegistryM.ask Registry.plan) w
  rw [RegistryM.result_ask, h] at hstep
  rw [shorten, WorkspaceM.result_bind_of_ok hstep]
  exact WorkspaceM.result_bind_of_ok hrename _

theorem eq_reference_of_sharing {place : Nat} {v : Linked Nat} {name : Text}
    (h : sharing place v = .ref (.component name)) : v = .ref (.component name) := by
  cases v with
  | map entries => cases h
  | scalar s => exact h
  | list items => exact h
  | ref label => exact h

end Workspace

/-! ### References that are held -/

/-- The references among these values are to components that mean these documents. -/
def HandedOut (M : Text → Option Document) (held : List (Linked Nat)) (schemas : List Document) :
    Prop :=
  List.Forall₂ (fun v d => ∀ name, v = .ref (.component name) → M name = some d) held schemas

namespace HandedOut

variable {held : List (Linked Nat)} {schemas : List Document}

theorem also {M' : Text → Option Document} (h : HandedOut M held schemas) (hM : MeansAlso M M') :
    HandedOut M' held schemas :=
  h.imp fun _ d hv name heq => hM name d (hv name heq)

theorem rename (h : HandedOut M held schemas) {old new : Text} (hnew : M new = none)
    (named : Option Nat) :
    HandedOut (Function.update M new (M old)) (held.map (Value.relabel (.rename old new named)))
      schemas := by
  rw [HandedOut, List.forall₂_map_left_iff]
  refine h.imp fun v d hv name heq => ?_
  match v, hv, heq with
  | .ref (.component name), hv, heq =>
    have hname : renamed old new name = _ := Link.component.inj (Value.ref.inj heq)
    rw [← hname, renamed]
    split
    · next hold =>
      rw [Function.update_self, ← hold]
      exact hv name rfl
    · exact meansAlso_update hnew (M old) name d (hv name rfl)

end HandedOut

theorem Workspace.result_renameEach {plan : List (Text × Text)} {w : Workspace} {t : Registry Nat}
    (h : (renameAll plan).result w.registry = (.ok (), t)) :
    ∃ held, (renameEach plan).result w = (.ok (), ⟨t, held⟩) := by
  induction plan generalizing w with
  | nil =>
    rw [← (Prod.mk.inj h).2]
    exact ⟨w.held, rfl⟩
  | cons first rest ih =>
    obtain ⟨old, new⟩ := first
    rw [renameAll, RegistryM.result_bind_eq_ok] at h
    obtain ⟨_, r, hrename, hrest⟩ := h
    have hfirst := result_rename_of_ok (RegistryM.result_rename_eq_ok.1 hrename)
    rw [renameEach, WorkspaceM.result_bind_of_ok hfirst]
    exact ih hrest

/-- Renamings to names that mean nothing make them mean what the old names meant. -/
theorem Workspace.renameEach_means {plan : List (Text × Text)} {w : Workspace} {t : Registry Nat}
    {held : List (Linked Nat)} {schemas : List Document}
    (h : (renameAll plan).result w.registry = (.ok (), t))
    (hw : (renameEach plan).result w = (.ok (), ⟨t, held⟩)) (hM : w.registry.Meant M)
    (hheld : HandedOut M w.held schemas) (hfree : ∀ pair ∈ plan, M pair.2 = none)
    (hnodup : (plan.map Prod.snd).Nodup)
    (hpoints : ∀ pair ∈ plan, ∀ p ∈ pair.2, p.isNamePoint = true) :
    ∃ M', t.Meant M' ∧ HandedOut M' held schemas ∧
      ∀ name d, M' name = some d → (∃ e, M name = some e) ∨ name ∈ plan.map Prod.snd := by
  -- the meanings grow with every renaming, and the new names of later ones go on to mean nothing
  induction plan generalizing w M with
  | nil =>
    obtain ⟨-, rfl⟩ := Prod.mk.inj hw
    exact ⟨M, hM, hheld, fun name d hd => Or.inl ⟨d, hd⟩⟩
  | cons first rest ih =>
    obtain ⟨old, new⟩ := first
    rw [List.map_cons, List.nodup_cons] at hnodup
    rw [renameAll, RegistryM.result_bind_eq_ok] at h
    obtain ⟨_, r, hrename, hrest⟩ := h
    have hrename := RegistryM.result_rename_eq_ok.1 hrename
    rw [renameEach, WorkspaceM.result_bind_of_ok (result_rename_of_ok hrename)] at hw
    have hnew : M new = none := hfree _ (List.mem_cons_self ..)
    have hlater : ∀ pair ∈ rest, Function.update M new (M old) pair.2 = none := by
      intro pair hpair
      rw [Function.update_of_ne]
      · exact hfree pair (List.mem_cons_of_mem _ hpair)
      · exact fun heq => hnodup.1 (List.mem_map.2 ⟨pair, hpair, heq⟩)
    obtain ⟨M', hM', hheld', hdomain⟩ := ih hrest hw
      (hM.rename hrename hnew (hpoints _ (List.mem_cons_self ..))) (hheld.rename hnew _) hlater
      hnodup.2 fun pair hpair => hpoints pair (List.mem_cons_of_mem _ hpair)
    refine ⟨M', hM', hheld', fun name d hd => ?_⟩
    rw [List.map_cons, List.mem_cons]
    rcases hdomain name d hd with ⟨e, he⟩ | hmem
    · by_cases hname : name = new
      · exact Or.inr (Or.inl hname)
      · rw [Function.update_of_ne hname] at he
        exact Or.inl ⟨e, he⟩
    · exact Or.inr (Or.inr hmem)

/-! ### Calls -/

/-- A call that a session makes. -/
inductive SessionCall where
  | extract (assignIds : Bool) (schema : Document) (c : Context)
  | shorten

/-- The schema is one that JSON can hold and that refers to no component, and it was found on a path
of texts. -/
def SessionCall.IsPlain : SessionCall → Prop
  | .extract _ schema c => schema.IsPlain ∧ c.HasTextPath
  | .shorten => True

instance : DecidablePred SessionCall.IsPlain
  | .extract _ schema c => inferInstanceAs
    (Decidable (schema.IsPlain ∧ ∀ segment ∈ c.path, segment.text?.isSome = true))
  | .shorten => inferInstanceAs (Decidable True)

/-- A workspace with what was asked of it. -/
structure Session where
  workspace : Workspace
  /-- The schemas that were passed in for the values that are held. -/
  extracted : List Document
  /-- The names that were taken from schemas. -/
  givenUp : List Text

namespace Session

def start (existing : List Text) : Session := ⟨.empty existing, [], []⟩

def call (digest : Text → Text) (st : Session) : SessionCall → Session
  | .extract assignIds schema c =>
    match (Workspace.extract ⟨digest, assignIds⟩ (.ofDocument schema) c).result st.workspace with
    | (.ok _, w) => ⟨w, st.extracted ++ [schema], st.givenUp⟩
    | (.error _, w) => ⟨w, st.extracted, st.givenUp⟩
  | .shorten =>
    match Workspace.shorten.result st.workspace with
    | (.ok plan, w) => ⟨w, st.extracted, st.givenUp ++ plan.map Prod.fst⟩
    | (.error _, w) => ⟨w, st.extracted, st.givenUp⟩

def after (digest : Text → Text) (existing : List Text) (calls : List SessionCall) : Session :=
  calls.foldl (call digest) (start existing)

/-- The values that are held, with the schemas for which they were handed out. -/
def handedOut (st : Session) : List (Linked Nat × Document) := st.workspace.held.zip st.extracted

/-- References to the same component were handed out for the same schema. -/
def MergesEqual (st : Session) : Prop := ∀ name d e,
  (.ref (.component name), d) ∈ st.handedOut → (.ref (.component name), e) ∈ st.handedOut → d = e

/-- No name is in use that was taken from a schema. -/
def ReusesNone (st : Session) : Prop :=
  ∀ name ∈ st.workspace.registry.schemas.keys, name ∉ st.givenUp

instance : DecidablePred ReusesNone := fun st =>
  inferInstanceAs (Decidable (∀ name ∈ st.workspace.registry.schemas.keys, name ∉ st.givenUp))

/-- The names mean the documents that were extracted. -/
structure Sound (digest : Text → Text) (existing : List Text) (M : Text → Option Document)
    (st : Session) : Prop where
  consistent : st.workspace.registry.Consistent digest existing
  interpreted : st.workspace.registry.Interpreted st.givenUp M
  handedOut : HandedOut M st.workspace.held st.extracted

variable {st : Session}

theorem sound_start : Sound digest existing (fun _ => none) (start existing) := by
  refine ⟨.empty, ⟨⟨?_, ?_⟩, ?_⟩, .nil⟩
  · intro digest name text hname
    cases hname
  · intro name d hd
    cases hd
  · intro name d hd
    cases hd

theorem Sound.mergesEqual (h : Sound digest existing M st) : st.MergesEqual := by
  have hmeans : ∀ name d, (.ref (.component name), d) ∈ st.handedOut → M name = some d :=
    fun name d hd => (List.forall₂_iff_zip.1 h.handedOut).2 hd name rfl
  intro name d e hd he
  exact Option.some.inj ((hmeans name d hd).symm.trans (hmeans name e he))

theorem Sound.extract (h : Sound digest existing M st) (assignIds : Bool) {schema : Document}
    (hschema : schema.IsPlain) (c : Context)
    (hnone : (st.call digest (.extract assignIds schema c)).ReusesNone) :
    ∃ M', Sound digest existing M' (st.call digest (.extract assignIds schema c)) := by
  have hconsistent : Registry.Consistent digest existing
      ((NamedSchemas.extract ⟨digest, assignIds⟩ (.ofDocument schema) c).result
        st.workspace.registry).2 :=
    @Registry.Consistent.keeps_extract Nat existing ⟨digest, assignIds⟩ (.ofDocument schema) c _
      h.consistent
  rw [call] at hnone ⊢
  cases hresult : (NamedSchemas.extract ⟨digest, assignIds⟩ (.ofDocument schema) c).result
      st.workspace.registry with
  | mk outcome r =>
    rw [hresult] at hconsistent
    cases outcome with
    | error fault =>
      rw [Workspace.result_extract_of_error hresult] at hnone ⊢
      obtain ⟨M', hM, hM', -⟩ := h.interpreted.extract hschema hresult hnone
      exact ⟨M', hconsistent, hM', h.handedOut.also hM⟩
    | ok v =>
      rw [Workspace.result_extract_of_ok hresult] at hnone ⊢
      obtain ⟨M', hM, hM', hv⟩ := h.interpreted.extract hschema hresult hnone
      refine ⟨M', hconsistent, hM', List.rel_append (h.handedOut.also hM) (.cons ?_ .nil)⟩
      intro name heq
      exact eq_some_of_expand_reference hschema (Workspace.eq_reference_of_sharing heq) (hv v rfl)

theorem Sound.shorten (h : Sound digest existing M st) (hnone : (st.call digest .shorten).ReusesNone) :
    ∃ M', Sound digest existing M' (st.call digest .shorten) := by
  rw [call] at hnone ⊢
  rcases h.consistent.result_shorten with ⟨fault, hplan, -⟩ |
    ⟨plan, t, hplan, hisPlan, hresult, hconsistent, hkeys⟩
  · rw [Workspace.result_shorten_of_error hplan]
    exact ⟨M, h.consistent, h.interpreted, h.handedOut⟩
  · obtain ⟨-, hrenameAll⟩ := shorten_eq_ok hresult
    obtain ⟨held, hrename⟩ := Workspace.result_renameEach hrenameAll
    rw [Workspace.result_shorten_of_ok hplan hrename] at hnone ⊢
    have hgiven : ∀ name ∈ plan.map Prod.snd, name ∈ t.schemas.keys := by
      intro name hname
      rw [hkeys]
      exact List.mem_append_right _ hname
    have hfree : ∀ pair ∈ plan, M pair.2 = none := by
      intro pair hpair
      have hmem : pair.2 ∈ plan.map Prod.snd := List.mem_map.2 ⟨pair, hpair, rfl⟩
      have hfresh : pair.2 ∉ st.givenUp ++ plan.map Prod.fst := hnone _ (hgiven _ hmem)
      rw [List.mem_append, not_or] at hfresh
      rw [Option.eq_none_iff_forall_ne_some]
      intro d hd
      rcases h.interpreted.used _ d hd with hused | hgone
      · exact hisPlan.not_mem_new (List.mem_append_left _ hused) hfresh.2 hmem
      · exact hfresh.1 hgone
    have hpoints : ∀ pair ∈ plan, ∀ p ∈ pair.2, p.isNamePoint = true := by
      intro pair hpair
      obtain ⟨usage, -, -, hc⟩ := exists_name_of_planFrom hplan pair hpair
      exact Context.isNamePoint_of_mem_name hc
    obtain ⟨M', hM', hheld, hdomain⟩ := Workspace.renameEach_means hrenameAll hrename
      h.interpreted.toMeant h.handedOut hfree hisPlan.nodup_new hpoints
    refine ⟨M', hconsistent, ⟨hM', fun name d hd => ?_⟩, hheld⟩
    rcases hdomain name d hd with ⟨e, he⟩ | hnew
    · rcases h.interpreted.used name e he with hused | hgone
      · by_cases hold : name ∈ plan.map Prod.fst
        · exact Or.inr (List.mem_append_right _ hold)
        · refine Or.inl ?_
          rw [hkeys]
          exact List.mem_append_left _ (List.mem_filter.2 ⟨hused, decide_eq_true hold⟩)
      · exact Or.inr (List.mem_append_left _ hgone)
    · exact Or.inl (hgiven name hnew)

theorem after_concat (before : List SessionCall) (last : SessionCall) :
    after digest existing (before ++ [last]) = (after digest existing before).call digest last :=
  List.foldl_concat ..

theorem sound_after {calls : List SessionCall} (hplain : ∀ c ∈ calls, c.IsPlain)
    (hnone : ∀ before, before <+: calls → (after digest existing before).ReusesNone) :
    ∃ M, Sound digest existing M (after digest existing calls) := by
  -- the calls are made from the first one on, so the last one is taken off
  induction calls using List.reverseRecOn with
  | nil => exact ⟨_, sound_start⟩
  | append_singleton before last ih =>
    obtain ⟨M, hM⟩ := ih (fun c hc => hplain c (List.mem_append_left _ hc))
      fun first hfirst => hnone first (hfirst.trans (List.prefix_append _ _))
    have hlast := hnone _ (List.prefix_refl _)
    rw [after_concat] at hlast ⊢
    cases last with
    | extract assignIds schema c =>
      have hschema := (hplain _ (List.mem_append_right _ (List.mem_cons_self ..))).1
      exact hM.extract assignIds hschema c hlast
    | shorten => exact hM.shorten hlast

/-- Extractions alone give no name up, and so they merge only equal schemas. -/
theorem mergesEqual_of_extractions {calls : List SessionCall} (hplain : ∀ c ∈ calls, c.IsPlain)
    (hextract : SessionCall.shorten ∉ calls) : (after digest existing calls).MergesEqual := by
  have hnone : ∀ before : List SessionCall, SessionCall.shorten ∉ before →
      (after digest existing before).givenUp = [] := by
    intro before hbefore
    induction before using List.reverseRecOn with
    | nil => rfl
    | append_singleton before last ih =>
      rw [List.mem_append, not_or] at hbefore
      have hgone := ih hbefore.1
      rw [after_concat]
      cases last with
      | extract assignIds schema c =>
        rw [call]
        split <;> exact hgone
      | shorten => exact absurd (List.mem_cons_self ..) hbefore.2
  obtain ⟨M, hM⟩ := sound_after hplain fun before hbefore name _ hgone => by
    rw [hnone before fun hmem => hextract (hbefore.subset hmem)] at hgone
    exact List.not_mem_nil hgone
  exact hM.mergesEqual

/-- Extractions and shortenings in any order merge only equal schemas, as long as no name is in use
again that a shortening took from a schema. -/
theorem mergesEqual_after {calls : List SessionCall} (hplain : ∀ c ∈ calls, c.IsPlain)
    (hnone : ∀ before, before <+: calls → (after digest existing before).ReusesNone) :
    (after digest existing calls).MergesEqual := by
  obtain ⟨M, hM⟩ := sound_after hplain hnone
  exact hM.mergesEqual

/-- A shortening in between gives the schema inside the first one the name of its shallowest use,
under which it is found again. -/
theorem mergesEqual_after_shorten :
    let calls : List SessionCall := [
      .extract true (wrapperSchema "b" (titledSchema "one")) (contextAt "/x" "getA"),
      .extract true (titledSchema "one") (contextAt "/y" "getB"),
      .shorten,
      .extract false (titledSchema "one") (contextAt "/z" "getC")]
    (after Sha256.hex [] calls).handedOut.map Prod.fst =
        [.ref (.component "GetA.X"), .ref (.component "GetB.Y"), .ref (.component "GetB.Y")] ∧
      (after Sha256.hex [] calls).MergesEqual := by
  intro calls
  have hplain : ∀ c ∈ calls, c.IsPlain := by decide +kernel
  have hnone : ∀ before ∈ calls.inits, (after Sha256.hex [] before).ReusesNone := by decide +kernel
  exact ⟨by decide +kernel, mergesEqual_after hplain fun before hbefore =>
    hnone before ((List.mem_inits before calls).2 hbefore)⟩

/-- The first schema was registered with the name of the one inside it. A shortening takes the name
away, another schema is given it, and what has that one inside is taken for the first schema. -/
theorem not_mergesEqual_after :
    ¬ ∀ calls : List SessionCall, (∀ c ∈ calls, c.IsPlain) →
      (after Sha256.hex [] calls).MergesEqual := by
  intro h
  let calls : List SessionCall := [
    .extract true (wrapperSchema "b" (titledSchema "one")) (contextAt "/x" "getA"),
    .extract true (titledSchema "one") (contextAt "/y" "getB"),
    .shorten,
    .extract true (titledSchema "two") (contextAt "/x/b" "getA"),
    .extract true (wrapperSchema "b" (titledSchema "two")) (contextAt "/z" "getC")]
  have hplain : ∀ c ∈ calls, c.IsPlain := by decide +kernel
  have hfirst : (.ref (.component "GetA.X"), wrapperSchema "b" (titledSchema "one")) ∈
      (after Sha256.hex [] calls).handedOut := by decide +kernel
  have hlast : (.ref (.component "GetA.X"), wrapperSchema "b" (titledSchema "two")) ∈
      (after Sha256.hex [] calls).handedOut := by decide +kernel
  have hequal := h calls hplain "GetA.X" _ _ hfirst hlast
  exact absurd hequal (by decide +kernel)

end Session

end NamedSchemas
