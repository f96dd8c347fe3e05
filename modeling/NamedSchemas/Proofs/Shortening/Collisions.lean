import NamedSchemas.Proofs.Extraction.Refinement
import NamedSchemas.Proofs.Shortening.Targets
/-!
# Collisions

The renamings of a plan are made one after the other. A name is free when its turn comes only if no
schema behind still has it, whether or not that schema is to be renamed later. So besides two
schemas that have one target and a target that is reserved, a target collides with the name of a
schema behind.
-/

namespace NamedSchemas

deriving instance DecidableEq for Context

/-- The target of a schema with this name and these usages, which have names. -/
def target (usage : Text × List Context) : Text :=
  if 2 ≤ usage.2.length then (shallowestOf usage.2).nameText else usage.1

/-- Some target is not free when its turn comes. -/
inductive Collides (reserved : List Text) (usages : List (Text × List Context)) : Prop
  | shared {a b : Text × List Context} :
    [a, b].Sublist usages → target a = target b → Collides reserved usages
  | reserved {a : Text × List Context} :
    a ∈ usages → target a ∈ reserved → Collides reserved usages
  | behind {a b : Text × List Context} :
    [a, b].Sublist usages → target a = b.1 → Collides reserved usages

variable {taken others : List Text} {usage : Text × List Context} {usages : List (Text × List Context)}

theorem targetName_eq (h : ∀ c ∈ usage.2, c.HasTextPath) : targetName usage = .ok (target usage) := by
  obtain ⟨name, contexts⟩ := usage
  match contexts, h with
  | [], _ => rfl
  | [_], _ => rfl
  | first :: second :: rest, h =>
    have hname := (h _ (shallowest_mem first (second :: rest))).name_eq
    rw [targetName_of_shared, shallowestOf, hname, target, if_pos (by simp)]
    rfl

/-- Nothing collides when the targets differ from each other, from the names of schemas behind, and
from the reserved names. -/
theorem not_collides_iff : ¬ Collides others usages ↔
    (∀ usage ∈ usages, target usage ∉ others) ∧
      usages.Pairwise fun a b => target a ≠ target b ∧ target a ≠ b.1 := by
  rw [List.pairwise_iff_forall_sublist]
  constructor
  · intro h
    exact ⟨fun usage husage hmem => h (.reserved husage hmem),
      fun hpair => ⟨fun heq => h (.shared hpair heq), fun heq => h (.behind hpair heq)⟩⟩
  · rintro ⟨hreserved, hpairs⟩ hcollides
    cases hcollides with
    | shared hpair heq => exact (hpairs hpair).1 heq
    | reserved husage hmem => exact hreserved _ husage hmem
    | behind hpair heq => exact (hpairs hpair).2 heq

/-- Once the first schema has come to its target, that is one more name that is in use elsewhere. -/
theorem not_collides_cons (usage : Text × List Context) :
    ¬ Collides others (usage :: usages) ↔
      (target usage ∉ usages.map Prod.fst ∧ target usage ∉ others) ∧
        ¬ Collides (target usage :: others) usages := by
  simp only [not_collides_iff, List.pairwise_cons, List.mem_cons, List.mem_map, not_or, forall_and]
  grind

/-- A plan can be made for schemas exactly when nothing collides. -/
theorem exists_planFrom_iff (htext : ∀ usage ∈ usages, ∀ c ∈ usage.2, c.HasTextPath)
    (hnodup : (usages.map Prod.fst).Nodup) (hfresh : ∀ name ∈ usages.map Prod.fst, name ∉ others)
    (htaken : ∀ name, name ∈ taken ↔ name ∈ usages.map Prod.fst ∨ name ∈ others) :
    (∃ plan, planFrom taken usages = .ok plan) ↔ ¬ Collides others usages := by
  induction usages generalizing taken others with
  | nil =>
    refine iff_of_true ⟨[], rfl⟩ (not_collides_iff.2 ⟨?_, List.Pairwise.nil⟩)
    exact fun _ h => absurd h List.not_mem_nil
  | cons first rest ih =>
    obtain ⟨hfirst, htextRest⟩ := List.forall_mem_cons.1 htext
    rw [List.map_cons, List.forall_mem_cons] at hfresh
    rw [List.map_cons, List.nodup_cons] at hnodup
    simp only [List.map_cons, List.mem_cons] at htaken
    have hstays : ∀ {new}, new ∉ rest.map Prod.fst →
        ∀ name ∈ rest.map Prod.fst, name ∉ new :: others := by
      rintro new hnew name hname hmem
      rcases List.mem_cons.1 hmem with rfl | hmem
      · exact hnew hname
      · exact hfresh.2 name hname hmem
    rw [planFrom_cons, targetName_eq hfirst, not_collides_cons]
    dsimp only
    split
    · next hsame =>
      rw [hsame, ih htextRest hnodup.2 (hstays hnodup.1), and_iff_right ⟨hnodup.1, hfresh.1⟩]
      intro name
      rw [htaken, List.mem_cons]
      tauto
    next hmoved =>
    split
    · next hmem =>
      refine iff_of_false (by rintro ⟨_, h⟩; cases h) fun hfree => ?_
      exact ((htaken _).1 hmem).elim (·.elim hmoved hfree.1.1) hfree.1.2
    · next hfree =>
      rw [htaken, not_or, not_or] at hfree
      have hnext : ∀ name, name ∈ target first :: taken.filter (· ≠ first.1) ↔
          name ∈ rest.map Prod.fst ∨ name ∈ target first :: others := by
        intro name
        simp only [List.mem_cons, List.mem_filter, decide_eq_true_eq, htaken]
        grind
      rw [and_iff_right ⟨hfree.1.2, hfree.2⟩, ← ih htextRest hnodup.2 (hstays hfree.1.2) hnext]
      cases planFrom (target first :: taken.filter (· ≠ first.1)) rest with
      | error fault => exact iff_of_false (by rintro ⟨_, h⟩; cases h) (by rintro ⟨_, h⟩; cases h)
      | ok plan => exact iff_of_true ⟨_, rfl⟩ ⟨_, rfl⟩

/-- Whether something collides depends on the order of the schemas only through which ones are
behind a schema whose target they have as their name. -/
theorem collides_of_perm {first second : List (Text × List Context)} (hperm : first.Perm second)
    (horder : ∀ a b, target a = b.1 → [a, b].Sublist first → [a, b].Sublist second)
    (h : Collides others first) : Collides others second := by
  cases h with
  | @shared a b hpair heq =>
    by_contra hfree
    have hdiffer : second.Pairwise fun a b => target a ≠ target b :=
      (not_collides_iff.1 hfree).2.imp And.left
    rw [← hperm.pairwise_iff fun h => h.symm] at hdiffer
    exact List.pairwise_iff_forall_sublist.1 hdiffer hpair heq
  | reserved husage hmem => exact .reserved (hperm.subset husage) hmem
  | behind hpair heq => exact .behind (horder _ _ heq hpair) heq

variable {σ : Type} [DecidableEq σ] {digest : Text → Text} {existing : List Text} {r : Registry σ}

namespace Registry

/-- Every usage has a path of texts. -/
def HasTextPaths (r : Registry σ) : Prop :=
  ∀ usage ∈ r.usages.entries, ∀ c ∈ usage.2, c.HasTextPath

/-- No plan can be made because a renaming would give a name that is in use. -/
def PlanRefused (r : Registry σ) : Prop := ∃ old new, r.plan = .error (.renameTaken old new)

/-- Some target collides. -/
def Collides (r : Registry σ) : Prop := NamedSchemas.Collides r.reserved r.usages.entries

theorem Extracted.planned_or_refused (h : r.Extracted digest existing) (htext : r.HasTextPaths) :
    (∃ plan, r.plan = .ok plan ∧ ¬ r.Collides) ∨
      ∃ old new, r.plan = .error (.renameTaken old new) ∧ r.Collides := by
  have hconsistent := consistent_of_reached h.reached
  have hiff : (∃ plan, r.plan = .ok plan) ↔ ¬ r.Collides := by
    apply exists_planFrom_iff htext r.usages.nodup
    · show ∀ name ∈ r.usages.keys, name ∉ r.reserved
      rw [hconsistent.usages, hconsistent.reserved]
      exact hconsistent.fresh
    · intro name
      rw [List.mem_append, ← hconsistent.usages]
      rfl
  cases hplan : r.plan with
  | ok plan => exact Or.inl ⟨plan, rfl, hiff.1 ⟨plan, hplan⟩⟩
  | error fault =>
    have hcollides : r.Collides := by
      by_contra hfree
      obtain ⟨plan, hok⟩ := hiff.2 hfree
      cases hplan.symm.trans hok
    rcases planFrom_eq_error hplan with ⟨old, new, rfl⟩ | ⟨usage, husage, hne, found, -, hfound⟩
    · exact Or.inr ⟨old, new, rfl, hcollides⟩
    · cases (htext usage husage _ (shallowestOf_mem hne)).name_eq.symm.trans hfound

/-- After extractions, that a plan is refused tells exactly that something collides. The order of
the schemas matters only between two of which one has the name of the other as its target. -/
theorem planRefused_iff_collides (h : r.Extracted digest existing) (htext : r.HasTextPaths) :
    (r.PlanRefused ↔ r.Collides) ∧ ((∃ plan, r.plan = .ok plan) ↔ ¬ r.Collides) ∧
      ∀ t : Registry σ, t.Extracted digest existing → t.usages.entries.Perm r.usages.entries →
        (∀ a b, target a = b.1 →
          ([a, b].Sublist t.usages.entries ↔ [a, b].Sublist r.usages.entries)) →
        (t.PlanRefused ↔ r.PlanRefused) := by
  have hrefused : ∀ {t : Registry σ}, t.Extracted digest existing → t.HasTextPaths →
      (t.PlanRefused ↔ t.Collides) ∧ ((∃ plan, t.plan = .ok plan) ↔ ¬ t.Collides) := by
    intro t ht htextT
    rcases ht.planned_or_refused htextT with ⟨plan, hplan, hfree⟩ | ⟨old, new, hplan, hcollides⟩
    · refine ⟨iff_of_false ?_ hfree, iff_of_true ⟨plan, hplan⟩ hfree⟩
      rintro ⟨old, new, hrefused⟩
      cases hplan.symm.trans hrefused
    · refine ⟨iff_of_true ⟨old, new, hplan⟩ hcollides, iff_of_false ?_ (not_not.2 hcollides)⟩
      rintro ⟨plan, hok⟩
      cases hplan.symm.trans hok
  refine ⟨(hrefused h htext).1, (hrefused h htext).2, fun t ht hperm horder => ?_⟩
  have htextT : t.HasTextPaths := fun usage husage => htext usage (hperm.subset husage)
  have hreserved : t.reserved = r.reserved :=
    (consistent_of_reached ht.reached).reserved.trans (consistent_of_reached h.reached).reserved.symm
  rw [(hrefused ht htextT).1, (hrefused h htext).1, Collides, Collides, hreserved]
  exact ⟨collides_of_perm hperm fun a b hab => (horder a b hab).1,
    collides_of_perm hperm.symm fun a b hab => (horder a b hab).2⟩

/-- The schema in front is due the name of the one behind. -/
theorem planRefused_iff_collides_behind : ∃ r : Registry Empty, r.Extracted Sha256.hex [] ∧
    r.usages.keys = ["GetA.X.B", "GetB.Y.D"] ∧ r.Collides ∧ ¬ ∃ plan, r.plan = .ok plan := by
  obtain ⟨r, h, hkeys, htext, hplan⟩ : ∃ r : Registry Empty, r.Extracted Sha256.hex [] ∧
      r.usages.keys = ["GetA.X.B", "GetB.Y.D"] ∧ r.HasTextPaths ∧
      r.plan = .error (.renameTaken "GetA.X.B" "GetB.Y.D") := by
    refine ⟨_, (((Extracted.empty.extract true (titledSchema "one")
      ((contextAt "/x" "getA").child (.text "b"))).extract true (titledSchema "two")
      ((contextAt "/y" "getB").child (.text "d"))).extract true (titledSchema "one")
      (contextAt "/y/d" "getB")), ?_⟩
    unfold HasTextPaths Context.HasTextPath
    decide +kernel
  have hcollides := (planRefused_iff_collides h htext).1.1 ⟨_, _, hplan⟩
  exact ⟨r, h, hkeys, hcollides, fun hok => (planRefused_iff_collides h htext).2.1.1 hok hcollides⟩

/-- Two extractions in one or the other order, and two more that tell of further usages: the targets
differ and none is reserved, but the plan is refused in one of the orders. -/
theorem not_planRefused_iff_shared_or_reserved :
    (¬ ∀ r : Registry Empty, r.Extracted Sha256.hex [] → r.HasTextPaths →
      (r.PlanRefused ↔ ¬ (r.usages.entries.map target).Nodup ∨
        ∃ usage ∈ r.usages.entries, target usage ∈ r.reserved)) ∧
    ¬ ∀ r t : Registry Empty, r.Extracted Sha256.hex [] → t.Extracted Sha256.hex [] →
      r.HasTextPaths → t.usages.entries.Perm r.usages.entries →
      (t.PlanRefused ↔ r.PlanRefused) := by
  obtain ⟨r, h, htext, htargets, hreserved, husages, hplan⟩ : ∃ r : Registry Empty,
      r.Extracted Sha256.hex [] ∧ r.HasTextPaths ∧
      r.usages.entries.map target = ["GetB.Y.D", "GetC.Z"] ∧ r.reserved = [] ∧
      r.usages.entries = [
        (.ofString "GetA.X.B", [(contextAt "/x" "getA").child (.text "b"), contextAt "/y/d" "getB"]),
        (.ofString "GetB.Y.D", [(contextAt "/y" "getB").child (.text "d"), contextAt "/z" "getC"])] ∧
      r.plan = .error (.renameTaken "GetA.X.B" "GetB.Y.D") := by
    refine ⟨_, ((((Extracted.empty.extract true (titledSchema "one")
      ((contextAt "/x" "getA").child (.text "b"))).extract true (titledSchema "two")
      ((contextAt "/y" "getB").child (.text "d"))).extract true (titledSchema "one")
      (contextAt "/y/d" "getB")).extract true (titledSchema "two") (contextAt "/z" "getC")), ?_⟩
    unfold HasTextPaths Context.HasTextPath
    decide +kernel
  obtain ⟨t, ht, husagesT, hplanT⟩ : ∃ t : Registry Empty, t.Extracted Sha256.hex [] ∧
      t.usages.entries = [
        (.ofString "GetB.Y.D", [(contextAt "/y" "getB").child (.text "d"), contextAt "/z" "getC"]),
        (.ofString "GetA.X.B", [(contextAt "/x" "getA").child (.text "b"), contextAt "/y/d" "getB"])] ∧
      t.plan = .ok [("GetB.Y.D", "GetC.Z"), ("GetA.X.B", "GetB.Y.D")] := by
    refine ⟨_, ((((Extracted.empty.extract true (titledSchema "two")
      ((contextAt "/y" "getB").child (.text "d"))).extract true (titledSchema "one")
      ((contextAt "/x" "getA").child (.text "b"))).extract true (titledSchema "one")
      (contextAt "/y/d" "getB")).extract true (titledSchema "two") (contextAt "/z" "getC")), ?_⟩
    decide +kernel
  have hrefused : r.PlanRefused := ⟨_, _, hplan⟩
  constructor
  · intro hexact
    rcases (hexact r h htext).1 hrefused with hshared | ⟨usage, -, hmem⟩
    · rw [htargets] at hshared
      exact hshared (by decide +kernel)
    · rw [hreserved] at hmem
      cases hmem
  · intro hregardless
    have hperm : t.usages.entries.Perm r.usages.entries := by
      rw [husages, husagesT]
      exact .swap ..
    obtain ⟨old, new, hrefusedT⟩ := (hregardless r t h ht htext hperm).2 hrefused
    cases hplanT.symm.trans hrefusedT

end Registry

end NamedSchemas
