import NamedSchemas.Proofs.Extraction.Merging
import NamedSchemas.Proofs.Extraction.Owners
import NamedSchemas.Proofs.Naming.Composition
import NamedSchemas.Proofs.Shortening.OwnIdentifiers
import NamedSchemas.Proofs.Shortening.Targets
/-!
# Names after owners

The final name of a component is that of the shallowest context of its schema. A schema that is
always one property of an object occurs where the object does, one segment further, so its
shallowest context goes on from that of the object. Its final name begins with that of the object.
-/

namespace NamedSchemas

variable {digest : Text → Text} {options : ExtractionOptions} {document : Document} {e : Extraction}

/-! ### Shallowest contexts of owners and properties -/

theorem IsShallowest.child {c : Context} {contexts : List Context} (h : IsShallowest c contexts)
    (segment : Document) :
    IsShallowest (c.child segment) (contexts.map fun c => c.child segment) := by
  obtain ⟨before, behind, rfl, hbefore, hbehind⟩ := h
  have hdepth : ∀ c : Context, (c.child segment).depth = c.depth + 1 := fun c =>
    List.length_append
  refine ⟨before.map fun c => c.child segment, behind.map fun c => c.child segment, by
    rw [List.map_append, List.map_cons], ?_, ?_⟩
  · simp only [List.forall_mem_map, hdepth]
    exact fun b hb => Nat.succ_lt_succ (hbefore b hb)
  · simp only [List.forall_mem_map, hdepth]
    exact fun b hb => Nat.succ_le_succ (hbehind b hb)

/-- The shallowest context of the property goes on from that of the object. -/
theorem IsPropertyOf.shallowestContext_eq {mediaType key : Text} {owner owned : Document}
    (h : IsPropertyOf mediaType document owner key owned) (hjson : document.isJson = true)
    (howned : owned ∈ schemasOf (document.bodyOccurrences mediaType)) :
    shallowestContext (document.bodyOccurrences mediaType) owned =
      (shallowestContext (document.bodyOccurrences mediaType) owner).child (.text key) := by
  have howner := contextsOf_ne_nil (h.owner_mem hjson howned)
  rw [shallowestContext, h.contextsOf_eq hjson howned]
  exact ((isShallowest_shallowestOf howner).child _).shallowestOf_eq

/-! ### Final names -/

section Results

variable {s : ExtractionSettings} {O : List Occurrence} {r : Registry Empty}

theorem Reflects.mem_keys (hr : Reflects s document.schemaNames O O r) {d : Document}
    (hd : d ∈ schemasOf O) : nameIn O d ∈ r.schemas.keys := by
  rw [Table.keys, hr.schemas, List.map_map]
  exact List.mem_map.2 ⟨d, hd, rfl⟩

theorem Reflects.mem_usages (hr : Reflects s document.schemaNames O O r) {d : Document}
    (hd : d ∈ schemasOf O) : (nameIn O d, contextsOf O d) ∈ r.usages.entries := by
  rw [hr.usages]
  exact List.mem_map.2 ⟨d, hd, rfl⟩

theorem Sound.namedFirst (hO : Sound document.schemaNames O) {d : Document} (hd : d ∈ schemasOf O) :
    NamedFirst (nameIn O d, contextsOf O d) := by
  obtain ⟨o, ho, hfirst, hcontext⟩ := exists_firstContext hd
  refine ⟨firstContext O d, hfirst, ?_⟩
  rw [hcontext, (hO.path o ho).name_eq, nameIn, hcontext]

theorem contextsUnder_of_injective {ν : Document → Text}
    (hν : ∀ d ∈ schemasOf O, ∀ i ∈ schemasOf O, ν d = ν i → d = i) {d : Document}
    (hd : d ∈ schemasOf O) : contextsUnder ν O (ν d) = contextsOf O d := by
  refine congrArg (List.map Occurrence.context) (List.filter_congr fun o ho => ?_)
  exact decide_eq_decide.2 ⟨hν _ (mem_schemasOf_of_mem ho) _ hd, congrArg ν⟩

/-- The components hold the schemas under their final names, and are used where these occur. -/
theorem IsResult.replaces (h : IsResult digest options document
      ((document.bodies options.mediaType).map fun body => body.2.linked (nameIn O)) r e)
    (hr : Reflects s document.schemaNames O O r) {ids : Document → Option Text}
    (hholds : Holds (e.finalName O) ids (schemasOf O) (addedTo r e))
    (hO : document.bodyOccurrences options.mediaType = O)
    (hmet : O.map Occurrence.schema =
      (document.bodies options.mediaType).flatMap fun body => body.2.hoisted) :
    Replaces options.mediaType document (e.finalName O) e := by
  subst hO
  refine ⟨hmet, h.bodies_linked, fun o ho => ?_, fun o ho => ?_, fun o ho => ?_⟩
  · exact h.fresh hr _ (renamedAtOnce_mem_addedTo e (hr.mem_keys (mem_schemasOf_of_mem ho)))
  · refine ⟨o, ho, rfl, ids o.schema, ?_⟩
    have hadded := (hholds.mem_iff _).2 ⟨o.schema, mem_schemasOf_of_mem ho, rfl⟩
    obtain ⟨entry, hentry, heq⟩ := List.mem_map.1 hadded
    obtain ⟨hname, -⟩ := Prod.mk.inj heq
    rw [h.document, Value.namedSchemas_assembled]
    refine List.mem_append_right _ (List.mem_map.2 ⟨entry, hentry, ?_⟩)
    rw [hname, heq]
  · have hd := mem_schemasOf_of_mem ho
    rw [contextsUnder_of_injective hholds.injective hd, Table.get?_eq_some_iff, h.usages]
    exact List.mem_map.2 ⟨_, mem_reordered_of_mem r.usages.nodup (hr.mem_usages hd), rfl⟩

theorem Reflects.name_shallowestContext (hr : Reflects s document.schemaNames O O r)
    (hO : Sound document.schemaNames O) (hplan : r.plan = .ok e.renamed) {d : Document}
    (hd : d ∈ schemasOf O) : (shallowestContext O d).name = .ok (e.finalName O d) := by
  have htarget := targetName_of_planFrom r.usages.nodup hplan _ (hr.mem_usages hd)
  obtain ⟨c, hc, hname⟩ := (hO.namedFirst hd).shallowest htarget
  rw [shallowestContext, hc.shallowestOf_eq, hname]
  rfl

end Results

/-! ### Documents -/

theorem extractWith_namesAfterOwners (hshorten : options.shortenNames = true)
    (hjson : document.isJson = true)
    (hknown : ∀ name ∈ document.refNames, name ∈ document.schemaNames)
    (h : extractWith digest options document = .ok e) :
    let O := document.bodyOccurrences options.mediaType
    Replaces options.mediaType document (e.finalName O) e ∧
      (∀ d ∈ schemasOf O, ∀ i ∈ schemasOf O, e.finalName O d = e.finalName O i → d = i) ∧
      ∀ owner key owned, IsPropertyOf options.mediaType document owner key owned →
        owned ∈ schemasOf O → owner ∈ schemasOf O ∧ (e.finalName O owner ≠ [] →
          e.finalName O owned = e.finalName O owner ++ Naming.dotted key) := by
  intro O
  obtain ⟨r, hr, hresult, hplan⟩ := exists_reflects_of_extractWith hjson hknown h
  obtain ⟨_, hrecorded⟩ := isRecorded_of_extractWith h
  have hO : Sound document.schemaNames O := sound_bodyOccurrences hjson hknown
  obtain ⟨ids, hholds⟩ := hresult.holds hr hO
  refine ⟨hresult.replaces hr hholds rfl hrecorded.occurrences, hholds.injective,
    fun owner key owned hproperty howned => ?_⟩
  have howner := hproperty.owner_mem hjson howned
  refine ⟨howner, fun hne => ?_⟩
  have hname := hr.name_shallowestContext hO (hplan hshorten) howner
  have hchild := hr.name_shallowestContext hO (hplan hshorten) howned
  rw [hproperty.shallowestContext_eq hjson howned, Context.name_child hname hne] at hchild
  exact (Except.ok.inj hchild).symm

/-- When components are renamed after their shallowest usages, a schema that is always the same
property of an object ends with the name of the object, followed by the segments of the key. This is
so wherever and however often the object occurs, unless its own name is empty. -/
theorem extractComponents_namesAfterOwners (hshorten : options.shortenNames = true)
    (hjson : document.isJson = true)
    (hknown : ∀ name ∈ document.refNames, name ∈ document.schemaNames)
    (h : extractComponents options document = .ok e) :
    let O := document.bodyOccurrences options.mediaType
    Replaces options.mediaType document (e.finalName O) e ∧
      (∀ d ∈ schemasOf O, ∀ i ∈ schemasOf O, e.finalName O d = e.finalName O i → d = i) ∧
      ∀ owner key owned, IsPropertyOf options.mediaType document owner key owned →
        owned ∈ schemasOf O → owner ∈ schemasOf O ∧ (e.finalName O owner ≠ [] →
          e.finalName O owned = e.finalName O owner ++ Naming.dotted key) :=
  extractWith_namesAfterOwners hshorten hjson hknown h

def rankSchema : Document := .object [("enum", .list [.scalar (.int 1), .scalar (.int 2)])]

theorem isPropertyOf_rankSchema :
    IsPropertyOf jsonMediaType ordersDocument customerSchema "rank" rankSchema :=
  ⟨rfl, by decide +kernel, by unfold Value.OwnedInside; decide +kernel⟩

/-- Customers occur three times, at different depths. They and their ranks are renamed. -/
theorem extractComponents_namesAfterOwners_rank :
    let O := ordersDocument.bodyOccurrences jsonMediaType
    ∃ e, extractComponents .usual ordersDocument = .ok e ∧ e.renamed.length = 2 ∧
      e.finalName O customerSchema = "CreateOrder.Payload.Orders" ∧
      e.finalName O rankSchema = e.finalName O customerSchema ++ Naming.dotted "rank" := by
  intro O
  obtain ⟨e, h, -, hlength⟩ := exists_extraction_ordersDocument
  have hrenamed : (extractComponents .usual ordersDocument).map Extraction.renamed =
      .ok [("CreateOrder.Orders.Customer.Rank", "CreateOrder.Payload.Orders.Rank"),
        ("CreateOrder.Orders.Customer", "CreateOrder.Payload.Orders")] := by decide +kernel
  rw [h] at hrenamed
  have hcustomer : e.finalName O customerSchema = "CreateOrder.Payload.Orders" := by
    rw [Extraction.finalName, show e.renamed = _ from Except.ok.inj hrenamed]
    decide +kernel
  obtain ⟨-, -, hnames⟩ := @extractComponents_namesAfterOwners .usual ordersDocument e rfl
    (by decide +kernel) (by decide +kernel) h
  refine ⟨e, h, hlength, hcustomer, (hnames customerSchema "rank" rankSchema
    isPropertyOf_rankSchema (by decide +kernel)).2 ?_⟩
  show e.finalName O customerSchema ≠ []
  rw [hcustomer]
  decide +kernel

end NamedSchemas
