import NamedSchemas.Proofs.Extraction.NamingContexts
import NamedSchemas.Proofs.Naming.Telling
/-!
# Keys of added components

The keys of components are made of ASCII letters, digits, dots, hyphens and underscores, and are not
empty. An added component has such a key, unless it is named after a context that tells nothing:
that of a successful response of an operation without an identifier, at a path without letters and
digits.
-/

namespace NamedSchemas

variable {options : ExtractionOptions} {document : Document}

theorem Value.Names.isComponentKey {name : Text} (h : document.Names options name)
    (htells : ∀ c ∈ document.namingContexts options, c.tells = true) :
    name.isComponentKey = true := by
  obtain ⟨c, hc, hname⟩ := h
  exact (Context.isComponentKey_name_iff hname).2 (htells c hc)

/-- When every context after which components may be named tells something, a component can have
every name that is given, first or last, as its key, and has it. -/
theorem extractComponents_addsComponentKeys {e : Extraction}
    (htells : ∀ c ∈ document.namingContexts options, c.tells = true)
    (h : extractComponents options document = .ok e) :
    (∀ name ∈ e.created, name.isComponentKey = true) ∧
      (∀ pair ∈ e.renamed, pair.2.isComponentKey = true) ∧
      ∃ added, e.document.namedSchemas = document.namedSchemas ++ added ∧
        ∀ entry ∈ added, ∃ name, entry.1 = .text name ∧ name.isComponentKey = true := by
  obtain ⟨hcreated, hrenamed, added, hschemas, hadded⟩ := names_of_extractWith h
  refine ⟨fun name hname => (hcreated name hname).isComponentKey htells,
    fun pair hpair => (hrenamed pair hpair).isComponentKey htells, added, hschemas,
    fun entry hentry => ?_⟩
  obtain ⟨name, hkey, hname⟩ := hadded entry hentry
  exact ⟨name, hkey, hname.isComponentKey htells⟩

/-- Every context of this document tells something, and two components are renamed. -/
theorem extractComponents_addsComponentKeys_orders : ∃ e,
    (∀ c ∈ ordersDocument.namingContexts .usual, c.tells = true) ∧
      extractComponents .usual ordersDocument = .ok e ∧ e.created.length = 3 ∧
      e.renamed.length = 2 ∧ (∀ name ∈ e.created, name.isComponentKey = true) ∧
      ∀ pair ∈ e.renamed, pair.2.isComponentKey = true := by
  have htells : ∀ c ∈ ordersDocument.namingContexts .usual, c.tells = true := by decide +kernel
  obtain ⟨e, h, hcreated, hrenamed⟩ := exists_extraction_ordersDocument
  obtain ⟨hfirst, hlast, -⟩ := extractComponents_addsComponentKeys htells h
  exact ⟨e, htells, h, hcreated, hrenamed, hfirst, hlast⟩

def rootDocument : Document :=
  .object [("paths", .object [("/", .object [("get", .object [
    ("responses", .object [("200", bodyWith (.object [("type", .text "object")]))])])])])]

/-- Its component has the empty text as its name, and as its key. -/
theorem not_addsComponentKeys_root : ∃ e, rootDocument.isJson = true ∧
    extractComponents .usual rootDocument = .ok e ∧ e.created = [[]] ∧
      e.document.schemaNames = [[]] ∧ Text.isComponentKey [] = false := by
  have hnames : (extractComponents .usual rootDocument).toOption.map
      (fun e => (e.created, e.document.schemaNames)) = some ([[]], [[]]) := by decide +kernel
  cases h : extractComponents .usual rootDocument with
  | error fault =>
    rw [h] at hnames
    cases hnames
  | ok e =>
    rw [h] at hnames
    obtain ⟨hcreated, hschemas⟩ := Prod.mk.inj (Option.some.inj hnames)
    exact ⟨e, by decide +kernel, rfl, hcreated, hschemas, rfl⟩

end NamedSchemas
