import NamedSchemas.CommandLine.Run
import NamedSchemas.Proofs.Storage.Files
import NamedSchemas.Yaml.Writer
/-!
# All or nothing

A run of the command line writes the whole result to one place or it writes nothing. Its text is
complete before the place is opened, so whatever fails on the way to it leaves all files as they
were. That is so with every library for YAML.
-/

namespace NamedSchemas.CommandLine

variable {yaml : YamlLibrary} {r : Request} {tree left : FileTree} {outcome : Outcome}
  {content : List Char}

/-! ### What is asked for -/

/-- No name is given that is not empty, neither by the option nor by the argument without one. -/
def Request.NamesNothing (r : Request) : Prop :=
  (∀ name, r.entrypoint = some name → name = []) ∧ ∀ name, r.positional = some name → name = []

/-- The text in the requested format, or in that of the file, of the result for the document that
the request names. -/
def Request.Yields (yaml : YamlLibrary) (r : Request) (tree : FileTree) (content : List Char) :
    Prop :=
  ∃ name document e, r.source = some name ∧
    (loadDocument yaml FileTree.access (.ofText name)).run tree = (.ok document, tree) ∧
    extractShared ⟨r.mediaType, r.assignIds, r.shortenNames⟩ document = .ok e ∧
    dump yaml (r.format.getD (.ofPath (.ofText name))) r.pretty e.document = .ok content

/-- The text goes to the file that the request names, or else to the standard output. -/
def Request.Delivers (r : Request) (content : List Char) (tree : FileTree) (output : Text)
    (left : FileTree) : Prop :=
  match r.target with
  | none => output = Text.ofChars content ∧ left = tree
  | some file => output = [] ∧ ∃ place, tree.resolve (.ofText file) = .ok place ∧
      FileTree.Written place (Utf8.encode content) tree left

def Request.Fails (yaml : YamlLibrary) (r : Request) (tree : FileTree) : Prop :=
  ∃ name, r.source = some name ∧ tree.Has (.ofText name) ∧
    ((∃ fault, (loadDocument yaml FileTree.access (.ofText name)).run tree = (.error fault, tree)) ∨
      ∃ document fault,
        (loadDocument yaml FileTree.access (.ofText name)).run tree = (.ok document, tree) ∧
        extractShared ⟨r.mediaType, r.assignIds, r.shortenNames⟩ document = .error fault)

/-- The request names no document, or one that is not there. -/
def Request.FindsNothing (r : Request) (tree : FileTree) : Prop :=
  r.NamesNothing ∨ ∃ name, r.source = some name ∧ ¬ tree.Has (.ofText name)

theorem Request.source_eq_none : r.source = none ↔ r.NamesNothing := by
  simp [source, NamesNothing]

theorem resultOf_eq_ok {loaded : Except LoadFault (Graph Empty)} {e : SharedExtraction} :
    resultOf r loaded = .ok e ↔ ∃ document, loaded = .ok document ∧
      extractShared ⟨r.mediaType, r.assignIds, r.shortenNames⟩ document = .ok e := by
  cases loaded with
  | error fault => simp [resultOf]
  | ok document =>
    cases h : extractShared ⟨r.mediaType, r.assignIds, r.shortenNames⟩ document <;>
      simp [resultOf, Except.mapError, h]

theorem exists_resultOf_eq_error {loaded : Except LoadFault (Graph Empty)} :
    (∃ fault, resultOf r loaded = .error fault) ↔ (∃ fault, loaded = .error fault) ∨
      ∃ document fault, loaded = .ok document ∧
        extractShared ⟨r.mediaType, r.assignIds, r.shortenNames⟩ document = .error fault := by
  cases loaded with
  | error fault => simp [resultOf]
  | ok document =>
    cases h : extractShared ⟨r.mediaType, r.assignIds, r.shortenNames⟩ document <;>
      simp [resultOf, Except.mapError, h]

theorem loadDocument_run (yaml : YamlLibrary) (path : Path) (tree : FileTree) :
    (loadDocument yaml FileTree.access path).run tree =
      (documentIn yaml path (tree.read path), tree) := rfl

theorem loadDocument_eq {path : Path} {loaded : Except LoadFault (Graph Empty)} :
    (loadDocument yaml FileTree.access path).run tree = (loaded, tree) ↔
      documentIn yaml path (tree.read path) = loaded :=
  ⟨fun h => congrArg Prod.fst h, fun h => congrArg (·, tree) h⟩

theorem Request.yields_iff : r.Yields yaml tree content ↔ ∃ name e, r.source = some name ∧
    resultOf r (documentIn yaml (.ofText name) (tree.read (.ofText name))) = .ok e ∧
    contentOf yaml r (.ofText name) e = .ok content := by
  simp only [Yields, loadDocument_eq, resultOf_eq_ok]
  constructor
  · rintro ⟨name, document, e, hname, hdocument, he, hcontent⟩
    exact ⟨name, e, hname, ⟨document, hdocument, he⟩, hcontent⟩
  · rintro ⟨name, e, hname, ⟨document, hdocument, he⟩, hcontent⟩
    exact ⟨name, document, e, hname, hdocument, he, hcontent⟩

theorem Request.fails_iff : r.Fails yaml tree ↔ ∃ name fault, r.source = some name ∧
    tree.present (.ofText name) = .ok true ∧
    resultOf r (documentIn yaml (.ofText name) (tree.read (.ofText name))) = .error fault := by
  simp only [Fails, loadDocument_eq, FileTree.present_eq_true]
  constructor
  · rintro ⟨name, hname, hhas, hfails⟩
    obtain ⟨fault, hfault⟩ := exists_resultOf_eq_error.2 hfails
    exact ⟨name, fault, hname, hhas, hfault⟩
  · rintro ⟨name, fault, hname, hhas, hfault⟩
    exact ⟨name, hname, hhas, exists_resultOf_eq_error.1 ⟨fault, hfault⟩⟩

/-! ### How runs end -/

theorem deliver_run (target : Option Text) (errors : Text) (content : List Char) (tree : FileTree) :
    (deliver FileTree.access target errors content).run tree =
      match target with
      | none => (⟨Text.ofChars content, errors, .finished 0⟩, tree)
      | some file =>
        match tree.write (.ofText file) (Utf8.encode content) with
        | .ok left => (⟨[], errors, .finished 0⟩, left)
        | .error fault => (⟨[], errors, .escaped (.file fault)⟩, tree) := by
  cases target with
  | none => rfl
  | some file =>
    rw [deliver, StateT.run_bind, FileTree.run_write]
    dsimp only
    cases tree.write (.ofText file) (Utf8.encode content) <;> rfl

theorem Request.run_eq (yaml : YamlLibrary) (r : Request) (tree : FileTree) :
    (r.run yaml FileTree.access).run tree = match r.source with
    | none =>
      (.failed 2 "missing entrypoint (provide a positional entrypoint or --entrypoint).", tree)
    | some name =>
      match tree.present (.ofText name) with
      | .error fault => (⟨[], [], .escaped (.file fault)⟩, tree)
      | .ok false =>
        (.failed 2 (Text.ofString "entrypoint does not exist: " ++ (Path.ofText name).text), tree)
      | .ok true =>
        match resultOf r (documentIn yaml (.ofText name) (tree.read (.ofText name))) with
        | .error fault => (.failed 1 fault.message, tree)
        | .ok e =>
          match contentOf yaml r (.ofText name) e with
          | .error fault =>
            (⟨[], if r.verbose then report e else [], .escaped (.unwritable fault)⟩, tree)
          | .ok content =>
            (deliver FileTree.access r.target (if r.verbose then report e else []) content).run
              tree := by
  unfold Request.run
  cases r.source with
  | none => rfl
  | some name =>
    show (match tree.present (.ofText name) with
      | .error fault => (pure ⟨[], [], .escaped (.file fault)⟩ : StateM FileTree Outcome)
      | .ok false => _
      | .ok true => _).run tree = _
    dsimp only
    cases tree.present (.ofText name) with
    | error fault => rfl
    | ok answer =>
      cases answer with
      | false => rfl
      | true =>
        dsimp only
        rw [StateT.run_bind, loadDocument_run]
        dsimp only [Id.run, bind]
        cases resultOf r (documentIn yaml (.ofText name) (tree.read (.ofText name))) with
        | error fault => rfl
        | ok e =>
          dsimp only
          cases contentOf yaml r (.ofText name) e <;> rfl

/-- How the run of a request ends, and the files that it leaves. -/
inductive Request.Ends (yaml : YamlLibrary) (r : Request) (tree : FileTree) :
    Outcome → FileTree → Prop
  | delivered {content : List Char} {output : Text} {left : FileTree} (errors : Text) :
    r.Yields yaml tree content → r.Delivers content tree output left →
      Ends yaml r tree ⟨output, errors, .finished 0⟩ left
  | failed (message : Text) : r.Fails yaml tree → Ends yaml r tree (.failed 1 message) tree
  | missing (message : Text) : r.FindsNothing tree → Ends yaml r tree (.failed 2 message) tree
  | escaped (errors : Text) (fault : Escape) : Ends yaml r tree ⟨[], errors, .escaped fault⟩ tree

theorem deliver_ends (hyields : r.Yields yaml tree content) (errors : Text) : ∃ outcome left,
    (deliver FileTree.access r.target errors content).run tree = (outcome, left) ∧
      r.Ends yaml tree outcome left := by
  rw [deliver_run]
  cases htarget : r.target with
  | none =>
    refine ⟨_, _, rfl, .delivered errors hyields ?_⟩
    rw [Request.Delivers, htarget]
    exact ⟨rfl, rfl⟩
  | some file =>
    dsimp only
    cases hwrite : tree.write (.ofText file) (Utf8.encode content) with
    | error fault => exact ⟨_, _, rfl, .escaped _ _⟩
    | ok left =>
      refine ⟨_, _, rfl, .delivered errors hyields ?_⟩
      rw [Request.Delivers, htarget]
      exact ⟨rfl, FileTree.written_of_write hwrite⟩

theorem Request.exists_ends (yaml : YamlLibrary) (r : Request) (tree : FileTree) :
    ∃ outcome left, (r.run yaml FileTree.access).run tree = (outcome, left) ∧
      r.Ends yaml tree outcome left := by
  rw [Request.run_eq]
  cases hsource : r.source with
  | none => exact ⟨_, _, rfl, .missing _ (Or.inl (source_eq_none.1 hsource))⟩
  | some name =>
    dsimp only
    cases hpresent : tree.present (.ofText name) with
    | error fault => exact ⟨_, _, rfl, .escaped _ _⟩
    | ok answer =>
      cases answer with
      | false =>
        exact ⟨_, _, rfl,
          .missing _ (Or.inr ⟨name, hsource, FileTree.not_has_of_present hpresent⟩)⟩
      | true =>
        dsimp only
        cases hresult : resultOf r (documentIn yaml (.ofText name) (tree.read (.ofText name))) with
        | error fault =>
          exact ⟨_, _, rfl, .failed _ (fails_iff.2 ⟨name, fault, hsource, hpresent, hresult⟩)⟩
        | ok e =>
          dsimp only
          cases hcontent : contentOf yaml r (.ofText name) e with
          | error fault => exact ⟨_, _, rfl, .escaped _ _⟩
          | ok content =>
            exact deliver_ends (yields_iff.2 ⟨name, e, hsource, hresult, hcontent⟩) _

theorem Request.Ends.finished_one (h : r.Ends yaml tree outcome left)
    (hrun : (r.run yaml FileTree.access).run tree = (outcome, left)) :
    outcome.ending = .finished 1 ↔ r.Fails yaml tree := by
  constructor
  · intro hending
    cases h with
    | failed _ hfails => exact hfails
    | _ => cases hending
  · intro hfails
    obtain ⟨name, fault, hsource, hpresent, hresult⟩ := fails_iff.1 hfails
    rw [run_eq, hsource] at hrun
    simp only [hpresent, hresult] at hrun
    rw [← (Prod.mk.inj hrun).1]
    rfl

theorem Request.Ends.finished_two (h : r.Ends yaml tree outcome left)
    (hrun : (r.run yaml FileTree.access).run tree = (outcome, left)) :
    outcome.ending = .finished 2 ↔ r.FindsNothing tree ∧
      ∀ name, r.source = some name → ¬ tree.TooLong (.ofText name) := by
  constructor
  · intro hending
    refine ⟨?_, fun name hsource => FileTree.exists_present.1 ?_⟩
    · cases h with
      | missing _ hmissing => exact hmissing
      | _ => cases hending
    · rw [run_eq, hsource] at hrun
      cases hpresent : tree.present (.ofText name) with
      | ok answer => exact ⟨answer, rfl⟩
      | error fault =>
        simp only [hpresent] at hrun
        rw [← (Prod.mk.inj hrun).1] at hending
        cases hending
  · rintro ⟨hnothing | ⟨name, hsource, hhas⟩, htold⟩
    · rw [run_eq, source_eq_none.2 hnothing] at hrun
      rw [← (Prod.mk.inj hrun).1]
      rfl
    · obtain ⟨answer, hpresent⟩ := FileTree.exists_present.2 (htold name hsource)
      cases answer with
      | true => exact absurd (FileTree.present_eq_true.1 hpresent) hhas
      | false =>
        rw [run_eq, hsource] at hrun
        simp only [hpresent] at hrun
        rw [← (Prod.mk.inj hrun).1]
        rfl

/-! ### The command line -/

def objectTree : FileTree :=
  let lines := ["paths:", "  /x:", "    get:", "      operationId: getA", "      responses:",
    "        default:", "          content:", "            application/json:",
    "              schema:", "                type: object"]
  ⟨[], ⟨[(["api.yaml"], Utf8.encode (lines.flatMap fun line => (line ++ "\n").toList))],
    List.nodup_singleton _⟩⟩

/-- A name of 256 characters, one more than the name of a file may have. -/
def tooLongName : Text := List.replicate 256 (CodePoint.ofChar 'x')

end NamedSchemas.CommandLine
