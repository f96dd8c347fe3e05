import NamedSchemas.Proofs.Json.Characters
import NamedSchemas.Proofs.Json.Writable
import NamedSchemas.Yaml.Writer
/-!
# Saved documents

A document that is saved as JSON, on one line or indented, is the document that is loaded again.
JSON text is ASCII without carriage returns, so neither its encoding nor the line ends of the file
change it.
-/

namespace NamedSchemas

/-! ### From octets to characters -/

theorem Utf8.decodeFrom_encode {cs : List Char} (h : ∀ c ∈ cs, c.toNat < 0x80) (position : Nat) :
    decodeFrom position (encode cs) = .ok cs := by
  induction cs generalizing position with
  | nil => rfl
  | cons c cs ih =>
    rw [List.forall_mem_cons] at h
    have hsize : c.utf8Size = 1 := by
      rw [Char.utf8Size_eq_one_iff, UInt32.le_iff_toNat_le]
      have hc : c.val.toNat < 0x80 := h.1
      show c.val.toNat ≤ 0x7F
      omega
    have hnat : c.val.toUInt8.toNat = c.toNat := by
      have hmod : c.val.toUInt8.toNat = c.val.toNat % 256 := UInt32.toNat_toUInt8 _
      have hc : c.val.toNat < 0x80 := h.1
      rw [hmod, Nat.mod_eq_of_lt (by omega)]
      rfl
    have hbelow : c.val.toUInt8 < 0x80 := by
      rw [UInt8.lt_iff_toNat_lt, hnat]
      exact h.1
    have hrest := ih h.2 (position + 1)
    rw [encode] at hrest
    rw [encode, List.flatMap_cons, String.utf8EncodeChar_eq_singleton hsize, List.singleton_append,
      decodeFrom.eq_def]
    simp only [hbelow, if_true, hrest, hnat, character, List.foldl_nil, Char.ofNat_toNat]
    rfl

theorem Utf8.decode_encode {cs : List Char} (h : ∀ c ∈ cs, c.toNat < 0x80) :
    decode (encode cs) = .ok cs := decodeFrom_encode h 0

theorem Lines.unified_of_not_mem {cs : List Char} (h : '\r' ∉ cs) : unified cs = cs := by
  fun_induction unified cs with
  | case1 rest ih => exact absurd (List.mem_cons_self ..) h
  | case2 rest hne ih => exact absurd (List.mem_cons_self ..) h
  | case3 c rest hne hne' ih => rw [ih fun hmem => h (List.mem_cons_of_mem c hmem)]
  | case4 => rfl

namespace Json

theorem toNat_lt_of_isWritten {c : Char} (h : isWritten c = true) : c.toNat < 0x80 := by
  simp only [isWritten, Bool.or_eq_true, Bool.and_eq_true, decide_eq_true_eq, beq_iff_eq] at h
  rcases h with h | rfl
  · omega
  · decide

/-! ### From characters to documents -/

/-- Blank space around a text does not matter for what it is read as. -/
theorem read_append {d : Document} {cs gap : List Char} (hread : ReadsBack d cs)
    (hfuel : d.readingFuel < 2 * cs.length) (hwritten : cs.all isWritten = true)
    (hgap : ∀ c ∈ gap, isBlank c = true) : read (cs ++ gap) = .ok d := by
  have hends : EndsNumber gap := List.append_nil gap ▸ endsNumber_append hgap endsNumber_nil
  have hskip : skipBlank gap = [] := List.append_nil gap ▸ skipBlank_append hgap []
  have hvalue : readValue (2 * (cs ++ gap).length + 2) (cs ++ gap) = .ok (d, gap) := by
    refine hread.read hends ?_
    rw [List.length_append]
    omega
  have hstart := hread.starts.skipBlank gap
  obtain ⟨c, rest, rfl, -⟩ := hread.starts
  have hmark : c ≠ '\uFEFF' := by
    rintro rfl
    exact absurd (List.all_eq_true.1 hwritten _ (List.mem_cons_self ..)) (by decide)
  have htext : readText (c :: rest ++ gap) = .ok d := by
    have hunmarked : ∀ tail, c :: rest ++ gap = '\uFEFF' :: tail → False :=
      fun _ heq => hmark (List.cons.inj heq).1
    rw [readText.eq_2 _ hunmarked, hstart, hvalue]
    simp only [bind, Except.bind, hskip]
    rfl
  rw [read, htext]

end Json

/-! ### From files to documents -/

/-- Both layouts of files are a layout of JSON text, with line feeds behind it or without. -/
theorem exists_jsonText_eq (pretty : Bool) (d : Document) : ∃ layout gap, (∀ c ∈ gap, c = '\n') ∧
    jsonText pretty d = (Json.text layout d).map (· ++ gap) := by
  cases pretty with
  | true => exact ⟨.pretty, ['\n'], fun c hc => List.mem_singleton.1 hc, rfl⟩
  | false =>
    refine ⟨.compact, [], List.forall_mem_nil _, ?_⟩
    show Json.text .compact d = _
    cases Json.text .compact d with
    | error fault => rfl
    | ok cs => simp only [Except.map, List.append_nil]

theorem readContent_dump (yaml : YamlLibrary) {d : Document} (h : d.isJson = true) (pretty : Bool) :
    ∃ cs, dump yaml .json pretty (.ofDocument d) = .ok cs ∧
      readContent yaml .json (Utf8.encode cs) = .ok (.ofDocument d) := by
  obtain ⟨layout, gap, hgap, htext⟩ := exists_jsonText_eq pretty d
  obtain ⟨ps, hwrite, hread⟩ := Json.exists_write layout d 0 h
  have hwritten := Json.all_isWritten_write layout d hwrite
  have hfuel := Json.readingFuel_lt_of_write layout d hwrite
  have hpoints : ∀ c ∈ ps.flatten ++ gap, Json.isWritten c = true := by
    rw [List.forall_mem_append]
    refine ⟨List.all_eq_true.1 hwritten, fun c hc => ?_⟩
    rw [hgap c hc]
    decide
  have hblank : ∀ c ∈ gap, Json.isBlank c = true := by
    intro c hc
    rw [hgap c hc]
    decide
  have hreturn : '\r' ∉ ps.flatten ++ gap := fun hmem => absurd (hpoints _ hmem) (by decide)
  refine ⟨ps.flatten ++ gap, dump_json_eq_ok.2 (by rw [htext, Json.text, hwrite]; rfl), ?_⟩
  rw [readContent, Utf8.decode_encode fun c hc => Json.toNat_lt_of_isWritten (hpoints c hc)]
  simp only [Lines.unified_of_not_mem hreturn, Json.read_append hread hfuel hwritten hblank]

/-- A map that is saved as JSON in either layout is the document that is loaded from every file that
holds it, with its keys in the same order, unless the name of the file tells YAML. -/
theorem loadDocument_dump (yaml : YamlLibrary) {entries : Entries Empty}
    (h : (Value.map entries : Document).isJson = true) (pretty : Bool) :
    ∃ cs, dump yaml .json pretty (.ofDocument (.map entries)) = .ok cs ∧
      ∀ (tree : FileTree) (path : Path), Format.ofPath path = .json →
        tree.read path = .ok (Utf8.encode cs) →
          (loadDocument yaml FileTree.access path).run tree =
            (.ok (.ofDocument (.map entries)), tree) := by
  obtain ⟨cs, hdump, hread⟩ := readContent_dump yaml h pretty
  refine ⟨cs, hdump, fun tree path hformat hfile => ?_⟩
  have hdocument : documentIn yaml path (tree.read path) = .ok (.ofDocument (.map entries)) := by
    rw [hfile, documentIn, hformat, hread]
    rfl
  show (documentIn yaml path (tree.read path), tree) = _
  rw [hdocument]

def savedTree (content : List UInt8) : FileTree :=
  ⟨[["out"]], ⟨[(["out", "range.txt"], content)], List.nodup_singleton _⟩⟩

/-- A range is saved with and without indentation, and is loaded again from both files. -/
theorem loadDocument_dump_range : ∃ indented line : List Char,
    dump Yaml.library .json true (.ofDocument Json.openRange) = .ok indented ∧
      dump Yaml.library .json false (.ofDocument Json.openRange) = .ok line ∧
      ∀ cs ∈ [indented, line],
        ((loadDocument Yaml.library FileTree.access (Path.ofText "./out/range.txt")).run
          (savedTree (Utf8.encode cs))).1 = .ok (.ofDocument Json.openRange) := by
  have hjson : Json.openRange.isJson = true := by decide +kernel
  have hformat : Format.ofPath (Path.ofText "./out/range.txt") = .json := by decide +kernel
  have hfile : ∀ content, (savedTree content).read (Path.ofText "./out/range.txt") = .ok content :=
    fun content => rfl
  obtain ⟨indented, hindented, hfirst⟩ := loadDocument_dump Yaml.library hjson true
  obtain ⟨line, hline, hsecond⟩ := loadDocument_dump Yaml.library hjson false
  refine ⟨indented, line, hindented, hline, fun cs hcs => ?_⟩
  rcases List.mem_cons.1 hcs with rfl | hcs
  · exact congrArg Prod.fst (hfirst (savedTree _) _ hformat (hfile _))
  · rw [List.mem_singleton.1 hcs]
    exact congrArg Prod.fst (hsecond (savedTree _) _ hformat (hfile _))

end NamedSchemas
