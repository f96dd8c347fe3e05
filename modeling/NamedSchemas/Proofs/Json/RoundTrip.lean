import NamedSchemas.Proofs.Json.Number
import NamedSchemas.Proofs.Json.Text
import NamedSchemas.Proofs.Value.Entries
import NamedSchemas.Value.Equality
/-!
# Documents in JSON text

Every document that JSON can hold is written in each layout, and what is written reads back as the
document. Hence two documents with the same text are the same document.
-/

namespace NamedSchemas

/-- Can the scalar come from JSON text? -/
def Scalar.isJson : Scalar → Bool
  | .int i => i.natAbs < 10 ^ Numeral.digitLimit
  | .text t => t.unpaired
  | .date _ => false
  | .dateTime _ => false
  | _ => true

namespace Value

mutual

/-- Can the document come from JSON text? Its keys are texts, and no map has a key twice. -/
def isJson : Document → Bool
  | .scalar s => s.isJson
  | .list items => itemsAreJson items
  | .map entries => entriesAreJson entries

def itemsAreJson : List Document → Bool
  | [] => true
  | item :: rest => isJson item && itemsAreJson rest

def entriesAreJson : Entries Empty → Bool
  | [] => true
  | (key, value) :: rest =>
    (key.text?.isSome && key.isJson && !rest.any fun entry => entry.1 = key) && isJson value &&
      entriesAreJson rest

end

mutual

/-- How much fuel it takes to read the document. -/
def readingFuel : Document → Nat
  | .scalar _ => 1
  | .list items => itemsFuel items + 1
  | .map entries => entriesFuel entries + 1

def itemsFuel : List Document → Nat
  | [] => 0
  | item :: rest => readingFuel item + itemsFuel rest + 1

def entriesFuel : Entries Empty → Nat
  | [] => 0
  | (_, value) :: rest => readingFuel value + entriesFuel rest + 1

end

end Value

theorem Entries.ofList_of_isJson {entries : Entries Empty}
    (h : Value.entriesAreJson entries = true) : Entries.ofList entries = entries := by
  suffices hfold : ∀ before : Entries Empty,
      (∀ entry ∈ entries, ∀ earlier ∈ before, earlier.1 ≠ entry.1) →
      entries.foldl (fun kept entry => insertBy Scalar.sameKey entry.1 entry.2 kept) before =
        before ++ entries by
    exact hfold [] fun _ _ _ hmem => by cases hmem
  induction entries with
  | nil => simp
  | cons entry rest ih =>
    obtain ⟨key, value⟩ := entry
    simp only [Value.entriesAreJson, Bool.and_eq_true, Bool.not_eq_true', List.any_eq_false,
      decide_eq_true_eq] at h
    obtain ⟨⟨⟨⟨htext, -⟩, hfresh⟩, -⟩, hrest⟩ := h
    obtain ⟨t, rfl⟩ : ∃ t, key = .text t := by
      cases key <;> simp [Scalar.text?] at htext ⊢
    intro before hbefore
    have hinsert := Entries.insert_of_new value fun earlier hearlier =>
      hbefore (.text t, value) (by simp) earlier hearlier
    rw [Entries.insert] at hinsert
    rw [List.foldl_cons, hinsert, ih hrest, List.append_assoc, List.singleton_append]
    intro later hlater earlier hearlier
    rcases List.mem_append.1 hearlier with hold | hnew
    · exact hbefore later (List.mem_cons_of_mem _ hlater) earlier hold
    · rw [List.mem_singleton.1 hnew]
      exact fun heq => hfresh later hlater heq.symm

namespace Json

/-! ### Blank space -/

theorem skipBlank_append {gap : List Char} (hgap : ∀ c ∈ gap, isBlank c = true) (cs : List Char) :
    skipBlank (gap ++ cs) = skipBlank cs := by
  rw [skipBlank, List.dropWhile_append_of_pos hgap, skipBlank]

/-- The text begins with a character that is neither blank nor closes a collection. -/
def StartsValue (cs : List Char) : Prop :=
  ∃ c rest, cs = c :: rest ∧ isBlank c = false ∧ c ≠ ']' ∧ c ≠ '\x7d'

theorem StartsValue.skipBlank {cs : List Char} (h : StartsValue cs) (rest : List Char) :
    skipBlank (cs ++ rest) = cs ++ rest := by
  obtain ⟨c, tail, rfl, hblank, -, -⟩ := h
  simp only [Json.skipBlank, List.cons_append, List.dropWhile_cons, hblank, Bool.false_eq_true,
    if_false]

/-! ### Scalars -/

private theorem exists_digit_of_readMagnitude {negative : Bool} {start cs : List Char}
    {r : Document × List Char} (h : readMagnitude negative start cs = .ok r) :
    ∃ c rest, cs = c :: rest ∧ Numeral.isDecimal c = true := by
  cases cs with
  | nil => simp [readMagnitude, spanDigits] at h
  | cons c rest =>
    refine ⟨c, rest, rfl, ?_⟩
    by_cases hzero : c = '0'
    · rw [hzero]
      decide
    · cases hc : Numeral.isDecimal c with
      | true => rfl
      | false => simp [readMagnitude, hzero, spanDigits, hc] at h

private theorem ne_of_isDecimal {c d : Char} (hc : Numeral.isDecimal c = true)
    (hd : Numeral.isDecimal d = false) : d ≠ c := by
  rintro rfl
  rw [hc] at hd
  cases hd

private theorem readAtom_magnitude {cs : List Char} {r : Document × List Char}
    (h : readMagnitude false cs cs = .ok r) : readAtom cs = .ok r := by
  obtain ⟨c, rest, rfl, hc⟩ := exists_digit_of_readMagnitude h
  have hminus : c ≠ '-' := (ne_of_isDecimal hc (by decide)).symm
  simp [readAtom, words, afterWord, ne_of_isDecimal hc, Numeral.isDecimal, h, hminus]

private theorem readAtom_minus {cs : List Char} {r : Document × List Char}
    (h : readMagnitude true ('-' :: cs) cs = .ok r) : readAtom ('-' :: cs) = .ok r := by
  obtain ⟨c, rest, rfl, hc⟩ := exists_digit_of_readMagnitude h
  simp [readAtom, words, afterWord, ne_of_isDecimal hc, Numeral.isDecimal, h]

private theorem readMagnitude_zero (negative : Bool) (start : List Char) {rest : List Char}
    (hrest : EndsNumber rest) :
    readMagnitude negative start ("0.0".toList ++ rest) =
      .ok (.scalar (.float (.finite negative ⟨0, by decide⟩)), rest) := by
  have hfraction : readFraction ('.' :: (['0'] ++ rest)) = (some ['0'], rest) :=
    readFraction_point (List.forall_mem_singleton.2 rfl) (List.cons_ne_nil _ _) hrest.not_isDecimal
  have hwhole : IsWhole ['0'] := Or.inl rfl
  exact readMagnitude_parts negative start hwhole (by simp; decide) hfraction
    (readExponent_of_endsNumber hrest)

private theorem readMagnitude_finite (negative : Bool) (start : List Char)
    (rank : Fin Binary64.finiteRanks) {rest : List Char} (hrest : EndsNumber rest) :
    readMagnitude negative start
        ((if rank.val = 0 then "0.0".toList else Binary64.magnitudeText rank) ++ rest) =
      .ok (.scalar (.float (.finite negative rank)), rest) := by
  obtain ⟨rank, hrank⟩ := rank
  split
  · next hzero =>
    simp only at hzero
    subst hzero
    exact readMagnitude_zero negative start hrest
  · next hpos => exact readMagnitude_magnitudeText negative start (Nat.pos_of_ne_zero hpos) hrank hrest

/-! ### Reading back -/

/-- The text is read as the document, before all that cannot go on with a number. -/
structure ReadsBack (d : Document) (cs : List Char) : Prop where
  starts : StartsValue cs
  read : ∀ {rest : List Char} {fuel : Nat}, EndsNumber rest → d.readingFuel ≤ fuel →
    readValue fuel (cs ++ rest) = .ok (d, rest)

private def startsAtom (c : Char) : Bool := Numeral.isDecimal c || c ∈ ['-', 'n', 't', 'f', 'N', 'I']

private theorem ne_of_startsAtom {c d : Char} (hc : startsAtom c = true)
    (hd : startsAtom d = false) : c ≠ d := by
  rintro rfl
  rw [hc] at hd
  cases hd

private theorem readsBack_atom {s : Scalar} {c : Char} {cs : List Char}
    (hc : startsAtom c = true)
    (hread : ∀ rest, EndsNumber rest → readAtom (c :: cs ++ rest) = .ok (.scalar s, rest)) :
    ReadsBack (.scalar s) (c :: cs) := by
  refine ⟨⟨c, cs, rfl, ?_, ne_of_startsAtom hc (by decide), ne_of_startsAtom hc (by decide)⟩, ?_⟩
  · simp only [isBlank, Bool.or_eq_false_iff, beq_eq_false_iff_ne]
    refine ⟨⟨⟨?_, ?_⟩, ?_⟩, ?_⟩ <;> exact ne_of_startsAtom hc (by decide)
  · intro rest fuel hrest hfuel
    obtain ⟨fuel, rfl⟩ : ∃ k, fuel = k + 1 := ⟨fuel - 1, by simp only [Value.readingFuel] at hfuel; omega⟩
    have hquote : c ≠ '"' := ne_of_startsAtom hc (by decide)
    have hbracket : c ≠ '[' := ne_of_startsAtom hc (by decide)
    have hbrace : c ≠ '\x7b' := ne_of_startsAtom hc (by decide)
    have hatom := hread rest hrest
    rw [List.cons_append] at hatom ⊢
    simp [readValue, hquote, hbracket, hbrace, hatom]

private theorem readsBack_number {s : Scalar} {cs : List Char} (negative : Bool)
    (hmagnitude : ∀ start rest, EndsNumber rest →
      readMagnitude negative start (cs ++ rest) = .ok (.scalar s, rest)) :
    ReadsBack (.scalar s) ((if negative then ['-'] else []) ++ cs) := by
  obtain ⟨c, tail, hcs, hc⟩ := exists_digit_of_readMagnitude (hmagnitude [] [] endsNumber_nil)
  rw [List.append_nil] at hcs
  subst hcs
  have hstart : startsAtom c = true := by rw [startsAtom, hc, Bool.true_or]
  cases negative with
  | true => exact readsBack_atom (by decide) fun rest hrest => readAtom_minus (hmagnitude _ _ hrest)
  | false => exact readsBack_atom hstart fun rest hrest => readAtom_magnitude (hmagnitude _ _ hrest)

private theorem readsBack_integer {i : Int} (hi : i.natAbs < 10 ^ Numeral.digitLimit) :
    ReadsBack (.scalar (.int i)) (Numeral.integer i) := by
  have hmagnitude : ∀ start rest, EndsNumber rest →
      readMagnitude (decide (i < 0)) start (Numeral.natural i.natAbs ++ rest) =
        .ok (.scalar (.int i), rest) := by
    intro start rest hrest
    have hvalue : (if decide (i < 0) = true then -(i.natAbs : Int) else i.natAbs) = i := by
      simp only [decide_eq_true_eq]
      omega
    rw [readMagnitude_natural _ start hi hrest, hvalue]
  have hback := readsBack_number _ hmagnitude
  rw [Numeral.integer]
  split
  · next hneg => simpa only [hneg, decide_true, if_true, List.singleton_append] using hback
  · next hpos => simpa only [hpos, decide_false, Bool.false_eq_true, if_false, List.nil_append] using hback

private theorem readsBack_float (x : Binary64) :
    ReadsBack (.scalar (.float x)) (x.text spelling) := by
  match x with
  | .nan => exact readsBack_atom (c := 'N') (by decide) fun _ _ => rfl
  | .infinite false => exact readsBack_atom (c := 'I') (by decide) fun _ _ => rfl
  | .infinite true => exact readsBack_atom (c := '-') (by decide) fun _ _ => rfl
  | .finite negative rank =>
    exact readsBack_number negative fun start rest hrest =>
      readMagnitude_finite negative start rank hrest

/-- A string reads back with the halves of surrogate pairs joined. -/
theorem readsBack_writeText (t : Text) :
    ReadsBack (.scalar (.text (t.foldr joined []))) (writeText t) := by
  refine ⟨⟨'"', _, rfl, by decide, by decide, by decide⟩, ?_⟩
  intro rest fuel _ hfuel
  obtain ⟨fuel, rfl⟩ : ∃ k, fuel = k + 1 := ⟨fuel - 1, by simp only [Value.readingFuel] at hfuel; omega⟩
  have hstring := readString_flatMap ('"' :: (t.flatMap writePoint ++ '"' :: rest)) t rest
  simp only [writeText, List.cons_append, List.append_assoc, List.nil_append, readValue, hstring,
    Except.map]

private theorem exists_writeScalar {s : Scalar} (h : s.isJson = true) :
    ∃ cs, writeScalar s = .ok cs ∧ ReadsBack (.scalar s) cs := by
  cases s with
  | null => exact ⟨_, rfl, readsBack_atom (c := 'n') (by decide) fun _ _ => rfl⟩
  | bool b =>
    cases b with
    | true => exact ⟨_, rfl, readsBack_atom (c := 't') (by decide) fun _ _ => rfl⟩
    | false => exact ⟨_, rfl, readsBack_atom (c := 'f') (by decide) fun _ _ => rfl⟩
  | int i =>
    simp only [Scalar.isJson, decide_eq_true_eq] at h
    exact ⟨Numeral.integer i, by rw [writeScalar, writeInt, if_pos h], readsBack_integer h⟩
  | float x => exact ⟨x.text spelling, rfl, readsBack_float x⟩
  | text t =>
    have hback := readsBack_writeText t
    rw [foldr_joined_of_unpaired h] at hback
    exact ⟨_, rfl, hback⟩
  | date d => cases h
  | dateTime t => cases h

/-! ### Collections -/

private def Layout.first : Layout → Nat → List Char
  | .pretty, depth => lineStart (depth + 1)
  | _, _ => []

private def Layout.between : Layout → Nat → List Char
  | .compact, _ => [' ']
  | .canonical, _ => []
  | .pretty, depth => lineStart (depth + 1)

private def Layout.last : Layout → Nat → List Char
  | .pretty, depth => lineStart depth
  | _, _ => []

private theorem isBlank_of_mem_lineStart {depth : Nat} {c : Char} (hc : c ∈ lineStart depth) :
    isBlank c = true := by
  rcases List.mem_cons.1 hc with rfl | hspace
  · decide
  · rw [(List.mem_replicate.1 hspace).2]
    decide

private theorem Layout.isBlank_of_mem_first (layout : Layout) (depth : Nat) :
    ∀ c ∈ layout.first depth, isBlank c = true := by
  cases layout with
  | pretty => exact fun c hc => isBlank_of_mem_lineStart hc
  | compact => simp [Layout.first]
  | canonical => simp [Layout.first]

private theorem Layout.isBlank_of_mem_between (layout : Layout) (depth : Nat) :
    ∀ c ∈ layout.between depth, isBlank c = true := by
  cases layout with
  | pretty => exact fun c hc => isBlank_of_mem_lineStart hc
  | compact => simp [Layout.between, isBlank]
  | canonical => simp [Layout.between]

private theorem Layout.isBlank_of_mem_last (layout : Layout) (depth : Nat) :
    ∀ c ∈ layout.last depth, isBlank c = true := by
  cases layout with
  | pretty => exact fun c hc => isBlank_of_mem_lineStart hc
  | compact => simp [Layout.last]
  | canonical => simp [Layout.last]

/-- Parts one after the other, with commas between them, and what stands after the last. -/
def joinedParts (between : List Char) : List (List Char) → List Char → List Char
  | [], after => after
  | [part], after => part ++ after
  | part :: rest, after => part ++ ',' :: (between ++ joinedParts between rest after)

private theorem joinedParts_cons (between part next after : List Char)
    (rest : List (List Char)) : joinedParts between (part :: next :: rest) after =
      part ++ ',' :: (between ++ joinedParts between (next :: rest) after) := rfl

private theorem flatten_intercalate (between after : List Char) (part : Pieces)
    (rest : List Pieces) :
    ([',' :: between].intercalate (part :: rest)).flatten ++ after =
      joinedParts between ((part :: rest).map List.flatten) after := by
  induction rest generalizing part with
  | nil => simp [List.intercalate, joinedParts]
  | cons next rest ih =>
    have hnext := ih next
    simp only [List.intercalate, List.map_cons] at hnext ⊢
    simp only [List.intersperse, List.flatten_cons, List.flatten_append, List.append_assoc,
      List.cons_append, List.nil_append, joinedParts, hnext]

private theorem flatten_bracketed (layout : Layout) (depth : Nat) (opening closing : Char)
    (part : Pieces) (rest : List Pieces) (after : List Char) :
    (bracketed layout depth opening closing (part :: rest)).flatten ++ after =
      opening :: (layout.first depth ++ joinedParts (layout.between depth)
        ((part :: rest).map List.flatten) (layout.last depth ++ closing :: after)) := by
  rw [← flatten_intercalate]
  cases layout <;>
    simp [bracketed, Layout.first, Layout.between, Layout.last]

theorem endsNumber_cons {c : Char} (hdigit : Numeral.isDecimal c = false) (hpoint : c ≠ '.')
    (hlower : c ≠ 'e') (hupper : c ≠ 'E') (rest : List Char) : EndsNumber (c :: rest) := by
  intro a ha
  cases Option.some.inj ha
  exact ⟨hdigit, hpoint, hlower, hupper⟩

theorem endsNumber_append {gap rest : List Char} (hgap : ∀ c ∈ gap, isBlank c = true)
    (hrest : EndsNumber rest) : EndsNumber (gap ++ rest) := by
  cases gap with
  | nil => exact hrest
  | cons c gap =>
    have hblank := hgap c (by simp)
    simp only [isBlank, Bool.or_eq_true, beq_iff_eq] at hblank
    rcases hblank with ((rfl | rfl) | rfl) | rfl <;>
      exact endsNumber_cons (by decide) (by decide) (by decide) (by decide) _

private theorem startsValue_joinedParts {part : List Char} (hpart : StartsValue part)
    (between after : List Char) (parts : List (List Char)) :
    StartsValue (joinedParts between (part :: parts) after) := by
  obtain ⟨c, tail, rfl, hc⟩ := hpart
  cases parts with
  | nil => exact ⟨c, tail ++ after, rfl, hc⟩
  | cons next parts =>
    exact ⟨c, tail ++ ',' :: (between ++ joinedParts between (next :: parts) after), rfl, hc⟩

private theorem skipBlank_joinedParts {gap part : List Char} (hgap : ∀ c ∈ gap, isBlank c = true)
    (hpart : StartsValue part) (between after : List Char) (parts : List (List Char)) :
    skipBlank (gap ++ joinedParts between (part :: parts) after) =
      joinedParts between (part :: parts) after := by
  have hskip := (startsValue_joinedParts hpart between after parts).skipBlank []
  rw [List.append_nil] at hskip
  rw [skipBlank_append hgap, hskip]

private theorem readItems_joinedParts {between last : List Char} (rest : List Char)
    (hbetween : ∀ c ∈ between, isBlank c = true) (hlast : ∀ c ∈ last, isBlank c = true)
    {parts : List (Document × Pieces)} (hne : parts ≠ [])
    (hparts : ∀ p ∈ parts, ReadsBack p.1 p.2.flatten) {fuel : Nat}
    (hfuel : Value.itemsFuel (parts.map Prod.fst) ≤ fuel) :
    readItems fuel (joinedParts between (parts.map fun p => p.2.flatten) (last ++ ']' :: rest)) =
      .ok (parts.map Prod.fst, rest) := by
  induction parts generalizing fuel with
  | nil => exact absurd rfl hne
  | cons p parts ih =>
    have hp := hparts p (by simp)
    simp only [List.map_cons, Value.itemsFuel] at hfuel
    obtain ⟨fuel, rfl⟩ : ∃ k, fuel = k + 1 := ⟨fuel - 1, by omega⟩
    have hfuel' : p.1.readingFuel ≤ fuel := by omega
    cases parts with
    | nil =>
      have hends : EndsNumber (last ++ ']' :: rest) := endsNumber_append hlast
        (endsNumber_cons (by decide) (by decide) (by decide) (by decide) rest)
      have hclose : skipBlank (last ++ ']' :: rest) = ']' :: rest := skipBlank_append hlast _
      simp only [List.map_cons, List.map_nil, joinedParts, readItems, hp.read hends hfuel', bind,
        Except.bind, hclose]
      rfl
    | cons q parts =>
      have hread := ih (by simp) (fun r hr => hparts r (List.mem_cons_of_mem p hr))
        (by omega : _ ≤ fuel)
      have hq := (hparts q (by simp)).starts
      have hends : ∀ cs, EndsNumber (',' :: cs) :=
        endsNumber_cons (by decide) (by decide) (by decide) (by decide)
      have hcomma : ∀ cs, skipBlank (',' :: cs) = ',' :: cs := fun _ => rfl
      simp only [List.map_cons] at hread ⊢
      rw [joinedParts_cons, readItems, hp.read (hends _) hfuel']
      simp only [bind, Except.bind, hcomma, skipBlank_joinedParts hbetween hq, hread]
      rfl

structure Member where
  key : Text
  value : Document
  pieces : Pieces

def Member.entry (m : Member) : Scalar × Document := (.text m.key, m.value)

def Member.written (layout : Layout) (m : Member) : Pieces :=
  writeText m.key :: keySeparator layout :: m.pieces

private theorem readMembers_written (layout : Layout) {m : Member} {after : List Char} {fuel : Nat}
    (hkey : m.key.unpaired = true) (hread : ReadsBack m.value m.pieces.flatten) (hafter : EndsNumber after)
    (hfuel : m.value.readingFuel ≤ fuel) :
    readMembers (fuel + 1) ((m.written layout).flatten ++ after) =
      match skipBlank after with
      | '\x7d' :: rest => .ok ([m.entry], rest)
      | ',' :: rest => do
        let (members, rest) ← readMembers fuel (skipBlank rest)
        pure (m.entry :: members, rest)
      | rest => .error (.problem .comma rest) := by
  have hstart : (m.written layout).flatten ++ after = '"' :: (m.key.flatMap writePoint ++ '"' ::
      (keySeparator layout ++ (m.pieces.flatten ++ after))) := by
    simp [Member.written, writeText]
  have hcolon : ∃ gap, (∀ c ∈ gap, isBlank c = true) ∧ keySeparator layout = ':' :: gap := by
    cases layout with
    | compact => exact ⟨[' '], List.forall_mem_singleton.2 rfl, rfl⟩
    | canonical => exact ⟨[], List.forall_mem_nil _, rfl⟩
    | pretty => exact ⟨[' '], List.forall_mem_singleton.2 rfl, rfl⟩
  obtain ⟨gap, hgap, hseparator⟩ := hcolon
  have hkeyRead := readString_writeText ((m.written layout).flatten ++ after) hkey
    (keySeparator layout ++ (m.pieces.flatten ++ after))
  have hskipColon : ∀ cs, skipBlank (':' :: cs) = ':' :: cs := fun _ => rfl
  rw [hstart, hseparator, List.cons_append] at hkeyRead ⊢
  simp only [readMembers, hkeyRead, bind, Except.bind, hskipColon, skipBlank_append hgap,
    hread.starts.skipBlank, hread.read hafter hfuel]
  rfl

private theorem readMembers_joinedParts (layout : Layout) {between last : List Char}
    (rest : List Char) (hbetween : ∀ c ∈ between, isBlank c = true)
    (hlast : ∀ c ∈ last, isBlank c = true) {members : List Member} (hne : members ≠ [])
    (hkeys : ∀ m ∈ members, m.key.unpaired = true)
    (hmembers : ∀ m ∈ members, ReadsBack m.value m.pieces.flatten) {fuel : Nat}
    (hfuel : Value.entriesFuel (members.map Member.entry) ≤ fuel) :
    readMembers fuel (joinedParts between (members.map fun m => (m.written layout).flatten)
        (last ++ '\x7d' :: rest)) = .ok (members.map Member.entry, rest) := by
  induction members generalizing fuel with
  | nil => exact absurd rfl hne
  | cons m members ih =>
    have hm := hmembers m (by simp)
    have hkey := hkeys m (by simp)
    simp only [List.map_cons, Value.entriesFuel, Member.entry] at hfuel
    obtain ⟨fuel, rfl⟩ : ∃ k, fuel = k + 1 := ⟨fuel - 1, by omega⟩
    have hfuel' : m.value.readingFuel ≤ fuel := by omega
    cases members with
    | nil =>
      have hends : EndsNumber (last ++ '\x7d' :: rest) := endsNumber_append hlast
        (endsNumber_cons (by decide) (by decide) (by decide) (by decide) rest)
      have hclose : skipBlank (last ++ '\x7d' :: rest) = '\x7d' :: rest := skipBlank_append hlast _
      simp only [List.map_cons, List.map_nil, joinedParts,
        readMembers_written layout hkey hm hends hfuel', hclose]
    | cons next members =>
      have hread := ih (by simp) (fun n hn => hkeys n (List.mem_cons_of_mem m hn))
        (fun n hn => hmembers n (List.mem_cons_of_mem m hn)) (by omega : _ ≤ fuel)
      have hends : ∀ cs, EndsNumber (',' :: cs) :=
        endsNumber_cons (by decide) (by decide) (by decide) (by decide)
      have hcomma : ∀ cs, skipBlank (',' :: cs) = ',' :: cs := fun _ => rfl
      have hnext : StartsValue (next.written layout).flatten :=
        ⟨'"', _, rfl, by decide, by decide, by decide⟩
      simp only [List.map_cons] at hread ⊢
      rw [joinedParts_cons, readMembers_written layout hkey hm (hends _) hfuel']
      simp only [bind, Except.bind, hcomma, skipBlank_joinedParts hbetween hnext, hread]
      rfl

/-! ### Documents -/

private theorem readValue_list {gap cs rest : List Char} {items : List Document} {fuel : Nat}
    (hskip : skipBlank (gap ++ cs) = cs) (hstart : StartsValue cs)
    (hread : readItems fuel cs = .ok (items, rest)) :
    readValue (fuel + 1) ('[' :: (gap ++ cs)) = .ok (.list items, rest) := by
  obtain ⟨c, tail, rfl, -, hclose, -⟩ := hstart
  simp [readValue, hskip, hclose, hread, Except.map]

private theorem readValue_map {gap cs rest : List Char} {entries : Entries Empty} {fuel : Nat}
    (hskip : skipBlank (gap ++ cs) = cs) (hstart : StartsValue cs)
    (hread : readMembers fuel cs = .ok (entries, rest)) :
    readValue (fuel + 1) ('\x7b' :: (gap ++ cs)) = .ok (.map (Entries.ofList entries), rest) := by
  obtain ⟨c, tail, rfl, -, -, hclose⟩ := hstart
  simp [readValue, hskip, hclose, hread, Except.map]

private theorem readsBack_list (layout : Layout) (depth : Nat) {parts : List (Document × Pieces)}
    (hparts : ∀ p ∈ parts, ReadsBack p.1 p.2.flatten) :
    ReadsBack (.list (parts.map Prod.fst))
      (bracketed layout depth '[' ']' (parts.map Prod.snd)).flatten := by
  have hopening : ∃ tail, (bracketed layout depth '[' ']' (parts.map Prod.snd)).flatten =
      '[' :: tail := by
    cases parts <;> cases layout <;> exact ⟨_, rfl⟩
  obtain ⟨tail, htail⟩ := hopening
  refine ⟨⟨'[', tail, htail, by decide, by decide, by decide⟩, ?_⟩
  intro rest fuel hrest hfuel
  simp only [Value.readingFuel] at hfuel
  obtain ⟨fuel, rfl⟩ : ∃ k, fuel = k + 1 := ⟨fuel - 1, by omega⟩
  cases parts with
  | nil => rfl
  | cons p parts =>
    have hstart := (hparts p (by simp)).starts
    have hread := readItems_joinedParts rest (layout.isBlank_of_mem_between depth)
      (layout.isBlank_of_mem_last depth) (List.cons_ne_nil p parts) hparts
      (by omega : _ ≤ fuel)
    have hskip := skipBlank_joinedParts (layout.isBlank_of_mem_first depth) hstart
      (layout.between depth) (layout.last depth ++ ']' :: rest) (parts.map fun p => p.2.flatten)
    rw [List.map_cons, flatten_bracketed, List.map_cons, List.map_map]
    exact readValue_list hskip (startsValue_joinedParts hstart _ _ _) hread

private theorem readsBack_map (layout : Layout) (depth : Nat) {members : List Member}
    (hkeys : ∀ m ∈ members, m.key.unpaired = true)
    (hmembers : ∀ m ∈ members, ReadsBack m.value m.pieces.flatten)
    (hdistinct : Entries.ofList (members.map Member.entry) = members.map Member.entry) :
    ReadsBack (.map (members.map Member.entry))
      (bracketed layout depth '\x7b' '\x7d' (members.map (Member.written layout))).flatten := by
  have hopening : ∃ tail, (bracketed layout depth '\x7b' '\x7d'
      (members.map (Member.written layout))).flatten = '\x7b' :: tail := by
    cases members <;> cases layout <;> exact ⟨_, rfl⟩
  obtain ⟨tail, htail⟩ := hopening
  refine ⟨⟨'\x7b', tail, htail, by decide, by decide, by decide⟩, ?_⟩
  intro rest fuel hrest hfuel
  simp only [Value.readingFuel] at hfuel
  obtain ⟨fuel, rfl⟩ : ∃ k, fuel = k + 1 := ⟨fuel - 1, by omega⟩
  cases members with
  | nil => rfl
  | cons m members =>
    have hstart : StartsValue (m.written layout).flatten :=
      ⟨'"', _, rfl, by decide, by decide, by decide⟩
    have hread := readMembers_joinedParts layout rest (layout.isBlank_of_mem_between depth)
      (layout.isBlank_of_mem_last depth) (List.cons_ne_nil m members) hkeys hmembers
      (by omega : _ ≤ fuel)
    have hskip := skipBlank_joinedParts (layout.isBlank_of_mem_first depth) hstart
      (layout.between depth) (layout.last depth ++ '\x7d' :: rest)
      (members.map fun m => (m.written layout).flatten)
    have hvalue := readValue_map hskip (startsValue_joinedParts hstart _ _ _) hread
    rw [hdistinct] at hvalue
    rw [List.map_cons, flatten_bracketed, List.map_cons, List.map_map]
    exact hvalue

mutual

/-- Every document that JSON can hold is written in each layout, and reads back. -/
theorem exists_write (layout : Layout) : ∀ (d : Document) (depth : Nat), d.isJson = true →
    ∃ pieces, write layout depth d = .ok pieces ∧ ReadsBack d pieces.flatten
  | .scalar s, depth, h => by
    obtain ⟨cs, hwrite, hread⟩ := exists_writeScalar h
    refine ⟨[cs], by rw [write, hwrite]; rfl, ?_⟩
    rw [List.flatten_cons, List.flatten_nil, List.append_nil]
    exact hread
  | .list items, depth, h => by
    obtain ⟨parts, hwrite, rfl, hread⟩ := exists_writeItems layout items (depth + 1) h
    exact ⟨_, by rw [write, hwrite]; rfl, readsBack_list layout depth hread⟩
  | .map entries, depth, h => by
    have hdistinct := Entries.ofList_of_isJson h
    obtain ⟨members, hwrite, rfl, hkeys, hread⟩ :=
      exists_writeEntries layout entries (depth + 1) h
    exact ⟨_, by rw [write, hwrite]; rfl, readsBack_map layout depth hkeys hread hdistinct⟩

theorem exists_writeItems (layout : Layout) : ∀ (items : List Document) (depth : Nat),
    Value.itemsAreJson items = true → ∃ parts : List (Document × Pieces),
      writeItems layout depth items = .ok (parts.map Prod.snd) ∧ parts.map Prod.fst = items ∧
        ∀ p ∈ parts, ReadsBack p.1 p.2.flatten
  | [], _, _ => ⟨[], rfl, rfl, fun _ hp => absurd hp (List.not_mem_nil)⟩
  | item :: rest, depth, h => by
    simp only [Value.itemsAreJson, Bool.and_eq_true] at h
    obtain ⟨pieces, hitem, hread⟩ := exists_write layout item depth h.1
    obtain ⟨parts, hrest, rfl, hreads⟩ := exists_writeItems layout rest depth h.2
    refine ⟨(item, pieces) :: parts, by rw [writeItems, hitem, hrest]; rfl, rfl, ?_⟩
    intro p hp
    rcases List.mem_cons.1 hp with rfl | hp
    · exact hread
    · exact hreads p hp

theorem exists_writeEntries (layout : Layout) : ∀ (entries : Entries Empty) (depth : Nat),
    Value.entriesAreJson entries = true → ∃ members : List Member,
      writeEntries layout depth entries = .ok (members.map (Member.written layout)) ∧
        members.map Member.entry = entries ∧ (∀ m ∈ members, m.key.unpaired = true) ∧
        ∀ m ∈ members, ReadsBack m.value m.pieces.flatten
  | [], _, _ => ⟨[], rfl, rfl, fun _ hm => absurd hm (List.not_mem_nil),
      fun _ hm => absurd hm (List.not_mem_nil)⟩
  | (key, value) :: rest, depth, h => by
    simp only [Value.entriesAreJson, Bool.and_eq_true] at h
    obtain ⟨⟨⟨⟨htext, hkey⟩, -⟩, hvalue⟩, hrest⟩ := h
    obtain ⟨t, rfl⟩ : ∃ t, key = .text t := by
      cases key <;> simp [Scalar.text?] at htext ⊢
    obtain ⟨pieces, hwrite, hread⟩ := exists_write layout value depth hvalue
    obtain ⟨members, hwrites, rfl, hkeys, hreads⟩ := exists_writeEntries layout rest depth hrest
    refine ⟨⟨t, value, pieces⟩ :: members,
      by rw [writeEntries, writeKey, hwrite, hwrites]; rfl, rfl, ?_, ?_⟩
    · intro m hm
      rcases List.mem_cons.1 hm with rfl | hm
      · exact hkey
      · exact hkeys m hm
    · intro m hm
      rcases List.mem_cons.1 hm with rfl | hm
      · exact hread
      · exact hreads m hm

end

theorem exists_canonical {d : Document} (h : d.isJson = true) : ∃ cs, canonical d = .ok cs := by
  obtain ⟨pieces, hwrite, -⟩ := exists_write .canonical d 0 h
  exact ⟨pieces.flatten, by rw [canonical, text, hwrite]; rfl⟩

/-- Documents with the same text in one layout are the same document. -/
theorem text_injective (layout : Layout) {d e : Document} (hd : d.isJson = true)
    (he : e.isJson = true) (h : text layout d = text layout e) : d = e := by
  obtain ⟨pieces, hwrite, hread⟩ := exists_write layout d 0 hd
  obtain ⟨pieces', hwrite', hread'⟩ := exists_write layout e 0 he
  have htext : pieces.flatten = pieces'.flatten := by
    rw [text, text, hwrite, hwrite'] at h
    exact Except.ok.inj h
  have hfirst := hread.read endsNumber_nil (Nat.le_max_left d.readingFuel e.readingFuel)
  have hsecond := hread'.read endsNumber_nil (Nat.le_max_right d.readingFuel e.readingFuel)
  rw [htext, hsecond] at hfirst
  exact (congrArg Prod.fst (Except.ok.inj hfirst)).symm

/-- Documents that JSON can hold have canonical texts, and have the same one only when they are the
same document. -/
theorem canonical_eq_iff {d e : Document} (hd : d.isJson = true) (he : e.isJson = true) :
    ∃ cs ds, canonical d = .ok cs ∧ canonical e = .ok ds ∧ (cs = ds ↔ d = e) := by
  obtain ⟨cs, hcs⟩ := exists_canonical hd
  obtain ⟨ds, hds⟩ := exists_canonical he
  refine ⟨cs, ds, hcs, hds, fun heq => text_injective .canonical hd he ?_, fun heq => ?_⟩
  · show canonical d = canonical e
    rw [hcs, hds, heq]
  · rw [heq, hds] at hcs
    exact (Except.ok.inj hcs).symm

/-- A range without an upper end, with half a surrogate pair as its unit. -/
def openRange : Document :=
  .map [(.text "least", .scalar (.int 1)), (.text "ends", .list [.scalar (.float .nan), .map []]),
    (.text "unit", .text [⟨0xD83D, by decide⟩])]

def turnedRange : Document :=
  .map [(.text "ends", .list [.scalar (.float .nan), .map []]), (.text "least", .scalar (.int 1)),
    (.text "unit", .text [⟨0xD83D, by decide⟩])]

/-- The order of the keys of a map makes a difference. -/
theorem canonical_ne_ranges : openRange.isJson = true ∧ turnedRange.isJson = true ∧
    ∃ cs ds, canonical openRange = .ok cs ∧ canonical turnedRange = .ok ds ∧ cs ≠ ds := by
  have hopen : openRange.isJson = true := by decide +kernel
  have hturned : turnedRange.isJson = true := by decide +kernel
  have hne : openRange ≠ turnedRange := by decide
  obtain ⟨cs, ds, hcs, hds, hiff⟩ := canonical_eq_iff hopen hturned
  exact ⟨hopen, hturned, cs, ds, hcs, hds, mt hiff.1 hne⟩

end Json

end NamedSchemas
