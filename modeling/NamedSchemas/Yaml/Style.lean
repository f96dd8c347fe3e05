import NamedSchemas.Yaml.Cursor
/-!
# Styles of scalars

The text of a scalar in each way of writing one: plain, between single or double quotes, and as an
indented block that keeps its lines or folds them. A single line end inside a scalar that is not
kept literally reads as a space, and empty lines read as line ends.
-/

namespace NamedSchemas.Yaml

/-- What a line end and the empty lines after it read as. -/
def folded (lineEnd : Char) (emptyLines : List Char) : List Char :=
  if lineEnd ≠ '\n' then lineEnd :: emptyLines
  else if emptyLines.isEmpty then [' ']
  else emptyLines

/-! ## Plain scalars -/

/-- Can the character follow a colon that ends a plain scalar inside brackets? -/
def isFlowMark (c : Char) : Bool := c == ',' || c == '[' || c == ']' || c == '\x7b' || c == '\x7d'

/-- How many characters in front can stand in a plain scalar without a gap. -/
def plainRun (inFlow : Bool) : List Char → Nat
  | [] => 0
  | c :: rest =>
    if isBlankOrBreak c then 0
    else if c = ':' ∧ rest.head?.all fun d => isBlankOrBreak d || (inFlow && isFlowMark d) then 0
    else if inFlow ∧ (isFlowMark c ∨ c = '?') then 0
    else 1 + plainRun inFlow rest

/-- The empty lines from here on, up to a mark that starts or ends a document. Tells also whether
such a mark was met. -/
def plainBreaks : Nat → Cursor → List Char × Cursor × Bool
  | 0, c => ([], c, false)
  | fuel + 1, c =>
    match c.peek with
    | some ' ' => plainBreaks fuel c.next
    | some ch =>
      if isBreak ch then
        if c.next.atDocumentMark then ([Cursor.breakChar ch], c.next, true)
        else
          let (more, c, met) := plainBreaks fuel c.next
          (Cursor.breakChar ch :: more, c, met)
      else ([], c, false)
    | none => ([], c, false)

/-- What a gap inside a plain scalar reads as, the position after it, and whether it crosses a line
end. Nothing is read where the scalar cannot go on. -/
def plainGap (c : Cursor) : List Char × Cursor × Bool :=
  let blanks := c.span (· == ' ')
  let c := c.skip blanks.length
  match c.peek with
  | some ch =>
    if isBreak ch then
      let lineEnd := Cursor.breakChar ch
      let c := c.next
      if c.atDocumentMark then ([], c, true)
      else
        let (breaks, c, met) := plainBreaks c.bound c
        if met then ([], c, true) else (folded lineEnd breaks, c, true)
    else (blanks, c, false)
  | none => (blanks, c, false)

/-- A plain scalar as read: its text, the position after it, and whether a line end was crossed
since its last character. -/
structure PlainScalar where
  text : List Char
  after : Cursor
  crossedLine : Bool

/-- Reads a plain scalar that goes on after `gap`, which is part of it unless it ends here. Further
lines of it are indented at least to `minColumn` outside brackets. -/
def plainFrom (inFlow : Bool) (minColumn : Nat) : Nat → List Char → Bool → Cursor → PlainScalar
  | 0, _, crossed, c => ⟨[], c, crossed⟩
  | fuel + 1, gap, crossed, c =>
    let n := plainRun inFlow c.rest
    if c.isAt '#' ∨ n = 0 then ⟨[], c, crossed⟩
    else
      let text := gap ++ c.rest.take n
      let (gap, c, crossed) := plainGap (c.skip n)
      if gap.isEmpty ∨ c.isAt '#' ∨ (!inFlow ∧ c.column < minColumn) then ⟨text, c, crossed⟩
      else
        let more := plainFrom inFlow minColumn fuel gap crossed c
        { more with text := text ++ more.text }

def readPlain (inFlow : Bool) (minColumn : Nat) (c : Cursor) : PlainScalar :=
  plainFrom inFlow minColumn c.bound [] false c

/-! ## Quoted scalars -/

def escapes : List (Char × Char) := [
  ('0', '\x00'), ('a', '\x07'), ('b', '\x08'), ('t', '\t'), ('\t', '\t'), ('n', '\n'),
  ('v', '\x0b'), ('f', '\x0c'), ('r', '\r'), ('e', '\x1b'), (' ', ' '), ('"', '"'),
  ('\\', '\\'), ('/', '/'), ('N', '\u0085'), ('_', '\u00a0'), ('L', '\u2028'), ('P', '\u2029')]

/-- How many hexadecimal digits follow a letter after a backslash. -/
def escapeWidth : Char → Option Nat
  | 'x' => some 2
  | 'u' => some 4
  | 'U' => some 8
  | _ => none

/-- The fault of an escape with a number beyond the last code point. -/
def beyondLast (n : Nat) : Fault := if n < 0x80000000 then .codePoint else .breakdown .wideEscape

/-- The empty lines inside quotes; a mark that starts or ends a document is not allowed there. -/
def quotedBreaks : Nat → Cursor → Except Fault (List Char × Cursor)
  | 0, c => .ok ([], c)
  | fuel + 1, c =>
    if c.atDocumentMark then .error (unexpected (c.rest.drop 3))
    else
      let c := c.skipWhile fun ch => ch == ' ' || ch == '\t'
      match c.peek with
      | some ch =>
        if isBreak ch then
          (quotedBreaks fuel c.next).map fun r => (Cursor.breakChar ch :: r.1, r.2)
        else .ok ([], c)
      | none => .ok ([], c)

/-- What a gap inside quotes reads as. -/
def quotedGap (c : Cursor) : Except Fault (List Char × Cursor) :=
  let blanks := c.span fun ch => ch == ' ' || ch == '\t'
  let c := c.skip blanks.length
  match c.peek with
  | some ch =>
    if isBreak ch then
      (quotedBreaks c.bound c.next).map fun r => (folded (Cursor.breakChar ch) r.1, r.2)
    else .ok (blanks, c)
  | none => .error .unfinished

/-- What stands after a backslash between double quotes. -/
def readEscape (c : Cursor) : Except Fault (Text × Cursor) :=
  match c.peek with
  | none => .error .unfinished
  | some ch =>
    match escapes.find? fun entry => entry.1 = ch with
    | some (_, p) => .ok ([CodePoint.ofChar p], c.next)
    | none =>
      match escapeWidth ch with
      | some width =>
        let ds := c.next.rest.take width
        if ds.length = width ∧ ds.all Numeral.isHex then
          match CodePoint.ofNat? (Numeral.value 16 ds) with
          | some p => .ok ([p], c.next.skip width)
          | none => .error (beyondLast (Numeral.value 16 ds))
        -- where the text ends among the digits, more of them could follow
        else .error (if c.next.rest.all Numeral.isHex then .unfinished else .malformed)
      | none =>
        if isBreak ch then
          -- an escaped line end reads as nothing, and only the empty lines after it stay
          (quotedBreaks c.bound c.next).map fun r => (Text.ofChars r.1, r.2)
        else .error .malformed

/-- Reads a quoted scalar from after its opening quote, up to and with the closing one. -/
def readQuoted (double : Bool) : Nat → Cursor → Except Fault (Text × Cursor)
  | 0, _ => .error .malformed
  | fuel + 1, c =>
    let goOn (part : Text) (c : Cursor) : Except Fault (Text × Cursor) :=
      (readQuoted double fuel c).map fun r => (part ++ r.1, r.2)
    match c.peek with
    | none => .error .unfinished
    | some ch =>
      if isBlankOrBreak ch then
        match quotedGap c with
        | .ok (gap, c) => goOn (Text.ofChars gap) c
        | .error fault => .error fault
      else if double && ch == '\\' then
        match readEscape c.next with
        | .ok (part, c) => goOn part c
        | .error fault => .error fault
      else if double && ch == '"' then .ok ([], c.next)
      else if !double && ch == '\'' then
        if c.next.isAt '\'' then goOn (Text.ofChars ['\'']) c.next.next else .ok ([], c.next)
      else goOn (Text.ofChars [ch]) c.next

/-! ## Block scalars -/

/-- What becomes of the line ends at the end of a block. -/
inductive Chomping where
  | clip
  | strip
  | keep
  deriving DecidableEq

def chompingOf : Option Char → Option Chomping
  | some '+' => some .keep
  | some '-' => some .strip
  | _ => none

def indentOf (ch : Option Char) : Option Nat :=
  match ch with
  | some d => if Numeral.isDecimal d then Numeral.digitValue? d else none
  | none => none

/-- Reads the marks after the sign of a block, in either order. -/
def readBlockMarks (c : Cursor) : Except Fault (Chomping × Option Nat × Cursor) :=
  match chompingOf c.peek with
  | some chomping =>
    match indentOf c.next.peek with
    | some 0 => .error .malformed
    | some n => .ok (chomping, some n, c.next.next)
    | none => .ok (chomping, none, c.next)
  | none =>
    match indentOf c.peek with
    | some 0 => .error .malformed
    | some n =>
      match chompingOf c.next.peek with
      | some chomping => .ok (chomping, some n, c.next.next)
      | none => .ok (.clip, some n, c.next)
    | none => .ok (.clip, none, c)

/-- The rest of the line that starts a block: blanks and a comment. -/
def skipBlockHeader (c : Cursor) : Except Fault Cursor :=
  if !(c.peek.all fun ch => ch == ' ' || isBreak ch) then .error .malformed
  else
    let c := c.skipWhile (· == ' ')
    let c := if c.isAt '#' then c.skipWhile fun ch => !isBreak ch else c
    if c.atLineEnd then .ok c.next else .error .malformed

/-- The empty lines in front of a block and the greatest indentation among them and its first
line. -/
def blockIndentation : Nat → Nat → Cursor → List Char × Nat × Cursor
  | 0, greatest, c => ([], greatest, c)
  | fuel + 1, greatest, c =>
    match c.peek with
    | some ' ' => blockIndentation fuel (max greatest c.next.column) c.next
    | some ch =>
      if isBreak ch then
        let (breaks, greatest, c) := blockIndentation fuel greatest c.next
        (Cursor.breakChar ch :: breaks, greatest, c)
      else ([], greatest, c)
    | none => ([], greatest, c)

def indentTo (column : Nat) (c : Cursor) : Cursor :=
  c.skip (min (c.span (· == ' ')).length (column - c.column))

/-- The empty lines inside a block, which may be indented less. -/
def blockBreaks (column : Nat) : Nat → Cursor → List Char × Cursor
  | 0, c => ([], c)
  | fuel + 1, c =>
    let c := indentTo column c
    match c.peek with
    | some ch =>
      if isBreak ch then
        let (breaks, c) := blockBreaks column fuel c.next
        (Cursor.breakChar ch :: breaks, c)
      else ([], c)
    | none => ([], c)

def atBlank (c : Cursor) : Bool := c.isAt ' ' || c.isAt '\t'

/-- Reads the lines of a block. `breaks` are the empty lines in front of them and `lineEnd` is the
end of the line before. Gives the text without its last line end, that line end, and the empty lines
after it. -/
def blockLines (fold : Bool) (column : Nat) :
    Nat → List Char → List Char → Cursor → List Char × List Char × List Char × Cursor
  | 0, lineEnd, breaks, c => ([], lineEnd, breaks, c)
  | fuel + 1, lineEnd, breaks, c =>
    if c.column ≠ column ∨ c.peek.isNone then ([], lineEnd, breaks, c)
    else
      let indented := atBlank c
      let line := c.span fun ch => !isBreak ch
      let text := breaks ++ line
      let c := c.skip line.length
      let lineEnd := c.peek.toList.map Cursor.breakChar
      let (breaks, c) := blockBreaks column c.bound c.next
      if c.column ≠ column ∨ c.peek.isNone then (text, lineEnd, breaks, c)
      else
        -- only a line end between two lines that are not indented further is folded
        let between :=
          if fold && lineEnd == ['\n'] && !indented && !atBlank c then
            if breaks.isEmpty then [' '] else []
          else lineEnd
        let (more, lineEnd, breaks, c) := blockLines fold column fuel lineEnd breaks c
        (text ++ between ++ more, lineEnd, breaks, c)

/-- Reads a block scalar from after its sign; it is indented deeper than `indent`. -/
def readBlock (fold : Bool) (indent : Int) (c : Cursor) : Except Fault (List Char × Cursor) := do
  let (chomping, increment, c) ← readBlockMarks c
  let c ← skipBlockHeader c
  let least := max 1 (indent + 1).toNat
  let (breaks, column, c) := match increment with
    | some n =>
      let column := least + n - 1
      let (breaks, c) := blockBreaks column c.bound c
      (breaks, column, c)
    | none =>
      let (breaks, greatest, c) := blockIndentation c.bound 0 c
      (breaks, max least greatest, c)
  let (text, lineEnd, breaks, c) := blockLines fold column c.bound [] breaks c
  let text := if chomping = .strip then text else text ++ lineEnd
  pure (if chomping = .keep then text ++ breaks else text, c)

end NamedSchemas.Yaml
