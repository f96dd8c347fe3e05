import NamedSchemas.Yaml.Directive
import NamedSchemas.Yaml.Style
/-!
# Tokens of YAML text

A text as a list of tokens in which indentation is explicit: blocks have a start and an end, and a
key has a token in front of it. That something was a key is known only at the colon behind it, so
for every depth of brackets the latest place is kept where a key may have started.
-/

namespace NamedSchemas.Yaml

/-- The parts of a text. -/
inductive Token where
  | directive (d : Directive)
  | documentStart
  | documentEnd
  | blockListStart
  | blockMapStart
  | blockEnd
  | flowListStart
  | flowListEnd
  | flowMapStart
  | flowMapEnd
  | blockItem
  | flowSeparator
  | key
  | value
  | tag (mark : TagMark)
  | anchor (name : List Char)
  | alias (name : List Char)
  | scalar (text : Text) (plain : Bool)
  /-- The text cannot be read any further. -/
  | failure (fault : Fault)

/-- A place where a key may have started. -/
structure Candidate where
  tokens : Nat
  /-- Must a key start here, because nothing else can stand at this indentation? -/
  required : Bool
  place : Cursor

/-- The state of reading tokens. -/
structure Lexer where
  cursor : Cursor
  /-- The depth of brackets. -/
  flow : Nat
  /-- The column of the innermost block; less than zero outside all blocks. -/
  indent : Int
  /-- The columns of the outer blocks, innermost first. -/
  outer : List Int
  /-- Can a key start here? -/
  keyAllowed : Bool
  candidates : List (Nat × Candidate)
  tokens : List Token
  count : Nat
  /-- The families of tags that were named. -/
  families : List TagFamily

namespace Lexer

def start (cs : List Char) : Lexer := ⟨.start cs, 0, -1, [], true, [], [], 0, []⟩

def push (t : Token) (s : Lexer) : Lexer :=
  { s with tokens := t :: s.tokens, count := s.count + 1 }

/-- Adds a token that has `position` tokens in front of it. -/
def insertAt (position : Nat) (t : Token) (s : Lexer) : Lexer :=
  let later := s.count - position
  { s with
    tokens := s.tokens.take later ++ t :: s.tokens.drop later
    count := s.count + 1 }

def skip (n : Nat) (s : Lexer) : Lexer := { s with cursor := s.cursor.skip n }

/-- Adds a token for the next characters and passes over them. -/
def take (n : Nat) (t : Token) (s : Lexer) : Lexer := (s.skip n).push t

def allowKey (allowed : Bool) (s : Lexer) : Lexer := { s with keyAllowed := allowed }

def inFlow (s : Lexer) : Bool := s.flow != 0

def column (s : Lexer) : Int := s.cursor.column

def candidate? (s : Lexer) : Option Candidate := s.candidates.lookup s.flow

/-- Gives up the candidate at the current depth; it must not be a required one. -/
def dropCandidate (s : Lexer) : Except Fault Lexer :=
  match s.candidate? with
  | some c =>
    if c.required then .error .malformed
    else .ok { s with candidates := s.candidates.filter fun entry => entry.1 ≠ s.flow }
  | none => .ok s

/-- Can a key that started here end at the position? It stays on its line and is not too long. -/
def inReach (s : Lexer) (c : Candidate) : Bool :=
  c.place.line == s.cursor.line && s.cursor.offset - c.place.offset ≤ 1024

/-- Gives up all candidates that are out of reach. -/
def dropDistant (s : Lexer) : Except Fault Lexer :=
  if s.candidates.any fun entry => !s.inReach entry.2 && entry.2.required then .error .malformed
  else .ok { s with candidates := s.candidates.filter fun entry => s.inReach entry.2 }

/-- Notes that a key may start here. -/
def noteCandidate (s : Lexer) : Except Fault Lexer :=
  if s.keyAllowed then do
    -- at the indentation of a block of entries nothing but a key can start
    let required := !s.inFlow && s.indent == s.column
    let s ← s.dropCandidate
    pure { s with candidates := (s.flow, ⟨s.count, required, s.cursor⟩) :: s.candidates }
  else .ok s

/-- Ends the blocks that are indented deeper than a column. -/
def closeBlocks (column : Int) : List Int → Lexer → Lexer
  | [], s => s
  | outer :: rest, s =>
    if column < s.indent then
      closeBlocks column rest ({ s with indent := outer, outer := rest }.push .blockEnd)
    else s

/-- Ends the blocks that a position leaves; inside brackets indentation has no meaning. -/
def unwind (column : Int) (s : Lexer) : Lexer :=
  if s.inFlow then s else closeBlocks column s.outer s

/-- Starts a block at a column, if it is deeper than the innermost one; `opening` puts in the token
for its start. -/
def openBlock (column : Int) (opening : Lexer → Lexer) (s : Lexer) : Lexer :=
  if s.indent < column then opening { s with indent := column, outer := s.indent :: s.outer } else s

/-- Passes over blanks, comments and line ends. -/
def toNextToken : Nat → Lexer → Lexer
  | 0, s => s
  | fuel + 1, s =>
    let c := s.cursor.skipWhile (· == ' ')
    let c := if c.isAt '#' then c.skipWhile fun ch => !isBreak ch else c
    match c.peek with
    | some ch =>
      if isBreak ch then
        toNextToken fuel { s with cursor := c.next, keyAllowed := s.keyAllowed || !s.inFlow }
      else { s with cursor := c }
    | none => { s with cursor := c }

def readDocumentMark (t : Token) (s : Lexer) : Except Fault Lexer := do
  let s ← (s.unwind (-1)).dropCandidate
  pure ((s.allowKey false).take 3 t)

/-- The families of tags after a directive. -/
def familiesAfter (s : Lexer) : Directive → List TagFamily
  | .family f => s.families ++ [f]
  | _ => s.families

def readDirective (s : Lexer) : Except Fault Lexer := do
  let s ← (s.unwind (-1)).dropCandidate
  let (directive, c) ← Directive.read s.cursor.next
  pure (({ s with cursor := c, families := s.familiesAfter directive }.allowKey false).push
    (.directive directive))

def readFlowStart (t : Token) (s : Lexer) : Except Fault Lexer := do
  let s ← s.noteCandidate
  pure (({ s with flow := s.flow + 1 }.allowKey true).take 1 t)

def readFlowEnd (t : Token) (s : Lexer) : Except Fault Lexer := do
  if s.inFlow then
    let s ← s.dropCandidate
    pure (({ s with flow := s.flow - 1 }.allowKey false).take 1 t)
  else .error .malformed

def readFlowSeparator (s : Lexer) : Except Fault Lexer := do
  pure ((← (s.allowKey true).dropCandidate).take 1 .flowSeparator)

/-- The mark of an item in a block, or of a key: it starts a block unless it continues one. -/
def readBlockMark (opening mark : Token) (keyAfter : Bool) (s : Lexer) : Except Fault Lexer := do
  if !s.inFlow && !s.keyAllowed then .error (unexpected (s.cursor.rest.drop 1))
  else
    let s := if s.inFlow then s else s.openBlock s.column (push opening)
    pure ((← (s.allowKey keyAfter).dropCandidate).take 1 mark)

/-- A colon. When a key may have started before it, that is now known to be a key. -/
def readValue (s : Lexer) : Except Fault Lexer :=
  match s.candidate? with
  | some c =>
    let s := { s with candidates := s.candidates.filter fun entry => entry.1 ≠ s.flow }
    -- both tokens go where the key started, that of the block in front of that of the key
    let s := s.insertAt c.tokens .key
    let s := if s.inFlow then s
      else s.openBlock c.place.column (insertAt c.tokens .blockMapStart)
    .ok ((s.allowKey false).take 1 .value)
  | none => s.readBlockMark .blockMapStart .value !s.inFlow

def readTag (s : Lexer) : Except Fault Lexer := do
  let s ← s.noteCandidate
  let (mark, length) ← TagMark.read s.families s.cursor.rest
  let s := (s.allowKey false).take length (.tag mark)
  if s.cursor.peek.all fun ch => ch == ' ' || isBreak ch then pure s else .error .malformed

def endsName (c : Char) : Bool := isBlankOrBreak c || c ∈ "?:,]\x7d%@\u0060".toList

/-- An anchor or an alias, after the mark for it. -/
def readName (token : List Char → Token) (s : Lexer) : Except Fault Lexer := do
  let s ← s.noteCandidate
  let name := s.cursor.next.span TagFamily.isHandleChar
  let s := (s.allowKey false).take (name.length + 1) (token name)
  if name.isEmpty then .error (unexpected s.cursor.rest)
  else if s.cursor.peek.all endsName then pure s
  else .error .malformed

def readBlockScalar (fold : Bool) (s : Lexer) : Except Fault Lexer := do
  let s ← (s.allowKey true).dropCandidate
  let (text, c) ← readBlock fold s.indent s.cursor.next
  pure ({ s with cursor := c }.push (.scalar (Text.ofChars text) false))

def readQuotedScalar (double : Bool) (s : Lexer) : Except Fault Lexer := do
  let s ← s.noteCandidate
  let (text, c) ← readQuoted double s.cursor.bound s.cursor.next
  pure (({ s with cursor := c }.allowKey false).push (.scalar text false))

def readPlainScalar (s : Lexer) : Except Fault Lexer := do
  let s ← s.noteCandidate
  -- the scalar goes on in lines that are indented deeper than the block around it
  let p := readPlain s.inFlow (s.indent + 1).toNat s.cursor
  pure (({ s with cursor := p.after }.allowKey p.crossedLine).push
    (.scalar (Text.ofChars p.text) true))

/-- Is the character one that no plain scalar starts with? -/
def isIndicator (c : Char) : Bool := c ∈ "-?:,[]\x7b\x7d#&*!|>'\"%@\u0060".toList

/-- Can a plain scalar start here? -/
def startsPlain (s : Lexer) (c : Char) : Bool :=
  (!isBlankOrBreak c && !isIndicator c) ||
    (!s.cursor.blankAt 1 && (c == '-' || (!s.inFlow && (c == '?' || c == ':'))))

def readToken (c : Char) (s : Lexer) : Except Fault Lexer :=
  let marked := s.cursor.blankAt 1
  -- the order matters: three hyphens would be the start of a plain scalar, too
  if s.cursor.column = 0 ∧ c = '%' then s.readDirective
  else if s.cursor.column = 0 ∧ s.cursor.atMark '-' then s.readDocumentMark .documentStart
  else if s.cursor.column = 0 ∧ s.cursor.atMark '.' then s.readDocumentMark .documentEnd
  else if c = '[' then s.readFlowStart .flowListStart
  else if c = '\x7b' then s.readFlowStart .flowMapStart
  else if c = ']' then s.readFlowEnd .flowListEnd
  else if c = '\x7d' then s.readFlowEnd .flowMapEnd
  else if c = ',' then s.readFlowSeparator
  else if c = '-' ∧ marked then s.readBlockMark .blockListStart .blockItem true
  else if c = '?' ∧ (s.inFlow ∨ marked) then s.readBlockMark .blockMapStart .key !s.inFlow
  else if c = ':' ∧ (s.inFlow ∨ marked) then s.readValue
  else if c = '*' then s.readName .alias
  else if c = '&' then s.readName .anchor
  else if c = '!' then s.readTag
  else if c = '|' ∧ !s.inFlow then s.readBlockScalar false
  else if c = '>' ∧ !s.inFlow then s.readBlockScalar true
  else if c = '\'' then s.readQuotedScalar false
  else if c = '"' then s.readQuotedScalar true
  else if s.startsPlain c then s.readPlainScalar
  else .error .malformed

/-- The tokens that are settled: those in front of every place where a key may still have
started. -/
def settled (s : Lexer) : List Token :=
  s.tokens.reverse.take
    ((s.candidates.filter fun entry => s.inReach entry.2).foldl
      (fun least entry => min least entry.2.tokens) s.count)

/-- Stops with a fault, which stands after the settled tokens. -/
def stopped (s : Lexer) (fault : Fault) : List Token := s.settled ++ [.failure fault]

/-- Reads one token with the blanks in front of it. Gives nothing at the end of the text. -/
def readNext (s : Lexer) : Except Fault (Option Lexer) := do
  let s ← (s.toNextToken s.cursor.bound).dropDistant
  match s.cursor.peek with
  | some c => some <$> (s.unwind s.column).readToken c
  | none => pure none

/-- Ends all blocks at the end of the text. -/
def finished (s : Lexer) : Except Fault Lexer := (s.unwind (-1)).dropCandidate

/-- Reads all tokens; every token takes at least one character. `ending` is what is wrong after the
text, if anything: then what is read up to its very end is not complete. -/
def run (ending : Option Fault) : Nat → Lexer → List Token
  | 0, s => s.stopped .malformed
  | fuel + 1, s =>
    match s.readNext, ending with
    | .error .unfinished, ending => s.stopped (ending.getD .malformed)
    | .error fault, _ => s.stopped fault
    | .ok (some s'), none => run none fuel s'
    | .ok (some s'), some fault =>
      if s'.cursor.rest.isEmpty then s.stopped fault else run (some fault) fuel s'
    | .ok none, some fault => s.stopped fault
    | .ok none, none =>
      match s.finished with
      | .ok s' => s'.tokens.reverse
      | .error fault => s.stopped fault

end Lexer

def tokensOf (cs : List Char) (ending : Option Fault) : List Token :=
  Lexer.run ending (cs.length + 1) (.start cs)

end NamedSchemas.Yaml
