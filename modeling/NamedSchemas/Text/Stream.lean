import NamedSchemas.Text.Utf8
/-!
# Text in pieces

A text that is taken from octets piece by piece. A piece may end inside a character or between the
two halves of a line end; what it leaves over is decoded together with the next one. So a fault is
told by its place in the piece, counted from what the piece before left over.
-/

namespace NamedSchemas

/-- A text on its way from octets to characters. -/
structure TextStream where
  /-- The octets that were not taken yet. -/
  octets : List UInt8
  /-- The first octets of a character that the last piece cut off. -/
  pending : List UInt8
  /-- Did the last piece end with a carriage return? -/
  heldReturn : Bool
  /-- The characters that were not handed out yet. -/
  ready : List Char
  /-- How many octets the last piece had. -/
  taken : Nat
  /-- How many characters the last piece gave. -/
  given : Nat

namespace TextStream

def ofOctets (octets : List UInt8) : TextStream := ⟨octets, [], false, [], 0, 0⟩

/-- How many octets a piece has at least. -/
def leastPiece : Nat := 8192

/-- How many octets the next piece has when so many characters are wanted: as many as give them at
the rate of the last piece. -/
def pieceSize (wanted : Nat) (s : TextStream) : Nat := max leastPiece (s.taken * wanted / s.given)

/-- Decodes octets up to an unfinished character at their end; the last octets must be complete. -/
def decodePart (last : Bool) (octets : List UInt8) : Except Utf8.Fault (List Char × List UInt8) :=
  match Utf8.decode octets with
  | .ok cs => .ok (cs, [])
  | .error fault =>
    if fault.reason = .truncated && !last then
      (Utf8.decode (octets.take fault.position)).map fun cs => (cs, octets.drop fault.position)
    else .error fault

/-- Unifies the line ends of a part, up to a carriage return at its end; `held` says that one stands
in front of it. -/
def unifyPart (held last : Bool) (cs : List Char) : List Char × Bool :=
  if cs.isEmpty && !last then ([], held)
  else
    let cs := if held then '\r' :: cs else cs
    if cs.getLast? = some '\r' && !last then (Lines.unified cs.dropLast, true)
    else (Lines.unified cs, false)

/-- Takes one more piece. -/
def takePiece (wanted : Nat) (s : TextStream) : Except Utf8.Fault TextStream := do
  let piece := s.octets.take (s.pieceSize wanted)
  let (cs, pending) ← decodePart piece.isEmpty (s.pending ++ piece)
  let (cs, held) := unifyPart s.heldReturn piece.isEmpty cs
  pure ⟨s.octets.drop piece.length, pending, held, s.ready ++ cs, piece.length, cs.length⟩

/-- Hands out characters, as many as are wanted or are left; `fuel` bounds the pieces. -/
def read (wanted : Nat) : Nat → TextStream → Except Utf8.Fault (List Char × TextStream)
  | 0, s => .ok (s.ready, { s with ready := [] })
  | fuel + 1, s =>
    if wanted ≤ s.ready.length then
      .ok (s.ready.take wanted, { s with ready := s.ready.drop wanted })
    else do
      let s ← s.takePiece (wanted - s.ready.length)
      if s.taken = 0 ∧ s.given = 0 then .ok (s.ready, { s with ready := [] })
      else read wanted fuel s

def readAll (size : Nat) : Nat → TextStream → List (List Char) × Option Utf8.Fault
  | 0, _ => ([], none)
  | fuel + 1, s =>
    match s.read size fuel with
    | .error fault => ([], some fault)
    | .ok ([], _) => ([], none)
    | .ok (part, s) =>
      let (parts, fault) := readAll size fuel s
      (part :: parts, fault)

/-- The parts of the text of octets, and what is wrong with the octets after them, if anything.
Every piece but the last two takes an octet. -/
def parts (size : Nat) (octets : List UInt8) : List (List Char) × Option Utf8.Fault :=
  readAll size (octets.length + 3) (ofOctets octets)

end TextStream

end NamedSchemas
