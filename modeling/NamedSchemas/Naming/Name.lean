import NamedSchemas.Naming.Context
/-!
# Names

The name of a schema is made from its context: the operation, a mark for payloads, a status other
than success, and the elements of the path. Each contributes segments of ASCII letters and digits
that start with a capital or a digit; dots stand between segments. A segment after the first that
ends in `Id` reads `One`, so that an element that picks one instance reads as "one of".

Of a letter beyond ASCII it matters only whether its upper case holds ASCII letters.
-/

namespace NamedSchemas

/-- The letters beyond ASCII whose upper case holds ASCII letters, with those letters. -/
def CodePoint.asciiUppers : List (Nat × String) := [
  (0x00DF, "SS"), (0x0131, "I"), (0x0149, "N"), (0x017F, "S"), (0x01F0, "J"), (0x1E96, "H"),
  (0x1E97, "T"), (0x1E98, "W"), (0x1E99, "Y"), (0x1E9A, "A"), (0xFB00, "FF"), (0xFB01, "FI"),
  (0xFB02, "FL"), (0xFB03, "FFI"), (0xFB04, "FFL"), (0xFB05, "ST"), (0xFB06, "ST")]

/-- The upper case of a code point, as far as ASCII goes: a letter beyond ASCII without an ASCII
letter in its upper case stays as it is. -/
def CodePoint.upper (p : CodePoint) : Text :=
  if p.isLower then [⟨p.toNat - 32, by have h := p.lt; omega⟩]
  else match CodePoint.asciiUppers.find? fun entry => entry.1 = p.toNat with
    | some (_, letters) => Text.ofString letters
    | none => [p]

def Text.upperFirst : Text → Text
  | [] => []
  | p :: rest => p.upper ++ rest

/-- What references to components start with. -/
def componentRoot : Text := "#/components/schemas/"

def componentAddress (name : Text) : Text := componentRoot ++ name

namespace Naming

/-- The ASCII letters and digits of a text. -/
def cleaned (t : Text) : Text := t.filter CodePoint.isAlnum

/-- A path element as a title: the pieces between hyphens capitalised and run together. -/
def titled (element : Text) : Text :=
  (cleaned ((element.split '-').flatMap Text.upperFirst)).upperFirst

/-- The segments that a part of a name contributes: what stands between dots, cleaned and
capitalised, as far as something is left. -/
def segmentsOfPart (part : Text) : List Text :=
  (part.split '.').filterMap fun piece =>
    match cleaned piece.upperFirst with
    | [] => none
    | segment => some segment.upperFirst

def payloadMark : Text := "Payload"

def elements (path : Text) : List Text := (path.split '/').filter fun element => !element.isEmpty

/-- The part that a status contributes: nothing for success. -/
def statusPart : Option Document → Text
  | none => []
  | some status => if Text.startsWith "2" status.display then [] else status.display

def parts (c : Context) (path : Text) : List Text :=
  c.operationId.getD [] :: (if c.isPayload then payloadMark else []) :: statusPart c.status ::
    (elements path).map titled

/-- A segment after the first: what ends in `Id` reads `One`. -/
def generalised (segment : Text) : Text :=
  if Text.endsWith "Id" segment then "One" else segment

def generalisedTail : List Text → List Text
  | [] => []
  | first :: rest => first :: rest.map generalised

end Naming

def Context.nameSegments (c : Context) : Except SegmentFault (List Text) := do
  let path ← c.pathText
  pure (Naming.generalisedTail ((Naming.parts c path).flatMap Naming.segmentsOfPart))

def Context.name (c : Context) : Except SegmentFault Text :=
  (Text.join "." ·) <$> c.nameSegments

end NamedSchemas
