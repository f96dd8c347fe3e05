import NamedSchemas.Text.Lower
/-!
# Paths

The name of a file as a list of components. Empty components and single dots are left out when a
path is read; a double dot is kept, because what it leads to is known only on the spot.
-/

namespace NamedSchemas

structure Path where
  /-- The slashes in front of an absolute path. -/
  root : Text
  /-- The components, none of them empty or a single dot. -/
  parts : List Text
  deriving DecidableEq

namespace Path

/-- Does the component name another place than the one it is read at? -/
def isProper (part : Text) : Bool := !part.isEmpty && part != Text.ofString "."

/-- The slashes that make a path absolute: two are kept as two, more count as one. -/
def rootOf (t : Text) : Text :=
  match (t.takeWhile fun p => p = CodePoint.ofChar '/').length with
  | 0 => []
  | 2 => "//"
  | _ => "/"

def ofText (t : Text) : Path := ⟨rootOf t, (t.split '/').filter isProper⟩

def text (p : Path) : Text :=
  if p.parts.isEmpty ∧ p.root.isEmpty then "." else p.root ++ Text.join "/" p.parts

def name (p : Path) : Text := p.parts.getLast?.getD []

/-- The last dot of the name with what follows it, unless the dot is the first or the last
character. -/
def suffix (p : Path) : Text :=
  let ending := (p.name.reverse.takeWhile fun c => c ≠ CodePoint.ofChar '.').reverse
  if ending.isEmpty ∨ p.name.length ≤ ending.length + 1 then []
  else CodePoint.ofChar '.' :: ending

/-- Is the code point a surrogate that stands for no octet? The last 128 of the second halves stand
for the octets beyond ASCII. -/
def hasNoOctets (p : CodePoint) : Bool :=
  p.isSurrogate && !(0xDC80 ≤ p.toNat && p.toNat ≤ 0xDCFF)

def octetCount (t : Text) : Nat :=
  (t.map fun p => match p.toChar? with
    | some c => c.utf8Size
    | none => 1).foldl (· + ·) 0

end Path

inductive Format where
  | json
  | yaml
  deriving DecidableEq

def Format.name : Format → Text
  | .json => "json"
  | .yaml => "yaml"

/-- The format of a file, told from its suffix in either case; without a known suffix it is JSON. -/
def Format.ofPath (p : Path) : Format :=
  if p.suffix.toLower ∈ [Text.ofString ".yaml", Text.ofString ".yml"] then .yaml else .json

end NamedSchemas
