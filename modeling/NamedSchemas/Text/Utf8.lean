import NamedSchemas.Text.Decimal
/-!
# UTF-8

Octets and the characters they encode. Where octets are not well formed, the fault names the longest
run of octets that starts a character and what is wrong after it. The lines of a text file end with
a line feed, a carriage return or both.
-/

namespace NamedSchemas.Utf8

inductive Reason where
  /-- No character starts with this octet. -/
  | start
  /-- The octet that follows cannot continue the character. -/
  | continuation
  /-- The octets end inside the character. -/
  | truncated
  deriving DecidableEq

structure Fault where
  /-- How many octets stand before them. -/
  position : Nat
  count : Nat
  /-- The first of them. -/
  first : UInt8
  /-- What is wrong with them. -/
  reason : Reason
  deriving DecidableEq

def Reason.message : Reason → String
  | .start => "invalid start byte"
  | .continuation => "invalid continuation byte"
  | .truncated => "unexpected end of data"

/-- The wording of a fault: one octet is shown, several are only counted off. -/
def Fault.message (f : Fault) : Text :=
  let place :=
    if f.count = 1 then
      "byte 0x".toList ++ Numeral.lowerHex 2 f.first.toNat ++ " in position ".toList ++
        Numeral.natural f.position
    else
      "bytes in position ".toList ++ Numeral.natural f.position ++ '-' ::
        Numeral.natural (f.position + f.count - 1)
  Text.ofChars ("'utf-8' codec can't decode ".toList ++ place ++ ": ".toList ++
    f.reason.message.toList)

def isTail (b : UInt8) : Bool := 0x80 ≤ b && b < 0xC0

/-- Can `b` follow the first octet `a`? Longer forms than needed, surrogates and numbers beyond the
last code point are ruled out by the second octet. -/
def isSecond (a b : UInt8) : Bool :=
  isTail b && (a != 0xE0 || 0xA0 ≤ b) && (a != 0xED || b < 0xA0) && (a != 0xF0 || 0x90 ≤ b) &&
    (a != 0xF4 || b < 0x90)

/-- The character whose leading bits are `high` and whose further octets are `tails`. -/
def character (high : Nat) (tails : List UInt8) : Char :=
  Char.ofNat (tails.foldl (fun n b => n * 0x40 + b.toNat % 0x40) high)

/-- Decodes octets that have `position` octets before them. -/
def decodeFrom (position : Nat) : List UInt8 → Except Fault (List Char)
  | [] => .ok []
  | a :: rest =>
    if a < 0x80 then (character a.toNat [] :: ·) <$> decodeFrom (position + 1) rest
    else if a < 0xC2 || 0xF4 < a then .error ⟨position, 1, a, .start⟩
    else match rest with
      | [] => .error ⟨position, 1, a, .truncated⟩
      | b :: rest =>
        if !isSecond a b then .error ⟨position, 1, a, .continuation⟩
        else if a < 0xE0 then
          (character (a.toNat % 0x20) [b] :: ·) <$> decodeFrom (position + 2) rest
        else match rest with
          | [] => .error ⟨position, 2, a, .truncated⟩
          | c :: rest =>
            if !isTail c then .error ⟨position, 2, a, .continuation⟩
            else if a < 0xF0 then
              (character (a.toNat % 0x10) [b, c] :: ·) <$> decodeFrom (position + 3) rest
            else match rest with
              | [] => .error ⟨position, 3, a, .truncated⟩
              | d :: rest =>
                if !isTail d then .error ⟨position, 3, a, .continuation⟩
                else (character (a.toNat % 0x08) [b, c, d] :: ·) <$>
                  decodeFrom (position + 4) rest

def decode (octets : List UInt8) : Except Fault (List Char) := decodeFrom 0 octets

def encode (cs : List Char) : List UInt8 := cs.flatMap String.utf8EncodeChar

/-! ## Texts that cannot be encoded -/

/-- Surrogates in a text, which have no encoding. -/
structure EncodeFault where
  /-- How many code points stand before them. -/
  position : Nat
  count : Nat
  /-- The first of them. -/
  first : CodePoint
  deriving DecidableEq

def EncodeFault.message (f : EncodeFault) : Text :=
  let place :=
    if f.count = 1 then
      "character '\\u".toList ++ Numeral.lowerHex 4 f.first.toNat ++ "' in position ".toList ++
        Numeral.natural f.position
    else
      "characters in position ".toList ++ Numeral.natural f.position ++ '-' ::
        Numeral.natural (f.position + f.count - 1)
  Text.ofChars ("'utf-8' codec can't encode ".toList ++ place ++
    ": surrogates not allowed".toList)

/-- The first surrogates of a text among those that have no encoding. -/
def encodeFault? (hasNone : CodePoint → Bool) (t : Text) : Option EncodeFault :=
  let before := t.takeWhile fun p => !hasNone p
  match t.drop before.length with
  | [] => none
  | p :: rest => some ⟨before.length, 1 + (rest.takeWhile CodePoint.isSurrogate).length, p⟩

end NamedSchemas.Utf8

namespace NamedSchemas.Lines

/-- Every line end as one line feed, as text files are read. -/
def unified : List Char → List Char
  | '\r' :: '\n' :: rest => '\n' :: unified rest
  | '\r' :: rest => '\n' :: unified rest
  | c :: rest => c :: unified rest
  | [] => []

end NamedSchemas.Lines
