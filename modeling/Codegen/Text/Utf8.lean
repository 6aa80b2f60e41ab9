/-
Text as bytes.

Templates are expanded and rendered byte by byte, so a cut may fall inside a
character.  `decodeFrom` reads bytes back as characters, and says of each byte that
belongs to none that it is stray.
-/
namespace Codegen
namespace Utf8

/-- A character, or a byte that is part of none. -/
inductive Unit
  | char (c : Char)
  | stray (b : UInt8)
  deriving DecidableEq, Repr

def encode (s : String) : List UInt8 := s.toUTF8.data.toList

def isTail (b : UInt8) : Bool := 0x80 ≤ b && b ≤ 0xBF

/-- The code point of a lead part and the six low bits of each tail byte. -/
def point (lead : UInt8) (tail : List UInt8) : Nat :=
  tail.foldl (fun n b => n * 64 + (b &&& 0x3F).toNat) lead.toNat

/-- The character that starts the bytes, and how many tail bytes it has.  The tables of second bytes
refuse overlong forms, surrogates and points beyond the last plane. -/
def char? (b : UInt8) (rest : List UInt8) : Option (Char × Nat) :=
  if b < 0x80 then some (Char.ofNat b.toNat, 0)
  else if 0xC2 ≤ b ∧ b ≤ 0xDF then
    match rest with
    | t :: _ => if isTail t then some (Char.ofNat (point (b &&& 0x1F) [t]), 1) else none
    | _ => none
  else if 0xE0 ≤ b ∧ b ≤ 0xEF then
    match rest with
    | t :: u :: _ =>
      let low : UInt8 := if b == 0xE0 then 0xA0 else 0x80
      let high : UInt8 := if b == 0xED then 0x9F else 0xBF
      if low ≤ t && t ≤ high && isTail u then some (Char.ofNat (point (b &&& 0x0F) [t, u]), 2)
      else none
    | _ => none
  else if 0xF0 ≤ b ∧ b ≤ 0xF4 then
    match rest with
    | t :: u :: v :: _ =>
      let low : UInt8 := if b == 0xF0 then 0x90 else 0x80
      let high : UInt8 := if b == 0xF4 then 0x8F else 0xBF
      if low ≤ t && t ≤ high && isTail u && isTail v then
        some (Char.ofNat (point (b &&& 0x07) [t, u, v]), 3)
      else none
    | _ => none
  else none

/-- Read bytes as characters, skipping the first `pending` of them, which belong to the character
read last. -/
def decodeFrom : Nat → List UInt8 → List Unit
  | _, [] => []
  | pending + 1, _ :: bs => decodeFrom pending bs
  | 0, b :: bs =>
    match char? b bs with
    | some (c, tail) => .char c :: decodeFrom tail bs
    | none => .stray b :: decodeFrom 0 bs

def decode (bs : List UInt8) : List Unit := decodeFrom 0 bs

/-- The text of bytes, a stray byte shown as the replacement character. -/
def text (bs : List UInt8) : String :=
  String.ofList ((decode bs).map fun
    | .char c => c
    | .stray _ => '�')

end Utf8
end Codegen
