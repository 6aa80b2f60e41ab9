/-
Bytes written in sixty-four characters.

Four characters stand for three bytes.  The last four may end in one or two equals signs and
then stand for two bytes or one; line breaks are ignored.
-/
namespace Codegen
namespace Base64

def digit? (c : Char) : Option Nat :=
  if 'A' ≤ c ∧ c ≤ 'Z' then some (c.toNat - 'A'.toNat)
  else if 'a' ≤ c ∧ c ≤ 'z' then some (c.toNat - 'a'.toNat + 26)
  else if '0' ≤ c ∧ c ≤ '9' then some (c.toNat - '0'.toNat + 52)
  else if c == '+' then some 62
  else if c == '/' then some 63
  else none

/-- The first `n` of three bytes. -/
def bytes (n value : Nat) : List UInt8 :=
  [value / 65536, value / 256, value].take n |>.map UInt8.ofNat

/-- The bytes of four characters at a time. -/
def decodeFrom : List Char → Option (List UInt8)
  | [] => some []
  | [a, b, '=', '='] => do
    return bytes 1 ((← digit? a) * 262144 + (← digit? b) * 4096)
  | [a, b, c, '='] => do
    return bytes 2 ((← digit? a) * 262144 + (← digit? b) * 4096 + (← digit? c) * 64)
  | a :: b :: c :: d :: rest => do
    let value := (← digit? a) * 262144 + (← digit? b) * 4096 + (← digit? c) * 64 + (← digit? d)
    return bytes 3 value ++ (← decodeFrom rest)
  | _ => none

def decode? (cs : List Char) : Option (List UInt8) :=
  decodeFrom (cs.filter fun c => c != '\n' && c != '\r')

end Base64
end Codegen
