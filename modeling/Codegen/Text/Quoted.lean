/-
Text in quotes.

Printable characters stand for themselves, quotes and backslashes are escaped, the
usual control characters have letters, and everything else is written by number in
the shortest of three forms.  A stray byte is written by number too.
-/
import Codegen.Text.Printable
import Codegen.Text.Utf8

namespace Codegen
namespace Quoted

def hex (width n : Nat) : List Char :=
  let cs := Nat.toDigits 16 n
  List.replicate (width - cs.length) '0' ++ cs

def escapeLetter? (c : Char) : Option Char :=
  match c.toNat with
  | 7 => some 'a'
  | 8 => some 'b'
  | 9 => some 't'
  | 10 => some 'n'
  | 11 => some 'v'
  | 12 => some 'f'
  | 13 => some 'r'
  | _ => none

def encodeFor (quote c : Char) : List Char :=
  if c == quote || c == '\\' then ['\\', c]
  else if isPrintable c then [c]
  else match escapeLetter? c with
    | some letter => ['\\', letter]
    | none =>
      if c.toNat < 0x20 || c.toNat == 0x7F then '\\' :: 'x' :: hex 2 c.toNat
      else if c.toNat < 0x10000 then '\\' :: 'u' :: hex 4 c.toNat
      else '\\' :: 'U' :: hex 8 c.toNat

/-- One character inside the quotes of a text. -/
def encodeChar (c : Char) : List Char := encodeFor '"' c

def char (c : Char) : String := String.ofList ('\'' :: encodeFor '\'' c ++ ['\''])

/-- One unit of decoded bytes inside the quotes. -/
def encodeUnit : Utf8.Unit → List Char
  | .char c => encodeChar c
  | .stray b => '\\' :: 'x' :: hex 2 b.toNat

def text (s : String) : String :=
  String.ofList ('"' :: s.toList.flatMap encodeChar ++ ['"'])

def bytes (bs : List UInt8) : String :=
  String.ofList ('"' :: (Utf8.decode bs).flatMap encodeUnit ++ ['"'])

end Quoted
end Codegen
