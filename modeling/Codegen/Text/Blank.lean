/-
Blank characters and the cutting of text around them.
-/
namespace Codegen

/-- White space: the ASCII blanks and control blanks, the next-line and no-break characters, and the
space separators. -/
def isBlank (c : Char) : Bool :=
  let n := c.toNat
  (9 ≤ n && n ≤ 13) || n == 0x20 || n == 0x85 || n == 0xA0 || n == 0x1680 ||
    (0x2000 ≤ n && n ≤ 0x200A) || n == 0x2028 || n == 0x2029 || n == 0x202F || n == 0x205F ||
    n == 0x3000

def trimBlank (cs : List Char) : List Char :=
  ((cs.dropWhile isBlank).reverse.dropWhile isBlank).reverse

/-- The text after `head`, when it starts with `head`. -/
def after? : List Char → List Char → Option (List Char)
  | [], cs => some cs
  | h :: head, c :: cs => if h == c then after? head cs else none
  | _ :: _, [] => none

end Codegen
