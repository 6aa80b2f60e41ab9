/-
The physical registers.

There are sixteen general-purpose and sixteen vector registers, numbered 0 to 31.
A number outside that range names no register; it is kept, because operands carry
it and print it, and `Reg.none` is the number -1 of an operand that has no register
yet.

Virtual registers 1 to 26 are reserved: each stands for one fixed physical register
before allocation, so that values bound to a fixed register are ordinary live
ranges to the allocator.  They are called pseudo-registers here.
-/
namespace Codegen

/-- The two register files, and the class of what is in neither. -/
inductive RegClass
  | none
  | int
  | sse
  deriving DecidableEq, Repr, Inhabited

namespace RegClass

def text : RegClass → String
  | .none => "none"
  | .int => "int"
  | .sse => "sse"

def ofCode : Int → RegClass
  | 1 => .int
  | 2 => .sse
  | _ => .none

end RegClass

inductive Reg
  | gpr (n : Fin 16)
  | xmm (n : Fin 16)
  | unknown (code : Int)
  deriving DecidableEq, Repr

namespace Reg

abbrev none : Reg := .unknown (-1)

instance : Inhabited Reg := ⟨.none⟩

abbrev rax : Reg := .gpr 0
abbrev rbx : Reg := .gpr 1
abbrev rcx : Reg := .gpr 2
abbrev rdx : Reg := .gpr 3
abbrev rsi : Reg := .gpr 4
abbrev rdi : Reg := .gpr 5
abbrev rbp : Reg := .gpr 6
abbrev rsp : Reg := .gpr 7
abbrev r8 : Reg := .gpr 8
abbrev r9 : Reg := .gpr 9
abbrev r10 : Reg := .gpr 10
abbrev r11 : Reg := .gpr 11
abbrev r12 : Reg := .gpr 12
abbrev r13 : Reg := .gpr 13
abbrev r14 : Reg := .gpr 14
abbrev r15 : Reg := .gpr 15
abbrev xmm0 : Reg := .xmm 0

def ofCode (n : Int) : Reg :=
  if h : 0 ≤ n ∧ n < 16 then .gpr ⟨n.toNat, by omega⟩
  else if h : 16 ≤ n ∧ n < 32 then .xmm ⟨n.toNat - 16, by omega⟩
  else .unknown n

def cls : Reg → RegClass
  | .gpr _ => .int
  | .xmm _ => .sse
  | .unknown _ => .none

/-- The letters a general-purpose register below `r8` is named from. -/
def stem : Fin 16 → String
  | 0 => "a"
  | 1 => "b"
  | 2 => "c"
  | 3 => "d"
  | 4 => "si"
  | 5 => "di"
  | 6 => "bp"
  | _ => "sp"

/-- The name of one of the first eight registers at a width in bytes. -/
def lowName (n : Fin 16) (width : Int) : String :=
  let s := stem n
  let x := if n.val < 4 then "x" else ""
  match width with
  | 1 => s ++ "l"
  | 2 => s ++ x
  | 4 => "e" ++ s ++ x
  | _ => "r" ++ s ++ x

/-- The name of one of the last eight registers at a width in bytes. -/
def highName (n : Fin 16) (width : Int) : String :=
  let s := "r" ++ toString n.val
  match width with
  | 1 => s ++ "b"
  | 2 => s ++ "w"
  | 4 => s ++ "d"
  | _ => s

/-- The name of a register used at a width of 1, 2, 4 or otherwise 8 bytes, without its sigil.
Vector registers have one name. -/
def name (r : Reg) (width : Int) : String :=
  match r with
  | .gpr n => if n.val < 8 then lowName n width else highName n width
  | .xmm n => "xmm" ++ toString n.val
  | .unknown code => "?reg" ++ toString code

def text (r : Reg) : String := r.name 8

/-! ### Roles in the calling convention -/

def intArgs : List Reg := [.rdi, .rsi, .rdx, .rcx, .r8, .r9]

def sseArgs : List Reg := [.xmm 0, .xmm 1, .xmm 2, .xmm 3, .xmm 4, .xmm 5, .xmm 6, .xmm 7]

def intResults : List Reg := [.rax, .rdx]

def sseResults : List Reg := [.xmm 0, .xmm 1]

/-- The general-purpose registers kept for spill code: the first source's, then the second's. -/
def intScratch : Reg × Reg := (.r10, .r11)

def sseScratch : Reg × Reg := (.xmm 14, .xmm 15)

def isReserved : Reg → Bool
  | .gpr n => n == 6 || n == 7 || n == 10 || n == 11
  | .xmm n => n == 14 || n == 15
  | .unknown _ => false

/-- Must a function leave this register as its caller had it? -/
def isCalleeSaved : Reg → Bool
  | .gpr n => n == 1 || 12 ≤ n.val
  | _ => false

def calleeSaved : List Reg := [.rbx, .r12, .r13, .r14, .r15]

/-- The registers of a class that may hold virtual registers, in colour order.  What has no class
is treated as integer. -/
def allocatable (c : RegClass) : List Reg :=
  match c with
  | .sse => (List.finRange 16).map Reg.xmm |>.filter (!·.isReserved)
  | _ => (List.finRange 16).map Reg.gpr |>.filter (!·.isReserved)

/-! ### Pseudo-registers -/

def fixedInts : List Reg :=
  [.rax, .rbx, .rcx, .rdx, .rsi, .rdi, .r8, .r9, .r12, .r13, .r14, .r15]

/-- How many pseudo-registers there are: twelve general-purpose and fourteen vector ones. -/
def pseudoCount : Nat := 26

/-- The first pseudo-register that stands for a vector register. -/
def firstPseudoSse : Nat := 13

def isPseudo (v : Int) : Bool := 1 ≤ v && v ≤ pseudoCount

/-- The physical register a pseudo-register stands for, or none. -/
def ofPseudo (v : Int) : Reg :=
  if 1 ≤ v ∧ v < firstPseudoSse then fixedInts.getD (v.toNat - 1) .none
  else if h : firstPseudoSse ≤ v ∧ v ≤ pseudoCount then
    .xmm ⟨v.toNat - firstPseudoSse, by simp only [firstPseudoSse, pseudoCount] at *; omega⟩
  else .none

/-- The pseudo-register that stands for a physical register, or 0. -/
def pseudo (r : Reg) : Int :=
  match r with
  | .xmm n => if n.val < 14 then firstPseudoSse + n.val else 0
  | r => match fixedInts.idxOf? r with
    | some i => i + 1
    | Option.none => 0

/-- The pseudo-registers whose values do not survive a call. -/
def callerSaved : List Int :=
  [.rax, .rcx, .rdx, .rsi, .rdi, .r8, .r9].map pseudo ++
    (List.range 14).map fun i => ((firstPseudoSse + i : Nat) : Int)

end Reg

end Codegen
