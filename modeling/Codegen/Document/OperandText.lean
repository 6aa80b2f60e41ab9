/-
Operands as text.

An operand is a body and, after a colon, its type.  The body is a mark and a number or a
name: `v1` a virtual register, `p0` a parameter, `slot1` a local slot, `@g` a global, `&f`
a function, `s0` a string literal, `L3` a label.  Anything else is a constant.

Registers and slots are numbered freely in the text.  Each new register number gets the
next virtual register, and each new slot number gets a slot for the type it first has.
-/
import Codegen.Document.TypeText
import Codegen.Function
import Codegen.Numeral.Literal

namespace Codegen

structure FunctionReader where
  function : Function
  types : TypeReader
  /-- The signatures of known functions, the latest first. -/
  signatures : List (String × Ty) := []
  vregs : List (Int × Int) := []
  slots : List (Int × Operand) := []
  deriving Inhabited

abbrev ReadFunction := StateT FunctionReader (Except DocumentError)

namespace FunctionReader

def type (s : String) : ReadFunction Ty := do
  let r ← get
  match (TypeReader.read s).run r.types with
  | .ok t types =>
    set { r with types := types }
    return t
  | .error e _ => throw e

/-- Take a virtual register, label or slot from the function. -/
def fromFunction {α : Type} (take : Function → α × Function) : ReadFunction α :=
  modifyGet fun r =>
    let (a, f) := take r.function
    (a, { r with function := f })

/-- Make room for a label. -/
def seeLabel (n : Int) : ReadFunction Unit :=
  modify fun r =>
    { r with function := { r.function with labelCount := max r.function.labelCount (.ofInt n) } }

/-- The text of an operand, cut at its colon. -/
structure Parts where
  /-- The whole text, for messages. -/
  whole : String
  body : List Char
  type : Option Ty

namespace Parts

def needType (p : Parts) : ReadFunction Ty :=
  match p.type with
  | some t => pure t
  | none => throw (.operandNeedsType p.whole)

def number (p : Parts) (digits : List Char) : ReadFunction Int :=
  match Literal.index? digits with
  | some n => if n < 0 then throw (.badOperand p.whole) else pure n
  | none => throw (.badOperand p.whole)

/-- A slot; a new one takes room for its type. -/
def slot (p : Parts) (digits : List Char) : ReadFunction Operand := do
  let n ← p.number digits
  match (← get).slots.lookup n with
  | some o => return match p.type with
    | some t => o.withType t
    | none => o
  | none =>
    let t ← p.needType
    let o ← fromFunction (·.allocateSlot t)
    modify fun r => { r with slots := (n, o) :: r.slots }
    return o

def vreg (p : Parts) (digits : List Char) : ReadFunction Operand := do
  let n ← p.number digits
  let t ← p.needType
  match (← get).vregs.lookup n with
  | some id => return .vreg id t
  | none =>
    let o ← fromFunction (·.freshVReg t)
    modify fun r => { r with vregs := (n, r.function.vregCount) :: r.vregs }
    return o

/-- A parameter, at its own type if none is written. -/
def param (p : Parts) (digits : List Char) : ReadFunction Operand := do
  let n ← p.number digits
  match (← get).function.params[n.toNat]? with
  | some own => return ⟨.param n, p.type.getD own, 0⟩
  | none => throw (.missingParameter p.whole)

/-- The type of a function about which nothing is known. -/
def unknownSignature : Ty := .func [] .missing false

def func (p : Parts) (name : String) : ReadFunction Operand := do
  match p.type with
  | some (.func params result variadic) =>
    return ⟨.func name, .func params result variadic, 0⟩
  | some _ => throw (.notSignature p.whole)
  | none => return ⟨.func name, ((← get).signatures.lookup name).getD unknownSignature, 0⟩

def string (p : Parts) (digits : List Char) : ReadFunction Operand := do
  let n ← p.number digits
  if n.toNat < (← get).function.strings.length then return .string n
  else throw (.missingString p.whole)

def label (p : Parts) (digits : List Char) : ReadFunction Operand := do
  let n ← p.number digits
  seeLabel n
  return .label n

/-- A constant of an integer or floating type. -/
def constant (p : Parts) : ReadFunction Operand := do
  let t ← p.needType
  let value := if t.isFloating then (Literal.float? p.body).map Value.fconst
    else (Literal.constant? p.body).map Value.const
  match value with
  | some v => return ⟨v, t, 0⟩
  | none => throw (.badConstant p.whole)

def operand (p : Parts) : ReadFunction Operand :=
  match p.body with
  | 's' :: 'l' :: 'o' :: 't' :: digits => p.slot digits
  | 'v' :: digits => p.vreg digits
  | 'p' :: digits => p.param digits
  | '@' :: name => do return .global (String.ofList name) (← p.needType)
  | '&' :: name => p.func (String.ofList name)
  | 's' :: digits => p.string digits
  | 'L' :: digits => p.label digits
  | _ => p.constant

end Parts

def operand (s : String) : ReadFunction Operand := do
  let cs := trimBlank s.toList
  let typeText := (cs.dropWhile (· != ':')).drop 1
  let t ← if typeText.isEmpty then pure none else some <$> type (String.ofList typeText)
  Parts.operand ⟨String.ofList cs, cs.takeWhile (· != ':'), t⟩

end FunctionReader

end Codegen
