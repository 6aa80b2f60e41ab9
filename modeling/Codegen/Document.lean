/-
Documents.

A document declares struct types and functions, defines global data, and gives the code
of functions.  Loading it checks all of that and makes a program.
-/
import Codegen.Document.OperandText

namespace Codegen

structure InstrText where
  op : String := ""
  label : Int := 0
  dst : String := ""
  src1 : String := ""
  src2 : String := ""
  deriving DecidableEq, Repr, Inhabited

/-- What the assembly of a function should hold; it plays no part in compiling. -/
structure Expectation where
  contains : List String := []
  notContains : List String := []
  deriving DecidableEq, Repr, Inhabited

structure FunctionText where
  name : String := ""
  result : String := ""
  params : List String := []
  variadic : Bool := false
  addressTaken : List Int := []
  strings : List String := []
  code : List InstrText := []
  expect : Option Expectation := none
  deriving DecidableEq, Repr, Inhabited

structure GlobalText where
  name : String := ""
  type : String := ""
  init : List UInt8 := []
  deriving DecidableEq, Repr, Inhabited

structure Document where
  types : TypeTable := []
  globals : List GlobalText := []
  declarations : List (String × String) := []
  functions : List FunctionText := []
  deriving Repr, Inhabited

structure Global where
  name : String
  type : Ty
  init : List UInt8
  deriving Repr, Inhabited

structure Program where
  globals : List Global
  functions : List Function
  /-- The expectation of each function, in order. -/
  expect : List (String × Option Expectation)
  deriving Inhabited

namespace Program

/-- The expectations by name, where one is given; of functions with one name the last counts. -/
def expectations (p : Program) : List (String × Expectation) :=
  let names := (p.expect.map (·.1)).eraseDups
  names.filterMap fun name =>
    match p.expect.reverse.lookup name with
    | some (some e) => some (name, e)
    | _ => none

end Program

/-! ### Functions -/

namespace FunctionReader

/-- Read an operand place; an empty text is no operand. -/
def place (s : String) : ReadFunction (Option Operand) :=
  if s.isEmpty then pure none else some <$> operand s

def instr (t : InstrText) : ReadFunction Instr := do
  match IrOp.ofName? t.op with
  | none => throw (.unknownOperation t.op)
  | some op =>
    let dst ← place t.dst
    let src1 ← place t.src1
    let src2 ← place t.src2
    seeLabel t.label
    return { op := .ir op, label := t.label, dst := dst, src1 := src1, src2 := src2 }

end FunctionReader

/-- A step of loading a document; contexts are added to what goes wrong. -/
abbrev Loading := StateT TypeReader (Except Failure)

namespace Loading

/-- Name the thing in which something went wrong. -/
def within {α : Type} (context : String) (step : Loading α) : Loading α := fun s =>
  match step s with
  | .ok r => .ok r
  | .error e => .error (.within context e)

def type (s : String) : Loading Ty := fun reader =>
  match (TypeReader.read s).run reader with
  | .ok t reader => .ok (t, reader)
  | .error e _ => .error (.document e)

def signature (f : FunctionText) : Loading (Ty × List Ty) := do
  let result ← if f.result.isEmpty then pure Ty.void else type f.result
  let params ← f.params.mapM type
  return (result, params)

/-- Mark the parameters that must live in memory. -/
def markAddressTaken (f : Function) (i : Int) : Except Failure Function :=
  if 0 ≤ i && i < f.params.length then
    .ok { f with addressTaken := f.addressTaken.set i.toNat true }
  else .error (.document (.addressTakenRange i))

def code : Nat → List InstrText → FunctionReader → Except Failure (List Instr × FunctionReader)
  | _, [], r => .ok ([], r)
  | n, t :: rest, r =>
    match (FunctionReader.instr t).run r with
    | .error e => .error (.within ("instruction " ++ toString n) (.document e))
    | .ok (i, r) =>
      match code (n + 1) rest r with
      | .error e => .error e
      | .ok (is, r) => .ok (i :: is, r)

def function (signatures : List (String × Ty)) (t : FunctionText) : Loading Function := do
  let (result, params) ← signature t
  let f := { Function.new t.name result params with variadic := t.variadic, strings := t.strings }
  let f ← (t.addressTaken.foldlM markAddressTaken f : Except Failure Function)
  let types ← get
  let (code, r) ← code 0 t.code { function := f, types := types, signatures := signatures }
  set r.types
  return { r.function with code := code }

def global (g : GlobalText) : Loading Global :=
  within ("global " ++ g.name) do return ⟨g.name, ← type g.type, g.init⟩

def declaration (d : String × String) : Loading (String × Ty) := do
  match ← within ("declaration " ++ d.1) (type d.2) with
  | .func params result variadic => return (d.1, .func params result variadic)
  | _ => throw (.document (.declarationNotSignature d.1))

def definition (t : FunctionText) : Loading (String × Ty) :=
  within ("function " ++ t.name) do
    let (result, params) ← signature t
    return (t.name, .func params result t.variadic)

def document (d : Document) : Loading Program := do
  let globals ← d.globals.mapM global
  let declared ← d.declarations.mapM declaration
  let defined ← d.functions.mapM definition
  let signatures := (declared ++ defined).reverse
  let functions ← d.functions.mapM fun t =>
    within ("function " ++ t.name) (function signatures t)
  return ⟨globals, functions, d.functions.map fun t => (t.name, t.expect)⟩

end Loading

namespace Document

def load (d : Document) : Except Failure Program :=
  ((Loading.document d).run { table := d.types }).map (·.1)

end Document

end Codegen
