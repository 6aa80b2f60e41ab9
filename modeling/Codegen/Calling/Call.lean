/-
Calls and returns.

The arguments of a call were collected before it.  Those that go to the stack are
pushed first, the last one first, with padding between and before them so that the
area is a multiple of sixteen bytes; then the registers are loaded and marked as
live, and after the call the stack is released and the result fetched.
-/
import Codegen.Calling.Entry

namespace Codegen
namespace Lowering

def maxArgs : Nat := 253

/-- The signature of what is called, through a pointer too; the result is missing when unknown. -/
def calleeResult (callee : Operand) : Ty × Bool :=
  match callee.type with
  | .func _ result variadic => (result, variadic)
  | .pointer (.func _ result variadic) => (result, variadic)
  | _ => (.missing, false)

/-- Integer arguments narrower than an `int` are widened to it. -/
def promoted : Ty → Ty
  | .int .w8 s => .int .w32 s
  | .int .w16 s => .int .w32 s
  | t => t

/-! ### Stack arguments -/

def push (v : Operand) : Build Unit :=
  if v.type.isAggregate then
    (List.range ((alignUp v.type.size 8).toInt.toNat / 8)).reverse.forM fun i =>
      emit .arg none (v.shifted (Int64.ofNat (8 * i)) .long) none
  else emit .arg none v none

/-- Emit padding between the end of a value and what is above it. -/
def padDown (top bottom : Int64) : Build Unit :=
  (List.range (((top - bottom).toInt.toNat + 7) / 8)).forM fun _ =>
    emit .argStackPadding none none none

/-- Push the stack arguments, given last first, below `top`. -/
def pushArgs : Int64 → List (Operand × Placement) → Build Unit
  | _, [] => pure ()
  | top, (v, p) :: rest =>
    match p.stackOffset? with
    | none => pushArgs top rest
    | some offset => do
      padDown top (offset + alignUp v.type.size 8)
      push v
      pushArgs offset rest

/-- The size of the area that is pushed and released: a multiple of sixteen. -/
def areaSize (size : Int64) : Int64 := if size % 16 = 0 then size else size + (16 - size % 16)

/-! ### Register arguments -/

/-- Load a register argument, and give the pseudo-registers written. -/
def loadArg (v : Operand) (p : Placement) : LowerM (List Operand) :=
  if p.onStack then pure []
  else match p.locations with
    | [] => pure []
    | l :: _ =>
      if p.type.isAggregate then
        if v.isMemory then loadEightbytes v p argRegister else refuse (.aggregateArgument v)
      else do
        let r ← match l.place with
          | .sse _ => pure (pseudo (argRegister l.place) p.type)
          | .int _ => pure (pseudo (argRegister l.place) (promoted p.type))
          | .stack _ _ => throw (.fault .outOfRange)
        move r v
        return [r]

def loadArgs : List (Operand × Placement) → LowerM (List Operand)
  | [] => pure []
  | (v, p) :: rest => do
    let first ← loadArg v p
    return first ++ (← loadArgs rest)

def loadResultAddress (result : Ty) : Option Operand → Build (List Operand)
  | none => pure []
  | some address => do
    let r := pseudo (argRegister (.int 0)) (.pointer result)
    emit .addressOf r address none
    return [r]

/-- Tell a variadic function how many vector registers are used. -/
def loadVectorCount (variadic : Bool) (count : Nat) : Build (List Operand) :=
  if variadic then do
    let r := pseudo .rax .uchar
    move r (.const (Int64.ofNat count) .uchar)
    return [r]
  else pure []

/-! ### Results -/

def fetchResult (dst : Operand) : LowerM Unit := do
  require (Placement.canResultInMemory dst.type) .missingType
  if dst.type.isAggregate then
    match Placement.ofResult dst.type with
    | some p =>
      if dst.isMemory then storeEightbytes dst p resultRegister
      else refuse (.aggregateResult dst)
    | none => refuse (.aggregateResult dst)
  else if dst.type.isLongDouble then refuse .longDoubleResult
  else if dst.type.isSse then move dst (pseudo .xmm0 dst.type)
  else move dst (pseudo .rax dst.type)

/-- Where a result in memory goes: the destination if that is memory, else a temporary. -/
def resultAddress (result : Ty) : Option Operand → Build Operand
  | some d => if d.isMemory then pure d else freshSlot result
  | none => freshSlot result

/-- The place of a result in memory, if it goes there. -/
def resultAddress? (inMemory : Bool) (result : Ty) (dst : Option Operand) :
    Build (Option Operand) :=
  if inMemory then some <$> resultAddress result dst else pure none

/-! ### The call -/

/-- The type of a call's result: by the callee's signature, or else by the destination. -/
def callResult (signature : Ty) (dst : Option Operand) : Ty :=
  if signature.isMissing then (dst.map (·.type)).getD .missing else signature

def callArgs (i : Instr) (args : List (Int64 × Operand)) : List Operand :=
  match i.src2.map Operand.value with
  | some (.const id) => (args.filter (·.1 == id)).map (·.2)
  | _ => []

def lowerCallTo (callee : Operand) (args : List Operand) (dst : Option Operand) : LowerM Unit := do
  let (signature, variadic) := calleeResult callee
  let result := callResult signature dst
  require (Placement.canResultInMemory result) .missingType
  let inMemory := Placement.resultInMemory result
  let start := if inMemory then Allocation.arguments.reserve.2 else Allocation.arguments
  let address ← resultAddress? inMemory result dst
  require (args.all fun v => Allocation.canAdd v.type) .missingType
  let (places, a) := start.addAll (args.map (·.type))
  let size := a.finalize.offset
  let total := areaSize size
  if size % 16 != 0 then emit .argStackPadding none none none
  pushArgs size (args.zip places).reverse
  let live ← loadArgs (args.zip places)
  let live := live ++ (← loadResultAddress result address)
  let live := live ++ (← loadVectorCount variadic a.sseRegs)
  live.forM fun r => emit .callArgReg none r none
  emit .call none callee none
  if total > 0 then emit .releaseStack none (Operand.const total .long) none
  note (.call callee args.length total a.sseRegs)
  match dst, address with
  | some d, none => fetchResult d
  | _, _ => pure ()

def lowerCall (i : Instr) : LowerM Unit := do
  let args := callArgs i (← get).args
  if args.length > maxArgs then refuse (.tooManyArguments args.length)
  match i.src1 with
  | none => throw (.fault .missingOperand)
  | some callee => lowerCallTo callee args i.dst

/-! ### The return -/

/-- Lower the return of an aggregate: through the hidden pointer, or in registers. -/
def lowerAggregateReturn (src : Operand) (t : Ty) : LowerM Unit := do
  if !src.isMemory then refuse (.aggregateReturn src)
  match (← get).entry.hidden with
  | some hidden =>
    copyToPointer hidden src t.size
    move (pseudo .rax hidden.type) hidden
  | none =>
    match Placement.ofResult t with
    | some p => let _ ← loadEightbytes src p resultRegister
    | none => pure ()
  emit .ret none none none

def lowerReturn (i : Instr) : LowerM Unit := do
  let t := (← get).fn.result
  match i.src1 with
  | some src => if t.isAggregate then lowerAggregateReturn src t else append i
  | none => append i

end Lowering
end Codegen
