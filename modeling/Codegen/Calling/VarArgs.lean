/-
Variable arguments.

A list of variable arguments is a record in memory: how far into the saved integer
and vector registers one has read, a pointer to the arguments on the stack, and a
pointer to the saved registers.  Reading an argument takes it from the saved
registers while all of it is there, and from the stack after that.
-/
import Codegen.Calling.Call

namespace Codegen
namespace Lowering

/-! ### The record -/

def overflowField : Int64 := 8
def saveAreaField : Int64 := 16

/-- One of the two register files as the record sees it: its field, the end of its part of the
save area, and the bytes from one register to the next. -/
structure SavedFile where
  field : Int64
  limit : Int64
  step : Int64

def SavedFile.int : SavedFile := ⟨0, 48, 8⟩

def SavedFile.sse : SavedFile := ⟨4, saveAreaSize, 16⟩

abbrev bytePointer : Ty := .pointer .char

/-- The list operand, which must be memory of a variadic function. -/
def argList (i : Instr) : LowerM Operand := do
  if !(← get).fn.variadic then refuse (.notVariadic i.op)
  match i.src1 with
  | some list => if list.isMemory then return list else refuse (.listNotInMemory list)
  | none => refuse (.listNotInMemory none)

/-- Start reading: no register read, the stack from behind the named parameters. -/
def startArgs (list : Operand) (e : Entry) : Build Unit := do
  move (list.shifted SavedFile.int.field .uint) (.const e.gpOffset .uint)
  move (list.shifted SavedFile.sse.field .uint) (.const e.fpOffset .uint)
  let overflow ← compute .addressOf bytePointer
    (Operand.slot (incomingIndex e.namedStack) .char) none
  move (list.shifted overflowField bytePointer) overflow
  let save ← compute .addressOf bytePointer e.saveArea none
  move (list.shifted saveAreaField bytePointer) save

def lowerVaStart (i : Instr) : LowerM Unit := do
  let list ← argList i
  startArgs list (← get).entry

/-! ### Scalars -/

/-- Jump to `overflow` unless `count` registers of a file are still to be read; gives how far one
has read. -/
def checkSaved (list : Operand) (f : SavedFile) (count : Int64) (overflow : Int) :
    Build Operand := do
  let read ← compute .move .uint (list.shifted f.field .uint) none
  let fits ← compute .lt .sint read (Operand.const (f.limit - f.step * (count - 1)) .uint)
  emit .jz none fits (Operand.label overflow)
  return read

/-- Note that `count` more registers of a file were read. -/
def advanceSaved (list : Operand) (f : SavedFile) (count : Int64) (read : Operand) :
    Build Unit := do
  let next ← compute .add .uint read (Operand.const (count * f.step) .uint)
  move (list.shifted f.field .uint) next

def readScalar (list dst : Operand) : Build Unit := do
  let t := dst.type
  let pointer := Ty.pointer t
  let f := if t.isSse then SavedFile.sse else SavedFile.int
  let overflow ← freshLabel
  let done ← freshLabel
  let read ← checkSaved list f 1 overflow
  let base ← compute .move bytePointer (list.shifted saveAreaField bytePointer) none
  let wide ← compute .move .ulong read none
  let address ← compute .add pointer base wide
  emit .indirect dst address none
  advanceSaved list f 1 read
  emit .jmp none (Operand.label done) none
  label overflow
  let p ← compute .move pointer (list.shifted overflowField pointer) none
  emit .indirect dst p none
  let next ← compute .add pointer p (Operand.const (alignUp t.size 8) .long)
  move (list.shifted overflowField pointer) next
  label done

/-! ### Aggregates and long doubles -/

def alignPointer (t : Ty) (p : Operand) : Build Operand := do
  let bumped ← compute .add t p (Operand.const 15 .long)
  compute .band t bumped (Operand.const (-16) .long)

/-- How far one has read in each register file, for the files an aggregate uses. -/
structure Cursors where
  int : Option Operand := none
  sse : Option Operand := none

/-- Copy the eightbytes of an aggregate out of the saved registers; `ints` and `sses` count the
registers of each file used so far. -/
def copySaved (dst base : Operand) (cursors : Cursors) :
    Nat → Nat → Nat → List Eightbyte → Build Unit
  | _, _, _, [] => pure ()
  | i, ints, sses, c :: rest => do
    let (read, f, used) := match c with
      | .sse => (cursors.sse, SavedFile.sse, sses)
      | _ => (cursors.int, SavedFile.int, ints)
    let wide ← compute .move .ulong read none
    let address ← compute .add bytePointer base wide
    let address ← if used = 0 then pure address
      else compute .add bytePointer address (Operand.const (Int64.ofNat used * f.step) .long)
    let offset := Int64.ofNat i * 8
    copyFromPointer (dst.shifted offset dst.type) address (min (dst.type.size - offset) 8)
    match c with
    | .sse => copySaved dst base cursors (i + 1) ints (sses + 1) rest
    | _ => copySaved dst base cursors (i + 1) (ints + 1) sses rest

def checkFile (list : Operand) (f : SavedFile) (count : Nat) (overflow : Int) :
    Build (Option Operand) :=
  if count = 0 then pure none
  else do return some (← checkSaved list f (Int64.ofNat count) overflow)

def advanceFile (list : Operand) (f : SavedFile) (count : Nat) : Option Operand → Build Unit
  | some read => advanceSaved list f (Int64.ofNat count) read
  | none => pure ()

def readSaved (list dst : Operand) (classes : List Eightbyte) (overflow : Int) : Build Unit := do
  let sses := classes.count .sse
  let ints := classes.length - sses
  let intRead ← checkFile list .int ints overflow
  let sseRead ← checkFile list .sse sses overflow
  let base ← compute .move bytePointer (list.shifted saveAreaField bytePointer) none
  copySaved dst base ⟨intRead, sseRead⟩ 0 0 0 classes
  advanceFile list .int ints intRead
  advanceFile list .sse sses sseRead

def readOverflow (list dst : Operand) : Build Unit := do
  let t := dst.type
  let p ← compute .move bytePointer (list.shifted overflowField bytePointer) none
  let p ← if t.align > 8 then alignPointer bytePointer p else pure p
  copyFromPointer dst p t.size
  let next ← compute .add bytePointer p (Operand.const (alignUp t.size 8) .long)
  move (list.shifted overflowField bytePointer) next

def readAggregate (list dst : Operand) : LowerM Unit := do
  if !dst.isMemory then refuse (.vaArgAggregate dst)
  require (Eightbyte.canClassify dst.type) .missingType
  match Eightbyte.classify dst.type with
  | none => readOverflow list dst
  | some classes =>
    let overflow ← freshLabel
    let done ← freshLabel
    readSaved list dst classes overflow
    emit .jmp none (Operand.label done) none
    label overflow
    readOverflow list dst
    label done

/-- Copy the two halves of a long double. -/
def readHalves (list dst : Operand) : Build Unit := do
  let word := Ty.pointer .ulong
  let p ← compute .move word (list.shifted overflowField word) none
  let aligned ← alignPointer word p
  let low ← compute .indirect .ulong aligned none
  move (dst.shifted 0 .ulong) low
  let highAddress ← compute .add word aligned (Operand.const 8 .long)
  let high ← compute .indirect .ulong highAddress none
  move (dst.shifted 8 .ulong) high
  let next ← compute .add word aligned (Operand.const 16 .long)
  move (list.shifted overflowField word) next

/-- Read a long double, which is always on the stack. -/
def readLongDouble (list dst : Operand) : LowerM Unit := do
  if !dst.isMemory then refuse (.vaArgLongDouble dst)
  readHalves list dst

def lowerVaArg (i : Instr) : LowerM Unit := do
  let list ← argList i
  match i.dst with
  | none => refuse .vaArgWithoutDst
  | some dst =>
    match dst.type with
    | .array _ _ => refuse (.vaArgType dst.type)
    | .func _ _ _ => refuse (.vaArgType dst.type)
    | .void => refuse (.vaArgType dst.type)
    | .missing => throw (.fault .missingType)
    | t =>
      if t.isAggregate then readAggregate list dst
      else if t.isLongDouble then readLongDouble list dst
      else readScalar list dst

end Lowering
end Codegen
