/-
Copying aggregates.

A run of bytes is copied in chunks of eight bytes, and what is left over in chunks of
four, two and one, so that nothing outside the run is touched.  The same chunks serve
for copies through a pointer and for taking an eightbyte in and out of a register.
-/
import Codegen.Calling.Lowering

namespace Codegen

structure Chunk where
  pos : Nat
  width : IntWidth
  deriving DecidableEq, Repr

namespace Chunk

/-- Cut what remains from `pos` on into chunks, each the widest that still fits. -/
def planFrom (pos : Nat) : Nat → List Chunk
  | n + 8 => ⟨pos, .w64⟩ :: planFrom (pos + 8) n
  | n + 4 => ⟨pos, .w32⟩ :: planFrom (pos + 4) n
  | n + 2 => ⟨pos, .w16⟩ :: planFrom (pos + 2) n
  | n + 1 => ⟨pos, .w8⟩ :: planFrom (pos + 1) n
  | 0 => []

def plan (n : Nat) : List Chunk := planFrom 0 n

def ofSize (size : Int64) : List Chunk := plan size.toInt.toNat

def halves : List Chunk := [⟨0, .w32⟩, ⟨4, .w32⟩]

def type (c : Chunk) : Ty := .int c.width .unsigned

def offset (c : Chunk) : Int64 := Int64.ofNat c.pos

def bits (c : Chunk) : Int64 := c.width.bytes * 8

end Chunk

namespace Lowering

/-! ### Through a pointer -/

/-- The pointer to a chunk of the bytes that `ptr` points to. -/
def chunkPointer (ptr : Operand) (c : Chunk) : Build Operand :=
  if c.pos = 0 then pure (ptr.withType (.pointer c.type))
  else compute .add (.pointer c.type) ptr (Operand.const c.offset .long)

/-- Copy one chunk to where `ptr` points. -/
def chunkToPointer (ptr src : Operand) (c : Chunk) : Build Unit := do
  let v ← compute .move c.type (src.shifted c.offset c.type) none
  let p ← chunkPointer ptr c
  emit .moveToPtr p p v

/-- Copy `size` bytes from `src` to where `ptr` points. -/
def copyToPointer (ptr src : Operand) (size : Int64) : Build Unit :=
  (Chunk.ofSize size).forM (chunkToPointer ptr src)

/-- Copy one chunk from where `ptr` points. -/
def chunkFromPointer (dst ptr : Operand) (c : Chunk) : Build Unit := do
  let p ← chunkPointer ptr c
  let v ← compute .indirect c.type p none
  move (dst.shifted c.offset c.type) v

/-- Copy `size` bytes from where `ptr` points to `dst`. -/
def copyFromPointer (dst ptr : Operand) (size : Int64) : Build Unit :=
  (Chunk.ofSize size).forM (chunkFromPointer dst ptr)

/-! ### In and out of a register -/

/-- Store chunks of the value `v` at `mem`, shifting it down between stores. -/
def storeChunks (mem : Operand) (start : Int64) : Operand → List Chunk → Build Unit
  | _, [] => pure ()
  | v, c :: rest => do
    move (mem.shifted (start + c.offset) c.type) v
    if rest.isEmpty then pure ()
    else
      let v ← compute .bshr .ulong v (Operand.const c.bits .sint)
      storeChunks mem start v rest

/-- Read one chunk and shift it to its place in an eightbyte. -/
def loadChunk (mem : Operand) (start : Int64) (c : Chunk) : Build Operand := do
  let v ← compute .move .ulong (mem.shifted (start + c.offset) c.type) none
  if c.pos = 0 then return v
  else compute .bshl .ulong v (Operand.const (c.offset * 8) .sint)

/-- Read one more chunk into the value read so far. -/
def loadMore (mem : Operand) (start : Int64) (acc : Option Operand) (c : Chunk) :
    Build (Option Operand) := do
  let v ← loadChunk mem start c
  match acc with
  | none => return some v
  | some a => return some (← compute .bor .ulong a v)

/-- Read chunks of `mem` into one value, if there are any. -/
def loadChunks (mem : Operand) (start : Int64) (chunks : List Chunk) : Build (Option Operand) :=
  chunks.foldlM (loadMore mem start) none

/-- How an eightbyte travels: as two floats, as a double, as a float, or as integer bytes. -/
inductive Carriage
  | twoFloats
  | double
  | float
  | bytes
  deriving DecidableEq, Repr

/-- How the part of an aggregate at a location travels. -/
def carriage (place : Place) (w : Window) : Carriage :=
  match place with
  | .sse _ =>
    if w.size = 8 then (if w.members ≥ 2 then .twoFloats else .double) else .float
  | _ => .bytes

/-- Store the register of one eightbyte into `mem`.  No instruction stores half of a vector
register, so two floats go through an integer register. -/
def storeEightbyte (mem : Operand) (place : Place) (r : Reg) (w : Window) : Build Unit :=
  match carriage place w with
  | .twoFloats => do
    let bits ← compute .movePregClass .ulong (pseudo r .double) none
    storeChunks mem w.offset bits Chunk.halves
  | .double => move (mem.shifted w.offset .double) (pseudo r .double)
  | .float => move (mem.shifted w.offset .single) (pseudo r .single)
  | .bytes => storeChunks mem w.offset (pseudo r .ulong) (Chunk.ofSize w.size)

/-- Load one eightbyte of `mem` into its register, and give the pseudo-register written. -/
def loadEightbyte (mem : Operand) (place : Place) (r : Reg) (w : Window) : Build Operand :=
  match carriage place w with
  | .twoFloats => do
    let bits ← loadChunks mem w.offset (Chunk.plan 8)
    emit .movePregClass (pseudo r .double) bits none
    return pseudo r .double
  | .double => do
    move (pseudo r .double) (mem.shifted w.offset .double)
    return pseudo r .double
  | .float => do
    move (pseudo r .single) (mem.shifted w.offset .single)
    return pseudo r .single
  | .bytes => do
    let v ← loadChunks mem w.offset (Chunk.ofSize w.size)
    emit .move (pseudo r .ulong) v none
    return pseudo r .ulong

/-- Store the registers of an aggregate into `mem`. -/
def storeEightbytes (mem : Operand) (p : Placement) (register : Place → Reg) : Build Unit :=
  p.locations.forM fun l =>
    match l.window with
    | some w => storeEightbyte mem l.place (register l.place) w
    | none => pure ()

/-- Load an aggregate into its registers, and give the pseudo-registers written. -/
def loadEightbytes (mem : Operand) (p : Placement) (register : Place → Reg) :
    Build (List Operand) := do
  let written ← p.locations.mapM fun l =>
    match l.window with
    | some w => do return some (← loadEightbyte mem l.place (register l.place) w)
    | none => pure none
  return written.filterMap id

end Lowering

end Codegen
