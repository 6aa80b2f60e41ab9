/-
Compiling.

A function goes through the calling convention, instruction selection, live ranges,
register allocation, spill code and its frame, in that order.  A program is compiled
function by function, up to the first that fails.
-/
import Codegen.Calling.Lower
import Codegen.Document
import Codegen.Options
import Codegen.Render
import Codegen.Spill

namespace Codegen

structure Compiled where
  function : Function
  entry : Entry
  assignment : Assignment
  frame : Frame
  /-- The number of loads and stores added for spilled registers. -/
  spillCode : Nat
  usedRules : Array Nat
  deriving Inhabited

namespace Function

def dump (f : Function) (wanted : Bool) (stage : String) : Traced Unit :=
  if wanted then Traced.note f.name (.listing stage f) else pure ()

def compile (f : Function) (rules : RuleSet) (o : Options) : Traced Compiled := do
  let (entry, f) ← f.lower
  f.dump o.dumps.abi "abi"
  let (f, used) ← f.select rules o.forSelect
  f.dump o.dumps.select "select"
  let ranges ← f.liveRanges
  let (assignment, f) ← f.allocate ranges.analysis o.forAllocate
  let (added, f) ← f.addSpillCode
  f.dump o.dumps.regalloc "regalloc"
  let (frame, f) ← f.addFrame
  Traced.note f.name
    (.compiled f.code.length assignment.spilled.length added frame.localSize)
  return ⟨f, entry, assignment, frame, added, used⟩

/-- Compile a function of a program, which is named when it fails. -/
def compileNamed (rules : RuleSet) (o : Options) (f : Function) : Traced Compiled :=
  tryCatch (f.compile rules o) fun e => throw (.within f.name e)

end Function

namespace Global

def symbol (g : Global) : DataSymbol := ⟨g.name, g.type.size, g.type.align, g.init, false⟩

end Global

structure Compilation where
  assembly : Assembly
  functions : List Compiled
  deriving Inhabited

namespace Compilation

/-- The indexes of the rules applied at least once, ascending. -/
def usedRules (c : Compilation) : List Nat :=
  ((c.functions.flatMap (·.usedRules.toList)).mergeSort (· ≤ ·)).eraseReps

end Compilation

namespace Program

def compile (p : Program) (rules : RuleSet) (o : Options) : Traced Compilation := do
  let compiled ← p.functions.mapM (Function.compileNamed rules o)
  let assembly ← Traced.ofExcept <|
    Assembly.ofFunctions (compiled.map fun c => (c.function, some c.frame))
      (p.globals.map (·.symbol))
  return ⟨assembly, compiled⟩

end Program

end Codegen
