/-
Options.

What the user can choose: how many registers the allocator may use, which refinements
are on, and which intermediate results are shown.
-/
import Codegen.Assignment
import Codegen.Select

namespace Codegen

structure Dumps where
  select : Bool := false
  regalloc : Bool := false
  rules : Bool := false
  abi : Bool := false
  deriving DecidableEq, Repr, Inhabited

structure Options where
  intRegisters : Int := (Reg.allocatable .int).length
  sseRegisters : Int := (Reg.allocatable .sse).length
  preferredRegisters : Bool := true
  mergeTrees : Bool := true
  foldConstants : Bool := true
  dumps : Dumps := {}
  verbose : Bool := false
  deriving DecidableEq, Repr, Inhabited

namespace Dumps

def enable (d : Dumps) (name : String) : Except OptionError Dumps :=
  match name with
  | "select" => .ok { d with select := true }
  | "regalloc" => .ok { d with regalloc := true }
  | "rules" => .ok { d with rules := true }
  | "abi" => .ok { d with abi := true }
  | _ => .error (.unknownDump name)

end Dumps

namespace Options

/-- Everything off, and all registers. -/
def plain : Options :=
  { intRegisters := 0, sseRegisters := 0, preferredRegisters := false, mergeTrees := false
    foldConstants := false }

def inRange (n : Int) (c : RegClass) : Bool := 1 ≤ n && n ≤ (Reg.allocatable c).length

/-- Check the numbers of registers. -/
def validate (o : Options) : Except OptionError Unit :=
  if !inRange o.intRegisters .int then
    .error (.intRegisters o.intRegisters (Reg.allocatable .int).length)
  else if !inRange o.sseRegisters .sse then
    .error (.sseRegisters o.sseRegisters (Reg.allocatable .sse).length)
  else .ok ()

def forSelect (o : Options) : SelectOptions := { merge := o.mergeTrees, fold := o.foldConstants }

def forAllocate (o : Options) : AllocateOptions :=
  { intRegisters := o.intRegisters, sseRegisters := o.sseRegisters
    hints := o.preferredRegisters }

end Options

end Codegen
