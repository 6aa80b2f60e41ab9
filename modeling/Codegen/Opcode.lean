/-
Operations.

Generic operations and machine operations share one space, so that code in the
middle of being lowered can be written down.  Both kinds are numbered, the generic
ones from 0 and the machine ones from 1000; a number that names neither is kept as
`unknown`.
-/
namespace Codegen

inductive IrOp
  | none
  | nop
  | move
  | moveToPtr
  | movePregClass
  | addressOf
  | indirect
  | startCall
  | arg
  | argStackPadding
  | callArgReg
  | call
  | endCall
  | vaStart
  | vaArg
  | allocateStack
  | releaseStack
  | ret
  | startLoop
  | endLoop
  | jmp
  | jz
  | jnz
  | add
  | sub
  | mul
  | div
  | mod
  | eq
  | ne
  | lt
  | gt
  | le
  | ge
  | lor
  | land
  | lnot
  | bnot
  | bor
  | band
  | xor
  | bshl
  | bshr
  | ashr
  deriving DecidableEq, Repr, Inhabited, Hashable

inductive MachineOp
  | mov
  | movz
  | movs
  | movFromInd
  | movToInd
  | movPregClass
  | lea
  | add
  | sub
  | mul
  | idiv
  | div
  | cqto
  | cltd
  | shl
  | shr
  | sar
  | bor
  | band
  | xor
  | bnot
  | neg
  | cvt
  | fadd
  | fsub
  | fmul
  | fdiv
  | cmp
  | cmpz
  | comis
  | test
  | jmp
  | jz
  | jnz
  | je
  | jne
  | jlt
  | jgt
  | jle
  | jge
  | jb
  | ja
  | jbe
  | jae
  | sete
  | setne
  | setlt
  | setgt
  | setle
  | setge
  | setb
  | seta
  | setbe
  | setae
  | push
  | pop
  | call
  | ret
  | stack
  deriving DecidableEq, Repr, Inhabited, Hashable

/-- An operation of either kind, or a number that names none. -/
inductive Opcode
  | ir (op : IrOp)
  | machine (op : MachineOp)
  | unknown (code : Int)
  deriving DecidableEq, Repr, Inhabited, Hashable

namespace IrOp

def table : List (IrOp × String) :=
  [(.none, "none"), (.nop, "nop"), (.move, "move"), (.moveToPtr, "move-to-ptr"),
   (.movePregClass, "move-preg-class"), (.addressOf, "address-of"), (.indirect, "indirect"),
   (.startCall, "start-call"), (.arg, "arg"), (.argStackPadding, "arg-stack-padding"),
   (.callArgReg, "call-arg-reg"), (.call, "call"), (.endCall, "end-call"),
   (.vaStart, "va-start"), (.vaArg, "va-arg"), (.allocateStack, "allocate-stack"),
   (.releaseStack, "release-stack"), (.ret, "return"), (.startLoop, "start-loop"),
   (.endLoop, "end-loop"), (.jmp, "jmp"), (.jz, "jz"), (.jnz, "jnz"), (.add, "add"),
   (.sub, "sub"), (.mul, "mul"), (.div, "div"), (.mod, "mod"), (.eq, "eq"), (.ne, "ne"),
   (.lt, "lt"), (.gt, "gt"), (.le, "le"), (.ge, "ge"), (.lor, "lor"), (.land, "land"),
   (.lnot, "lnot"), (.bnot, "bnot"), (.bor, "bor"), (.band, "band"), (.xor, "xor"),
   (.bshl, "bshl"), (.bshr, "bshr"), (.ashr, "ashr")]

def ofName? (name : String) : Option IrOp :=
  (table.find? fun e => e.2 == name).map Prod.fst

end IrOp

namespace MachineOp

def table : List (MachineOp × String) :=
  [(.mov, "x-mov"), (.movz, "x-movz"), (.movs, "x-movs"), (.movFromInd, "x-mov-from-ind"),
   (.movToInd, "x-mov-to-ind"), (.movPregClass, "x-mov-preg-class"), (.lea, "x-lea"),
   (.add, "x-add"), (.sub, "x-sub"), (.mul, "x-mul"), (.idiv, "x-idiv"), (.div, "x-div"),
   (.cqto, "x-cqto"), (.cltd, "x-cltd"), (.shl, "x-shl"), (.shr, "x-shr"), (.sar, "x-sar"),
   (.bor, "x-bor"), (.band, "x-band"), (.xor, "x-xor"), (.bnot, "x-bnot"), (.neg, "x-neg"),
   (.cvt, "x-cvt"), (.fadd, "x-fadd"), (.fsub, "x-fsub"), (.fmul, "x-fmul"),
   (.fdiv, "x-fdiv"), (.cmp, "x-cmp"), (.cmpz, "x-cmpz"), (.comis, "x-comis"),
   (.test, "x-test"), (.jmp, "x-jmp"), (.jz, "x-jz"), (.jnz, "x-jnz"), (.je, "x-je"),
   (.jne, "x-jne"), (.jlt, "x-jlt"), (.jgt, "x-jgt"), (.jle, "x-jle"), (.jge, "x-jge"),
   (.jb, "x-jb"), (.ja, "x-ja"), (.jbe, "x-jbe"), (.jae, "x-jae"), (.sete, "x-sete"),
   (.setne, "x-setne"), (.setlt, "x-setlt"), (.setgt, "x-setgt"), (.setle, "x-setle"),
   (.setge, "x-setge"), (.setb, "x-setb"), (.seta, "x-seta"), (.setbe, "x-setbe"),
   (.setae, "x-setae"), (.push, "x-push"), (.pop, "x-pop"), (.call, "x-call"),
   (.ret, "x-ret"), (.stack, "x-stack")]

def firstCode : Nat := 1000

def ofName? (name : String) : Option MachineOp :=
  (table.find? fun e => e.2 == name).map Prod.fst

end MachineOp

namespace Opcode

def ofCode (n : Int) : Opcode :=
  if n < 0 then .unknown n
  else match IrOp.table[n.toNat]? with
    | some e => .ir e.1
    | none =>
      if n < MachineOp.firstCode then .unknown n
      else match MachineOp.table[n.toNat - MachineOp.firstCode]? with
        | some e => .machine e.1
        | none => .unknown n

def code : Opcode → Int
  | .ir op => IrOp.table.findIdx fun e => e.1 == op
  | .machine op => (MachineOp.firstCode + MachineOp.table.findIdx fun e => e.1 == op : Nat)
  | .unknown n => n

def text : Opcode → String
  | .ir op => ((IrOp.table.find? fun e => e.1 == op).map Prod.snd).getD "op?"
  | .machine op => ((MachineOp.table.find? fun e => e.1 == op).map Prod.snd).getD "op?"
  | .unknown _ => "op?"

def ofName? (name : String) : Option Opcode :=
  match IrOp.ofName? name with
  | some op => some (.ir op)
  | none => (MachineOp.ofName? name).map .machine

def isMachine : Opcode → Bool
  | .machine _ => true
  | _ => false

def isMarker : Opcode → Bool
  | .ir .nop => true
  | .ir .startCall => true
  | .ir .endCall => true
  | .ir .startLoop => true
  | .ir .endLoop => true
  | .ir .callArgReg => true
  | _ => false

def isJump : Opcode → Bool
  | .ir .jmp => true
  | .ir .jz => true
  | .ir .jnz => true
  | .ir .ret => true
  | .machine .jmp => true
  | .machine .jz => true
  | .machine .jnz => true
  | .machine .je => true
  | .machine .jne => true
  | .machine .jlt => true
  | .machine .jgt => true
  | .machine .jle => true
  | .machine .jge => true
  | .machine .jb => true
  | .machine .ja => true
  | .machine .jbe => true
  | .machine .jae => true
  | .machine .ret => true
  | _ => false

def isCommutative : Opcode → Bool
  | .ir .add => true
  | .ir .mul => true
  | .ir .bor => true
  | .ir .band => true
  | .ir .xor => true
  | .ir .eq => true
  | .ir .ne => true
  | _ => false

def writesMemory : Opcode → Bool
  | .ir .moveToPtr => true
  | .ir .call => true
  | .ir .startCall => true
  | .ir .endCall => true
  | .ir .vaStart => true
  | .ir .arg => true
  | _ => false

/-- Is this a store through a pointer?  Its destination operand is the pointer, which it reads. -/
def storesThroughDst : Opcode → Bool
  | .ir .moveToPtr => true
  | .machine .movToInd => true
  | _ => false

def isCall : Opcode → Bool
  | .ir .call => true
  | .machine .call => true
  | _ => false

def isMove : Opcode → Bool
  | .ir .move => true
  | .machine .mov => true
  | _ => false

end Opcode

end Codegen
