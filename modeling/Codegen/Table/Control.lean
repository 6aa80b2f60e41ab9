/-
Rules for jumps, returns, pushed arguments and calls.
-/
import Codegen.Table.Basic

namespace Codegen
namespace Table

/-! ### Jumps -/

def jumpOp : Cond → MachineOp
  | .e => .je
  | .ne => .jne
  | .l => .jlt
  | .g => .jgt
  | .le => .jle
  | .ge => .jge
  | .b => .jb
  | .a => .ja
  | .be => .jbe
  | .ae => .jae

def jumpOn (c : Cond) : MicroOp :=
  micro (jumpOp c) .none .src2 .none (text ("j" ++ c.suffix ++ "\t%v1"))

def jumpsOnValue : List Pattern :=
  Signedness.both.flatMap fun s =>
    let test := micro .cmpz .none .src1 .none (text "cmp%s\t$0, %v1")
    [rule .none .jz (regs s) .label costJump
        [test, micro .jz .none .src2 .none (text "jz\t%v1")],
      rule .none .jnz (regs s) .label costJump
        [test, micro .jnz .none .src2 .none (text "jnz\t%v1")]]

def jumpsOnFlags : List Pattern :=
  Cond.all.flatMap fun c =>
    [rule .none .jz (.flags c) .label 1 [jumpOn c.inverse],
      rule .none .jnz (.flags c) .label 1 [jumpOn c]]

def jumpRules : List Pattern :=
  rule .none .jmp .label .none 1 [micro .jmp .none .src1 .none (text "jmp\t%v1")] ::
    jumpsOnValue ++ jumpsOnFlags

/-! ### Returns -/

def retWith (result : Arg) : MicroOp := micro .ret .none result .none (text "ret")

def returnRules : List Pattern :=
  rule .none .ret .none .none 1 [retWith .none] ::
    Signedness.both.map (fun s =>
      rule .none .ret (regs s) .none (costMove + 1)
        [micro .mov .rax .src1 .none (text "mov%s\t%v1, %vd"), retWith .rax]) ++
    IntWidth.all.map (fun w =>
      rule .none .ret (.const .signed w) .none (costMove + 1)
        [micro .mov .rax .src1 .none (loadConst w), retWith .rax]) ++
    [Precision.single, .double].map (fun p =>
      rule .none .ret (.freg p) .none (costMove + 1)
        [micro .mov .xmm0 .src1 .none (floatMove p), retWith .xmm0]) ++
    [rule .none .ret .extendedMem .none (costLoad + 1)
      [micro .mov .none .src1 .none (text "fldt\t%v1"), retWith .none]]

/-! ### Arguments and calls -/

def pushable : List OpClass :=
  [.reg .signed .w64, .reg .unsigned .w64, .mem .signed .w64, .mem .unsigned .w64, .pointerMem,
    .fmem .double]

def push (template : String) : MicroOp := micro .push .none .src1 .none (text template)

def lowerStack : MicroOp := micro .stack .none .none .none (text "subq\t$8, %%rsp")

def argumentRules : List Pattern :=
  pushable.map (fun c => rule .none .arg c .none costStore [push "pushq\t%v1q"]) ++
    [rule .none .arg (.const .signed .w32) .none costStore [push "pushq\t$%v1l"]] ++
    [Precision.single, .double].map (fun p =>
      rule .none .arg (.freg p) .none (2 * costStore)
        [lowerStack,
          micro .mov .none .src1 .none (text ("mov" ++ suffix p ++ "\t%v1, (%%rsp)"))]) ++
    [rule .none .arg .extendedMem .none (2 * costStore) [push "pushq\t%v1H", push "pushq\t%v1L"]]

def stackRules : List Pattern :=
  [rule .none .argStackPadding .none .none 1 [lowerStack],
    rule .none .allocateStack (.const .signed .w32) .none 1
      [micro .stack .none .src1 .none (text "subq\t$%v1q, %%rsp")],
    rule .none .releaseStack (.const .signed .w32) .none 1
      [micro .stack .none .src1 .none (text "addq\t$%v1q, %%rsp")]]

def callRules : List Pattern :=
  [rule .none .call .func .none costCall [micro .call .none .src1 .none (text "call\t%v1")],
    rule .none .call (.reg .unsigned .w64) .none costCall
      [micro .call .none .src1 .none (text "call\t*%v1q")]]

end Table
end Codegen
