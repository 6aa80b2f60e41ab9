/-
Rules for pointers: loads and stores through them, and taking addresses.
-/
import Codegen.Table.Basic

namespace Codegen
namespace Table

/-- Pointers to values of every width. -/
def pointers : OpClass := .family .pointer

def integerAccess : List Pattern :=
  Signedness.both.flatMap (fun s =>
    [rule (regs s) .indirect pointers .none costLoad
        [toDst .movFromInd .src1 (text "mov%s\t(%v1q), %vd")],
      rule pointers .moveToPtr pointers (regs s) costStore
        [toDst .movToInd .src2 (text "mov%s\t%v1, (%vdq)")]]) ++
    [rule pointers .moveToPtr pointers immediates costStore
      [toDst .movToInd .src2 (text "mov%s\t$%v1, (%vdq)")]]

def floatAccess : List Pattern :=
  [(Precision.single, IntWidth.w32), (.double, .w64)].flatMap fun (p, w) =>
    [rule (.freg p) .indirect (.pointer (some w)) .none costLoad
        [toDst .movFromInd .src1 (text ("mov" ++ suffix p ++ "\t(%v1q), %vd"))],
      rule (.pointer (some w)) .moveToPtr (.pointer (some w)) (.freg p) costStore
        [toDst .movToInd .src2 (text ("mov" ++ suffix p ++ "\t%v1, (%vdq)"))]]

def addressable : List OpClass :=
  Signedness.both.flatMap (fun s => IntWidth.all.map (OpClass.mem s)) ++
    [.fmem .single, .fmem .double, .pointerMem, .extendedMem, .aggregateMem, .literal]

def addresses : List Pattern :=
  addressable.map (fun c => rule (.reg .unsigned .w64) .addressOf c .none costMove [lea]) ++
    [rule (.reg .unsigned .w64) .addressOf .func .none costMove [leaFunction]]

def pointerRules : List Pattern := integerAccess ++ floatAccess ++ addresses

end Table
end Codegen
