/-
Leaf rules: how a bare operand becomes what a rule needs.
-/
import Codegen.Table.Basic

namespace Codegen
namespace Table

def identities : List Pattern := OpClass.operandClasses.map fun c => leaf c c 0 []

def constantLoads : List Pattern :=
  IntWidth.all.flatMap fun w => Signedness.both.flatMap fun d => Signedness.both.map fun s =>
    leaf (.reg d w) (.const s w) costMove [toDst .mov .src1 (loadConst w)]

def memoryLoads : List Pattern :=
  IntWidth.all.flatMap fun w => Signedness.both.flatMap fun d => Signedness.both.map fun s =>
    leaf (.reg d w) (.mem s w) costLoad [toDst .mov .src1 (moveAt w)]

def widenings : List (IntWidth × IntWidth) :=
  [(.w8, .w16), (.w8, .w32), (.w8, .w64), (.w16, .w32), (.w16, .w64), (.w32, .w64)]

def widenLoads : List Pattern :=
  widenings.flatMap fun (source, target) => Signedness.both.flatMap fun s =>
    Signedness.both.flatMap fun d =>
      [leaf (.reg d target) (.reg s source) costMove [extend source target s],
        leaf (.reg d target) (.mem s source) costLoad [extend source target s]]

/-- The same register read with the other signedness. -/
def reinterpretations : List Pattern :=
  IntWidth.all.flatMap fun w =>
    [leaf (.reg .unsigned w) (.reg .signed w) costReinterpret [],
      leaf (.reg .signed w) (.reg .unsigned w) costReinterpret []]

def pointerClasses : List OpClass :=
  IntWidth.all.map (fun w => OpClass.pointer (some w)) ++ [.pointer none]

def pointerLoads : List Pattern :=
  pointerClasses.flatMap fun p =>
    [leaf p (.reg .unsigned .w64) 0 [],
      leaf p (.reg .signed .w64) 0 [],
      leaf p .pointerMem costLoad [toDst .mov .src1 (text "movq\t%v1, %vdq")],
      leaf p .literal costMove [lea]]

def addressLoads : List Pattern :=
  [leaf (.reg .unsigned .w64) .literal costMove [lea],
    leaf (.reg .unsigned .w64) .func costMove [leaFunction]]

def floatLoads : List Pattern :=
  [Precision.single, .double].map
      (fun p => leaf (.freg p) (.fmem p) costLoad [toDst .mov .src1 (floatMove p)]) ++
    [Precision.single, .double].map
      (fun p => leaf (.freg p) (.fconst p) (costMove + costMove) (loadFloatConst p))

def leafRules : List Pattern :=
  identities ++ constantLoads ++ memoryLoads ++ widenLoads ++ reinterpretations ++ pointerLoads ++
    addressLoads ++ floatLoads

end Table
end Codegen
