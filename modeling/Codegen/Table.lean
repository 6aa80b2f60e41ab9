/-
The rule table of the machine.

The groups are joined in a fixed order; a rule's index is its place in the result, and
of two covers that cost the same the one with smaller indexes is taken.
-/
import Codegen.Table.Arithmetic
import Codegen.Table.Compare
import Codegen.Table.Control
import Codegen.Table.Leaf
import Codegen.Table.Move
import Codegen.Table.Pointer

namespace Codegen
namespace Table

def patterns : List Pattern :=
  leafRules ++ moveRules ++ floatMoveRules ++ pointerRules ++ integerRules ++ floatRules ++
    comparisonRules ++ logicalRules ++ jumpRules ++ returnRules ++ argumentRules ++ stackRules ++
    callRules

end Table

def RuleSet.x86 : RuleSet := .ofPatterns Table.patterns

end Codegen
