/-
Options from the environment.

Each option has a variable.  An empty variable counts as not set, a number that cannot be
read changes nothing, and every word but the affirmative ones means no.
-/
import Codegen.Options
import Codegen.Text.Blank

namespace Codegen

abbrev Environment := List (String × String)

namespace Environment

def variableName (name : String) : String := "RALPH_CG_" ++ name

def names : List String :=
  ["INT_REGISTERS", "SSE_REGISTERS", "PREFERRED_REGISTERS", "MERGE_TREES", "FOLD_CONSTANTS",
    "VERBOSE", "DEBUG"].map variableName

def get? (env : Environment) (name : String) : Option String :=
  (env.lookup (variableName name)).filter (!·.isEmpty)

def capitalized : List Char → List Char
  | [] => []
  | c :: cs => c.toUpper :: cs

/-- The words that mean yes: in lower case, capitalised, and in upper case. -/
def affirmative : List String :=
  ["1", "t", "true", "y", "yes", "enable", "enabled", "positive", "affirmative", "absolutely"].flatMap
    fun w => [w, String.ofList (capitalized w.toList), String.ofList (w.toList.map Char.toUpper)]

/-- A number from the environment, or else what it was. -/
def int (env : Environment) (name : String) (old : Int) : Int :=
  ((env.get? name).bind fun s => Literal.index? s.toList).getD old

/-- A truth value from the environment, or else what it was. -/
def bool (env : Environment) (name : String) (old : Bool) : Bool :=
  match env.get? name with
  | some s => affirmative.contains s
  | none => old

def splitCommas : List Char → List (List Char)
  | [] => [[]]
  | c :: cs =>
    if c == ',' then [] :: splitCommas cs
    else match splitCommas cs with
      | first :: rest => (c :: first) :: rest
      | [] => [[c]]

def dumps (env : Environment) : List String :=
  match env.get? "DEBUG" with
  | some s => (splitCommas s.toList).map fun name => String.ofList (trimBlank name)
  | none => []

end Environment

namespace Options

def withEnvironment (o : Options) (env : Environment) : Except OptionError Options := do
  let dumps ← env.dumps.foldlM Dumps.enable o.dumps
  return {
    intRegisters := env.int "INT_REGISTERS" o.intRegisters
    sseRegisters := env.int "SSE_REGISTERS" o.sseRegisters
    preferredRegisters := env.bool "PREFERRED_REGISTERS" o.preferredRegisters
    mergeTrees := env.bool "MERGE_TREES" o.mergeTrees
    foldConstants := env.bool "FOLD_CONSTANTS" o.foldConstants
    verbose := env.bool "VERBOSE" o.verbose
    dumps := dumps }

end Options

end Codegen
