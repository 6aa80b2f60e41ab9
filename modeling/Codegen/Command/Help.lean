/-
The help text of the command.
-/
import Codegen.Options.Flag

namespace Codegen.Command

def name : String := "ralph-cg"

def version : String := "0.1.0"

def ownFlags : List Flag :=
  [{ name := "config", kind := .text, usage := "TOML options file" },
    { name := "output", letter := some 'o', kind := .text
      usage := "write assembly to this file instead of stdout" },
    { name := "help", letter := some 'h', kind := .switch, usage := "help for " ++ name },
    { name := "version", kind := .switch, usage := "version for " ++ name }]

def flags : List Flag := (Options.flags ++ ownFlags).mergeSort fun a b => a.name ≤ b.name

def flagText (f : Flag) : String :=
  let letter := match f.letter with
    | some c => "  -" ++ String.singleton c ++ ", "
    | none => "      "
  let kind := match f.kind with
    | .switch => ""
    | .number => " int"
    | .text => " string"
  letter ++ "--" ++ f.name ++ kind

def usageText (f : Flag) : String :=
  f.usage ++ if f.shown.isEmpty then "" else " (default " ++ f.shown ++ ")"

def flagLines (fs : List Flag) : List String :=
  let width := (fs.map fun f => (flagText f).length).foldl max 0 + 3
  fs.map fun f =>
    let left := flagText f
    left ++ String.ofList (List.replicate (width - left.length) ' ') ++ usageText f

def about : List String :=
  [name ++ " lowers functions written in a small register-transfer IR",
    "to x86-64 assembly: System V calling convention, tree-tiling instruction",
    "selection and graph-coloring register allocation with spill code.",
    "Functions are read from a YAML fixture."]

def help : List String :=
  about ++ ["", "Usage:", "  " ++ name ++ " [file.yaml] [flags]", "", "Flags:"] ++ flagLines flags

end Codegen.Command
