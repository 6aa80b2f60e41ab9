/-
The program: it hands the command what it needs from outside and carries out what the
command decides.
-/
import Codegen.Command

namespace Codegen.Command

/-- Why a file could not be used. -/
def cause : IO.Error → FileError
  | .noFileOrDirectory _ _ _ => .missing
  | .inappropriateType _ _ _ => .isDirectory
  | .permissionDenied _ _ _ => .other "permission denied"
  | e => .other (toString e)

def readInput (path : String) : IO (String × Except FileError String) := do
  try
    return (path, .ok (← IO.FS.readFile path))
  catch e => return (path, .error (cause e))

def readEnvironment : IO Environment := do
  let values ← Environment.names.mapM fun n => do return (n, ← IO.getEnv n)
  return values.filterMap fun (n, v) => v.map fun v => (n, v)

def joined (lines : List String) : String := String.join (lines.map (· ++ "\n"))

def report (o : Outcome) : IO UInt32 := do
  IO.print (joined o.out)
  IO.eprint (joined o.err)
  return o.exit.toUInt32

/-- Run the command and make its file; if the file cannot be made, the command is run knowing that. -/
def execute (args : List String) : IO UInt32 := do
  let env ← readEnvironment
  let files ← (inputs args).mapM readInput
  let read (path : String) := (files.lookup path).getD (.error .missing)
  let o := run args { env := env, read := read, refuses := fun _ => none }
  match o.written with
  | none => report o
  | some (path, lines) =>
    let problem ← try
        IO.FS.writeFile path (joined lines)
        pure none
      catch e => pure (some (cause e))
    match problem with
    | none => report o
    | some why =>
      report (run args { env := env, read := read, refuses := fun _ => some why })

end Codegen.Command

def main (args : List String) : IO UInt32 := Codegen.Command.execute args
