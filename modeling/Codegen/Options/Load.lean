/-
Where options come from: the defaults, then the options file if there is one, then the
environment.
-/
import Codegen.Options.Environment
import Codegen.Options.File

namespace Codegen

/-- Reading files by name: the text, or the reason why there is none. -/
abbrev FileReader := String → Except FileError String

namespace Options

/-- The defaults overlaid with a file; an empty name is no file. -/
def ofFile (path : String) (read : FileReader) : Except Failure Options :=
  if path.isEmpty then .ok {}
  else match read path with
    | .error cause => .error (.options (.unreadable path cause))
    | .ok text =>
      match Options.overlay {} text with
      | .ok o => .ok o
      | .error e => .error (.within path e)

/-- What is wrong with options, as a failure. -/
def checked {α : Type} : Except OptionError α → Except Failure α
  | .ok a => .ok a
  | .error e => .error (.options e)

def load (path : String) (read : FileReader) (env : Environment) : Except Failure Options := do
  let o ← ofFile path read
  let o ← checked (o.withEnvironment env)
  checked o.validate
  return o

end Options

end Codegen
