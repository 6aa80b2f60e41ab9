/-
The command.

It reads a document, compiles it and writes the assembly, to the standard output or to a
file.  Listings go to the standard output and the trace to the standard error.  The file
for the assembly is made before anything is compiled, so it is left empty by a failure.
-/
import Codegen.Command.Help
import Codegen.Compile
import Codegen.Document.Decode
import Codegen.Options.Load
import Codegen.Table

namespace Codegen.Command

structure Surroundings where
  env : Environment := []
  read : FileReader
  /-- Why a file cannot be made, if it cannot. -/
  refuses : String → Option FileError

structure Outcome where
  exit : Nat := 0
  out : List String := []
  err : List String := []
  written : Option (String × List String) := none
  deriving Repr, Inhabited

namespace Outcome

def fail (o : Outcome) (e : Failure) : Outcome :=
  match e.root with
  | .fault _ => { o with exit := 2 }
  | _ => { o with exit := 1, err := o.err ++ [name ++ ": " ++ e.message] }

def print (o : Outcome) (lines : List String) : Outcome := { o with out := o.out ++ lines }

end Outcome

/-- The dumps that may be asked for with a single dash. -/
def dumpFlags : List String := ["dselect", "dregalloc", "drules", "dabi"]

/-- An argument with two dashes where one is allowed. -/
def normalize (arg : String) : String :=
  if dumpFlags.any fun f => arg == "-" ++ f then "-" ++ arg else arg

def coverage (set : RuleSet) (used : List Nat) : List String :=
  ("# " ++ toString used.length ++ " of " ++ toString set.size ++ " rules used") ::
    (set.unused used).map fun r => "# unused: " ++ r.text

def loadFile (path : String) (read : FileReader) : Except Failure Program :=
  match read path with
  | .error cause => .error (.command (.unreadable path cause))
  | .ok text =>
    match (Document.ofText text).bind (·.load) with
    | .ok p => .ok p
    | .error e => .error (.within path e)

/-- Compile the document in a file; `o` is the outcome so far. -/
def compileFile (o : Outcome) (options : Options) (path : String) (read : FileReader) : Outcome :=
  match loadFile path read with
  | .error e => o.fail e
  | .ok p =>
    let (events, result) := (p.compile .x86 options).outcome
    let o := o.print (events.toList.flatMap (·.listingLines))
    let trace := if options.verbose then events.toList.filterMap (·.line?) else []
    let o := { o with err := o.err ++ trace }
    match result with
    | .error e => o.fail e
    | .ok c =>
      let o := match o.written with
        | some (file, _) => { o with written := some (file, c.assembly.lines) }
        | none => o.print c.assembly.lines
      if options.dumps.rules then o.print (coverage .x86 c.usedRules) else o

/-- Make the file for the assembly, if there is to be one, and compile. -/
def compileTo (output : String) (o : Outcome) (options : Options) (path : String)
    (s : Surroundings) : Outcome :=
  if output.isEmpty then compileFile o options path s.read
  else match s.refuses output with
    | some cause => o.fail (.command (.uncreatable output cause))
    | none =>
      -- From here on the file is empty, also when it is read.
      let read (p : String) := if p == output then .ok "" else s.read p
      compileFile { o with written := some (output, []) } options path read

def options (a : Arguments) (s : Surroundings) : Except Failure Options := do
  let o := (← Options.load (a.text "config") s.read s.env).withFlags a
  Options.checked o.validate
  return o

def runArguments (a : Arguments) (s : Surroundings) : Outcome :=
  if a.switch "help" false then { out := help }
  else if a.switch "version" false then { out := [name ++ " version " ++ version] }
  else if a.others.length > 1 then
    Outcome.fail {} (.command (.tooManyArgs 1 a.others.length))
  else match options a s with
    | .error e => Outcome.fail {} e
    | .ok o =>
      let start : Outcome := { out := if o.dumps.rules then RuleSet.x86.lines else [] }
      match a.others with
      | [] => if o.dumps.rules then start else { out := help }
      | path :: _ => compileTo (a.text "output") start o path s

def run (args : List String) (s : Surroundings) : Outcome :=
  match Arguments.read flags (args.map normalize) with
  | .error e => Outcome.fail {} (.flags e)
  | .ok a => runArguments a s

/-- The files that the command may read: the options file and the document. -/
def inputs (args : List String) : List String :=
  match Arguments.read flags (args.map normalize) with
  | .error _ => []
  | .ok a => a.text "config" :: a.others

end Codegen.Command
