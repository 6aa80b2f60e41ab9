/-
Flags.

A flag is written `--name`, or `-l` by its letter; letters can stand together.  A flag
takes its value after an equals sign or from the next argument, and the value of a
switch may be left out.  Other arguments may stand anywhere, and `--` ends the flags.
-/
import Codegen.Options
import Codegen.Text.Utf8

namespace Codegen

inductive FlagKind
  | switch
  | number
  | text
  deriving DecidableEq, Repr, Inhabited

inductive FlagValue
  | switch (b : Bool)
  | number (n : Int)
  | text (s : String)
  deriving DecidableEq, Repr, Inhabited

structure Flag where
  name : String
  letter : Option Char := none
  kind : FlagKind
  usage : String
  /-- The value it has when it is not given, as help shows it; empty for none worth showing. -/
  shown : String := ""
  deriving DecidableEq, Repr, Inhabited

/-- Arguments that were read: flags with their values in order, and the other arguments. -/
structure Arguments where
  flags : List (String × FlagValue) := []
  others : List String := []
  deriving DecidableEq, Repr, Inhabited

namespace Flag

/-- How messages name a flag. -/
def title (f : Flag) : String :=
  match f.letter with
  | some c => "-" ++ String.singleton c ++ ", --" ++ f.name
  | none => "--" ++ f.name

def switch? (s : String) : Option Bool :=
  if ["1", "t", "T", "TRUE", "true", "True"].contains s then some true
  else if ["0", "f", "F", "FALSE", "false", "False"].contains s then some false
  else none

/-- The value that a text stands for. -/
def value (f : Flag) (s : String) : Except FlagError FlagValue :=
  match f.kind with
  | .switch =>
    match switch? s with
    | some b => .ok (.switch b)
    | none => .error (.badBool s f.title)
  | .number =>
    match Literal.int64 s.toList with
    | .ok n => .ok (.number n.toInt)
    | .error e => .error (.badNumber s f.title e)
  | .text => .ok (.text s)

end Flag

/-- What one argument says: some flags, and perhaps one that waits for its value, with what to say if
there is none. -/
structure ArgumentFlags where
  given : List (String × FlagValue)
  waiting : Option (Flag × FlagError) := none

namespace ArgumentFlags

def one (f : Flag) (s : String) : Except FlagError ArgumentFlags := do
  return ⟨[(f.name, ← f.value s)], none⟩

/-- The flags after `--`. -/
def long (table : List Flag) (arg : String) (body : List Char) :
    Except FlagError ArgumentFlags :=
  if body.head?.any fun c => c == '-' || c == '=' then .error (.badForm arg)
  else
    let name := String.ofList (body.takeWhile (· != '='))
    match table.find? (·.name == name), body.dropWhile (· != '=') with
    | none, _ => .error (if name == "help" then .helpRequested else .unknown name)
    | some f, _ :: value => one f (String.ofList value)
    | some f, [] =>
      if f.kind == .switch then one f "true" else .ok ⟨[], some (f, .needsValue arg)⟩

/-- The first byte of a character, as the letter it is taken for. -/
def firstByte (c : Char) : Char :=
  match Utf8.encode (String.singleton c) with
  | b :: _ => Char.ofNat b.toNat
  | [] => c

/-- Is this a flag of a test program?  Such flags are passed over. -/
def isForTests (body : List Char) : Bool := "test.".toList.isPrefixOf body

def letters (table : List Flag) : List Char → Except FlagError ArgumentFlags
  | [] => .ok ⟨[], none⟩
  | c :: rest =>
    let group := String.ofList (c :: rest)
    if isForTests (c :: rest) then .ok ⟨[], none⟩
    else match table.find? (·.letter == some c), rest with
    | none, _ => .error (if c == 'h' then .helpRequested else .unknownLetter (firstByte c) group)
    | some f, '=' :: v :: value => one f (String.ofList (v :: value))
    | some f, rest =>
      if f.kind == .switch then do
        let first ← one f "true"
        let more ← letters table rest
        return ⟨first.given ++ more.given, more.waiting⟩
      else if rest.isEmpty then .ok ⟨[], some (f, .letterNeedsValue c group)⟩
      else one f (String.ofList rest)

/-- The flags of an argument; none for another kind of argument. -/
def ofArgument? (table : List Flag) (arg : String) : Option (Except FlagError ArgumentFlags) :=
  match arg.toList with
  | '-' :: '-' :: body => some (long table arg body)
  | '-' :: c :: rest => some (letters table (c :: rest))
  | _ => none

end ArgumentFlags

namespace Arguments

def readFrom (table : List Flag) :
    Option (Flag × FlagError) → Arguments → List String → Except FlagError Arguments
  | none, a, [] => .ok a
  | some (_, missing), _, [] => .error missing
  | some (f, _), a, s :: rest => do
    let v ← f.value s
    readFrom table none { a with flags := a.flags ++ [(f.name, v)] } rest
  | none, a, s :: rest =>
    if s == "--" then .ok { a with others := a.others ++ rest }
    else match ArgumentFlags.ofArgument? table s with
      | none => readFrom table none { a with others := a.others ++ [s] } rest
      | some (.error e) => .error e
      | some (.ok fs) => readFrom table fs.waiting { a with flags := a.flags ++ fs.given } rest

def read (table : List Flag) (args : List String) : Except FlagError Arguments :=
  readFrom table none {} args

/-- The value of a flag, the last one if it is given several times. -/
def flag? (a : Arguments) (name : String) : Option FlagValue := a.flags.reverse.lookup name

/-- The value of a switch, or else what it was. -/
def switch (a : Arguments) (name : String) (old : Bool) : Bool :=
  match a.flag? name with
  | some (.switch b) => b
  | _ => old

/-- The value of a number, or else what it was. -/
def number (a : Arguments) (name : String) (old : Int) : Int :=
  match a.flag? name with
  | some (.number n) => n
  | _ => old

/-- The value of a text; empty if it is not given. -/
def text (a : Arguments) (name : String) : String :=
  match a.flag? name with
  | some (.text s) => s
  | _ => ""

end Arguments

namespace Options

def flags : List Flag :=
  [{ name := "int-registers", kind := .number
     usage := "number of integer registers available to the allocator"
     shown := toString (Reg.allocatable .int).length },
    { name := "sse-registers", kind := .number
      usage := "number of SSE registers available to the allocator"
      shown := toString (Reg.allocatable .sse).length },
    { name := "preferred-registers", kind := .switch
      usage := "honour register hints when coloring", shown := "true" },
    { name := "merge-trees", kind := .switch
      usage := "merge single-use definitions into their users before tiling", shown := "true" },
    { name := "fold-constants", kind := .switch, usage := "fold operations on constants"
      shown := "true" },
    { name := "dselect", kind := .switch, usage := "dump code after instruction selection" },
    { name := "dregalloc", kind := .switch, usage := "dump code after register allocation" },
    { name := "drules", kind := .switch, usage := "dump the rule table" },
    { name := "dabi", kind := .switch, usage := "dump code after calling-convention lowering" },
    { name := "verbose", letter := some 'v', kind := .switch, usage := "trace passes on stderr" }]

def withFlags (o : Options) (a : Arguments) : Options :=
  { intRegisters := a.number "int-registers" o.intRegisters
    sseRegisters := a.number "sse-registers" o.sseRegisters
    preferredRegisters := a.switch "preferred-registers" o.preferredRegisters
    mergeTrees := a.switch "merge-trees" o.mergeTrees
    foldConstants := a.switch "fold-constants" o.foldConstants
    verbose := a.switch "verbose" o.verbose
    dumps :=
      { select := a.switch "dselect" o.dumps.select
        regalloc := a.switch "dregalloc" o.dumps.regalloc
        rules := a.switch "drules" o.dumps.rules
        abi := a.switch "dabi" o.dumps.abi } }

end Options

end Codegen
