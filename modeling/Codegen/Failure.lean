/-
What can go wrong.

Each stage has its own causes, and `Failure` joins them with the contexts they were
met in.  Causes carry the things they are about; wording them is the business of
`message` alone.

A `fault` is different: the input asks for something that has no answer, such as the
size of a missing type, and it has no wording.
-/
import Codegen.Instr
import Codegen.Numeral.Literal
import Codegen.Text.Quoted

namespace Codegen

/-- A question without an answer. -/
inductive Fault
  /-- The size, alignment or parts of a missing type. -/
  | missingType
  /-- An operand that an operation cannot do without. -/
  | missingOperand
  /-- A number outside the table it is looked up in. -/
  | outOfRange
  /-- An instruction without an operation, where one must be covered. -/
  | noOperation
  /-- A time where an option stands. -/
  | unexpectedTime
  /-- A table inside an option. -/
  | tableInOption
  /-- An unknown key that cannot be shown. -/
  | hiddenKey
  deriving DecidableEq, Repr, Inhabited

inductive DocumentError
  /-- The text does not have the shape of a document. -/
  | badShape
  | missingType
  | unknownType (text : String)
  | cyclicType (text : String)
  | unbalancedSignature (text : String)
  | badSignature (text : String)
  | dotsNotLast (text : String)
  | declarationNotSignature (name : String)
  | addressTakenRange (index : Int)
  | unknownOperation (name : String)
  | operandNeedsType (text : String)
  | badOperand (text : String)
  | missingParameter (text : String)
  | notSignature (text : String)
  | missingString (text : String)
  | badConstant (text : String)
  deriving DecidableEq, Repr, Inhabited

inductive LowerError
  | tooManyParameters (count : Nat)
  | tooManyArguments (count : Nat)
  | argWithoutCall
  | parameterRange (index : Int)
  | aggregateReturn (value : Option Operand)
  | aggregateArgument (value : Option Operand)
  | aggregateResult (dst : Option Operand)
  | longDoubleResult
  | notVariadic (op : Opcode)
  | listNotInMemory (list : Option Operand)
  | vaArgWithoutDst
  | vaArgType (type : Ty)
  | vaArgAggregate (dst : Option Operand)
  | vaArgLongDouble (dst : Option Operand)
  deriving Repr, Inhabited

inductive BudgetError
  | outOfRange (count : Int) (cls : RegClass)
  | graphTooSmall (covered declared : Int)
  deriving DecidableEq, Repr, Inhabited

inductive RenderError
  | badMark (template : Template) (position : Nat)
  | missingOperand
  | noRegister (operand : Operand)
  | halfOfRegister (operand : Operand)
  | unresolved (operand : Operand)
  deriving Repr, Inhabited

inductive InternalError
  | noRule (tree : String)
  | noLocation (vreg : Int)
  | noColor (vreg : Int) (used budget : Nat)
  | noScratchForPointer
  | allSpilled
  | savedFrame (index : Int)
  | other (message : String)
  deriving DecidableEq, Repr, Inhabited

inductive Stage
  | select
  | regalloc
  | spill
  | stacking
  | other (name : String)
  deriving DecidableEq, Repr, Inhabited

inductive FileError
  | missing
  | isDirectory
  /-- A file stands where the path needs a directory. -/
  | notDirectory
  | other (reason : String)
  deriving DecidableEq, Repr, Inhabited

inductive OptionError
  | unreadable (path : String) (cause : FileError)
  | unparsable
  | unknownKeys
  | unknownDump (name : String)
  | intRegisters (count : Int) (most : Nat)
  | sseRegisters (count : Int) (most : Nat)
  deriving DecidableEq, Repr, Inhabited

/-- What can be wrong with flags.  A flag with a letter is named by both. -/
inductive FlagError
  | badForm (arg : String)
  | unknown (name : String)
  | unknownLetter (letter : Char) (group : String)
  | needsValue (arg : String)
  | letterNeedsValue (letter : Char) (group : String)
  | badBool (value flag : String)
  | badNumber (value flag : String) (cause : NumberError)
  | helpRequested
  deriving DecidableEq, Repr, Inhabited

inductive CommandError
  | tooManyArgs (most count : Nat)
  | unreadable (path : String) (cause : FileError)
  | uncreatable (path : String) (cause : FileError)
  deriving DecidableEq, Repr, Inhabited

/-- A cause, and the contexts it was met in. -/
inductive Failure
  | fault (cause : Fault)
  | document (cause : DocumentError)
  | lower (cause : LowerError)
  | budget (cause : BudgetError)
  | render (cause : RenderError)
  | unselected (instr : Instr)
  | internal (stage : Stage) (cause : InternalError) (instr : Option Instr)
  | options (cause : OptionError)
  | flags (cause : FlagError)
  | command (cause : CommandError)
  | within (context : String) (inner : Failure)
  deriving Repr, Inhabited

/-! ### Wording -/

namespace DocumentError

def message : DocumentError → String
  | .badShape => ""
  | .missingType => "missing type"
  | .unknownType text => "unknown type " ++ Quoted.text text
  | .cyclicType text => "type " ++ Quoted.text text ++ " contains itself"
  | .unbalancedSignature text => "unbalanced signature " ++ Quoted.text text
  | .badSignature text => "bad signature " ++ Quoted.text text
  | .dotsNotLast text => "... must come last in " ++ Quoted.text text
  | .declarationNotSignature name => "declaration " ++ name ++ " is not a function signature"
  | .addressTakenRange index => "address_taken " ++ toString index ++ " out of range"
  | .unknownOperation name => "unknown operation " ++ Quoted.text name
  | .operandNeedsType text => "operand " ++ Quoted.text text ++ " needs a type"
  | .badOperand text => "bad operand " ++ Quoted.text text
  | .missingParameter text => Quoted.text text ++ " names a missing parameter"
  | .notSignature text => Quoted.text text ++ " is not a function signature"
  | .missingString text => Quoted.text text ++ " names a missing string"
  | .badConstant text => "bad constant " ++ Quoted.text text

end DocumentError

namespace LowerError

/-- The three families of refusal, and the family of counts. -/
inductive Family
  | tooManyArgs
  | malformed
  | unsupportedVarArg
  | unsupportedResult
  deriving DecidableEq, Repr

/-- The family a cause belongs to. -/
def family : LowerError → Family
  | .tooManyParameters _ => .tooManyArgs
  | .tooManyArguments _ => .tooManyArgs
  | .aggregateResult _ => .unsupportedResult
  | .longDoubleResult => .unsupportedResult
  | .vaArgType _ => .unsupportedVarArg
  | _ => .malformed

def Family.message : Family → String
  | .tooManyArgs => "too many arguments"
  | .malformed => "malformed call IR"
  | .unsupportedVarArg => "unsupported va_arg type"
  | .unsupportedResult => "unsupported call result"

/-- The particulars of a cause in words. -/
def detail : LowerError → String
  | .tooManyParameters n => toString n ++ " parameters"
  | .tooManyArguments n => "call with " ++ toString n ++ " arguments"
  | .argWithoutCall => "argument without call id"
  | .parameterRange i => "parameter " ++ toString i ++ " out of range"
  | .aggregateReturn v => "aggregate return value " ++ Operand.optionText v ++ " is not in memory"
  | .aggregateArgument v => "aggregate argument " ++ Operand.optionText v ++ " is not in memory"
  | .aggregateResult d => "aggregate result " ++ Operand.optionText d
  | .longDoubleResult => "long double result"
  | .notVariadic op => op.text ++ " in a function without variable arguments"
  | .listNotInMemory l => "va_list operand " ++ Operand.optionText l ++ " is not in memory"
  | .vaArgWithoutDst => "va_arg without destination"
  | .vaArgType t => "va_arg of " ++ t.text
  | .vaArgAggregate d => "aggregate va_arg into " ++ Operand.optionText d
  | .vaArgLongDouble d => "long double va_arg into " ++ Operand.optionText d

def message (e : LowerError) : String := e.detail ++ ": " ++ e.family.message

end LowerError

namespace BudgetError

def message : BudgetError → String
  | .outOfRange n c => "register budget out of range: " ++ toString n ++ " " ++ c.text ++ " registers"
  | .graphTooSmall covered declared =>
    "interference graph covers " ++ toString covered ++ " registers, function has " ++
      toString declared

end BudgetError

namespace RenderError

/-- Is the template at fault, rather than the operand? -/
def isTemplateError : RenderError → Bool
  | .badMark _ _ => true
  | .halfOfRegister _ => true
  | _ => false

def message : RenderError → String
  | .badMark t position =>
    "malformed template: " ++ Quoted.bytes t.bytes ++ " at " ++ toString position
  | .missingOperand => "unresolved operand: missing operand"
  | .noRegister o => "unresolved operand: " ++ o.text ++ " has no register"
  | .halfOfRegister o => "malformed template: half of register " ++ o.text
  | .unresolved o => "unresolved operand: " ++ o.text

end RenderError

namespace InternalError

def message : InternalError → String
  | .noRule tree => "no rule matches " ++ tree
  | .noLocation v => "r" ++ toString v ++ " has no location"
  | .noColor v used budget =>
    "no color for r" ++ toString v ++ " with " ++ toString used ++ " of " ++ toString budget ++
      " colors used"
  | .noScratchForPointer => "no scratch register left for the pointer"
  | .allSpilled => "destination and both sources spilled"
  | .savedFrame index => "stack index " ++ toString index ++ " addresses the saved frame"
  | .other message => message

end InternalError

namespace Stage

def text : Stage → String
  | .select => "select"
  | .regalloc => "regalloc"
  | .spill => "spill"
  | .stacking => "stacking"
  | .other name => name

end Stage

namespace FileError

def message : FileError → String
  | .missing => "no such file or directory"
  | .isDirectory => "is a directory"
  | .notDirectory => "not a directory"
  | .other reason => reason

def opening (path : String) (e : FileError) : String := "open " ++ path ++ ": " ++ e.message

/-- The cause in words when a file is read.  A directory can be opened, but not read. -/
def reading (path : String) : FileError → String
  | .isDirectory => "read " ++ path ++ ": " ++ FileError.isDirectory.message
  | e => opening path e

end FileError

namespace OptionError

def message : OptionError → String
  | .unreadable path cause => "failed to read config file: " ++ cause.reading path
  | .unparsable => "failed to parse config file"
  | .unknownKeys => "unknown configuration key"
  | .unknownDump name => "unknown configuration key: debug dump " ++ Quoted.text name
  | .intRegisters n most =>
    "invalid option: int_registers " ++ toString n ++ " not in 1.." ++ toString most
  | .sseRegisters n most =>
    "invalid option: sse_registers " ++ toString n ++ " not in 1.." ++ toString most

end OptionError

namespace FlagError

/-- A value that a flag does not take, in words. -/
def badValue (value flag kind reason : String) : String :=
  "invalid argument " ++ Quoted.text value ++ " for " ++ Quoted.text flag ++ " flag: strconv." ++
    kind ++ ": parsing " ++ Quoted.text value ++ ": " ++ reason

def message : FlagError → String
  | .badForm arg => "bad flag syntax: " ++ arg
  | .unknown name => "unknown flag: --" ++ name
  | .unknownLetter letter group =>
    "unknown shorthand flag: " ++ Quoted.char letter ++ " in -" ++ group
  | .needsValue arg => "flag needs an argument: " ++ arg
  | .letterNeedsValue letter group =>
    "flag needs an argument: " ++ Quoted.char letter ++ " in -" ++ group
  | .badBool value flag => badValue value flag "ParseBool" NumberError.malformed.message
  | .badNumber value flag cause => badValue value flag "ParseInt" cause.message
  | .helpRequested => "pflag: help requested"

end FlagError

namespace CommandError

def message : CommandError → String
  | .tooManyArgs most count =>
    "accepts at most " ++ toString most ++ " arg(s), received " ++ toString count
  | .unreadable path cause => "failed to read fixture: " ++ cause.reading path
  | .uncreatable path cause => cause.opening path

end CommandError

namespace Failure

/-- A broken promise in words, with the instruction it was noticed at. -/
def internalMessage (stage : Stage) (cause : InternalError) (instr : Option Instr) : String :=
  stage.text ++ ": " ++ cause.message ++
    match instr with
    | some i => ": " ++ i.text
    | none => ""

def message : Failure → String
  | .fault _ => ""
  | .document cause => "malformed fixture: " ++ cause.message
  | .lower cause => cause.message
  | .budget cause => cause.message
  | .render cause => cause.message
  | .unselected instr => "instruction has no template: " ++ instr.text
  | .internal stage cause instr => internalMessage stage cause instr
  | .options cause => cause.message
  | .flags cause => cause.message
  | .command cause => cause.message
  | .within context inner => context ++ ": " ++ inner.message

def root : Failure → Failure
  | .within _ inner => inner.root
  | f => f

end Failure

end Codegen
