/-
The trace of a compilation.

Stages say what they did in events, which carry the things themselves; `Event.line`
writes one on a line of the log.  A listing of the code after a stage is an event
too, so that what is shown keeps its order.
-/
import Codegen.Function
import Codegen.OpClass

namespace Codegen

inductive Note
  | param (index : Nat) (type : Ty) (home : Operand) (eightbytes : Nat)
  | call (callee : Operand) (args : Nat) (stack : Int64) (sse : Nat)
  | tile (tree : String) (cost : Int) (cls : OpClass)
  | block (index instrs trees : Nat)
  | liveness (registers intervals : Nat)
  | coloring (cls : RegClass) (budget constrained preferred unconstrained : Nat)
  | hinted (vreg hint : Int) (color : Nat)
  | spilled (vreg slot cost : Int)
  | selfMove (instr : Instr)
  | spillCode (instr : Instr) (loads stores : Nat)
  | frame (size padding : Int64) (calleeSaved returns : Nat)
  | compiled (instructions spilled spillCode : Nat) (frame : Int64)
  /-- The code after a stage. -/
  | listing (stage : String) (code : Function)
  deriving Repr

structure Event where
  function : String
  note : Note
  deriving Repr

namespace Event

/-! ### Log lines -/

/-- One character inside a quoted log value. -/
def escapeChar (c : Char) : List Char :=
  if c == '"' || c == '\\' then ['\\', c]
  else if c == '\n' then ['\\', 'n']
  else if c == '\r' then ['\\', 'r']
  else if c == '\t' then ['\\', 't']
  else if c.toNat < 0x20 then
    let digits := Nat.toDigits 16 c.toNat
    '\\' :: 'u' :: List.replicate (4 - digits.length) '0' ++ digits
  else [c]

/-- A text as a log value. -/
def quoted (s : String) : String := String.ofList ('"' :: s.toList.flatMap escapeChar ++ ['"'])

/-- The message and the fields of a note, in order; none for a listing. -/
def fields : Note → Option (String × List (String × String))
  | .param index type home eightbytes =>
    some ("param",
      [("index", toString index), ("type", quoted type.text), ("home", quoted home.text),
        ("eightbytes", toString eightbytes)])
  | .call callee args stack sse =>
    some ("call",
      [("callee", quoted callee.text), ("args", toString args), ("stack", toString stack.toInt),
        ("sse", toString sse)])
  | .tile tree cost cls =>
    some ("tile", [("tree", quoted tree), ("cost", toString cost), ("class", quoted cls.text)])
  | .block index instrs trees =>
    some ("block selected",
      [("block", toString index), ("instrs", toString instrs), ("trees", toString trees)])
  | .liveness registers intervals =>
    some ("liveness", [("registers", toString registers), ("intervals", toString intervals)])
  | .coloring cls budget constrained preferred unconstrained =>
    some ("coloring",
      [("class", quoted cls.text), ("budget", toString budget),
        ("constrained", toString constrained), ("preferred", toString preferred),
        ("unconstrained", toString unconstrained)])
  | .hinted vreg hint color =>
    some ("hinted",
      [("vreg", toString vreg), ("hint", toString hint), ("color", toString color)])
  | .spilled vreg slot cost =>
    some ("spilled", [("vreg", toString vreg), ("slot", toString slot), ("cost", toString cost)])
  | .selfMove instr => some ("self-move removed", [("instr", quoted instr.text)])
  | .spillCode instr loads stores =>
    some ("spill code",
      [("instr", quoted instr.text), ("loads", toString loads), ("stores", toString stores)])
  | .frame size padding calleeSaved returns =>
    some ("frame",
      [("size", toString size.toInt), ("padding", toString padding.toInt),
        ("callee_saved", toString calleeSaved), ("returns", toString returns)])
  | .compiled instructions spilled spillCode frame =>
    some ("compiled",
      [("instructions", toString instructions), ("spilled", toString spilled),
        ("spill_code", toString spillCode), ("frame", toString frame.toInt)])
  | .listing _ _ => none

/-- Does the stage name the function again, after the compilation has? -/
def namesAgain : Note → Bool
  | .spillCode _ _ _ => false
  | .compiled _ _ _ _ => false
  | _ => true

def line? (e : Event) : Option String :=
  (fields e.note).map fun (message, own) =>
    let name := ("function", quoted e.function)
    let all := (if namesAgain e.note then [name, name] else [name]) ++ own
    let body := ", ".intercalate (all.map fun (k, v) => quoted k ++ ": " ++ v)
    "DEBUG\t" ++ message ++ "\t\x7b" ++ body ++ "\x7d"

/-- The lines of a listing; none for anything else. -/
def listingLines (e : Event) : List String :=
  match e.note with
  | .listing stage code => ("# " ++ stage) :: code.lines
  | _ => []

end Event

end Codegen
