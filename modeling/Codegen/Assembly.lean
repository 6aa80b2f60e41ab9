/-
Assembly programs.

A program is data symbols and functions.  It is written in the AT&T dialect: first the
read-only data, then the data that may change, then the code.
-/
import Codegen.Frame

namespace Codegen

structure DataSymbol where
  name : String
  size : Int64
  align : Int64
  /-- The first bytes; the rest are zero. -/
  init : List UInt8
  readOnly : Bool
  deriving DecidableEq, Repr, Inhabited

inductive AsmLine
  | label (name : String)
  | comment (text : String)
  | instr (text : String)
  deriving DecidableEq, Repr, Inhabited

structure AsmFunction where
  name : String
  /-- The bytes of its local variables. -/
  frameSize : Int64
  /-- The names of the callee-saved registers it uses. -/
  calleeSaved : List String
  code : List AsmLine
  deriving DecidableEq, Repr, Inhabited

structure Assembly where
  data : List DataSymbol
  functions : List AsmFunction
  deriving DecidableEq, Repr, Inhabited

namespace DataSymbol

/-- Is the symbol visible in its own file only? -/
def isLocal (d : DataSymbol) : Bool := ".L".toList.isPrefixOf d.name.toList

/-- The bytes that come after the initial ones. -/
def zeros (d : DataSymbol) : Int64 :=
  if d.init.isEmpty then d.size else d.size - Int64.ofNat d.init.length

def lines (d : DataSymbol) : List String :=
  (if d.isLocal then [] else ["\t.globl\t" ++ d.name]) ++
    (if d.align > 1 then ["\t.balign\t" ++ toString d.align.toInt] else []) ++
    [d.name ++ ":"] ++
    d.init.map (fun b => "\t.byte\t" ++ toString b.toNat) ++
    (if d.zeros > 0 then ["\t.zero\t" ++ toString d.zeros.toInt] else [])

/-- A section of symbols; nothing if there are none. -/
def sectionLines (directive : String) (ds : List DataSymbol) : List String :=
  if ds.isEmpty then [] else directive :: ds.flatMap lines ++ [""]

end DataSymbol

namespace AsmLine

def text : AsmLine → String
  | .label name => name ++ ":"
  | .comment c => "\t# " ++ c
  | .instr i => "\t" ++ i

end AsmLine

namespace AsmFunction

/-- The text of a function, with a summary of its frame. -/
def lines (f : AsmFunction) : List String :=
  let saved := if f.calleeSaved.isEmpty then "none" else " ".intercalate f.calleeSaved
  ["\t.globl\t" ++ f.name, "\t.type\t" ++ f.name ++ ", @function", f.name ++ ":",
    "\t# frame " ++ toString f.frameSize.toInt ++ ", callee-saved " ++ saved] ++
    f.code.map (·.text) ++ ["\t.size\t" ++ f.name ++ ", .-" ++ f.name, ""]

end AsmFunction

namespace Assembly

def lines (a : Assembly) : List String :=
  let (constant, changing) := a.data.partition (·.readOnly)
  DataSymbol.sectionLines "\t.section\t.rodata" constant ++
    DataSymbol.sectionLines "\t.data" changing ++ "\t.text" :: a.functions.flatMap (·.lines)

def text (a : Assembly) : String := String.join (a.lines.map (· ++ "\n"))

end Assembly

end Codegen
