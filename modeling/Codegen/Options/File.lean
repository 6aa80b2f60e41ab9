/-
The options file.

Names are found in any mixture of cases.  A value of the wrong kind spoils the file, and so does
a key that is defined twice; a key that no option has is only reported when everything else is in
order.  Statements are taken one after the other, and what cannot be read comes last.
-/
import Codegen.Options
import Codegen.Toml
import Codegen.Toml.Definitions

namespace Codegen

open Toml (Definitions Key Name Statement)

inductive Setting
  | bool (set : Options → Bool → Options)
  | int (set : Options → Int → Options)

namespace Setting

def top : List (String × Setting) :=
  [("int_registers", .int fun o n => { o with intRegisters := n }),
    ("sse_registers", .int fun o n => { o with sseRegisters := n }),
    ("preferred_registers", .bool fun o b => { o with preferredRegisters := b }),
    ("merge_trees", .bool fun o b => { o with mergeTrees := b }),
    ("fold_constants", .bool fun o b => { o with foldConstants := b }),
    ("verbose", .bool fun o b => { o with verbose := b })]

def dumps : List (String × Setting) :=
  [("select", .bool fun o b => { o with dumps.select := b }),
    ("regalloc", .bool fun o b => { o with dumps.regalloc := b }),
    ("rules", .bool fun o b => { o with dumps.rules := b }),
    ("abi", .bool fun o b => { o with dumps.abi := b })]

def dumpTable : String := "debug"

/-- A letter in lower case.  Beside the capitals, two letters have one of these in lower case: the
dotted capital I and the sign of the kelvin. -/
def lowerChar (c : Char) : Char :=
  if c.toNat == 0x130 then 'i' else if c.toNat == 0x212A then 'k' else c.toLower

def lower (s : String) : String := String.ofList (s.toList.map lowerChar)

end Setting

namespace Options

/-! ### Places -/

inductive Place
  | top
  | dumps
  | setting (s : Setting)

inductive Target
  | place (p : Place)
  /-- Past a setting, where nothing can be. -/
  | beyond
  | unknown

namespace Place

def names : Place → List (String × Place)
  | .top => (Setting.dumpTable, .dumps) :: Setting.top.map fun (name, s) => (name, .setting s)
  | .dumps => Setting.dumps.map fun (name, s) => (name, .setting s)
  | .setting _ => []

def find : Place → Key → Target
  | p, [] => .place p
  | .setting _, _ :: _ => .beyond
  | p, name :: rest =>
    match p.names.lookup (Setting.lower name.text) with
    | some q => q.find rest
    | none => .unknown

end Place

/-! ### Statements -/

/-- Reading the file: the options so far, and what is wrong with the keys. -/
structure Overlay where
  options : Options
  definitions : Definitions := {}
  /-- The open table; none if no option is in it. -/
  table : Option Place := some .top
  /-- There was a key that no option has. -/
  unknown : Bool := false
  /-- There was one among them that cannot be shown. -/
  unshown : Bool := false

namespace Overlay

/-- The file cannot be read. -/
def unparsable {α : Type} : Except Failure α := .error (.options .unparsable)

/-- Note a key that no option has.  It is shown by where its names stand in the file, and one with
escapes stands nowhere: alone it can be noted for later, but no more than that. -/
def miss (o : Overlay) (k : Key) : Except Failure Overlay :=
  let escaped (n : Option Name) : Bool := n.any (·.escaped)
  if k.length > 1 && (escaped k.head? || escaped k.getLast?) then .error (.fault .hiddenKey)
  else .ok { o with unknown := true, unshown := o.unshown || escaped k.head? }

/-- Refuse a value.  Nothing can be done about a time where an option stands. -/
def refuse : Toml.Value → Except Failure Overlay
  | .time true => .error (.fault .unexpectedTime)
  | _ => unparsable

def set (o : Overlay) : Setting → Toml.Value → Except Failure Overlay
  | .bool set, .bool b => .ok { o with options := set o.options b }
  | .int set, .int (some n) => .ok { o with options := set o.options n.toInt }
  | _, v => refuse v

def putFlat (place : Place) (o : Overlay) (e : Key × Toml.Value) : Except Failure Overlay :=
  match place.find e.1 with
  | .place (.setting s) => o.set s e.2
  | .place _ => refuse e.2
  | .beyond => unparsable
  | .unknown => o.miss e.1

/-- Give a key its value; the dumps take a table on one line. -/
def put (place : Place) (o : Overlay) (k : Key) (v : Toml.Value) : Except Failure Overlay :=
  match place.find k, v with
  | .place .dumps, .table entries => entries.foldlM (putFlat .dumps) o
  | _, v => putFlat place o (k, v)

def enter (o : Overlay) (k : Key) : Except Failure Overlay :=
  match Place.top.find k with
  | .place p => .ok { o with table := some p }
  | .beyond => .error (.fault .tableInOption)
  | .unknown => ({ o with table := none } : Overlay).miss k

def enterItem (o : Overlay) (k : Key) : Except Failure Overlay :=
  match Place.top.find k with
  | .place _ => unparsable
  | .beyond => .error (.fault .tableInOption)
  | .unknown => ({ o with table := none } : Overlay).miss k

def apply (o : Overlay) : Statement → Except Failure Overlay
  | .entry k v =>
    match o.table with
    | some place => put place o k v
    | none => .ok o
  | .header k => o.enter k
  | .item k => o.enterItem k

/-- Is the statement passed over?  The entries of a table without options are. -/
def skips (o : Overlay) : Statement → Bool
  | .entry _ _ => o.table.isNone
  | _ => false

def step (o : Overlay) (s : Statement) : Except Failure Overlay :=
  if o.skips s then .ok o
  else match o.definitions.define s with
    | some ds => { o with definitions := ds }.apply s
    | none => unparsable

def finish (o : Overlay) (complete : Bool) : Except Failure Options :=
  if !complete then unparsable
  else if o.unshown then .error (.fault .hiddenKey)
  else if o.unknown then .error (.options .unknownKeys)
  else .ok o.options

end Overlay

def overlay (o : Options) (text : String) : Except Failure Options := do
  let file := Toml.read text
  let r ← file.statements.foldlM Overlay.step { options := o }
  r.finish file.complete

def boolText (b : Bool) : String := if b then "true" else "false"

def lines (o : Options) : List String :=
  ["int_registers = " ++ toString o.intRegisters,
    "sse_registers = " ++ toString o.sseRegisters,
    "preferred_registers = " ++ boolText o.preferredRegisters,
    "merge_trees = " ++ boolText o.mergeTrees,
    "fold_constants = " ++ boolText o.foldConstants,
    "verbose = " ++ boolText o.verbose,
    "",
    "[" ++ Setting.dumpTable ++ "]",
    "select = " ++ boolText o.dumps.select,
    "regalloc = " ++ boolText o.dumps.regalloc,
    "rules = " ++ boolText o.dumps.rules,
    "abi = " ++ boolText o.dumps.abi]

def text (o : Options) : String := String.join (o.lines.map (· ++ "\n"))

end Options

end Codegen
