/-
Statements of TOML.

A text gives keys their values, opens tables, and opens tables in arrays of tables.  Of values only
truth values, integers and tables on one line are of use; of the others the kind is kept.
-/
namespace Codegen

namespace Toml

structure Name where
  text : String
  /-- Is it written with escapes? -/
  escaped : Bool := false
  deriving DecidableEq, Repr, Inhabited

/-- The names that lead to a place, of which there is at least one. -/
abbrev Key := List Name

inductive Value
  | bool (b : Bool)
  /-- A word of digits and signs; the number, if it is an integer of 64 bits. -/
  | int (n : Option Int64)
  /-- A word in the way of dates and times; is there such a time? -/
  | time (real : Bool)
  /-- A text, or a number that is no integer. -/
  | other
  | array (items : List Value)
  /-- A table on one line. -/
  | table (entries : List (Key × Value))
  deriving Repr, Inhabited

inductive Statement
  | entry (key : Key) (value : Value)
  | header (key : Key)
  | item (key : Key)
  deriving Repr, Inhabited

end Toml

structure Toml where
  /-- The statements up to the end, or up to what cannot be read. -/
  statements : List Toml.Statement
  complete : Bool
  deriving Repr, Inhabited

end Codegen
