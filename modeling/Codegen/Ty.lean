/-
Value types.

Every operand carries one of these.  They are the types of a C-like front end:
integers by width and signedness, three floating kinds, pointers, arrays,
functions, and the two aggregates.  A front end may leave a type out, so `missing`
is a type too; layout (`Codegen.Ty.Layout`) has no answer for it.

Aggregates are compared by name alone, because a name is declared once.
-/
namespace Codegen

/-- Whether an integer counts below zero. -/
inductive Signedness
  | signed
  | unsigned
  deriving DecidableEq, Repr, Inhabited, Hashable

namespace Signedness

def both : List Signedness := [.signed, .unsigned]

def text : Signedness → String
  | .signed => "signed"
  | .unsigned => "unsigned"

end Signedness

inductive IntWidth
  | w8
  | w16
  | w32
  | w64
  deriving DecidableEq, Repr, Inhabited, Hashable

namespace IntWidth

def bytes : IntWidth → Int64
  | .w8 => 1
  | .w16 => 2
  | .w32 => 4
  | .w64 => 8

def text : IntWidth → String
  | .w8 => "i8"
  | .w16 => "i16"
  | .w32 => "i32"
  | .w64 => "i64"

def all : List IntWidth := [.w8, .w16, .w32, .w64]

/-- The place of a width among the four, counted from one. -/
def rank : IntWidth → Nat
  | .w8 => 1
  | .w16 => 2
  | .w32 => 3
  | .w64 => 4

/-- The width of a value of `n` bytes; the widest unless `n` is 1, 2 or 4. -/
def ofBytes (n : Int64) : IntWidth :=
  if n = 1 then .w8 else if n = 2 then .w16 else if n = 4 then .w32 else .w64

def letter : IntWidth → Char
  | .w8 => 'b'
  | .w16 => 'w'
  | .w32 => 'l'
  | .w64 => 'q'

/-- The width with a given number, counted from zero. -/
def ofCode? : Int → Option IntWidth
  | 0 => some .w8
  | 1 => some .w16
  | 2 => some .w32
  | 3 => some .w64
  | _ => none

end IntWidth

/-- Single and double precision, and the 80-bit extended format kept in 16 bytes. -/
inductive FloatKind
  | single
  | double
  | extended
  deriving DecidableEq, Repr, Inhabited

namespace FloatKind

def bytes : FloatKind → Int64
  | .single => 4
  | .double => 8
  | .extended => 16

def text : FloatKind → String
  | .single => "f32"
  | .double => "f64"
  | .extended => "f80"

/-- The kind with a given number; every number past the first two is the widest. -/
def ofCode : Int → FloatKind
  | 0 => .single
  | 1 => .double
  | _ => .extended

end FloatKind

/-- A value type.  An array of negative length is incomplete. -/
inductive Ty
  | missing
  | void
  | int (width : IntWidth) (sign : Signedness)
  | float (kind : FloatKind)
  | pointer (target : Ty)
  | array (element : Ty) (length : Int64)
  | func (params : List Ty) (result : Ty) (variadic : Bool)
  | struct (name : String) (members : List Ty) (packed : Bool)
  | union (name : String) (members : List Ty)
  deriving Repr, Inhabited

namespace Ty

/-! ### The common types -/

abbrev char : Ty := .int .w8 .signed
abbrev uchar : Ty := .int .w8 .unsigned
abbrev short : Ty := .int .w16 .signed
abbrev ushort : Ty := .int .w16 .unsigned
abbrev sint : Ty := .int .w32 .signed
abbrev uint : Ty := .int .w32 .unsigned
abbrev long : Ty := .int .w64 .signed
abbrev ulong : Ty := .int .w64 .unsigned
abbrev single : Ty := .float .single
abbrev double : Ty := .float .double
abbrev longDouble : Ty := .float .extended

/-- The integer type that occupies `n` bytes; eight unless `n` is 1, 2 or 4. -/
def intOfSize (n : Int64) (sign : Signedness) : Ty := .int (.ofBytes n) sign

/-! ### Text -/

def intText (width : IntWidth) (sign : Signedness) : String :=
  let core := match width with
    | .w8 => "char"
    | .w16 => "short"
    | .w32 => "int"
    | .w64 => "long"
  match sign with
  | .signed => core
  | .unsigned => "unsigned " ++ core

def floatText : FloatKind → String
  | .single => "float"
  | .double => "double"
  | .extended => "long double"

/-- The name, the size in bytes and the type of the signed integers with a width number.  A number past
the widest has no name, and a size all the same; a negative one has nothing. -/
def describeWidth? (n : Int) : Option (String × Int64 × String) :=
  if n < 0 then none
  else match IntWidth.ofCode? n with
    | some w => some (w.text, w.bytes, intText w .signed)
    | none => some ("?", if n < 64 then Int64.ofNat (Nat.pow 2 n.toNat) else 0, "int")

/-- An aggregate's name, or a stand-in for a nameless one. -/
def tagText (keyword name : String) : String :=
  if name.isEmpty then keyword ++ " <anonymous>" else keyword ++ " " ++ name

def text : Ty → String
  | .missing => ""
  | .void => "void"
  | .int width sign => intText width sign
  | .float kind => floatText kind
  | .pointer .missing => "void *"
  | .pointer target => target.text ++ " *"
  | .array .missing _ => "?[]"
  | .array element length => if length < 0 then element.text ++ "[]" else element.text ++ "[...]"
  | .func _ _ _ => "function"
  | .struct name _ _ => tagText "struct" name
  | .union name _ => tagText "union" name

/-! ### Predicates -/

def isMissing : Ty → Bool
  | .missing => true
  | _ => false

def isInteger : Ty → Bool
  | .int _ _ => true
  | _ => false

/-- Is this an unsigned integer type?  Pointers count as unsigned. -/
def isUnsigned : Ty → Bool
  | .int _ sign => sign == .unsigned
  | .pointer _ => true
  | _ => false

def isPointer : Ty → Bool
  | .pointer _ => true
  | _ => false

def isFloating : Ty → Bool
  | .float _ => true
  | _ => false

/-- Does a value of this type travel in a vector register? -/
def isSse : Ty → Bool
  | .float .extended => false
  | .float _ => true
  | _ => false

def isLongDouble : Ty → Bool
  | .float .extended => true
  | _ => false

def isAggregate : Ty → Bool
  | .struct _ _ _ => true
  | .union _ _ => true
  | _ => false

def fitsIntRegister : Ty → Bool
  | .int _ _ => true
  | .pointer _ => true
  | .func _ _ _ => true
  | _ => false

def target : Ty → Ty
  | .pointer t => t
  | _ => .missing

/-! ### Equality

Structs are one type when they share a name, and so are unions; everything else is
compared part by part.
-/

mutual

def same : Ty → Ty → Bool
  | .missing, .missing => true
  | .void, .void => true
  | .int w s, .int w' s' => w == w' && s == s'
  | .float k, .float k' => k == k'
  | .pointer t, .pointer t' => same t t'
  | .array e n, .array e' n' => n == n' && same e e'
  | .func ps r v, .func ps' r' v' => v == v' && same r r' && sameAll ps ps'
  | .struct name _ _, .struct name' _ _ => name == name'
  | .union name _, .union name' _ => name == name'
  | _, _ => false

def sameAll : List Ty → List Ty → Bool
  | [], [] => true
  | t :: ts, t' :: ts' => same t t' && sameAll ts ts'
  | _, _ => false

end

end Ty

end Codegen
