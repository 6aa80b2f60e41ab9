/-
Types as text.

A type is a scalar name, `*T` for a pointer, `fn(P, ..., P)->R` for a signature whose
parameter list may end in `...` and whose result may be left out, or the name of a
declared struct.  Blanks around any part are ignored.

Reading goes in two steps.  `TypeExpr.ofText` finds the form of a text alone, and keeps
what is wrong with a part in that part's place.  `TypeReader.resolve` then goes through
the form, result before parameters, and looks declared names up; the first thing wrong
that it meets is the error.  A declared name is looked up while the names it stands in
are open, so a struct that contains itself is found out.  Finished structs are kept.
-/
import Codegen.Failure
import Codegen.Text.Blank

namespace Codegen

/-- The form of a type's text. -/
inductive TypeExpr
  | bad (cause : DocumentError)
  | scalar (t : Ty)
  | named (name : String)
  | pointer (target : TypeExpr)
  | signature (result : TypeExpr) (params : List TypeExpr) (variadic : Bool)
  deriving Repr, Inhabited

namespace TypeExpr

def scalars : List (String × Ty) :=
  [("char", .char), ("uchar", .uchar), ("short", .short), ("ushort", .ushort), ("int", .sint),
    ("uint", .uint), ("long", .long), ("ulong", .ulong), ("float", .single),
    ("double", .double), ("longdouble", .longDouble), ("void", .void)]

/-- Split at the parenthesis that closes the `depth` open ones: what is before and what is after. -/
def closing? : Nat → List Char → Option (List Char × List Char)
  | _, [] => none
  | depth, c :: cs =>
    if c == ')' && depth == 1 then some ([], cs)
    else
      let depth := if c == '(' then depth + 1 else if c == ')' then depth - 1 else depth
      (closing? depth cs).map fun (inside, rest) => (c :: inside, rest)

def splitCommas : Nat → List Char → List (List Char)
  | _, [] => [[]]
  | depth, c :: cs =>
    if c == ',' && depth == 0 then [] :: splitCommas depth cs
    else
      let depth := if c == '(' then depth + 1 else if c == ')' then depth - 1 else depth
      match splitCommas depth cs with
      | first :: rest => (c :: first) :: rest
      | [] => [[c]]

/-- The parameters of a list; a blank list has none. -/
def parameters (cs : List Char) : List (List Char) :=
  if (trimBlank cs).isEmpty then [] else splitCommas 0 cs

/-- The text that stands for further arguments. -/
def dots : List Char := ['.', '.', '.']

/-- The forms of parameters, each read by `read`; dots are allowed at the end only. -/
def paramForms (read : List Char → TypeExpr) (whole : List Char) : List (List Char) → List TypeExpr
  | [] => []
  | p :: rest =>
    if trimBlank p == dots then
      if rest.isEmpty then [] else [.bad (.dotsNotLast (String.ofList whole))]
    else read p :: paramForms read whole rest

def endsInDots (params : List (List Char)) : Bool := params.getLast?.any (trimBlank · == dots)

/-- The form of a signature, given its trimmed text and what follows `fn(` in it. -/
def signatureForm (read : List Char → TypeExpr) (whole body : List Char) : TypeExpr :=
  match closing? 1 body with
  | none => .bad (.unbalancedSignature (String.ofList whole))
  | some (inside, rest) =>
    let params := parameters inside
    let form (result : TypeExpr) : TypeExpr :=
      .signature result (paramForms read whole params) (endsInDots params)
    match trimBlank rest with
    | [] => form (.scalar .void)
    | '-' :: '>' :: result => form (read result)
    | _ => .bad (.badSignature (String.ofList whole))

/-- The form of a text; every part of it is shorter, so `fuel` above its length is enough. -/
def ofChars : Nat → List Char → TypeExpr
  | 0, _ => .bad .missingType
  | fuel + 1, cs =>
    match trimBlank cs with
    | [] => .bad .missingType
    | '*' :: rest => .pointer (ofChars fuel rest)
    | 'f' :: 'n' :: '(' :: body => signatureForm (ofChars fuel) ('f' :: 'n' :: '(' :: body) body
    | name =>
      let name := String.ofList name
      match scalars.lookup name with
      | some t => .scalar t
      | none => .named name

def ofText (s : String) : TypeExpr := ofChars (s.toList.length + 1) s.toList

end TypeExpr

/-- The declared structs: each name with the texts of its members' types. -/
abbrev TypeTable := List (String × List String)

structure TypeReader where
  table : TypeTable
  done : List (String × Ty) := []
  /-- The structs whose members are being read, innermost first. -/
  opened : List String := []
  deriving Repr, Inhabited

/-- A step of reading types; what is finished stays finished when a later part is wrong. -/
abbrev Reading := EStateM DocumentError TypeReader

namespace TypeReader

def resolveWith (lookup : String → Reading Ty) : TypeExpr → Reading Ty
  | .bad cause => throw cause
  | .scalar t => pure t
  | .named name => lookup name
  | .pointer e => do return .pointer (← resolveWith lookup e)
  | .signature result params variadic => do
    let result ← resolveWith lookup result
    let params ← resolveAll lookup params
    return .func params result variadic
where
  resolveAll (lookup : String → Reading Ty) : List TypeExpr → Reading (List Ty)
    | [] => pure []
    | e :: rest => do
      let t ← resolveWith lookup e
      let ts ← resolveAll lookup rest
      return t :: ts

/-- Run a step with one more name open. -/
def inside {α : Type} (name : String) (step : Reading α) : Reading α := fun reader =>
  match step { reader with opened := name :: reader.opened } with
  | .ok a after => .ok a { after with opened := reader.opened }
  | .error e after => .error e { after with opened := reader.opened }

/-- Look a name up.  Only declared names that are not open are read further, so there is a name fewer
to open each time and `fuel` of the size of the table is enough. -/
def lookup : Nat → String → Reading Ty
  | fuel, name => do
    let reader ← get
    match reader.done.lookup name with
    | some t => return t
    | none =>
      match reader.table.lookup name with
      | none => throw (.unknownType name)
      | some members =>
        if reader.opened.contains name then throw (.cyclicType name)
        else match fuel with
          | 0 => throw (.cyclicType name)
          | fuel + 1 => do
            let ms ← inside name
              (members.mapM fun m => resolveWith (lookup fuel) (.ofText m))
            let t := Ty.struct name ms false
            modify fun r => { r with done := (name, t) :: r.done }
            return t

def read (s : String) : Reading Ty := do
  let reader ← get
  resolveWith (lookup reader.table.length) (.ofText s)

end TypeReader

end Codegen
