/-
Reading TOML.

A text is a list of lines, and each has one statement at most, though a value can take several
lines.  All statements are kept up to the first thing that cannot be read.
-/
import Codegen.Toml.Word

namespace Codegen.Toml

/-! ### Keys -/

def isBare (c : Char) : Bool := c.isAlphanum || c == '_' || c == '-'

def name? (cs : List Char) : Option (Name × List Char) :=
  match cs with
  | '"' :: rest =>
    (basic? (rest.length + 1) rest).map fun (t, escaped, rest) => (⟨String.ofList t, escaped⟩, rest)
  | '\'' :: rest => (literal? rest).map fun (t, rest) => (⟨String.ofList t, false⟩, rest)
  | cs =>
    let t := cs.takeWhile isBare
    if t.isEmpty then none else some (⟨String.ofList t, false⟩, cs.dropWhile isBare)

def key? : Nat → List Char → Option (Key × List Char)
  | 0, _ => none
  | fuel + 1, cs => do
    let (first, rest) ← name? (skipSpace cs)
    match skipSpace rest with
    | '.' :: rest =>
      let (more, rest) ← key? fuel rest
      return (first :: more, rest)
    | rest => return ([first], rest)

/-! ### Values -/

mutual

def value? : Nat → List Char → Option (Value × List Char)
  | 0, _ => none
  | fuel + 1, cs =>
    match cs with
    | '"' :: '"' :: '"' :: rest => (skipLong? '"' (rest.length + 1) rest).map fun r => (.other, r)
    | '\'' :: '\'' :: '\'' :: rest =>
      (skipLong? '\'' (rest.length + 1) rest).map fun r => (.other, r)
    | '"' :: rest => (basic? (rest.length + 1) rest).map fun (_, _, r) => (.other, r)
    | '\'' :: rest => (literal? rest).map fun (_, r) => (.other, r)
    | '[' :: rest => do
      let (items, rest) ← items? fuel (← skipLines? false rest)
      return (.array items, rest)
    | '\x7b' :: rest =>
      match skipSpace rest with
      | '\x7d' :: rest => some (.table [], rest)
      | rest => (entries? fuel rest).map fun (entries, rest) => (.table entries, rest)
    | cs => word? cs

def items? : Nat → List Char → Option (List Value × List Char)
  | 0, _ => none
  | fuel + 1, cs =>
    match cs with
    | ']' :: rest => some ([], rest)
    | cs => do
      let (item, rest) ← value? fuel cs
      match ← skipLines? false rest with
      | ',' :: rest =>
        let (more, rest) ← items? fuel (← skipLines? false rest)
        return (item :: more, rest)
      | ']' :: rest => return ([item], rest)
      | _ => none

/-- The entries of a table on one line, at least one, and what follows. -/
def entries? : Nat → List Char → Option (List (Key × Value) × List Char)
  | 0, _ => none
  | fuel + 1, cs => do
    let (k, rest) ← key? (cs.length + 1) cs
    let (v, rest) ← value? fuel (skipSpace (← char? '=' rest))
    match skipSpace rest with
    | ',' :: rest =>
      let (more, rest) ← entries? fuel rest
      return ((k, v) :: more, rest)
    | '\x7d' :: rest => return ([(k, v)], rest)
    | _ => none

end

/-! ### Lines -/

def statement? (cs : List Char) : Option (Statement × List Char) := do
  match cs with
  | '[' :: '[' :: rest =>
    let (k, rest) ← key? (rest.length + 1) rest
    return (.item k, ← char? ']' (← char? ']' rest))
  | '[' :: rest =>
    let (k, rest) ← key? (rest.length + 1) rest
    return (.header k, ← char? ']' rest)
  | cs =>
    let (k, rest) ← key? (cs.length + 1) cs
    let (v, rest) ← value? (rest.length + 1) (skipSpace (← char? '=' rest))
    return (.entry k v, rest)

/-- Skip blanks and a comment, if there is one. -/
def skipTail? (cs : List Char) : Option (List Char) :=
  match skipSpace cs with
  | '#' :: rest => endComment? rest
  | rest => some rest

def line? (cs : List Char) : Option (List Statement × List Char) := do
  match ← skipTail? cs with
  | [] => return ([], [])
  | '\n' :: rest => return ([], '\n' :: rest)
  | '\r' :: rest => return ([], '\r' :: rest)
  | cs =>
    let (s, rest) ← statement? cs
    return ([s], ← skipTail? rest)

def readFrom : Nat → List Char → Toml
  | 0, _ => ⟨[], false⟩
  | fuel + 1, cs =>
    match line? cs with
    | none => ⟨[], false⟩
    | some (statements, []) => ⟨statements, true⟩
    | some (statements, rest) =>
      match lineBreak? rest with
      | none => ⟨statements, false⟩
      | some rest =>
        let more := readFrom fuel rest
        ⟨statements ++ more.statements, more.complete⟩

def read (s : String) : Toml := readFrom (s.length + 1) s.toList

end Codegen.Toml
