/-
Documents from YAML.

Keys that mean nothing are ignored, a null leaves a field as it is, and a node of the
wrong kind makes the whole document malformed.
-/
import Codegen.Document
import Codegen.Yaml.Extract

namespace Codegen

open Yaml (Extract Node Value)
open Yaml.Extract (RecordField)

/-- A field that keeps its value where there is a null. -/
def keptField {α β : Type} (name : String) (read : Node → Extract (Option β)) (put : β → α → α) :
    RecordField α :=
  ⟨name, fun n v => do return match ← read n with
    | some b => put b v
    | none => v⟩

def field {α β : Type} (name : String) (read : Node → Extract β) (put : β → α → α) : RecordField α :=
  ⟨name, fun n v => do return put (← read n) v⟩

def texts : Node → Extract (List String) := Extract.list Extract.text

namespace InstrText

def fields : List (RecordField InstrText) :=
  [keptField "op" Extract.text fun s i => { i with op := s },
   keptField "label" (Extract.scalar Value.int?) fun n i => { i with label := n },
   keptField "dst" Extract.text fun s i => { i with dst := s },
   keptField "src1" Extract.text fun s i => { i with src1 := s },
   keptField "src2" Extract.text fun s i => { i with src2 := s }]

def read : Node → Extract (Option InstrText) := Extract.record fields {}

end InstrText

namespace Expectation

def fields : List (RecordField Expectation) :=
  [field "contains" texts fun ss e => { e with contains := ss },
   field "not_contains" texts fun ss e => { e with notContains := ss }]

/-- Read an expectation.  A mapping with the tag of nulls is none. -/
def read (n : Node) : Extract (Option Expectation) :=
  match n with
  | .mapping tag _ => if tag == Yaml.Tag.null then failure else Extract.record fields {} n
  | n => Extract.record fields {} n

end Expectation

namespace FunctionText

def fields : List (RecordField FunctionText) :=
  [keptField "name" Extract.text fun s f => { f with name := s },
   keptField "return" Extract.text fun s f => { f with result := s },
   field "params" texts fun ss f => { f with params := ss },
   keptField "variadic" (Extract.scalar Value.bool?) fun b f => { f with variadic := b },
   field "address_taken" (Extract.list (Extract.scalar Value.int?))
     fun ns f => { f with addressTaken := ns },
   field "strings" texts fun ss f => { f with strings := ss },
   field "code" (Extract.list InstrText.read) fun is f => { f with code := is },
   field "expect" Expectation.read fun e f => { f with expect := e }]

def read : Node → Extract (Option FunctionText) := Extract.record fields {}

end FunctionText

namespace GlobalText

def fields : List (RecordField GlobalText) :=
  [keptField "name" Extract.text fun s g => { g with name := s },
   keptField "type" Extract.text fun s g => { g with type := s },
   field "init" (Extract.list (Extract.scalar Value.byte?)) fun bs g => { g with init := bs }]

def read : Node → Extract (Option GlobalText) := Extract.record fields {}

end GlobalText

namespace Document

def fields : List (RecordField Document) :=
  [field "types" (Extract.map [] fun n => do return some (← texts n))
     fun ts d => { d with types := ts },
   field "globals" (Extract.list GlobalText.read) fun gs d => { d with globals := gs },
   field "declarations" (Extract.map "" Extract.text) fun ds d => { d with declarations := ds },
   field "functions" (Extract.list FunctionText.read) fun fs d => { d with functions := fs }]

def read (n : Node) : Extract Document := do return (← Extract.record fields {} n).getD {}

def ofText (s : String) : Except Failure Document :=
  match (Yaml.read s).bind (Extract.run read) with
  | some d => .ok d
  | none => .error (.document .badShape)

end Document

end Codegen
