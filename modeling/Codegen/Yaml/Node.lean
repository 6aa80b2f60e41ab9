/-
Nodes of a YAML document.

A node with an anchor can be referred to later, and also from inside itself.  So a document
is a node together with a list of the nodes that have anchors, and a reference is a number in
that list.
-/
import Codegen.Text.Base64
import Codegen.Text.Utf8
import Codegen.Yaml.Value

namespace Codegen.Yaml

/-- A node.  Tags are in their short form. -/
inductive Node
  | scalar (tag text : String)
  | sequence (tag : String) (items : List Node)
  | mapping (tag : String) (entries : List (Node × Node))
  /-- A reference, by the name of the anchor and the number of the node that had it then. -/
  | reference (name : String) (target : Nat)
  deriving Repr, Inhabited

namespace Node

/-- The node of a place where nothing is written. -/
def null : Node := .scalar Tag.null ""

/-- The tag of a scalar; `given` is the tag that is written, if there is one. -/
def scalarTag (given text : String) (plain : Bool) : String :=
  if !given.isEmpty && given != "!" then Tag.short given
  else if !plain then Tag.str
  else if text == "<<" then Tag.merge
  else (Value.guess true text).1

def collectionTag (given kind : String) : String :=
  if !given.isEmpty && given != "!" then Tag.short given else kind

def value? (tag text : String) : Option Value := do
  let (kind, v) ← Value.resolve? tag text
  if kind == Tag.binary then return .text (Utf8.text (← Base64.decode? text.toList))
  else return v

/-- Is this the key that takes in other mappings? -/
def isMerge : Node → Bool
  | .scalar tag text => tag == Tag.merge && text == "<<"
  | _ => false

def isMapping : Node → Bool
  | .mapping _ _ => true
  | _ => false

/-- Are these the same scalar, the same reference, or both the same kind of collection?  Keys may not
repeat. -/
def sameKey : Node → Node → Bool
  | .scalar _ a, .scalar _ b => a == b
  | .sequence _ _, .sequence _ _ => true
  | .mapping _ _, .mapping _ _ => true
  | .reference a _, .reference b _ => a == b
  | _, _ => false

def keysDiffer : List (Node × Node) → Bool
  | [] => true
  | (k, _) :: rest => !rest.any (fun e => sameKey k e.1) && keysDiffer rest

end Node

end Codegen.Yaml
