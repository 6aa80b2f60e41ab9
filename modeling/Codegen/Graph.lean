/-
Interference graphs.

The graph on the numbers 0 to n-1 is a triangular matrix of bits, kept in words of
64: the pair a > b has bit a(a-1)/2 + b.  Numbers from n on have no edges.  A negative
number is not refused: it is put through the same formula, and the access is outside
the matrix when the word it falls into is.
-/
namespace Codegen

structure Graph where
  size : Int
  /-- The bits of the words in order. -/
  bits : Array Bool
  deriving Repr, Inhabited

namespace Graph

/-- The number of 64-bit words for a graph on n numbers. -/
def words (n : Int) : Nat := ((n * (n - 1) / 2 + 63) / 64).toNat

def empty (n : Int) : Graph := ⟨n, Array.replicate (64 * words n) false⟩

def bit (a b : Int) : Int :=
  let hi := max a b
  let lo := min a b
  (hi * (hi - 1)).tdiv 2 + lo

/-- Can these two have an edge at all? -/
def mayJoin (g : Graph) (a b : Int) : Bool := a != b && a < g.size && b < g.size

def interferes (g : Graph) (a b : Int) : Bool :=
  let k := bit a b
  g.mayJoin a b && 0 ≤ k && g.bits.getD k.toNat false

def addEdge (g : Graph) (a b : Int) : Graph :=
  let k := bit a b
  if g.mayJoin a b && 0 ≤ k then { g with bits := g.bits.setIfInBounds k.toNat true } else g

def vertices (g : Graph) : List Int := (List.range g.size.toNat).map Int.ofNat

def neighbors (g : Graph) (v : Int) : List Int := g.vertices.filter (g.interferes v)

/-- All edges, smaller number first, in order. -/
def edges (g : Graph) : List (Int × Int) :=
  g.vertices.flatMap fun a =>
    (g.vertices.filter fun b => a < b && g.interferes a b).map fun b => (a, b)

/-! ### Checked access

The numbers are machine words here, and a product that does not fit into one is cut off:
the matrix of a very large graph may come out too short for its own pairs.
-/

/-- The number of pairs of numbers below n: the pairs with larger number n begin at this bit. -/
def pairs (n : Int) : Int64 := n.toInt64 * (n.toInt64 - 1) / 2

def make? (n : Int) : Option Graph :=
  let words := (pairs n + 63) / 64
  if words < 0 then none else some ⟨n, Array.replicate (64 * words.toNatClampNeg) false⟩

def bitWord (a b : Int) : Int := (pairs (max a b) + (min a b).toInt64).toInt

/-- Is this bit in one of the words?  Bits just below zero fall into the first word. -/
def holds (g : Graph) (k : Int) : Bool := -64 < k && k < g.bits.size && 0 < g.bits.size

/-- The bit of a pair that can have an edge, if it is inside the matrix. -/
def bit? (g : Graph) (a b : Int) : Option Int :=
  let k := bitWord a b
  if g.holds k then some k else none

def addEdge? (g : Graph) (a b : Int) : Option Graph :=
  if g.mayJoin a b then
    (g.bit? a b).map fun k =>
      if 0 ≤ k then { g with bits := g.bits.setIfInBounds k.toNat true } else g
  else some g

def interferes? (g : Graph) (a b : Int) : Option Bool :=
  if g.mayJoin a b then (g.bit? a b).map fun k => 0 ≤ k && g.bits.getD k.toNat false else some false

def neighbors? (g : Graph) (v : Int) : Option (List Int) := g.vertices.filterM (g.interferes? v)

end Graph

end Codegen
