/-
Computations that leave a trace and may fail.  The trace survives a failure.
-/
import Codegen.Event
import Codegen.Failure

namespace Codegen

abbrev Traced := EStateM Failure (Array Event)

namespace Traced

def note (function : String) (n : Note) : Traced Unit :=
  modify (·.push ⟨function, n⟩)

/-- A result without a trace. -/
def ofExcept {α : Type} : Except Failure α → Traced α
  | .ok a => pure a
  | .error e => throw e

/-- Go on only if the question has an answer. -/
def require (ok : Bool) (fault : Fault) : Traced Unit :=
  if ok then pure () else throw (.fault fault)

def outcome {α : Type} (x : Traced α) : Array Event × Except Failure α :=
  match x.run #[] with
  | .ok a events => (events, .ok a)
  | .error e events => (events, .error e)

def result {α : Type} (x : Traced α) : Except Failure α := x.outcome.2

end Traced

end Codegen
