import JointModel.Domains
import JointModel.Model.Method
import JointModel.Model.Outcome

/-!
# Strategies

A strategy is the solving procedure of one method.  While it runs it may look
at the model, fork and discard working copies, make literals and domains in
the CP store and report an outcome; it cannot tear the session down or change
the slots.  A strategy is given by the commands that it performs, one after the
other.
-/

namespace JointModel

/-- What a strategy may do. -/
inductive Command
  /-- Asks for the method, the objective and the time limit of the solve. -/
  | arguments
  /-- Asks for the primary formulation. -/
  | formulation
  /-- Asks for the formulation of the innermost working copy. -/
  | workingCopy
  | fork
  | discard
  /-- Asks for the number of working copies and of blocks. -/
  | session
  /-- Asks whether there is time left. -/
  | inTime
  | setStatus (status : Status)
  | record (objective : Float) (solution : Solution)
  | raiseBound (bound : Float)
  | outcome
  /-- Asks for the diagnostic text of the solve. -/
  | describe
  | domains (c : Domains.Call)
deriving Repr

/-- The commands of a strategy in their order. -/
abbrev Script := List Command

/-- At most one strategy for each method. -/
structure Strategies where
  script? : Method → Option Script := fun _ => none

namespace Strategies

/-- Registers the strategy of a method, in place of an earlier one. -/
def set (s : Strategies) (method : Method) (script : Script) : Strategies :=
  ⟨fun m => if m = method then some script else s.script? m⟩

/-- A strategy is registered for the method. -/
def contains (s : Strategies) (method : Method) : Bool := (s.script? method).isSome

/-- The methods with a strategy, in the order of all methods. -/
def registered (s : Strategies) : List Method := Method.all.filter s.contains

theorem contains_set (s : Strategies) (method m : Method) (script : Script) :
    (s.set method script).contains m = (decide (m = method) || s.contains m) := by
  by_cases h : m = method <;> simp [contains, set, h]

end Strategies

end JointModel
