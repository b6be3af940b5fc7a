/-!
# The outcome of a solve

The outcome holds what a strategy reports: a status, the best solution with its
objective value, and a lower bound.  A solution is kept if it is better than
the one before.  Objective values are doubles, and the comparisons are those of
doubles: nothing is better or worse than a NaN.
-/

namespace JointModel

/-- What is known about a model after, or during, a solve. -/
inductive Status
  | unknown
  /-- A solution was found but not proven optimal. -/
  | feasible
  /-- The solution is proven optimal. -/
  | optimal
  /-- There is no solution. -/
  | infeasible
  | timeLimitReached
deriving DecidableEq, Repr

/-- The written form of a status. -/
def Status.text : Status → String
  | .unknown => "unknown"
  | .feasible => "feasible"
  | .optimal => "optimal"
  | .infeasible => "infeasible"
  | .timeLimitReached => "time limit reached"

/-- The status says that there is a solution. -/
def Status.isSolutionFound : Status → Bool
  | .feasible | .optimal => true
  | _ => false

/-- The values of the boolean and integer slots, by index. -/
structure Solution where
  bools : Array Bool := #[]
  ints : Array Int := #[]
deriving DecidableEq, Repr

/-- The solution has no values at all. -/
def Solution.isEmpty (s : Solution) : Bool := s.bools.isEmpty && s.ints.isEmpty

/-- Above every finite objective value. -/
def infinity : Float := Float.ofBits 0x7FF0000000000000

/-- What a strategy reports. -/
structure Outcome where
  status : Status := .unknown
  /-- The objective value of the best solution, infinite if there is none. -/
  objective : Float := infinity
  /-- The best lower bound, minus infinity if there is none. -/
  bound : Float := -infinity
  solution : Solution := {}
deriving Repr

namespace Outcome

/-- Sets the status. -/
def setStatus (o : Outcome) (status : Status) : Outcome := { o with status }

/-- Keeps a solution if it improves on the best one.  An unknown status becomes
feasible then. -/
def record (o : Outcome) (objective : Float) (solution : Solution) : Bool × Outcome :=
  if objective.isNaN || objective ≥ o.objective then (false, o)
  else
    (true,
      { o with
        objective, solution
        status := if o.status = .unknown then .feasible else o.status })

/-- Moves the lower bound unless it is known already to be at least that. -/
def raiseBound (o : Outcome) (bound : Float) : Bool × Outcome :=
  if bound ≤ o.bound then (false, o) else (true, { o with bound })

end Outcome

end JointModel
