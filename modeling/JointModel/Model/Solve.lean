import JointModel.Model.Describe
import JointModel.Session.Interface
import JointModel.Solvers

/-!
# A solve in progress

A strategy runs its commands against the solvers and the outcome of the model.
What it was called with, the primary formulation included, stays as it is.  A
command that the solvers reject does not end the solve: the strategy is told
and goes on.  Every command takes at least one tick of the clock.
-/

namespace JointModel

/-- What a strategy is called with. -/
structure Solve where
  method : Method
  objective : IntId
  limit : Float
  formulation : Formulation
  timer : Timer

namespace Solve

/-- What a strategy can change. -/
structure State where
  solvers : Solvers
  outcome : Outcome
  /-- A clock that counts nanoseconds. -/
  clock : Nat

/-- What a strategy is told. -/
inductive Reply
  | done
  | arguments (method : Method) (objective : IntId) (limit : Float)
  | formulation (f : Formulation)
  | workingCopy (f : Option Formulation)
  | depth (copies : Nat)
  | flag (b : Bool)
  | session (copies blocks : Nat)
  | outcome (o : Outcome)
  | text (s : String)
  | domains (answer : Domains.Answer)
  | rejected (cause : EngineError)
deriving Repr

/-- Performs a call on the solvers and puts its answer, or why it was rejected,
into words for the strategy. -/
def ask {α : Type} (act : EStateM EngineError Solvers α) (reply : α → Reply) (s : State) :
    Reply × State :=
  match act s.solvers with
  | .ok answer solvers => (reply answer, { s with solvers })
  | .error cause solvers => (.rejected cause, { s with solvers })

/-- The diagnostic text of a solve. -/
def describe (ctx : Solve) (o : Outcome) : String :=
  Text.record "SolveContext"
    [("method", ctx.method.label), ("data", Describe.formulation ctx.formulation),
      ("timer", Describe.timer ctx.timer), ("outcome", Describe.outcome o)] true

/-- Performs a command. -/
def perform (ctx : Solve) (s : State) : Command → Reply × State
  | .arguments => (.arguments ctx.method ctx.objective ctx.limit, s)
  | .formulation => (.formulation ctx.formulation, s)
  | .workingCopy => (.workingCopy s.solvers.session.innermost?, s)
  | .fork => ask (Solvers.onEngine (Engine.forkCopy ctx.formulation)) .depth s
  | .discard => ask (Solvers.onEngine Engine.discardCopy) .flag s
  | .session => (.session s.solvers.session.depth s.solvers.session.blocks, s)
  | .inTime => (.flag (ctx.timer.remaining s.clock > 0.0), s)
  | .setStatus status => (.done, { s with outcome := s.outcome.setStatus status })
  | .record objective solution =>
    let (kept, outcome) := s.outcome.record objective solution
    (.flag kept, { s with outcome })
  | .raiseBound bound =>
    let (moved, outcome) := s.outcome.raiseBound bound
    (.flag moved, { s with outcome })
  | .outcome => (.outcome s.outcome, s)
  | .describe => (.text (ctx.describe s.outcome), s)
  | .domains c => ask (Solvers.onDomains (Domains.perform c)) .domains s

/-- Performs the commands of a strategy.  The replies are in the order of the
commands. -/
def run (ctx : Solve) (s : State) : Script → List Reply × State
  | [] => ([], s)
  | command :: rest =>
    let (reply, s) := ctx.perform { s with clock := s.clock + 1 } command
    let (replies, s) := ctx.run s rest
    (reply :: replies, s)

end Solve

end JointModel
