import JointModel.Session.Calls

/-!
# The engine: a session with armed faults

The model layer reaches its session through the engine.  A fault can be armed
for an operation: a given number of its calls still go through, and the one
after those is not passed to the session but rejected.  Then the fault is gone.
With no fault armed, a call on the engine is the call on the session
(`call_of_unarmed`), and a fault that strikes leaves the session as it was
(`call_of_struck`).
-/

namespace JointModel

/-- The operations of a session for which a fault can be armed. -/
inductive Operation
  | changeSetting
  | newProblem
  | setSense
  | setIntegral
  | newVar
  | enrolVar
  | negateVar
  | copyVar
  | releaseVar
  | addHandler
  | newCons
  | enrolCons
  | copyCons
  | releaseCons
  | installHooks
  | forkCopy
  | discardCopy
  | writeProblem
  | close
deriving DecidableEq, Repr

namespace Operation

/-- The name of an operation. -/
def name : Operation → String
  | .changeSetting => "apply"
  | .newProblem => "create_problem"
  | .setSense => "set_objective_sense"
  | .setIntegral => "set_objective_integral"
  | .newVar => "create_var"
  | .enrolVar => "add_var"
  | .negateVar => "negated_var"
  | .copyVar => "transform_var"
  | .releaseVar => "release_var"
  | .addHandler => "include_handler"
  | .newCons => "create_cons"
  | .enrolCons => "add_cons"
  | .copyCons => "transform_cons"
  | .releaseCons => "release_cons"
  | .installHooks => "set_transform_hooks"
  | .forkCopy => "transform_problem"
  | .discardCopy => "free_transformed"
  | .writeProblem => "write_original_problem"
  | .close => "free"

/-- Every operation. -/
def all : List Operation :=
  [.changeSetting, .newProblem, .setSense, .setIntegral, .newVar, .enrolVar, .negateVar,
    .copyVar, .releaseVar, .addHandler, .newCons, .enrolCons, .copyCons,
    .releaseCons, .installHooks, .forkCopy, .discardCopy, .writeProblem, .close]

/-- The operation of the given name. -/
def ofName? (name : String) : Option Operation := all.find? (·.name == name)

theorem mem_all (op : Operation) : op ∈ all := by cases op <;> decide

end Operation

/-- The armed faults: for an operation, how many of its calls still go
through. -/
abbrev Faults := List (Operation × Nat)

namespace Faults

/-- Arms the fault of an operation, in place of an earlier one. -/
def arm (faults : Faults) (op : Operation) (after : Nat) : Faults :=
  (op, after) :: faults.filter (·.1 != op)

/-- Counts a call of an operation: whether its fault strikes, and the faults
that are left. -/
def count (faults : Faults) (op : Operation) : Bool × Faults :=
  match faults.lookup op with
  | none => (false, faults)
  | some 0 => (true, faults.filter (·.1 != op))
  | some (after + 1) => (false, faults.arm op after)

end Faults

/-- A session and the faults that are armed for its operations. -/
structure Engine where
  session : Session := {}
  faults : Faults := []
deriving Repr

namespace Engine

/-- A call that may change the engine or be rejected. -/
abbrev Run (α : Type) := EStateM EngineError Engine α

/-- How a struck call is rejected. -/
def injected (op : Operation) : EngineError := .invalidSetting ("injected " ++ op.name)

/-- Passes a call to the session, unless the fault of its operation strikes. -/
def call {α : Type} (op : Operation) (act : Session.Run α) : Run α := fun engine =>
  match engine.faults.count op with
  | (true, faults) => .error (injected op) { engine with faults }
  | (false, faults) =>
    match act engine.session with
    | .ok answer session => .ok answer { session, faults }
    | .error cause session => .error cause { session, faults }

/-- Performs a call on a session by itself, out of reach of all faults. -/
def onSession {α : Type} (act : Run α) : Session.Run α :=
  Effect.onPart (fun session => { session }) (fun _ engine => engine.session) id act

theorem call_of_unarmed {α : Type} (op : Operation) (act : Session.Run α) (session : Session) :
    call op act { session } = match act session with
      | .ok answer session => .ok answer { session }
      | .error cause session => .error cause { session } := rfl

theorem call_of_struck {α : Type} {op : Operation} {engine : Engine}
    (struck : (engine.faults.count op).1 = true) (act : Session.Run α) :
    ∃ faults, call op act engine = .error (injected op) { engine with faults } := by
  refine ⟨(engine.faults.count op).2, ?_⟩
  unfold call
  split
  · next h => simp [h]
  · next h => simp [h] at struck

theorem onSession_call {α : Type} (op : Operation) (act : Session.Run α) :
    onSession (call op act) = act := by
  funext session
  simp only [onSession, Effect.onPart, call_of_unarmed]
  cases act session <;> rfl

/-! ## The calls of the model layer -/

/-- Creates a variable, with one use for the caller. -/
def newVar (name : String) (lb ub obj : Float) (kind : VarKind) : Run VarId :=
  call .newVar (Session.newVar name lb ub obj kind)

/-- Makes a variable a member of the problem. -/
def enrolVar (v : VarId) : Run Unit := call .enrolVar (Session.enrolVar v)

/-- The negation of a variable. -/
def negateVar (v : VarId) : Run VarId := call .negateVar (Session.negateVar v)

/-- The variable of a new working copy that corresponds to `v`. -/
def copyVar (v : VarId) : Run VarId := call .copyVar (Session.copyVar v)

/-- Takes back one use of a variable. -/
def releaseVar (v : VarId) : Run Unit := call .releaseVar (Session.releaseVar v)

/-- Includes a constraint handler. -/
def addHandler (name : String) : Run Unit :=
  call .addHandler (Session.addHandler name)

/-- Creates a constraint of an included handler, with one use for the caller. -/
def newCons (handler name : String) : Run ConsId :=
  call .newCons (Session.newCons handler name)

/-- Makes a constraint a member of the problem. -/
def enrolCons (c : ConsId) : Run Unit := call .enrolCons (Session.enrolCons c)

/-- The constraint of a new working copy that corresponds to `c`. -/
def copyCons (c : ConsId) : Run ConsId := call .copyCons (Session.copyCons c)

/-- Takes back one use of a constraint. -/
def releaseCons (c : ConsId) : Run Unit := call .releaseCons (Session.releaseCons c)

/-- Makes a new variable a member of the problem.  If the problem refuses it,
the use of its creator is taken back. -/
def enrolOrRelease (v : VarId) : Run Unit :=
  tryCatch (enrolVar v) fun cause => do
    releaseVar v
    throw cause

end Engine

end JointModel
