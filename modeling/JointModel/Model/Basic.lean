import JointModel.Model.Solve
import JointModel.Registry.Draft
import JointModel.Session.Listing

/-!
# The hybrid model

A model owns the primary formulation of a problem and the strategies by which
it is solved.  It lives in an IP engine and a CP store.  Creating it sets the
session up and adds the constants and, for branch-and-check, the bridge.
Dropping it releases every handle it owns and frees the session; afterwards no
block of the session may be alive.
-/

namespace JointModel

/-- A model without the solvers it lives in. -/
structure Model where
  config : Config
  formulation : Formulation := {}
  strategies : Strategies := {}
  outcome : Outcome := {}
  timer : Timer := {}
  /-- The seconds spent solving. -/
  runTime : Float := 0.0

/-- A model and the solvers it lives in. -/
structure Live where
  model : Model
  solvers : Solvers

namespace Live

/-- A call on a model that may be rejected. -/
abbrev Run (α : Type) := EStateM ModelError Live α

/-- Performs a call on the engine. -/
def onEngine {α : Type} (act : Engine.Run α) : Run α :=
  Effect.onPart solvers (fun s solvers => { s with solvers }) .engine (Solvers.onEngine act)

/-- Performs a step of assembly on the formulation. -/
def onFormulation {α : Type} (act : Formulation.Assembly.Step α) : Run α :=
  Effect.onPart (fun s => ⟨s.solvers.engine, s.model.formulation⟩)
    (fun s t => { s with model.formulation := t.formulation, solvers.engine := t.engine })
    .engine act

/-- Adds slots to the registry of the formulation. -/
def onRegistry {α : Type} (act : Draft.Run α) : Run α :=
  Effect.onPart (fun s => ⟨s.model.formulation.registry, s.solvers⟩)
    (fun s d => { s with model.formulation.registry := d.registry, solvers := d.solvers })
    id act

end Live

namespace Model

/-! ## Creating and dropping -/

/-- The settings of every session that a model lives in.  The search has one
thread, and as copies of the problem have to keep step with the registry,
presolve may neither aggregate variables away nor restart. -/
def sessionSettings : List Setting :=
  [.maxThreads 1, .lpThreads 1, .multiAggregation false, .maxRestarts 0]

/-- Attaches the bridge if the method needs one. -/
def setUpBridge (method : Method) : Live.Run Unit :=
  if method.needsBridge then Live.onFormulation Formulation.Assembly.addBridge else pure ()

/-- Declares the objective integral if the configuration says so. -/
def setUpObjective (integral : Bool) : Live.Run Unit :=
  if integral then Live.onEngine Engine.setIntegral else pure ()

/-- Sets the session up for a new model. -/
def setUp (config : Config) : Live.Run Unit := do
  sessionSettings.forM fun setting => Live.onEngine (Engine.changeSetting setting)
  Live.onEngine (Engine.newProblem config.problemName)
  Live.onEngine (Engine.setSense .minimize)
  setUpObjective config.integralObjective
  Live.onRegistry Draft.addConstants
  setUpBridge config.method
  Live.onEngine Engine.installHooks

/-- Releases every handle of the model and frees the session. -/
def tearDown (m : Model) : Engine.Run Unit := do
  m.formulation.release
  Engine.close

/-- Drops a model.  It aborts if the teardown is rejected or if a block of the
session is still alive afterwards. -/
def drop (m : Model) : EStateM Abort Solvers Unit := fun solvers =>
  match m.tearDown solvers.engine with
  | .error cause engine => .error (.teardownFailed cause) { solvers with engine }
  | .ok () engine =>
    let leaked := engine.session.blocks
    if leaked = 0 then .ok () { solvers with engine }
    else .error (.leaked leaked) { solvers with engine }

/-- Creates a model.  If the session cannot be set up, what was made so far is
dropped again. -/
def create (config : Config) : EStateM Failure Solvers Model := fun solvers =>
  match config.defect? with
  | some defect => .error (.rejected (.config defect.message)) solvers
  | none =>
    match setUp config ⟨{ config }, solvers⟩ with
    | .ok () s => .ok s.model s.solvers
    | .error cause s =>
      match s.model.drop s.solvers with
      | .ok () solvers => .error (.rejected cause) solvers
      | .error abort solvers => .error (.aborted abort) solvers

/-! ## Results -/

/-- The value of a boolean slot in the best solution.  Only positive slots are
looked up: a negated slot is the negation of its partner, and the constants
have their values in every solution that has any. -/
def boolValue (m : Model) (v : BoolId) : Option Bool := do
  let slot ← m.formulation.registry.bool? v
  let positive := slot.negates?.getD v
  let bools := m.outcome.solution.bools
  let stored ← if positive = .falsity then bools[0]?.map fun _ => false
    else bools[positive.index]?
  return stored != slot.negates?.isSome

/-- The value at the index of an integer slot in the best solution. -/
def intValue (m : Model) (v : IntId) : Option Int := m.outcome.solution.ints[v.index]?

/-- The diagnostic text of a model. -/
def describe (m : Model) : String :=
  Text.record "Model"
    [("config", Describe.config m.config), ("data", Describe.formulation m.formulation),
      ("strategies", Describe.strategies m.strategies), ("outcome", Describe.outcome m.outcome),
      ("run_time", "_")] true

/-! ## Solving -/

/-- The strategy that minimizes `objective`, if the call is in order: the limit
is positive, the objective is a slot of the model, and its method has a
strategy.  The first check that fails decides. -/
def dispatch (m : Model) (objective : IntId) (limit : Float) : Except Abort Script :=
  if limit > 0.0 then
    match m.formulation.registry.int? objective with
    | none => .error (.unknownObjective objective)
    | some _ =>
      match m.strategies.script? m.config.method with
      | none => .error (.noStrategy m.config.method)
      | some script => .ok script
  else .error (.invalidTimeLimit limit)

end Model

namespace Live

/-- Runs a strategy to minimize `objective`. -/
def solve (s : Live) (script : Script) (objective : IntId) (limit : Float) (now : Nat) :
    List Solve.Reply × Live :=
  let formulation := { s.model.formulation with objective }
  let timer : Timer := { limit, startedAt := some now }
  let ctx : Solve := { method := s.model.config.method, objective, limit, formulation, timer }
  let (replies, done) := ctx.run ⟨s.solvers, s.model.outcome, now⟩ script
  let model :=
    { s.model with
      formulation, timer
      outcome := done.outcome
      runTime := s.model.runTime + timer.elapsed done.clock }
  (replies, ⟨model, done.solvers⟩)

/-- Minimizes `objective` within `limit` seconds.  A call that is not in order
aborts before anything is touched. -/
def minimize (objective : IntId) (limit : Float) (now : Nat) :
    EStateM Abort Live (List Solve.Reply) := fun s =>
  match s.model.dispatch objective limit with
  | .error cause => .error cause s
  | .ok script =>
    let (replies, s) := s.solve script objective limit now
    .ok replies s

/-- Writes the problem to the configured file. -/
def writeProblem (files : Files) : Run String := do
  let s ← get
  onEngine (Engine.writeProblem s.model.config.lpPath files)

end Live

end JointModel
