import JointModel.Model.Basic

/-!
# The workbench

A workbench is a pair of solvers with everything that is built in them: a
registry of its own, at most one model, and formulations that were forked and
are kept beside the session's stack of working copies.  All of them share the
solvers, so a call on the session is seen by the model and the other way round.
-/

namespace JointModel

/-- The solvers and what is built in them. -/
structure Workbench where
  solvers : Solvers := {}
  registry : Registry := {}
  model : Option Model := none
  /-- The detached copies by number; a discarded one leaves a gap. -/
  copies : Array (Option Formulation) := #[]

namespace Workbench

/-- Why the workbench itself refuses a call. -/
inductive Refusal
  | noCopy (number : Nat)
  | noModel
  | modelExists
deriving DecidableEq, Repr

/-- The wording of a refusal. -/
def Refusal.message : Refusal → String
  | .noCopy number => "no copy " ++ toString number
  | .noModel => "no model"
  | .modelExists => "there is a model already"

/-- Why a call on the workbench has no answer. -/
inductive Trouble
  | engine (cause : EngineError)
  | model (cause : ModelError)
  | abort (cause : Abort)
  | refusal (cause : Refusal)
deriving Repr

/-- A call on the workbench. -/
abbrev Run (α : Type) := EStateM Trouble Workbench α

/-! ## Solvers -/

/-- Performs a call on the solvers. -/
def onSolvers {ε α : Type} (trouble : ε → Trouble) (act : EStateM ε Solvers α) : Run α :=
  Effect.onPart solvers (fun w solvers => { w with solvers }) trouble act

/-- Performs a call on the engine. -/
def onEngine {α : Type} (act : Engine.Run α) : Run α := onSolvers .engine (Solvers.onEngine act)

/-- Performs a call of the session. -/
def session (c : Session.Call) : Run Session.Answer := onEngine (Engine.perform c)

/-- Performs a call of the CP store. -/
def domains (c : Domains.Call) : Run Domains.Answer :=
  onSolvers .engine (Solvers.onDomains (Domains.perform c))

/-- Starts over with an empty CP store. -/
def resetDomains : Run Unit := modify fun w => { w with solvers.domains := {} }

/-- Lets `count` more allocations succeed, or all of them.  The workbench checks
the sum: a limit that overflows aborts instead of wrapping around. -/
def setLimit (count : Option Nat) : Run Unit := fun w =>
  let s := w.solvers.engine.session
  if s.limitOverflows count then .error (.abort .limitOverflow) w
  else .ok () { w with solvers.engine.session := s.setLimit count }

/-- Arms the fault of an operation. -/
def arm (op : Operation) (after : Nat) : Run Unit :=
  modify fun w => { w with solvers.engine.faults := w.solvers.engine.faults.arm op after }

/-- The counts that show what is alive and what was called: blocks, members of
the problem, working copies, the ledger, and the size of the CP store. -/
def counters (w : Workbench) : List Nat :=
  let s := w.solvers.session
  [s.blocks, s.memberVars, s.memberConss, s.depth, s.ledger.varReleases, s.ledger.consReleases,
    s.ledger.forks, s.ledger.discards, w.solvers.domains.bools, w.solvers.domains.ints]

/-! ## The registry -/

/-- Adds slots to the registry of the workbench. -/
def onRegistry {α : Type} (act : Draft.Run α) : Run α :=
  Effect.onPart (fun w => ⟨w.registry, w.solvers⟩)
    (fun w d => { w with registry := d.registry, solvers := d.solvers }) .model act

/-- Adds the constants to the registry, which has to be empty. -/
def seed : Run Unit := do
  let w ← get
  if w.registry.isEmpty then onRegistry Draft.addConstants else throw (.abort .notEmpty)

/-- Whether a boolean slot owns its handle.  The slot has to be there. -/
def isPositive (r : Registry) (v : BoolId) : Run Bool :=
  match r.bool? v with
  | some slot => pure slot.isPositive
  | none => throw (.abort (.outOfBounds r.bools.size v.index))

/-- A boolean slot of a registry. -/
def boolSlot (r : Registry) (v : BoolId) : Run BoolSlot :=
  match r.bool? v with
  | some slot => pure slot
  | none => throw (.model (.unknownBool v))

/-- An integer slot of a registry. -/
def intSlot (r : Registry) (v : IntId) : Run IntSlot :=
  match r.int? v with
  | some slot => pure slot
  | none => throw (.model (.unknownInt v))

/-! ## The model -/

/-- The model, which has to be there. -/
def getModel : Run Model := fun w =>
  match w.model with
  | some m => .ok m w
  | none => .error (.refusal .noModel) w

/-- Changes the model, which has to be there. -/
def modifyModel (change : Model → Model) : Run Unit := do
  let m ← getModel
  modify fun w => { w with model := some (change m) }

/-- What trouble a failed creation is. -/
def Trouble.ofFailure : Failure → Trouble
  | .rejected cause => .model cause
  | .aborted cause => .abort cause

/-- Creates the model.  There is none if that fails. -/
def createModel (config : Config) : Run Unit := do
  let w ← get
  match w.model with
  | some _ => throw (.refusal .modelExists)
  | none =>
    let m ← onSolvers .ofFailure (Model.create config)
    modify fun w => { w with model := some m }

/-- Drops the model, if there is one.  It is gone even if that aborts. -/
def dropModel : Run Unit := fun w =>
  match w.model with
  | none => .ok () w
  | some m => onSolvers .abort m.drop { w with model := none }

/-- Performs a call on the model, which has to be there. -/
def onModel {ε α : Type} (trouble : ε → Trouble) (act : EStateM ε Live α) : Run α := do
  let m ← getModel
  Effect.onPart (fun w => ⟨m, w.solvers⟩)
    (fun w s => { w with model := some s.model, solvers := s.solvers }) trouble act

/-- Adds slots to the registry of the model. -/
def build (c : Draft.Call) : Run Nat := onModel .model (Live.onRegistry (Draft.perform c))

/-- Minimizes an objective. -/
def minimize (objective : IntId) (limit : Float) (now : Nat) : Run (List Solve.Reply) :=
  onModel .abort (Live.minimize objective limit now)

/-- Writes the problem to the file that the model is configured with.  The workbench
works in an empty directory. -/
def writeModel : Run String := onModel .model (Live.writeProblem .emptyDirectory)

/-- Starts the timer of the model. -/
def startTimer (limit : Float) (now : Nat) : Run Unit := do
  let m ← getModel
  match Timer.start limit now with
  | .ok timer => modify fun w => { w with model := some { m with timer } }
  | .error cause => throw (.abort cause)

/-! ## Formulations -/

/-- Where a formulation comes from. -/
inductive Origin
  | model
  | empty
  | copy (number : Nat)
deriving DecidableEq, Repr

/-- A detached copy, which has to be there. -/
def getCopy (number : Nat) : Run Formulation := fun w =>
  match w.copies[number]?.join with
  | some f => .ok f w
  | none => .error (.refusal (.noCopy number)) w

/-- A formulation as a value. -/
def formulation : Origin → Run Formulation
  | .model => Model.formulation <$> getModel
  | .empty => pure {}
  | .copy number => getCopy number

/-- Forks a working copy of the session. -/
def forkCopy (origin : Origin) : Run Session.Answer := do
  let source ← formulation origin
  session (.forkCopy source)

/-- Keeps a detached copy and answers its number. -/
def keepCopy (copy : Formulation) : Run Nat := fun w =>
  .ok w.copies.size { w with copies := w.copies.push (some copy) }

/-- Removes a detached copy; the model keeps its formulation. -/
def forget : Origin → Run Unit
  | .copy number => modify fun w => { w with copies := w.copies.setIfInBounds number none }
  | _ => pure ()

/-- Forks a detached copy and answers its number. -/
def fork (origin : Origin) : Run Nat := do
  let source ← formulation origin
  let copy ← onEngine source.fork
  keepCopy copy

/-- Discards a formulation.  A detached copy is gone even if that is
rejected. -/
def discard (origin : Origin) : Run Unit := do
  let f ← formulation origin
  forget origin
  onEngine f.release

end Workbench

end JointModel
