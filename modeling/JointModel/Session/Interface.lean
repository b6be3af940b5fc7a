import JointModel.Session.Copies

/-!
# The calls of a session

Everything that a user of a session can do to it, as data: a history of a
session is a list of calls.  The same calls can be made through an engine,
where the fault of a call's operation may strike.
-/

namespace JointModel.Session

/-- The calls of a session. -/
inductive Call
  | changeSetting (setting : Setting)
  | newProblem (name : String)
  | setSense (sense : Sense)
  | setIntegral
  | newVar (name : String) (lb ub obj : Float) (kind : VarKind)
  | enrolVar (v : VarId)
  | negateVar (v : VarId)
  | copyVar (v : VarId)
  | releaseVar (v : VarId)
  | addHandler (name : String)
  | newCons (handler name : String)
  | enrolCons (c : ConsId)
  | copyCons (c : ConsId)
  | releaseCons (c : ConsId)
  | installHooks
  | forkCopy (source : Formulation)
  | discardCopy
  | close
deriving Repr

/-- What the calls of a session answer. -/
inductive Answer
  | done
  | var (v : VarId)
  | cons (c : ConsId)
  | depth (copies : Nat)
  | flag (b : Bool)
deriving DecidableEq, Repr

/-- The operation of a call. -/
def Call.operation : Call → Operation
  | .changeSetting _ => .changeSetting
  | .newProblem _ => .newProblem
  | .setSense _ => .setSense
  | .setIntegral => .setIntegral
  | .newVar .. => .newVar
  | .enrolVar _ => .enrolVar
  | .negateVar _ => .negateVar
  | .copyVar _ => .copyVar
  | .releaseVar _ => .releaseVar
  | .addHandler _ => .addHandler
  | .newCons .. => .newCons
  | .enrolCons _ => .enrolCons
  | .copyCons _ => .copyCons
  | .releaseCons _ => .releaseCons
  | .installHooks => .installHooks
  | .forkCopy _ => .forkCopy
  | .discardCopy => .discardCopy
  | .close => .close

/-- Performs a call. -/
def perform : Call → Run Answer
  | .changeSetting setting => done (changeSetting setting)
  | .newProblem name => done (newProblem name)
  | .setSense sense => done (setSense sense)
  | .setIntegral => done setIntegral
  | .newVar name lb ub obj kind => .var <$> newVar name lb ub obj kind
  | .enrolVar v => done (enrolVar v)
  | .negateVar v => .var <$> negateVar v
  | .copyVar v => .var <$> copyVar v
  | .releaseVar v => done (releaseVar v)
  | .addHandler name => done (addHandler name)
  | .newCons handler name => .cons <$> newCons handler name
  | .enrolCons c => done (enrolCons c)
  | .copyCons c => .cons <$> copyCons c
  | .releaseCons c => done (releaseCons c)
  | .installHooks => done installHooks
  | .forkCopy source => .depth <$> forkCopy source
  | .discardCopy => .flag <$> discardCopy
  | .close => done close
where
  /-- A call without an answer. -/
  done (act : Run Unit) : Run Answer := (fun _ => .done) <$> act

end Session

namespace Engine

/-- Performs a call of a session through the engine. -/
def perform (c : Session.Call) : Run Session.Answer :=
  call c.operation (Session.perform c)

/-- Changes a setting. -/
def changeSetting (setting : Setting) : Run Unit :=
  call .changeSetting (Session.changeSetting setting)

/-- Creates the problem of the session. -/
def newProblem (name : String) : Run Unit := call .newProblem (Session.newProblem name)

/-- Sets the direction of optimization. -/
def setSense (sense : Sense) : Run Unit := call .setSense (Session.setSense sense)

/-- Declares that every feasible objective value is integral. -/
def setIntegral : Run Unit := call .setIntegral Session.setIntegral

/-- Lets the session fork and discard the formulations of working copies. -/
def installHooks : Run Unit := call .installHooks Session.installHooks

/-- Forks a working copy. -/
def forkCopy (source : Formulation) : Run Nat :=
  call .forkCopy (Session.forkCopy source)

/-- Discards the innermost working copy. -/
def discardCopy : Run Bool := call .discardCopy Session.discardCopy

/-- Tears the session down. -/
def close : Run Unit := call .close Session.close

end Engine

end JointModel
