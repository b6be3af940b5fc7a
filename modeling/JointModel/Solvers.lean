import JointModel.Domains
import JointModel.Engine

/-!
# The two solvers

A model lives in an IP engine and a CP store at once.
-/

namespace JointModel

/-- An IP engine and a CP store. -/
structure Solvers where
  engine : Engine := {}
  domains : Domains := {}
deriving Repr

namespace Solvers

/-- The IP session of the solvers. -/
def session (s : Solvers) : Session := s.engine.session

/-- Performs a call on the engine. -/
def onEngine {α : Type} (act : Engine.Run α) : EStateM EngineError Solvers α :=
  Effect.onPart engine (fun s engine => { s with engine }) id act

/-- Performs a call on the CP store. -/
def onDomains {α : Type} (act : Domains.Run α) : EStateM EngineError Solvers α :=
  Effect.onPart domains (fun s domains => { s with domains }) id act

end Solvers

end JointModel
