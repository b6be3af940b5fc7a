import JointModel.Decimal.Layout
import JointModel.Error
import JointModel.Model.Method

/-!
# Aborts

A call that breaks a promise of its caller, or finds that the session leaks, is
not rejected with an error: it aborts.
-/

namespace JointModel

/-- Why a call aborts. -/
inductive Abort
  /-- A time limit has to be positive. -/
  | invalidTimeLimit (limit : Float)
  /-- The objective has to be a slot of the model. -/
  | unknownObjective (v : IntId)
  | noStrategy (method : Method)
  /-- The constants have to be the first slots of a registry. -/
  | notEmpty
  | outOfBounds (size index : Nat)
  | teardownFailed (cause : EngineError)
  | leaked (blocks : Nat)
  /-- A limit on blocks has to fit into a word. -/
  | limitOverflow
deriving Repr

/-- The wording of an abort. -/
def Abort.message : Abort → String
  | .invalidTimeLimit limit =>
    "time limit " ++ Decimal.Layout.plain.render limit ++ " is invalid"
  | .unknownObjective v => "cannot minimize: " ++ (ModelError.unknownInt v).message
  | .noStrategy method => "no strategy registered for method " ++ method.name
  | .notEmpty => "assertion failed: self.bools.is_empty() && self.ints.is_empty()"
  | .outOfBounds size index =>
    "index out of bounds: the len is " ++ toString size ++ " but the index is " ++ toString index
  | .teardownFailed cause => "model teardown failed: " ++ cause.message
  | .leaked blocks => "IP session leaked " ++ toString blocks ++ " blocks"
  | .limitOverflow => "attempt to add with overflow"

/-- A call is rejected or it aborts. -/
inductive Failure
  | rejected (cause : ModelError)
  | aborted (cause : Abort)
deriving Repr

end JointModel
