import JointModel.Handle

/-!
# Errors

`EngineError` lists the causes for which one of the two engines, the IP
session or the CP store, rejects a call, and `ModelError` those for which the
model layer does.  The wording of each cause is in one place, its `message`.
-/

namespace JointModel

/-- Why the IP session or the CP store rejects a call. -/
inductive EngineError
  | allocation (detail : String)
  | noProblem
  | problemExists
  | invalidVar (var : VarId)
  | invalidCons (cons : ConsId)
  | aliasRelease (var : VarId)
  | invalidDomain (domain : DomainId)
  | emptyDomain (lb ub : Int)
  | unknownHandler (name : String)
  | duplicateHandler (name : String)
  | noHooks
  | invalidSetting (detail : String)
  | unwritable (detail : String)
deriving DecidableEq, Repr

/-- The wording of an engine error. -/
def EngineError.message : EngineError → String
  | .allocation detail => "allocation failed: " ++ detail
  | .noProblem => "no problem has been created"
  | .problemExists => "a problem has already been created"
  | .invalidVar v => "invalid variable handle " ++ toString v.index
  | .invalidCons c => "invalid constraint handle " ++ toString c.index
  | .aliasRelease v =>
    "variable " ++ toString v.index ++ " is a negation alias and cannot be released"
  | .invalidDomain d => "invalid domain variable " ++ toString d.index
  | .emptyDomain lb ub => "empty domain [" ++ toString lb ++ ", " ++ toString ub ++ "]"
  | .unknownHandler name => "constraint handler '" ++ name ++ "' is not included"
  | .duplicateHandler name => "constraint handler '" ++ name ++ "' is already included"
  | .noHooks => "transform hooks are not installed"
  | .invalidSetting detail => "invalid setting: " ++ detail
  | .unwritable detail => "failed to write problem: " ++ detail

/-- Why the model layer rejects a call. -/
inductive ModelError
  | engine (cause : EngineError)
  | config (detail : String)
  | invalidDomain (lb ub : Int)
  | unknownMethod (text : String)
  | unknownBool (var : BoolId)
  | unknownInt (var : IntId)
deriving DecidableEq, Repr

/-- The wording of a model error. -/
def ModelError.message : ModelError → String
  | .engine cause => "backend error: " ++ cause.message
  | .config detail => "invalid config: " ++ detail
  | .invalidDomain lb ub => "invalid domain [" ++ toString lb ++ ", " ++ toString ub ++ "]"
  | .unknownMethod text => "unknown solving method '" ++ text ++ "'"
  | .unknownBool v => "boolean variable " ++ toString v.index ++ " does not exist"
  | .unknownInt v => "integer variable " ++ toString v.index ++ " does not exist"

end JointModel
