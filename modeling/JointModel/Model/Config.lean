import JointModel.Model.Method

/-!
# Configuration of a model
-/

namespace JointModel

/-- What is fixed when a model is created. -/
structure Config where
  method : Method := .branchAndCheck
  /-- The name of the IP problem. -/
  problemName : String := "hybrid"
  /-- The file that the problem is written to. -/
  lpPath : String := "model.lp"
  /-- The objective takes integral values only. -/
  integralObjective : Bool := true
deriving DecidableEq, Repr

namespace Config

/-- What can be wrong with a configuration. -/
inductive Defect
  | emptyProblemName
  | emptyLpPath
deriving DecidableEq, Repr

/-- The wording of a defect. -/
def Defect.message : Defect → String
  | .emptyProblemName => "problem_name must not be empty"
  | .emptyLpPath => "lp_path must not be empty"

/-- The first defect of a configuration.  A name of blanks counts as empty, a
path of blanks does not. -/
def defect? (c : Config) : Option Defect :=
  if Text.strip c.problemName == "" then some .emptyProblemName
  else if c.lpPath == "" then some .emptyLpPath
  else none

end Config

end JointModel
