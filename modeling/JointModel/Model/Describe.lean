import JointModel.Decimal.Layout
import JointModel.Formulation.Basic
import JointModel.Model.Config
import JointModel.Model.Strategy
import JointModel.Model.Timer
import JointModel.Text.Quoted
import JointModel.Text.Record

/-!
# Diagnostic texts

The written form of everything that a model holds, for people who look for a
mistake: each value with the name of its kind and all its parts, in a fixed
order.  Clock readings and run times are left out.
-/

namespace JointModel

open Text

/-- The label of a method. -/
def Method.label : Method → String
  | .branchAndCheck => "BranchAndCheck"
  | .benders => "Lbbd"
  | .mip => "Mip"
  | .cp => "Cp"

/-- The label of a status. -/
def Status.label : Status → String
  | .unknown => "Unknown"
  | .feasible => "Feasible"
  | .optimal => "Optimal"
  | .infeasible => "Infeasible"
  | .timeLimitReached => "TimeLimitReached"

namespace Describe

/-- A number under a label. -/
def index (label : String) (n : Nat) : String := applied label (toString n)

/-- A boolean slot index. -/
def boolId (v : BoolId) : String := index "BoolVar" v.index

/-- A handle of an IP variable. -/
def varId (v : VarId) : String := index "VarHandle" v.index

/-- A double in a form that cannot be taken for an integer. -/
def double (x : Float) : String := Decimal.Layout.distinct.render x

/-- Whether a boolean slot owns its handle. -/
def polarity : Polarity → String
  | .positive negation => record "Positive" [("negation", optional (negation.map boolId))] false
  | .negated positive => record "Negated" [("positive", boolId positive)] false

/-- A boolean slot. -/
def boolSlot (slot : BoolSlot) : String :=
  record "BoolSlot"
    [("ip", varId slot.handle), ("cp", index "Literal" slot.literal.raw.toNat),
      ("kind", polarity slot.polarity), ("name", quoted slot.name)] false

/-- An integer slot. -/
def intSlot (slot : IntSlot) : String :=
  record "IntSlot"
    [("ip", optional (slot.handle.map varId)), ("cp", index "DomainVar" slot.domain.index),
      ("lb", toString slot.lb), ("ub", toString slot.ub), ("name", quoted slot.name),
      ("indicators", optional (slot.table.map toString))] false

/-- The indicators of one variable. -/
def indicators (entries : Indicators) : String :=
  table (entries.map fun entry => (toString entry.1, boolId entry.2))

/-- A registry. -/
def registry (r : Registry) : String :=
  record "VariableRegistry"
    [("bools", list (r.bools.toList.map boolSlot)), ("ints", list (r.ints.toList.map intSlot)),
      ("indicators", list (r.tables.toList.map indicators))] false

/-- A formulation. -/
def formulation (f : Formulation) : String :=
  record "ProblemData"
    [("registry", registry f.registry),
      ("bridge", optional (f.bridge.map fun c => index "ConsHandle" c.index)),
      ("objective", index "IntVar" f.objective.index)] false

/-- A configuration. -/
def config (c : Config) : String :=
  record "ModelConfig"
    [("method", c.method.label), ("problem_name", quoted c.problemName),
      ("lp_path", quoted c.lpPath), ("integral_objective", truth c.integralObjective)] false

/-- The methods with a strategy. -/
def strategies (s : Strategies) : String :=
  record "Strategies" [("registered", list (s.registered.map Method.label))] false

/-- A solution. -/
def solution (s : Solution) : String :=
  record "Solution"
    [("bools", list (s.bools.toList.map truth)), ("ints", list (s.ints.toList.map toString))] false

/-- An outcome. -/
def outcome (o : Outcome) : String :=
  record "Outcome"
    [("status", o.status.label), ("objective", double o.objective), ("bound", double o.bound),
      ("solution", solution o.solution)] false

/-- A timer without its clock reading. -/
def timer (t : Timer) : String :=
  record "Timer"
    [("limit", double t.limit), ("start", optional (t.startedAt.map fun _ => "_"))] false

end Describe

end JointModel
