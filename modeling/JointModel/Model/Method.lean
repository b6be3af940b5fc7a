import JointModel.Error
import JointModel.Text.Blank

/-!
# Solving methods

The four methods by which a hybrid model is solved, their names, and the
reading of a name: blanks around it are skipped and the case of its ASCII
letters is ignored.
-/

namespace JointModel

/-- How a model is solved.  Fixed when the model is created. -/
inductive Method
  /-- Branch and bound on the IP side, with CP checks through the bridge. -/
  | branchAndCheck
  /-- Logic-based Benders decomposition. -/
  | benders
  /-- Integer programming alone. -/
  | mip
  /-- Constraint programming alone. -/
  | cp
deriving DecidableEq, Repr

namespace Method

/-- Every method, in the order of its number. -/
def all : List Method := [.branchAndCheck, .benders, .mip, .cp]

/-- The name of a method. -/
def name : Method → String
  | .branchAndCheck => "bc"
  | .benders => "lbbd"
  | .mip => "mip"
  | .cp => "cp"

/-- The IP problem of the method carries the bridge constraint. -/
def needsBridge : Method → Bool
  | .branchAndCheck => true
  | _ => false

/-- Two texts differ at most in the case of ASCII letters. -/
def sameIgnoringCase (s t : String) : Bool :=
  s.toList.map Char.toLower == t.toList.map Char.toLower

/-- Reads the name of a method.  The error carries the text as it was given. -/
def parse (text : String) : Except ModelError Method :=
  match all.find? fun m => sameIgnoringCase m.name (Text.strip text) with
  | some m => .ok m
  | none => .error (.unknownMethod text)

/-- The method of a number. -/
def ofNumber (number : Int) : Except ModelError Method :=
  match if number < 0 then none else all[number.toNat]? with
  | some m => .ok m
  | none => .error (.unknownMethod (toString number))

example : (parse " LBBD\t").toOption = some .benders := by decide +kernel

theorem mem_all (m : Method) : m ∈ all := by cases m <;> decide

end Method

end JointModel
