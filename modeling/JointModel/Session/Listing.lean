import JointModel.Decimal.Layout
import JointModel.Engine

/-!
# The problem as LP text

`Session.list` collects the members of the problem, and `Listing.lines`
writes them in the LP format: the objective, the constraints, the bounds and
the two kinds of discrete variables.  Constraints have no linear form, so each
stands as a comment.

A name in an LP file may only consist of letters, digits and underscores.
Other characters become underscores, and the index of the handle at the end
keeps names apart.
-/

namespace JointModel

/-- A problem with the entries of its members. -/
structure Listing where
  name : String
  sense : Sense
  integral : Bool
  vars : List (VarId × VarInfo)
  conss : List ConsInfo
deriving Repr

namespace Session

/-- A member of the problem with its entry. -/
def listVar (s : Session) (v : VarId) : Except EngineError (VarId × VarInfo) :=
  match s.var? v with
  | some entry => .ok (v, entry)
  | none => .error (.invalidVar v)

/-- The entry of a constraint of the problem. -/
def listCons (s : Session) (c : ConsId) : Except EngineError ConsInfo :=
  match s.cons? c with
  | some entry => .ok entry
  | none => .error (.invalidCons c)

/-- A problem with the entries of its members.  A member that is no longer
alive cannot be listed; the variables are looked at first. -/
def list (s : Session) (problem : Problem) : Except EngineError Listing := do
  let vars ← problem.vars.toList.mapM s.listVar
  let conss ← problem.conss.toList.mapM s.listCons
  pure { name := problem.name, sense := problem.sense, integral := problem.integral, vars, conss }

end Session

namespace Listing

open Decimal

/-- Letters and digits of ASCII and the underscore may stand in a name. -/
def isNameChar (c : Char) : Bool := c.isAlphanum || c == '_'

/-- A name with an underscore for each character that may not stand in it. -/
def cleanName (name : String) : String :=
  String.ofList (name.toList.map fun c => if isNameChar c then c else '_')

/-- The LP name of a variable. -/
def varName (name : String) (v : VarId) : String :=
  cleanName name ++ "_" ++ toString v.index

example : varName "a b" ⟨7⟩ = "a_b_7" := by decide +kernel

/-- The LP name of a member. -/
def memberName (member : VarId × VarInfo) : String := varName member.2.name member.1

/-- The direction of optimization. -/
def senseLine : Sense → String
  | .minimize => "Minimize"
  | .maximize => "Maximize"

/-- The term of a variable in the objective, unless its coefficient is zero. -/
def objectiveTerm? (member : VarId × VarInfo) : Option String :=
  if member.2.obj == 0.0 then none
  else some (Layout.signed.render member.2.obj ++ " " ++ memberName member)

/-- The objective, which is never empty. -/
def objectiveLine (vars : List (VarId × VarInfo)) : String :=
  let terms := vars.filterMap objectiveTerm?
  " obj: " ++ if terms.isEmpty then "0" else " ".intercalate terms

/-- The comment that stands for a constraint. -/
def consLine (cons : ConsInfo) : String :=
  "\\ " ++ cons.name ++ " [" ++ cons.handler ++ "] has no linear form"

/-- The bounds of a variable, one value if both are equal. -/
def boundsLine (member : VarId × VarInfo) : String :=
  let lb := Layout.plain.render member.2.lb
  if member.2.lb == member.2.ub then " " ++ memberName member ++ " = " ++ lb
  else " " ++ lb ++ " <= " ++ memberName member ++ " <= " ++ Layout.plain.render member.2.ub

/-- The names of the members of one kind under a title, if there are any. -/
def kindLines (title : String) (kind : VarKind) (vars : List (VarId × VarInfo)) : List String :=
  let names := (vars.filter (·.2.kind == kind)).map memberName
  if names.isEmpty then [] else [title, " " ++ " ".intercalate names]

/-- The comments before the objective. -/
def headLines (l : Listing) : List String :=
  ("\\ Problem name: " ++ l.name) :: if l.integral then ["\\ Objective is integral"] else []

/-- The lines of the LP text. -/
def lines (l : Listing) : List String :=
  l.headLines ++ [senseLine l.sense, objectiveLine l.vars, "Subject To"] ++
    l.conss.map consLine ++ ["Bounds"] ++ l.vars.map boundsLine ++
    kindLines "Binaries" .binary l.vars ++ kindLines "Generals" .integer l.vars ++ ["End"]

/-- The LP text: every line ends with a line break. -/
def text (l : Listing) : String := String.join (l.lines.map (· ++ "\n"))

end Listing

/-! ## Writing the problem to a file -/

/-- A file system: what comes of creating a file under a path, or the reason why
there is none.  A file that was created can be filled. -/
abbrev Files := String → Except String Unit

/-- The LP text of the problem, as written under the given path. -/
def Session.writeProblem (s : Session) (files : Files) (path : String) :
    Except EngineError String :=
  match s.problem with
  | none => .error .noProblem
  | some problem =>
    match files path with
    | .error reason => .error (.unwritable reason)
    | .ok () => Listing.text <$> s.list problem

namespace Files

/-- A name that leads to the current directory or to the one above it. -/
def isNearby (name : String) : Bool := name == "" || name == "." || name == ".."

/-- The file system around an empty directory.  There is no directory but this one
and those above it; a name has up to 255 bytes and a path up to 4095. -/
def emptyDirectory : Files := fun path =>
  let names := path.splitOn "/"
  let file := names.getLast?.getD ""
  if names.dropLast.all isNearby && !isNearby file && file.utf8ByteSize ≤ 255 &&
      path.utf8ByteSize ≤ 4095 && !path.contains '\x00' then
    .ok ()
  else
    .error "the file cannot be created"

end Files

/-- Writes the problem through the engine, which works in an empty directory
unless told otherwise. -/
def Engine.writeProblem (path : String) (files : Files := .emptyDirectory) : Engine.Run String :=
  call .writeProblem (Effect.read (·.writeProblem files path))

end JointModel
