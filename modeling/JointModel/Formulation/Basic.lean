import JointModel.Registry.Basic

/-!
# Formulations

A formulation is a registry together with the constraint that bridges CP
propagation into the IP search, as one copy of the problem sees them.  A model
owns the primary formulation.  For every working copy of the problem the IP
session keeps a formulation whose handles all belong to that copy.
-/

namespace JointModel

/-- The slots, the bridge and the objective of one copy of the problem. -/
structure Formulation where
  registry : Registry := {}
  /-- The bridge constraint; only branch-and-check has one. -/
  bridge : Option ConsId := none
  /-- The variable that is minimized; the constant 0 until a solve starts. -/
  objective : IntId := .zero
deriving DecidableEq, Repr

/-- The handler of the bridge constraint. -/
def Formulation.bridgeHandler : String := "cp-bridge"

end JointModel
