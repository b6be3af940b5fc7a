import JointModel.Handle
import JointModel.Literal

/-!
# Slots

A slot is a variable of the model with its handles in both engines.  A boolean
slot either owns its IP handle or is the negation of an earlier slot, and then
its handle is an alias that belongs to the other one.  An integer slot has a CP
variable and, unless it is virtual, an IP variable.
-/

namespace JointModel

/-- Whether a boolean slot owns its handle. -/
inductive Polarity
  /-- Owns its handle; knows the slot of its negation once there is one. -/
  | positive (negation : Option BoolId)
  /-- Is the negation of the slot `positive`, which has a lower index. -/
  | negated (positive : BoolId)
deriving DecidableEq, Repr

/-- A boolean variable of the model. -/
structure BoolSlot where
  handle : VarId
  literal : Literal
  polarity : Polarity
  name : String
deriving DecidableEq, Repr

/-- The slot that this one negates. -/
def BoolSlot.negates? (slot : BoolSlot) : Option BoolId :=
  match slot.polarity with
  | .positive _ => none
  | .negated positive => some positive

/-- The slot owns its handle. -/
def BoolSlot.isPositive (slot : BoolSlot) : Bool := slot.negates?.isNone

/-- An integer variable of the model. -/
structure IntSlot where
  /-- The IP variable; a virtual slot has none. -/
  handle : Option VarId
  domain : DomainId
  lb : Int
  ub : Int
  name : String
  /-- Where the registry keeps the indicators of this variable, once one was
  asked for. -/
  table : Option Nat
deriving DecidableEq, Repr

/-- The variable lives in the CP store only. -/
def IntSlot.isVirtual (slot : IntSlot) : Bool := slot.handle.isNone

/-- The variable has only one value. -/
def IntSlot.isFixed (slot : IntSlot) : Bool := slot.lb == slot.ub

end JointModel
