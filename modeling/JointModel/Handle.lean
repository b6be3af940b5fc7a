/-!
# Handles and indices

The IP session hands out handles for variables and constraints, the CP store
handles for integer domains.  A model numbers its own boolean and integer
variables by slots.  All five are plain numbers that must not be mixed up, so
each has a type of its own and a letter in front of its written form.

The handles of the session and of the store stand for words of 32 bits.  They
are taken to stay below 2^32, as a handle is the place of its entry in a table.
-/

namespace JointModel

/-- Handle of a variable of the IP session. -/
structure VarId where
  index : Nat
deriving DecidableEq, Repr

/-- Handle of a constraint of the IP session. -/
structure ConsId where
  index : Nat
deriving DecidableEq, Repr

/-- Handle of an integer variable of the CP store. -/
structure DomainId where
  index : Nat
deriving DecidableEq, Repr

/-- Index of a boolean slot of a registry. -/
structure BoolId where
  index : Nat
deriving DecidableEq, Repr

/-- Index of an integer slot of a registry. -/
structure IntId where
  index : Nat
deriving DecidableEq, Repr

/-- The written form of an IP variable. -/
def VarId.text (v : VarId) : String := "v" ++ toString v.index

/-- The written form of an IP constraint. -/
def ConsId.text (c : ConsId) : String := "c" ++ toString c.index

/-- The written form of a CP integer variable. -/
def DomainId.text (d : DomainId) : String := "x" ++ toString d.index

/-- The written form of a boolean slot. -/
def BoolId.text (b : BoolId) : String := "b" ++ toString b.index

/-- The written form of an integer slot. -/
def IntId.text (i : IntId) : String := "i" ++ toString i.index

/-- The slot of the constant `false`. -/
def BoolId.falsity : BoolId := ⟨0⟩

/-- The slot of the constant `true`, the negation of `falsity`. -/
def BoolId.truth : BoolId := ⟨1⟩

/-- The slot of the constant `0`. -/
def IntId.zero : IntId := ⟨0⟩

end JointModel
