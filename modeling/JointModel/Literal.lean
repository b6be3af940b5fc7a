/-!
# Literals

A literal is a boolean variable of the CP store with a polarity.  Both are
packed into one word: the variable in the upper bits, and a lowest bit that is
set for the negative literal.  Negation flips that bit, so it is its own
inverse (`negate_negate`) and keeps the variable (`var_negate`).
-/

namespace JointModel

/-- A boolean variable with a polarity, packed into one word. -/
structure Literal where
  raw : UInt32
deriving DecidableEq, Repr

namespace Literal

/-- The literal of a variable with the given polarity.  The word has room for
thirty-one bits of the variable; the topmost bit is lost. -/
def ofVar (var : UInt32) (positive : Bool) : Literal :=
  ⟨(var <<< 1) ||| (if positive then 0 else 1)⟩

/-- The variable of a literal. -/
def var (l : Literal) : UInt32 := l.raw >>> 1

/-- The literal says that its variable is true. -/
def isPositive (l : Literal) : Bool := l.raw &&& 1 == 0

/-- The opposite literal of the same variable. -/
def negate (l : Literal) : Literal := ⟨l.raw ^^^ 1⟩

/-- Literals are ordered by variable, and the positive one comes first. -/
def before (l m : Literal) : Bool := l.raw < m.raw

/-- The written form of a literal: `p3`, or `~p3` for its negation. -/
def text (l : Literal) : String :=
  (if l.isPositive then "p" else "~p") ++ toString l.var.toNat

example : (ofVar 3 true).text = "p3" := by decide
example : (ofVar 3 false).text = "~p3" := by decide

@[simp] theorem negate_negate (l : Literal) : l.negate.negate = l := by
  simp only [negate, UInt32.xor_assoc, UInt32.xor_self, UInt32.xor_zero]

@[simp] theorem var_negate (l : Literal) : l.negate.var = l.var := by
  have lowest : (1 : UInt32) >>> 1 = 0 := by decide
  simp [negate, var, UInt32.shiftRight_xor, lowest]

end Literal

end JointModel
