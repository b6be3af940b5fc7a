import JointModel.Error
import JointModel.Literal

/-!
# The CP store

The store keeps the bounds of integer variables and hands out literals.
Boolean variable 0 belongs to the constants: its positive literal is true, its
negative literal false.  A literal that says `variable = value` is made once
for each pair and handed out again afterwards.

Handles of the store are plain values: nothing is counted and nothing has to
be released.

Boolean and integer variables are counted by words of 32 bits, so there are taken
to be fewer than 2^32 of either.  A literal has room for thirty-one bits of its
variable only (`Literal.ofVar`), so beyond 2^31 boolean variables literals of
different variables are the same.
-/

namespace JointModel

/-- Bounds of integer variables, and the literals handed out. -/
structure Domains where
  /-- The number of boolean variables, the one of the constants included; taken
  to stay below 2^32. -/
  bools : Nat := 1
  bounds : Array (Int × Int) := #[]
  /-- The literals made for `variable = value`, in the order of their making. -/
  equalities : List ((DomainId × Int) × Literal) := []
deriving Repr

namespace Domains

/-- A call that may change the store or be rejected. -/
abbrev Run (α : Type) := EStateM EngineError Domains α

/-- The literal that is always false. -/
def falseLiteral : Literal := .ofVar 0 false

/-- The literal that is always true. -/
def trueLiteral : Literal := .ofVar 0 true

/-- The bounds of an integer variable. -/
def bounds? (s : Domains) (d : DomainId) : Option (Int × Int) := s.bounds[d.index]?

/-- The number of integer variables. -/
def ints (s : Domains) : Nat := s.bounds.size

/-- The pair for which a literal, or its negation, was made. -/
def equality? (s : Domains) (l : Literal) : Option (DomainId × Int) :=
  (s.equalities.find? fun entry => entry.2.var == l.var).map (·.1)

/-- The positive literal of the next boolean variable. -/
def freshLiteral (s : Domains) : Literal := .ofVar (UInt32.ofNat s.bools) true

/-- The positive literal of a new boolean variable. -/
def newBool : Run Literal := fun s =>
  .ok s.freshLiteral { s with bools := s.bools + 1 }

/-- A new integer variable between `lb` and `ub`. -/
def newInt (lb ub : Int) : Run DomainId := fun s =>
  if lb > ub then .error (.emptyDomain lb ub) s
  else .ok ⟨s.bounds.size⟩ { s with bounds := s.bounds.push (lb, ub) }

/-- The literal that says `d = value`.  A value out of bounds gives the false
literal, the only value of a fixed variable the true one. -/
def equal (d : DomainId) (value : Int) : Run Literal := fun s =>
  match s.bounds? d with
  | none => .error (.invalidDomain d) s
  | some (lb, ub) =>
    if value < lb ∨ value > ub then .ok falseLiteral s
    else if lb = ub then .ok trueLiteral s
    else
      match s.equalities.lookup (d, value) with
      | some l => .ok l s
      | none =>
        .ok s.freshLiteral
          { s with
            bools := s.bools + 1
            equalities := s.equalities ++ [((d, value), s.freshLiteral)] }

/-- The calls of the store. -/
inductive Call
  | constants
  | newBool
  | newInt (lb ub : Int)
  | equal (d : DomainId) (value : Int)
  | bounds (d : DomainId)
  | counts
deriving Repr

/-- What the calls of the store answer. -/
inductive Answer
  | constants (no yes : Literal)
  | literal (l : Literal)
  | domain (d : DomainId)
  | bounds (bounds : Option (Int × Int))
  | counts (bools ints : Nat)
deriving Repr

/-- Performs a call. -/
def perform : Call → Run Answer
  | .constants => pure (.constants falseLiteral trueLiteral)
  | .newBool => .literal <$> newBool
  | .newInt lb ub => .domain <$> newInt lb ub
  | .equal d value => .literal <$> equal d value
  | .bounds d => fun s => .ok (.bounds (s.bounds? d)) s
  | .counts => fun s => .ok (.counts s.bools s.ints) s

end Domains

end JointModel
