import JointModel.Model.Abort

/-!
# The time budget of a solve

A timer compares the time since its start with a limit.  It never stops
anything: a strategy asks what is left and returns when nothing is.  The clock
is not part of the timer.  Every question comes with a reading of a clock that
counts nanoseconds.
-/

namespace JointModel

/-- A limit in seconds and the clock reading at the start. -/
structure Timer where
  limit : Float := 0.0
  startedAt : Option Nat := none
deriving Repr

namespace Timer

/-- Starts counting against a limit, which has to be positive. -/
def start (limit : Float) (now : Nat) : Except Abort Timer :=
  if limit > 0.0 then .ok { limit, startedAt := some now }
  else .error (.invalidTimeLimit limit)

/-- A span of nanoseconds in seconds: whole seconds and the rest are converted
apart from each other. -/
def seconds (nanoseconds : Nat) : Float :=
  Float.ofNat (nanoseconds / 1000000000) + Float.ofNat (nanoseconds % 1000000000) / 1e9

/-- The seconds since the start, none if the timer was never started. -/
def elapsed (t : Timer) (now : Nat) : Float :=
  match t.startedAt with
  | none => 0.0
  | some start => seconds (now - start)

/-- The seconds that are left, negative once the limit is exceeded. -/
def remaining (t : Timer) (now : Nat) : Float := t.limit - t.elapsed now

end Timer

end JointModel
