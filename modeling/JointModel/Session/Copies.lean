import JointModel.Formulation.Copy

/-!
# The working copies of a session

The session stacks the formulations of its working copies.  It forks a new one
from the innermost copy, or from the formulation that the caller hands over if
there is no copy yet, and it discards the innermost one.  What it does for
itself here is out of reach of the faults armed in the engine.
-/

namespace JointModel.Session

/-- Rejects the call unless the hooks are installed. -/
def requireHooks : Run Unit := fun s =>
  if s.hooked then .ok () s else .error .noHooks s

/-- Puts a new working copy on the stack.  The answer is the number of
copies. -/
def pushCopy (copy : Formulation) : Run Nat := fun s =>
  .ok (s.copies.length + 1)
    { s with copies := copy :: s.copies, ledger.forks := s.ledger.forks + 1 }

/-- Forks a working copy.  The answer is the number of copies. -/
def forkCopy (source : Formulation) : Run Nat := do
  let _ ← requireProblem
  requireHooks
  let s ← get
  let copy ← Engine.onSession (s.innermost?.getD source).fork
  pushCopy copy

/-- Discards the innermost working copy.  The answer says whether there was
one.  The copy is gone even if one of its handles cannot be released. -/
def discardCopy : Run Bool := fun s =>
  match s.hooked, s.copies with
  | true, copy :: rest =>
    match Engine.onSession copy.release { s with copies := rest } with
    | .ok () s => .ok true { s with ledger.discards := s.ledger.discards + 1 }
    | .error cause s => .error cause s
  | _, _ => .ok false s

/-- Discards working copies, the innermost first, until `count` of them are
gone or none is left. -/
def discardCopies : Nat → Run Unit
  | 0 => pure ()
  | count + 1 => do
    let more ← discardCopy
    if more then discardCopies count else pure ()

/-- Takes back the uses that a problem captured. -/
def dropMembers (problem : Problem) : Run Unit := do
  problem.conss.toList.forM dropConsUse
  problem.vars.toList.forM dropVarUse

/-- Removes the problem, if there is one.  It is gone even if one of its
members cannot be given back. -/
def dropProblem : Run Unit := fun s =>
  match s.problem with
  | none => .ok () s
  | some problem => dropMembers problem { s with problem := none }

/-- Tears the session down: discards all working copies and takes back the uses
that the problem captured.  The session is then ready for another problem. -/
def close : Run Unit := do
  let s ← get
  discardCopies s.copies.length
  dropProblem
  modify fun s => { s with handlers := [], hooked := false }

end JointModel.Session
