import JointModel.Engine

/-!
# Working copies of a formulation

When the IP session forks the problem for a search node, every handle of the
formulation has to be found anew in the copy.  Positive slots and the bridge
are copied one by one; a negated slot is found as the negation of its partner's
new handle, so that the pairs survive the copy.

A fork is all or nothing.  If one handle cannot be found, everything that was
captured so far is released again, whether or not the releases succeed.
-/

namespace JointModel.Formulation

open Engine

/-- A formulation that is being put together on an engine. -/
structure Assembly where
  engine : Engine
  formulation : Formulation
deriving Repr

namespace Assembly

/-- A step of an assembly.  A rejected step leaves what the earlier ones put
together. -/
abbrev Step (α : Type) := EStateM EngineError Assembly α

/-- Performs a call on the engine. -/
def onEngine {α : Type} (act : Run α) : Step α :=
  Effect.onPart engine (fun s engine => { s with engine }) id act

/-- Includes the bridge handler and adds a bridge constraint to the problem.
The formulation knows the constraint as soon as it is created, so that it is
released even if the problem refuses it. -/
def addBridge : Step Unit := do
  onEngine (addHandler bridgeHandler)
  let bridge ← onEngine (newCons bridgeHandler "cp")
  modify fun s => { s with formulation.bridge := some bridge }
  onEngine (enrolCons bridge)

end Assembly

/-! ## Releasing -/

/-- Releases every handle that the formulation owns, each once: the bridge,
the positive boolean slots and the integer slots that are not virtual.  Stops
at the first release that is rejected. -/
def release (f : Formulation) : Run Unit := do
  f.bridge.toList.forM releaseCons
  f.registry.ownedVars.forM releaseVar

/-- Performs a call and forgets whether it was rejected. -/
def attempt (act : Run Unit) : Run Unit := tryCatch act fun _ => pure ()

/-- As `release`, but goes on after a release that is rejected. -/
def abandon (f : Formulation) : Run Unit := do
  f.bridge.toList.forM fun c => attempt (releaseCons c)
  f.registry.ownedVars.forM fun v => attempt (releaseVar v)

/-! ## Forking -/

namespace Assembly

/-- Finds the bridge in the copy. -/
def captureBridge (c : ConsId) : Step Unit := do
  let bridge ← onEngine (copyCons c)
  modify fun s => { s with formulation.bridge := some bridge }

/-- The handle of a boolean slot in the copy.  The partner of a negated slot
comes before it, and so has its new handle already: in a registry whose slots are
paired it is always found (`Session.Checked.partner_captured`), and the slot itself
is never taken in its place. -/
def captureBoolHandle (slot : BoolSlot) : Step VarId := do
  match slot.polarity with
  | .positive _ => onEngine (copyVar slot.handle)
  | .negated positive =>
    let s ← get
    onEngine (negateVar ((s.formulation.registry.bool? positive).getD slot).handle)

/-- Finds a boolean slot in the copy. -/
def captureBool (slot : BoolSlot) : Step Unit := do
  let handle ← captureBoolHandle slot
  modify fun s =>
    { s with formulation.registry.bools := s.formulation.registry.bools.push { slot with handle } }

/-- The handle of an integer slot in the copy.  A virtual slot has none. -/
def captureIntHandle (slot : IntSlot) : Step (Option VarId) :=
  match slot.handle with
  | none => pure none
  | some v => some <$> onEngine (copyVar v)

/-- Finds an integer slot in the copy. -/
def captureInt (slot : IntSlot) : Step Unit := do
  let handle ← captureIntHandle slot
  modify fun s =>
    { s with formulation.registry.ints := s.formulation.registry.ints.push { slot with handle } }

/-- Finds the bridge and all slots of a formulation in the copy. -/
def capture (source : Formulation) : Step Unit := do
  source.bridge.toList.forM captureBridge
  source.registry.bools.toList.forM captureBool
  source.registry.ints.toList.forM captureInt

end Assembly

/-- What a copy has before any handle is found: the tables of indicators, which
hold slots and no handles, and the objective. -/
def blank (f : Formulation) : Formulation :=
  { registry := { tables := f.registry.tables }, objective := f.objective }

/-- The same formulation with every handle found anew in a working copy. -/
def fork (source : Formulation) : Run Formulation := fun engine =>
  match Assembly.capture source ⟨engine, source.blank⟩ with
  | .ok () s => .ok s.formulation s.engine
  | .error cause s =>
    match s.formulation.abandon s.engine with
    | .ok () engine => .error cause engine
    | .error _ engine => .error cause engine

end JointModel.Formulation
