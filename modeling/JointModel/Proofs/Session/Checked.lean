import JointModel.Proofs.Checked
import JointModel.Session.Interface

/-!
# The calls of a session with their checks

A session relies on its representation when it looks a number up that it found in an
entry or on a stack, when it takes a use away, when it follows an alias to its partner and
when it discards copies until none is left.  Here are its calls with these assumptions
checked; calls that rely on nothing stay as they are (`call`).

A fork looks the handles of partners up in the copy that is being put together, so they
have to be there already.
-/

namespace JointModel

namespace Session.Checked

open JointModel.Checked

/-! ## Variables and constraints -/

/-- Stores the entry of a variable. -/
def storeVar (entry : VarInfo) : Checked Session VarId :=
  change fun s => do
    let (i, vars) ← s.vars.insertChecked entry
    pure (⟨i⟩, { s with vars })

/-- Stores the entry of a constraint. -/
def storeCons (entry : ConsInfo) : Checked Session ConsId :=
  change fun s => do
    let (i, conss) ← s.conss.insertChecked entry
    pure (⟨i⟩, { s with conss })

/-- Takes a block for the entry of a variable and stores it. -/
def allocateVar (entry : VarInfo) : Checked Session VarId := do
  plain (allocate entry.name)
  storeVar entry

/-- Takes a block for the entry of a constraint and stores it. -/
def allocateCons (entry : ConsInfo) : Checked Session ConsId := do
  plain (allocate entry.name)
  storeCons entry

/-- Frees the entry of a variable and then that of its alias. -/
def freeVar (v : VarId) (negation : Option VarId) : Checked Session Unit :=
  change fun s => do
    let vars ← s.vars.removeChecked v.index
    let vars ← match negation with
      | none => pure vars
      | some partner => vars.removeChecked partner.index
    pure ((), { s with vars })

/-- Frees the entry of a constraint. -/
def freeCons (c : ConsId) : Checked Session Unit :=
  change fun s => do
    let conss ← s.conss.removeChecked c.index
    pure ((), { s with conss })

/-- Takes back one use of a variable, which has to have one. -/
def dropVarUse (v : VarId) : Checked Session Unit := do
  let entry ← plain (getVar v)
  match entry.link with
  | .negation _ => throw (.aliasRelease v)
  | .positive negation =>
    if entry.uses = 0 then breach .underflow
    else if entry.uses = 1 then freeVar v negation
    else plain (modifyVar v fun entry => { entry with uses := entry.uses - 1 })

/-- Takes back one use of a constraint, which has to have one. -/
def dropConsUse (c : ConsId) : Checked Session Unit := do
  let entry ← plain (getCons c)
  if entry.uses = 0 then breach .underflow
  else if entry.uses = 1 then freeCons c
  else plain (modifyCons c fun entry => { entry with uses := entry.uses - 1 })

/-- Creates a variable. -/
def newVar (name : String) (lb ub obj : Float) (kind : VarKind) : Checked Session VarId := do
  let _ ← plain requireProblem
  allocateVar { name, lb, ub, obj, kind, space := .primary, uses := 1, link := .positive none }

/-- The negation of a variable. -/
def negateVar (v : VarId) : Checked Session VarId := do
  let entry ← plain (getVar v)
  match entry.link with
  | .negation positive => pure positive
  | .positive (some negation) => pure negation
  | .positive none =>
    let negation ← allocateVar (entry.negated v)
    plain (modifyVar v fun entry => { entry with link := .positive (some negation) })
    pure negation

/-- The variable of a new working copy that corresponds to `v`.  An alias leads to its
partner, and from there at most `steps - 1` times to another one. -/
def copyVarWithin : Nat → VarId → Checked Session VarId
  | 0, _ => breach .endless
  | steps + 1, v => do
    let entry ← plain (getVar v)
    match entry.link with
    | .positive _ => allocateVar { entry with space := .copy, uses := 1, link := .positive none }
    | .negation positive =>
      let target ← copyVarWithin steps positive
      negateVar target

/-- The variable of a new working copy that corresponds to `v`.  It is found there or one
step further. -/
def copyVar (v : VarId) : Checked Session VarId := copyVarWithin 2 v

/-- Takes back one use of a variable for the caller. -/
def releaseVar (v : VarId) : Checked Session Unit := do
  modify fun s => { s with ledger.varReleases := s.ledger.varReleases + 1 }
  dropVarUse v

/-- Creates a constraint of an included handler. -/
def newCons (handler name : String) : Checked Session ConsId := do
  plain (requireHandler handler)
  let _ ← plain requireProblem
  allocateCons { name, handler, uses := 1 }

/-- The constraint of a new working copy that corresponds to `c`. -/
def copyCons (c : ConsId) : Checked Session ConsId := do
  let entry ← plain (getCons c)
  allocateCons { entry with uses := 1 }

/-- Takes back one use of a constraint for the caller. -/
def releaseCons (c : ConsId) : Checked Session Unit := do
  modify fun s => { s with ledger.consReleases := s.ledger.consReleases + 1 }
  dropConsUse c

/-! ## Working copies -/

open Formulation (Assembly)

/-- Performs a call on the session of an assembly. -/
def onSession (act : Checked Session α) : Checked Assembly α :=
  onPart (fun a => a.engine.session) (fun a session => { a with engine := { session } }) act

/-- Finds the bridge in the copy. -/
def captureBridge (c : ConsId) : Checked Assembly Unit := do
  let bridge ← onSession (copyCons c)
  modify fun a => { a with formulation.bridge := some bridge }

/-- The handle of a boolean slot in the copy.  The partner of a negated slot has to be
there already. -/
def captureBoolHandle (slot : BoolSlot) : Checked Assembly VarId := do
  match slot.polarity with
  | .positive _ => onSession (copyVar slot.handle)
  | .negated positive =>
    let a ← get
    match a.formulation.registry.bool? positive with
    | none => breach .outOfRange
    | some partner => onSession (negateVar partner.handle)

/-- Finds a boolean slot in the copy. -/
def captureBool (slot : BoolSlot) : Checked Assembly Unit := do
  let handle ← captureBoolHandle slot
  modify fun a =>
    { a with formulation.registry.bools := a.formulation.registry.bools.push { slot with handle } }

/-- The handle of an integer slot in the copy. -/
def captureIntHandle (slot : IntSlot) : Checked Assembly (Option VarId) :=
  match slot.handle with
  | none => pure none
  | some v => some <$> onSession (copyVar v)

/-- Finds an integer slot in the copy. -/
def captureInt (slot : IntSlot) : Checked Assembly Unit := do
  let handle ← captureIntHandle slot
  modify fun a =>
    { a with formulation.registry.ints := a.formulation.registry.ints.push { slot with handle } }

/-- Finds the bridge and all slots of a formulation in the copy. -/
def capture (source : Formulation) : Checked Assembly Unit := do
  source.bridge.toList.forM captureBridge
  source.registry.bools.toList.forM captureBool
  source.registry.ints.toList.forM captureInt

/-- Releases every handle that a formulation owns. -/
def release (f : Formulation) : Checked Session Unit := do
  f.bridge.toList.forM releaseCons
  f.registry.ownedVars.forM releaseVar

/-- Performs a call and forgets whether it was rejected. -/
def attempt (act : Checked Session Unit) : Checked Session Unit := tryCatch act fun _ => pure ()

/-- As `release`, but goes on after a release that is rejected. -/
def abandon (f : Formulation) : Checked Session Unit := do
  f.bridge.toList.forM fun c => attempt (releaseCons c)
  f.registry.ownedVars.forM fun v => attempt (releaseVar v)

/-- The same formulation with every handle found anew in a working copy. -/
def fork (source : Formulation) : Checked Session Formulation :=
  ExceptT.mk fun s => do
    match ← (capture source).exec ⟨{ session := s }, source.blank⟩ with
    | (.ok (), a) => pure (.ok a.formulation, a.engine.session)
    | (.error cause, a) =>
      let (_, t) ← (abandon a.formulation).exec a.engine.session
      pure (.error cause, t)

/-- Forks a working copy. -/
def forkCopy (source : Formulation) : Checked Session Nat := do
  let _ ← plain requireProblem
  plain requireHooks
  let s ← get
  let copy ← fork (s.innermost?.getD source)
  plain (pushCopy copy)

/-- Takes a working copy from the stack, so that `rest` remains, and releases it. -/
def popCopy (copy : Formulation) (rest : List Formulation) : Checked Session Bool := do
  modify fun s => { s with copies := rest }
  release copy
  modify fun s => { s with ledger.discards := s.ledger.discards + 1 }
  pure true

/-- Discards the innermost working copy. -/
def discardCopy : Checked Session Bool := do
  let s ← get
  match s.hooked, s.copies with
  | true, copy :: rest => popCopy copy rest
  | _, _ => pure false

/-- Discards working copies until none is left, which has to be the case after `rounds - 1`
discards. -/
def drain : Nat → Checked Session Unit
  | 0 => breach .endless
  | rounds + 1 => do
    if ← discardCopy then drain rounds

/-- Takes back the uses that a problem captured. -/
def dropMembers (problem : Problem) : Checked Session Unit := do
  problem.conss.toList.forM dropConsUse
  problem.vars.toList.forM dropVarUse

/-- Removes the problem, if there is one. -/
def dropProblem : Checked Session Unit := do
  let s ← get
  match s.problem with
  | none => pure ()
  | some problem =>
    modify fun s => { s with problem := none }
    dropMembers problem

/-- Tears the session down.  One round more than there are copies has to be enough. -/
def close : Checked Session Unit := do
  let s ← get
  drain (s.copies.length + 1)
  dropProblem
  modify fun s => { s with handlers := [], hooked := false }

/-! ## All calls -/

/-- A call without an answer. -/
def done (act : Checked Session Unit) : Checked Session Answer := (fun _ => .done) <$> act

/-- Performs a call of a session.  Calls that neither look into a table by number nor take
a use away have nothing to check. -/
def call : Call → Checked Session Answer
  | .newVar name lb ub obj kind => .var <$> newVar name lb ub obj kind
  | .negateVar v => .var <$> negateVar v
  | .copyVar v => .var <$> copyVar v
  | .releaseVar v => done (releaseVar v)
  | .newCons handler name => .cons <$> newCons handler name
  | .copyCons c => .cons <$> copyCons c
  | .releaseCons c => done (releaseCons c)
  | .forkCopy source => .depth <$> forkCopy source
  | .discardCopy => .flag <$> discardCopy
  | .close => done close
  | c => plain (Session.perform c)

end Session.Checked

end JointModel
