import JointModel.Session.Basic

/-!
# Calls on variables, constraints and the problem

These are the calls of a session that do not touch its working copies.  The
order of the checks in a call is part of its meaning, as is what a call has
done already when a later check rejects it: adding an entry to a problem counts
the use first, and releasing one is entered in the ledger first.
-/

namespace JointModel.Session

/-! ## Parts of calls -/

/-- The problem, which has to be there. -/
def requireProblem : Run Problem := fun s =>
  match s.problem with
  | some problem => .ok problem s
  | none => .error .noProblem s

/-- Changes the problem, which has to be there. -/
def modifyProblem (change : Problem → Problem) : Run Unit := fun s =>
  match s.problem with
  | some problem => .ok () { s with problem := some (change problem) }
  | none => .error .noProblem s

/-- The entry of a variable, which has to be live. -/
def getVar (v : VarId) : Run VarInfo := fun s =>
  match s.var? v with
  | some entry => .ok entry s
  | none => .error (.invalidVar v) s

/-- The entry of a constraint, which has to be live. -/
def getCons (c : ConsId) : Run ConsInfo := fun s =>
  match s.cons? c with
  | some entry => .ok entry s
  | none => .error (.invalidCons c) s

/-- Changes the entry of a variable. -/
def modifyVar (v : VarId) (change : VarInfo → VarInfo) : Run Unit :=
  modify fun s => { s with vars := s.vars.modify v.index change }

/-- Changes the entry of a constraint. -/
def modifyCons (c : ConsId) (change : ConsInfo → ConsInfo) : Run Unit :=
  modify fun s => { s with conss := s.conss.modify c.index change }

/-- Takes a block for something of the given name. -/
def allocate (name : String) : Run Unit := fun s =>
  match s.exhausted? with
  | some limit =>
    .error (.allocation (name ++ ": limit of " ++ toString limit ++ " blocks reached")) s
  | none => .ok () { s with allocations := s.allocations + 1 }

/-- Stores the entry of a variable. -/
def storeVar (entry : VarInfo) : Run VarId := fun s =>
  let (i, vars) := s.vars.insert entry
  .ok ⟨i⟩ { s with vars }

/-- Stores the entry of a constraint. -/
def storeCons (entry : ConsInfo) : Run ConsId := fun s =>
  let (i, conss) := s.conss.insert entry
  .ok ⟨i⟩ { s with conss }

/-- Takes a block for the entry of a variable and stores it. -/
def allocateVar (entry : VarInfo) : Run VarId := do
  allocate entry.name
  storeVar entry

/-- Takes a block for the entry of a constraint and stores it. -/
def allocateCons (entry : ConsInfo) : Run ConsId := do
  allocate entry.name
  storeCons entry

/-- Takes back one use of a variable.  The last one frees its entry and then
its alias.  An alias has no uses to take back. -/
def dropVarUse (v : VarId) : Run Unit := do
  let entry ← getVar v
  match entry.link with
  | .negation _ => throw (.aliasRelease v)
  | .positive negation =>
    if entry.uses ≤ 1 then
      modify (·.freeVar v negation)
    else
      modifyVar v fun entry => { entry with uses := entry.uses - 1 }

/-- Takes back one use of a constraint.  The last one frees its entry. -/
def dropConsUse (c : ConsId) : Run Unit := do
  let entry ← getCons c
  if entry.uses ≤ 1 then
    modify (·.freeCons c)
  else
    modifyCons c fun entry => { entry with uses := entry.uses - 1 }

/-! ## Settings and the problem -/

/-- Changes a setting.  The search needs at least one thread. -/
def changeSetting (setting : Setting) : Run Unit := fun s =>
  if setting = .maxThreads 0 then .error (.invalidSetting "max threads must be positive") s
  else .ok () { s with settings := s.settings.set setting }

/-- Creates the problem of the session, which has only one. -/
def newProblem (name : String) : Run Unit := fun s =>
  match s.problem with
  | some _ => .error .problemExists s
  | none => .ok () { s with problem := some { name } }

/-- Sets the direction of optimization. -/
def setSense (sense : Sense) : Run Unit :=
  modifyProblem fun problem => { problem with sense }

/-- Declares that every feasible objective value is integral. -/
def setIntegral : Run Unit :=
  modifyProblem fun problem => { problem with integral := true }

/-! ## Variables -/

/-- Creates a variable, with one use for the caller. -/
def newVar (name : String) (lb ub obj : Float) (kind : VarKind) : Run VarId := do
  let _ ← requireProblem
  allocateVar
    { name, lb, ub, obj, kind, space := .primary, uses := 1, link := .positive none }

/-- Makes a variable a member of the problem, which captures one use of it. -/
def enrolVar (v : VarId) : Run Unit := do
  let entry ← getVar v
  match entry.link with
  | .negation _ => throw (.invalidVar v)
  | .positive _ =>
    modifyVar v fun entry => { entry with uses := entry.uses + 1 }
    modifyProblem fun problem => { problem with vars := problem.vars.push v }

/-- The negation of a variable.  The alias is made on first use; the negation
of an alias is its positive partner. -/
def negateVar (v : VarId) : Run VarId := do
  let entry ← getVar v
  match entry.link with
  | .negation positive => pure positive
  | .positive (some negation) => pure negation
  | .positive none =>
    let negation ← allocateVar (entry.negated v)
    modifyVar v fun entry => { entry with link := .positive (some negation) }
    pure negation

/-- Copies the entry of a variable into a new working copy, with one use for the
caller and no alias. -/
def copyEntry (entry : VarInfo) : Run VarId :=
  allocateVar { entry with space := .copy, uses := 1, link := .positive none }

/-- The variable of a new working copy that corresponds to `v`.  For an alias
it is the alias of the positive partner's new variable. -/
def copyVar (v : VarId) : Run VarId := do
  let entry ← getVar v
  match entry.link with
  | .positive _ => copyEntry entry
  | .negation positive =>
    let partner ← getVar positive
    let target ← copyEntry partner
    negateVar target

/-- Takes back one use of a variable for the caller. -/
def releaseVar (v : VarId) : Run Unit := do
  modify fun s => { s with ledger.varReleases := s.ledger.varReleases + 1 }
  dropVarUse v

/-! ## Constraints -/

/-- Includes a constraint handler. -/
def addHandler (name : String) : Run Unit := fun s =>
  if s.hasHandler name then .error (.duplicateHandler name) s
  else .ok () { s with handlers := s.handlers ++ [name] }

/-- Rejects the call unless a handler is included. -/
def requireHandler (name : String) : Run Unit := fun s =>
  if s.hasHandler name then .ok () s else .error (.unknownHandler name) s

/-- Creates a constraint of an included handler, with one use for the caller. -/
def newCons (handler name : String) : Run ConsId := do
  requireHandler handler
  let _ ← requireProblem
  allocateCons { name, handler, uses := 1 }

/-- Makes a constraint a member of the problem, which captures one use of it. -/
def enrolCons (c : ConsId) : Run Unit := do
  let _ ← getCons c
  modifyCons c fun entry => { entry with uses := entry.uses + 1 }
  modifyProblem fun problem => { problem with conss := problem.conss.push c }

/-- The constraint of a new working copy that corresponds to `c`, with one use
for the caller. -/
def copyCons (c : ConsId) : Run ConsId := do
  let entry ← getCons c
  allocateCons { entry with uses := 1 }

/-- Takes back one use of a constraint for the caller. -/
def releaseCons (c : ConsId) : Run Unit := do
  modify fun s => { s with ledger.consReleases := s.ledger.consReleases + 1 }
  dropConsUse c

/-- Lets the session fork and discard the formulations of working copies. -/
def installHooks : Run Unit :=
  modify fun s => { s with hooked := true }

end JointModel.Session
