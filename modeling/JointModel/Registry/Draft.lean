import JointModel.Registry.Basic
import JointModel.Solvers

/-!
# Adding slots

A draft is a registry together with the solvers in which its slots live.  Each
call first asks the solvers for handles and only then appends a slot, so a
rejected call leaves the registry as it was (the constants excepted, which are
several slots).  The solvers keep what was done in them before the rejection:
a literal or a domain of the CP store stays made.
-/

namespace JointModel

/-- A registry and the solvers in which its slots live. -/
structure Draft where
  registry : Registry := {}
  solvers : Solvers := {}
deriving Repr

namespace Draft

/-- A call that may change the registry and the solvers or be rejected. -/
abbrev Run (α : Type) := EStateM ModelError Draft α

/-- Performs a call on the solvers. -/
def onSolvers {α : Type} (act : EStateM EngineError Solvers α) : Run α :=
  Effect.onPart solvers (fun d solvers => { d with solvers }) .engine act

/-- Performs a call on the engine. -/
def onEngine {α : Type} (act : Engine.Run α) : Run α := onSolvers (Solvers.onEngine act)

/-- Performs a call on the CP store. -/
def onDomains {α : Type} (act : Domains.Run α) : Run α := onSolvers (Solvers.onDomains act)

/-- A boolean slot, which has to be there. -/
def getBool (v : BoolId) : Run BoolSlot := fun d =>
  match d.registry.bool? v with
  | some slot => .ok slot d
  | none => .error (.unknownBool v) d

/-- An integer slot, which has to be there. -/
def getInt (v : IntId) : Run IntSlot := fun d =>
  match d.registry.int? v with
  | some slot => .ok slot d
  | none => .error (.unknownInt v) d

/-- Rejects the call unless the bounds leave a value. -/
def requireBounds (lb ub : Int) : Run Unit := fun d =>
  if lb > ub then .error (.invalidDomain lb ub) d else .ok () d

/-- Appends a boolean slot. -/
def appendBool (slot : BoolSlot) : Run BoolId :=
  fun d => .ok ⟨d.registry.bools.size⟩ { d with registry.bools := d.registry.bools.push slot }

/-- Appends an integer slot. -/
def appendInt (slot : IntSlot) : Run IntId :=
  fun d => .ok ⟨d.registry.ints.size⟩ { d with registry.ints := d.registry.ints.push slot }

/-! ## Boolean variables -/

/-- A new positive slot for a literal of the CP store, between 0 and `ub`. -/
def addLiteral (name : String) (ub : Float) (literal : Literal) : Run BoolId := do
  let handle ← onEngine (Engine.newVar name 0.0 ub 0.0 .binary)
  onEngine (Engine.enrolOrRelease handle)
  appendBool { handle, literal, polarity := .positive none, name }

/-- A new boolean variable. -/
def addBool (name : String) : Run BoolId := do
  let literal ← onDomains Domains.newBool
  addLiteral name 1.0 literal

/-- Notes the slot of the negation of `v`. -/
def linkNegation (v negation : BoolId) : Run Unit :=
  modify fun d =>
    { d with
      registry.bools := d.registry.bools.modify v.index fun slot =>
        { slot with polarity := .positive (some negation) } }

/-- The negation of a boolean variable.  Its slot is made on first use; the
negation of a negated slot is its positive partner. -/
def negate (v : BoolId) : Run BoolId := do
  let slot ← getBool v
  match slot.polarity with
  | .negated positive => pure positive
  | .positive (some negation) => pure negation
  | .positive none =>
    let handle ← onEngine (Engine.negateVar slot.handle)
    let negation ← appendBool
      { handle, literal := slot.literal.negate, polarity := .negated v, name := "~" ++ slot.name }
    linkNegation v negation
    pure negation

/-! ## Integer variables -/

/-- A new integer variable between `lb` and `ub` in both solvers. -/
def addInt (lb ub : Int) (name : String) : Run IntId := do
  requireBounds lb ub
  let domain ← onDomains (Domains.newInt lb ub)
  let handle ← onEngine
    (Engine.newVar name (Float.ofInt lb) (Float.ofInt ub) 0.0 .integer)
  onEngine (Engine.enrolOrRelease handle)
  appendInt { handle := some handle, domain, lb, ub, name, table := none }

/-- A new integer variable between `lb` and `ub` in the CP store only. -/
def addVirtualInt (lb ub : Int) (name : String) : Run IntId := do
  requireBounds lb ub
  let domain ← onDomains (Domains.newInt lb ub)
  appendInt { handle := none, domain, lb, ub, name, table := none }

/-! ## Indicators -/

/-- The table of a variable's indicators, a new one if it has none yet. -/
def indicatorTable (v : IntId) (slot : IntSlot) : Run Nat :=
  match slot.table with
  | some table => pure table
  | none => fun d =>
    .ok d.registry.tables.size { d with registry := d.registry.withTable v }

/-- A new boolean slot that stands for `v = value`. -/
def addIndicator (v : IntId) (slot : IntSlot) (value : Int) : Run BoolId := do
  let literal ← onDomains (Domains.equal slot.domain value)
  let indicator ← addLiteral ("[" ++ slot.name ++ " == " ++ toString value ++ "]") 1.0 literal
  let table ← indicatorTable v slot
  modify fun d =>
    { d with registry.tables := d.registry.tables.modify table (Indicators.insert value indicator) }
  pure indicator

/-- The boolean slot that stands for `v = value`.  A value out of bounds gives
the constant false, the only value of a fixed variable the constant true.  Any
other slot is made on first use. -/
def indicator (v : IntId) (value : Int) : Run BoolId := do
  let slot ← getInt v
  if value < slot.lb ∨ value > slot.ub then pure .falsity
  else if slot.isFixed then pure .truth
  else do
    let d ← get
    match d.registry.indicator? v value with
    | some known => pure known
    | none => addIndicator v slot value

/-! ## The constants -/

/-- Adds the constants `false`, `true` and `0`.  They take the first slots of
an empty registry. -/
def addConstants : Run Unit := do
  let falsity ← addLiteral "false" 0.0 Domains.falseLiteral
  let _ ← negate falsity
  let _ ← addInt 0 0 "zero"

/-- The calls that add slots. -/
inductive Call
  | bool (name : String)
  | negate (v : BoolId)
  | int (lb ub : Int) (name : String)
  | virtualInt (lb ub : Int) (name : String)
  | indicator (v : IntId) (value : Int)
deriving Repr

/-- Performs a call.  The answer is the index of the slot. -/
def perform : Call → Run Nat
  | .bool name => BoolId.index <$> addBool name
  | .negate v => BoolId.index <$> negate v
  | .int lb ub name => IntId.index <$> addInt lb ub name
  | .virtualInt lb ub name => IntId.index <$> addVirtualInt lb ub name
  | .indicator v value => BoolId.index <$> indicator v value

end Draft

end JointModel
