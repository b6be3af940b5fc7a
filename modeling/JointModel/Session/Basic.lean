import JointModel.Effect
import JointModel.Error
import JointModel.Formulation.Basic
import JointModel.HandleTable

/-!
# The IP session

The session tracks what an LP/IP engine tracks about the objects that a model
hands to it: entries with use counts, negation aliases, the members of the
problem, the working copies and the blocks that are still alive.  It never
solves anything.

* An entry of a variable is either positive, and then knows its negation alias
  once there is one, or it is that alias.  An alias has no uses of its own: it
  lives as long as its positive partner.
* Creating or copying an entry captures one use of it for the caller, and the
  problem captures one for each of its members.
* Every new entry takes a block.  A limit on blocks makes allocations fail.

## Words

Handles and use counts stand for words of 32 bits, the limit and the number of
allocations for words of 64 bits.  Here they are natural numbers, so what is said
of a session is said of one whose tables have fewer than 2^32 places and none of
whose entries has 2^32 uses.  A call makes any of these numbers larger by one at
most.  The limit alone is brought to any size by a single call, and so it is kept
within its word (`Session.setLimit`).
-/

namespace JointModel

/-- The kinds of IP variables. -/
inductive VarKind
  | binary
  | integer
  | continuous
deriving DecidableEq, Repr

/-- The directions of optimization. -/
inductive Sense
  | minimize
  | maximize
deriving DecidableEq, Repr

/-- The settings of a session. -/
structure Settings where
  maxThreads : Nat := 8
  lpThreads : Nat := 0
  /-- Presolve may replace a variable by a combination of others. -/
  multiAggregation : Bool := true
  /-- The most presolve restarts; no bound if negative. -/
  maxRestarts : Int := -1
deriving DecidableEq, Repr

/-- A change of one setting. -/
inductive Setting
  | maxThreads (count : Nat)
  | lpThreads (count : Nat)
  | multiAggregation (on : Bool)
  | maxRestarts (count : Int)
deriving DecidableEq, Repr

/-- Changes one setting. -/
def Settings.set (settings : Settings) : Setting → Settings
  | .maxThreads count => { settings with maxThreads := count }
  | .lpThreads count => { settings with lpThreads := count }
  | .multiAggregation on => { settings with multiAggregation := on }
  | .maxRestarts count => { settings with maxRestarts := count }

/-- The copy of the problem that an entry belongs to. -/
inductive Space
  | primary
  | copy
deriving DecidableEq, Repr

/-- How an entry is tied to its negation. -/
inductive Link
  /-- An entry of its own; knows its alias once there is one. -/
  | positive (negation : Option VarId)
  /-- The alias for the negation of another entry. -/
  | negation (positive : VarId)
deriving DecidableEq, Repr

/-- What the session knows about a variable. -/
structure VarInfo where
  name : String
  lb : Float
  ub : Float
  obj : Float
  kind : VarKind
  space : Space
  /-- The captured uses; taken to stay below 2^32. -/
  uses : Nat
  link : Link
deriving Repr

/-- The entry of the negation of `v`: it takes the value `1 - x` where `v`
takes `x`. -/
def VarInfo.negated (entry : VarInfo) (v : VarId) : VarInfo :=
  { entry with
    name := "~" ++ entry.name
    lb := 1.0 - entry.ub
    ub := 1.0 - entry.lb
    obj := -entry.obj
    uses := 0
    link := .negation v }

/-- What the session knows about a constraint. -/
structure ConsInfo where
  name : String
  handler : String
  /-- The captured uses; taken to stay below 2^32. -/
  uses : Nat
deriving DecidableEq, Repr

/-- The problem of a session and its members. -/
structure Problem where
  name : String
  sense : Sense := .minimize
  /-- Every feasible objective value is integral. -/
  integral : Bool := false
  vars : Array VarId := #[]
  conss : Array ConsId := #[]
deriving DecidableEq, Repr

/-- Counts of calls that a session received. -/
structure Ledger where
  varReleases : Nat := 0
  consReleases : Nat := 0
  forks : Nat := 0
  discards : Nat := 0
deriving DecidableEq, Repr

/-- A session of the IP engine. -/
structure Session where
  vars : HandleTable VarInfo := {}
  conss : HandleTable ConsInfo := {}
  settings : Settings := {}
  problem : Option Problem := none
  handlers : List String := []
  /-- The session forks and discards the formulations of working copies. -/
  hooked : Bool := false
  /-- The formulations of the working copies, the innermost one in front. -/
  copies : List Formulation := []
  ledger : Ledger := {}
  /-- The number of blocks after which allocations fail. -/
  limit : Option Nat := none
  /-- The number of blocks allocated so far. -/
  allocations : Nat := 0
deriving Repr

namespace Session

/-- A call that may change the session or be rejected.  A rejected call keeps
the changes that it made before it was rejected. -/
abbrev Run (α : Type) := EStateM EngineError Session α

/-- The entry of a variable, if it is live. -/
def var? (s : Session) (v : VarId) : Option VarInfo := s.vars.get? v.index

/-- The entry of a constraint, if it is live. -/
def cons? (s : Session) (c : ConsId) : Option ConsInfo := s.conss.get? c.index

/-- The variable belongs to a working copy. -/
def inCopy (s : Session) (v : VarId) : Bool :=
  (s.var? v).any (·.space == .copy)

/-- A constraint handler of this name was included. -/
def hasHandler (s : Session) (name : String) : Bool := s.handlers.contains name

/-- The number of variables that the problem holds. -/
def memberVars (s : Session) : Nat := s.problem.elim 0 (·.vars.size)

/-- The number of constraints that the problem holds. -/
def memberConss (s : Session) : Nat := s.problem.elim 0 (·.conss.size)

/-- The number of working copies. -/
def depth (s : Session) : Nat := s.copies.length

/-- The formulation of the innermost working copy. -/
def innermost? (s : Session) : Option Formulation := s.copies.head?

/-- The number of blocks that are alive: entries, working copies and the
problem. -/
def blocks (s : Session) : Nat :=
  s.vars.liveCount + s.conss.liveCount + s.copies.length + s.problem.elim 0 fun _ => 1

/-- The limit on blocks, if it is reached. -/
def exhausted? (s : Session) : Option Nat := s.limit.filter (· ≤ s.allocations)

/-- Frees the entry of a variable and then that of its alias. -/
def freeVar (s : Session) (v : VarId) (negation : Option VarId) : Session :=
  let vars := s.vars.remove v.index
  { s with vars := match negation with
    | none => vars
    | some partner => vars.remove partner.index }

/-- Frees the entry of a constraint. -/
def freeCons (s : Session) (c : ConsId) : Session :=
  { s with conss := s.conss.remove c.index }

/-- A limit that lets `count` more allocations succeed does not fit into a
word. -/
def limitOverflows (s : Session) (count : Option Nat) : Bool :=
  count.any fun n => UInt64.size ≤ s.allocations + n

/-- Lets `count` more allocations succeed, or all of them.  The limit is a word:
if it overflows, it wraps around and ends below the allocations that were made
already. -/
def setLimit (s : Session) (count : Option Nat) : Session :=
  { s with limit := count.map fun n => (s.allocations + n) % UInt64.size }

end Session

end JointModel
