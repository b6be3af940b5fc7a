import JointModel.Proofs.Decimal.Integers
import JointModel.Proofs.Registry.Additions
import JointModel.Proofs.Registry.Tables
import JointModel.Proofs.Session.Reachable

/-!
# The domain of an integer variable in both solvers

The CP store keeps the bounds of an integer variable as they are.  The session keeps them
as doubles, so it rounds them to 53 binary digits.  The two domains are the same if and only
if neither bound is changed by that (`integer_domain_iff`), which is so for all bounds of up
to 53 digits, and beyond them for every bound that ends in enough zeros.

Otherwise the session admits values that the store does not, or the other way round: the
variable with the single value `2 ^ 53 + 1` has the single value `2 ^ 53` in the session
(`integer_domains_differ`).
-/

namespace JointModel

open Effect Decimal

/-- The integer `n` lies between the bounds that the session keeps, as the numbers that they
stand for. -/
def VarInfo.Admits (entry : VarInfo) (n : ℤ) : Prop :=
  ∃ lb ub : ℚ, value? entry.lb = some lb ∧ value? entry.ub = some ub ∧ lb ≤ n ∧ n ≤ ub

theorem VarInfo.admits_iff {entry : VarInfo} {lb ub : ℤ} (hlb : value? entry.lb = some (lb : ℚ))
    (hub : value? entry.ub = some (ub : ℚ)) (n : ℤ) : entry.Admits n ↔ lb ≤ n ∧ n ≤ ub := by
  constructor
  · rintro ⟨l, u, hl, hu, hln, hnu⟩
    cases hlb.symm.trans hl
    cases hub.symm.trans hu
    exact ⟨by exact_mod_cast hln, by exact_mod_cast hnu⟩
  · rintro ⟨hln, hnu⟩
    exact ⟨lb, ub, hlb, hub, by exact_mod_cast hln, by exact_mod_cast hnu⟩

/-- A domain that is not empty tells its bounds. -/
theorem interval_eq_iff {a b lb ub : ℤ} (hle : lb ≤ ub) :
    (∀ n : ℤ, (a ≤ n ∧ n ≤ b) ↔ lb ≤ n ∧ n ≤ ub) ↔ a = lb ∧ b = ub := by
  constructor
  · intro h
    have hlower := (h lb).mpr ⟨le_rfl, hle⟩
    have hupper := (h ub).mpr ⟨hle, le_rfl⟩
    have hlower' := (h a).mp ⟨le_rfl, hlower.1.trans hlower.2⟩
    have hupper' := (h b).mp ⟨hupper.1.trans hupper.2, le_rfl⟩
    omega
  · rintro ⟨rfl, rfl⟩ n
    rfl

/-! ## A new variable -/

namespace Engine

variable {e : Engine} {name : String} {lb ub obj : Float} {kind : VarKind}

theorem newVar_adds (hs : e.session.Sound) : Ends (newVar name lb ub obj kind) e
    (fun v e' => e.session.problem.isSome ∧
      e.session.Adds v (.new name lb ub obj kind) e'.session) fun _ _ => True := by
  have hadds : Ends (Session.newVar name lb ub obj kind) e.session
      (fun v t => e.session.problem.isSome ∧ e.session.Adds v (.new name lb ub obj kind) t)
      fun _ _ => True := by
    cases hproblem : e.session.problem with
    | none => exact ends_of_rejected (Session.newVar_rejected name lb ub obj kind hproblem) trivial
    | some problem =>
        have hsome : e.session.problem.isSome := Option.isSome_of_eq_some hproblem
        exact (Session.newVar_ends hs.vars hsome name lb ub obj kind).mono
          (fun _ _ ht => ⟨rfl, ht.2⟩) fun _ _ _ => trivial
  exact (call_ends hadds).mono (fun _ _ he => he.1) fun _ _ _ => trivial

/-- If the problem refuses the variable, the call is rejected however its release ends. -/
theorem enrolOrRelease_enrols {s : Session} {v : VarId} (hproblem : s.problem.isSome)
    (hadds : s.Adds v (.new name lb ub obj kind) e.session) : Ends (enrolOrRelease v) e
      (fun _ e' => s.Enrols v (.new name lb ub obj kind) e'.session) fun _ _ => True := by
  obtain ⟨problem, hproblem⟩ := Option.isSome_iff_exists.mp hproblem
  have hproblem' : e.session.problem = some problem :=
    (Session.problem_eq_of_frame hadds.frame_eq).trans hproblem
  have hv : e.session.var? v = some (.new name lb ub obj kind) := by rw [hadds.var?, if_pos rfl]
  have henrol : Ends (Session.enrolVar v) e.session
      (fun _ t => s.Enrols v (.new name lb ub obj kind) t) fun _ _ => False :=
    ends_of_accepted (Session.enrolVar_accepted hv rfl hproblem') (hadds.enrols hproblem)
  unfold enrolOrRelease
  rw [ends_tryCatch]
  refine (call_ends henrol).mono (fun _ _ he => he.1) fun cause e' _ => ?_
  rw [ends_bind]
  exact ends_of_forall (fun _ _ => trivial) fun _ _ => trivial

end Engine

namespace Draft

variable {d d' : Draft} {lb ub : ℤ} {name : String} {x : IntId}

/-- The slot `x` stands for a domain from `lb` to `ub` in the store, and for `entry` in the
session. -/
def HasInt (d : Draft) (x : IntId) (lb ub : ℤ) (entry : VarInfo) : Prop :=
  ∃ slot v, d.registry.int? x = some slot ∧
    d.solvers.domains.bounds? slot.domain = some (lb, ub) ∧ slot.handle = some v ∧
    d.solvers.session.var? v = some entry

/-- What a new integer variable is in the registry and in both solvers. -/
theorem addInt_hasInt (hs : d.solvers.session.Sound) (lb ub : ℤ) (name : String) :
    Ends (addInt lb ub name) d (fun x d' => lb ≤ ub ∧ ∃ entry, d'.HasInt x lb ub entry ∧
      entry.lb = Float.ofInt lb ∧ entry.ub = Float.ofInt ub) fun _ _ => True := by
  unfold addInt
  rw [ends_bind]
  by_cases hempty : lb > ub
  · have hrun : requireBounds lb ub d = .error (.invalidDomain lb ub) d := by
      simp only [requireBounds, if_pos hempty]
    exact ends_of_rejected hrun trivial
  have hrun : requireBounds lb ub d = .ok () d := by simp only [requireBounds, if_neg hempty]
  have hle : lb ≤ ub := Int.not_lt.mp hempty
  refine ends_of_accepted hrun ?_
  rw [ends_bind]
  refine ends_of_accepted (onDomains_newInt hle d) ?_
  simp only [onEngine, onSolvers, Solvers.onEngine, ends_bind, ends_onPart]
  have hs' : (d.withDomain lb ub).solvers.engine.session.Sound := hs
  refine (Engine.newVar_adds hs').mono (fun v e he => ?_) fun _ _ _ => trivial
  refine (Engine.enrolOrRelease_enrols he.1 he.2).mono (fun _ e' he' => ?_) fun _ _ _ => trivial
  let slot : IntSlot :=
    { handle := some v, domain := ⟨d.solvers.domains.bounds.size⟩, lb, ub, name, table := none }
  have hslot : (d.registry.withInt slot).int? ⟨d.registry.ints.size⟩ = some slot := by
    rw [Registry.int?_withInt, if_pos rfl]
  have hdomain : (d.withDomain lb ub).solvers.domains.bounds? slot.domain = some (lb, ub) :=
    Array.getElem?_push_size
  have hentry := he'.var? v
  rw [if_pos rfl] at hentry
  exact ends_of_accepted rfl ⟨hle, _, ⟨slot, v, hslot, hdomain, rfl, hentry⟩, rfl, rfl⟩

/-- The session has the rounded bounds. -/
theorem addInt_values (hs : d.solvers.session.Sound) (hlb : -2 ^ 63 ≤ lb) (hub : ub < 2 ^ 63)
    (hrun : addInt lb ub name d = .ok x d') : lb ≤ ub ∧ ∃ entry, d'.HasInt x lb ub entry ∧
      value? entry.lb = some (roundInt lb : ℚ) ∧ value? entry.ub = some (roundInt ub : ℚ) := by
  obtain ⟨hle, entry, hint, hentryLb, hentryUb⟩ := (addInt_hasInt hs lb ub name).accepted hrun
  refine ⟨hle, entry, hint, ?_, ?_⟩
  · rw [hentryLb]
    exact value?_ofInt (by omega)
  · rw [hentryUb]
    exact value?_ofInt (by omega)

/-- The integer variable that a call makes has the bounds of the call in the store and the
rounded ones in the session.  So the session admits exactly the integers of its domain if and
only if rounding changes neither bound. -/
theorem integer_domain_iff (hsession : d.solvers.session.Reachable) (hlb : -2 ^ 63 ≤ lb)
    (hub : ub < 2 ^ 63) (hrun : addInt lb ub name d = .ok x d') :
    ∃ entry, d'.HasInt x lb ub entry ∧
      value? entry.lb = some (roundInt lb : ℚ) ∧ value? entry.ub = some (roundInt ub : ℚ) ∧
      ((∀ n : ℤ, entry.Admits n ↔ lb ≤ n ∧ n ≤ ub) ↔ roundInt lb = lb ∧ roundInt ub = ub) := by
  obtain ⟨hle, entry, hint, hlower, hupper⟩ := addInt_values hsession.sound hlb hub hrun
  refine ⟨entry, hint, hlower, hupper, ?_⟩
  simp only [VarInfo.admits_iff hlower hupper]
  exact interval_eq_iff hle

/-- A session with a problem, and nothing else. -/
def blankDraft : Draft :=
  ⟨{}, { engine := { session := Session.history [.newProblem "hybrid"] } }⟩

/-- The draft after a variable with the single value `2 ^ 53 + 1` was added. -/
def wideDraft : Draft := after (addInt (2 ^ 53 + 1) (2 ^ 53 + 1) "x") blankDraft

theorem addInt_wide : addInt (2 ^ 53 + 1) (2 ^ 53 + 1) "x" blankDraft = .ok ⟨0⟩ wideDraft := by
  rfl

theorem integer_domain_iff_wide : (blankDraft.solvers.session.Reachable ∧
      addInt (2 ^ 53 + 1) (2 ^ 53 + 1) "x" blankDraft = .ok ⟨0⟩ wideDraft) ∧
    ∃ entry, wideDraft.HasInt ⟨0⟩ (2 ^ 53 + 1) (2 ^ 53 + 1) entry ∧
      ¬ ∀ n : ℤ, entry.Admits n ↔ 2 ^ 53 + 1 ≤ n ∧ n ≤ 2 ^ 53 + 1 := by
  have hsession : blankDraft.solvers.session.Reachable := Session.reachable_history _
  obtain ⟨entry, hint, -, -, hiff⟩ :=
    integer_domain_iff hsession (by norm_num) (by norm_num) addInt_wide
  have hrounded : roundInt (2 ^ 53 + 1) ≠ 2 ^ 53 + 1 := by decide +kernel
  exact ⟨⟨hsession, addInt_wide⟩, entry, hint, fun hall => hrounded (hiff.mp hall).1⟩

/-- The session admits `2 ^ 53` for it and nothing else. -/
theorem integer_domains_differ : ∃ entry,
    wideDraft.HasInt ⟨0⟩ (2 ^ 53 + 1) (2 ^ 53 + 1) entry ∧ ∀ n, entry.Admits n ↔ n = 2 ^ 53 := by
  have hsession : blankDraft.solvers.session.Reachable := Session.reachable_history _
  obtain ⟨-, entry, hint, hlower, hupper⟩ :=
    addInt_values hsession.sound (by norm_num) (by norm_num) addInt_wide
  have hrounded : roundInt (2 ^ 53 + 1) = 2 ^ 53 := by decide +kernel
  rw [hrounded] at hlower hupper
  refine ⟨entry, hint, fun n => ?_⟩
  rw [VarInfo.admits_iff hlower hupper]
  omega

/-- Up to 53 digits, both solvers have the same domain. -/
theorem integer_domain_of_small (hsession : d.solvers.session.Reachable)
    (hlb : lb.natAbs < 2 ^ 53) (hub : ub.natAbs < 2 ^ 53)
    (hrun : addInt lb ub name d = .ok x d') : ∃ entry, d'.HasInt x lb ub entry ∧
      ∀ n : ℤ, entry.Admits n ↔ lb ≤ n ∧ n ≤ ub := by
  obtain ⟨-, entry, hint, hlower, hupper⟩ :=
    addInt_values hsession.sound (by omega) (by omega) hrun
  rw [roundInt_of_natAbs_lt hlb] at hlower
  rw [roundInt_of_natAbs_lt hub] at hupper
  exact ⟨entry, hint, VarInfo.admits_iff hlower hupper⟩

end Draft

end JointModel
