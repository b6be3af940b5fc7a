import JointModel.Proofs.Model.SetUp

/-!
# Creation with one fault

A model is created in a fresh session in which a fault may be armed and blocks may be
limited.  If the fault strikes one of the calls that set the session up, or if the blocks do
not suffice for them, the creation is rejected for exactly this reason, and the session is
as empty as before.  Otherwise there is a model with the constants, and with a bridge if
its method needs one.

Both cases are read off the sequence of calls: the fault strikes once its operation is
called too often (`Faults.passing_singleton`), and each new entry takes one block.
-/

namespace JointModel

open Effect Formulation

/-- Solvers with a fresh session that may have a limit on blocks and a fault. -/
def Solvers.untried (limit : Option Nat) (fault : Option (Operation × Nat)) (domains : Domains) :
    Solvers :=
  { engine := { session := { limit }, faults := fault.toList }, domains }

namespace Model

variable {config : Config} {limit : Option Nat} {fault : Option (Operation × Nat)}
  {cause : EngineError} {detail : String}

/-- Why a session cannot be set up: the fault strikes, or the blocks do not suffice. -/
inductive Foiled (config : Config) (limit : Option Nat) (fault : Option (Operation × Nat)) :
    EngineError → Prop
  | struck {op : Operation} {after : Nat} : fault = some (op, after) →
      after < (setUpCalls config).count op → Foiled config limit fault (Engine.injected op)
  | exhausted {blocks : Nat} {detail : String} : limit = some blocks →
      blocks < blocksOf (setUpCalls config) → Foiled config limit fault (.allocation detail)

/-- Calls that all go through are not foiled. -/
theorem not_foiled_of_passes {e : Engine}
    (h : (Engine.mk { limit } fault.toList).Passes (setUpCalls config) e) :
    ¬ Foiled config limit fault cause := by
  rintro (⟨rfl, hcount⟩ | ⟨rfl, hlt⟩)
  · have hpassing := h.faults
    rw [Option.toList_some, Faults.passing_singleton, if_neg (Nat.not_le.mpr hcount)] at hpassing
    cases hpassing
  · have hroom := h.room _ rfl (Nat.zero_lt_of_lt hlt)
    rw [Nat.zero_add] at hroom
    exact absurd hroom (Nat.not_le.mpr hlt)

/-- Calls that are cut short are foiled. -/
theorem foiled_of_halts {e : Engine}
    (h : (Engine.mk { limit } fault.toList).Halts (setUpCalls config) cause e) :
    Foiled config limit fault cause := by
  rcases h.reason with ⟨op, rfl, hlookup, hpassing⟩ | ⟨⟨detail, rfl⟩, blocks, hlimit, hlt⟩
  · cases fault with
    | none => exact absurd rfl hlookup
    | some armed =>
        obtain ⟨op', after⟩ := armed
        -- only the operation of the fault can have been struck
        have hop : op = op' := by
          by_contra hne
          exact hlookup (by simp [List.lookup_cons, beq_false_of_ne hne])
        subst hop
        refine .struck rfl ?_
        by_contra hle
        rw [Option.toList_some, Faults.passing_singleton, if_pos (Nat.not_lt.mp hle)] at hpassing
        cases hpassing
  · exact .exhausted hlimit (by rwa [Nat.zero_add] at hlt)

/-- A failed creation cleans up, and a successful one is complete.  The fault may be armed for
every operation but the releases and the teardown itself. -/
theorem create_with_fault (config : Config) (hvalid : config.defect? = none) (limit : Option Nat)
    (fault : Option (Operation × Nat)) (hspared : Faults.Spared fault.toList)
    (domains : Domains) :
    (∃ cause t, Foiled config limit fault cause ∧
      create config (.untried limit fault domains) = .error (.rejected (.engine cause)) t ∧
      t.session.blocks = 0 ∧ t.session.problem = none ∧ t.session.handlers = [] ∧
      t.session.hooked = false ∧ t.session.copies = []) ∨
    (∀ cause, ¬ Foiled config limit fault cause) ∧
      ∃ m t, create config (.untried limit fault domains) = .ok m t ∧
        m.formulation.registry.IsConstants ∧
        (m.formulation.bridge.isSome ↔ config.method = .branchAndCheck) := by
  let solvers : Solvers := .untried limit fault domains
  have hcleared : solvers.session.Cleared := Session.cleared_fresh limit
  have hsetUp : Live.Proceeds (setUpCalls config) (setUp config) ⟨{ config }, solvers⟩
      (fun _ s => Furnished config.method s) Halfway := setUp_proceeds hcleared hspared
  cases hrun : setUp config ⟨{ config }, solvers⟩ with
  | ok _ s =>
      obtain ⟨hpasses, hfurnished⟩ := hsetUp.accepted hrun
      refine .inr ⟨fun cause => not_foiled_of_passes hpasses, s.model, s.solvers, ?_,
        hfurnished.constants, ?_⟩
      · simp only [create, hvalid]
        rw [hrun]
      · rw [hfurnished.bridge]
        cases config.method <;> simp [Method.needsBridge]
  | error reason s =>
      obtain ⟨⟨cause, rfl, hhalts⟩, hhalfway⟩ := hsetUp.rejected hrun
      obtain ⟨t, htearDown, ht⟩ := hhalfway.tearDown (hhalts.faults.spared hspared)
      have hdrop : s.model.drop s.solvers =
          .ok () { s.solvers with engine := ⟨t, s.solvers.engine.faults⟩ } :=
        drop_of_tearDown htearDown ht
      refine .inl ⟨cause, { s.solvers with engine := ⟨t, s.solvers.engine.faults⟩ },
        foiled_of_halts hhalts, ?_, ht.blocks, ht.problem, ht.handlers, ht.hooked, ht.copies⟩
      simp only [create, hvalid]
      rw [hrun]
      simp only [hdrop]

/-- If the problem refuses the bridge, the creation is rejected for that, and nothing is
left. -/
theorem create_with_fault_bridge : ({} : Config).defect? = none ∧
    Faults.Spared (some (Operation.enrolCons, 0)).toList ∧
    ∃ t, create {} (.untried none (some (.enrolCons, 0)) {}) =
        .error (.rejected (.engine (.invalidSetting "injected add_cons"))) t ∧
      t.session.blocks = 0 ∧ t.session.problem = none := by
  have hvalid : ({} : Config).defect? = none := by decide +kernel
  have hspared : Faults.Spared (some (Operation.enrolCons, 0)).toList := ⟨rfl, rfl, rfl⟩
  have hstruck : Foiled {} none (some (.enrolCons, 0)) (Engine.injected .enrolCons) :=
    .struck rfl (by decide)
  refine ⟨hvalid, hspared, ?_⟩
  rcases create_with_fault {} hvalid none (some (.enrolCons, 0)) hspared {} with
    ⟨cause, t, hfoiled, hcreate, hblocks, hproblem, -⟩ | ⟨hnot, -⟩
  · cases hfoiled with
    | struck hfault =>
        cases hfault
        exact ⟨t, hcreate, hblocks, hproblem⟩
    | exhausted hlimit => cases hlimit
  · exact absurd hstruck (hnot _)

end Model

end JointModel
