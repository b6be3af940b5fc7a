import JointModel.Proofs.Decimal.Order
import JointModel.Proofs.Model.Constancy
import JointModel.Proofs.Model.Reports

/-!
# Which calls to minimize are dispatched

`Model.dispatch` decides a call before anything is touched.  `Model.InOrder` and
`Model.Refuses` say the same without the checks: a limit is a double, so it is
above zero if it has a value and that value is, which leaves a NaN out.

A call may also be read as steps that take effect one after the other
(`Live.minimizeStepwise`).  In that reading the timer checks the limit again, and by then
the objective is recorded.  The second check never fails, so the two readings agree
(`minimizeStepwise_eq`), and a call that is refused leaves everything as it was.

A strategy that was dispatched sees the primary formulation, but it cannot change it, and what
its commands do to the session leaves the entries of that formulation alone
(`minimize_dispatches_iff`).
-/

namespace JointModel

open Effect

/-! ## Checks -/

theorem Decimal.extended?_zero : extended? 0.0 = some 0 := by
  have hzero : (Shape.ofBits (0.0 : Float).toBits.toNat).value? = some 0 := by decide +kernel
  rw [extended?, Shape.extended?_of_value? hzero, Rat.cast_zero, EReal.coe_zero]

/-- The limit is a number above zero, or infinite. -/
def Timer.Allows (limit : Float) : Prop := ∃ a, Decimal.extended? limit = some a ∧ 0 < a

theorem Timer.allows_iff {limit : Float} : Allows limit ↔ limit > 0.0 := by
  rw [gt_iff_lt, Decimal.lt_iff]
  constructor
  · rintro ⟨a, ha, hpositive⟩
    exact ⟨0, a, Decimal.extended?_zero, ha, hpositive⟩
  · rintro ⟨b, a, hb, ha, hlt⟩
    cases Decimal.extended?_zero.symm.trans hb
    exact ⟨a, ha, hlt⟩

namespace Model

/-- A call that is to be dispatched to `script`. -/
structure InOrder (m : Model) (objective : IntId) (limit : Float) (script : Script) : Prop where
  limit : Timer.Allows limit
  slot : ∃ slot, m.formulation.registry.int? objective = some slot
  strategy : m.strategies.script? m.config.method = some script

/-- A call that is to be refused, and what for: the first thing that is not in order. -/
inductive Refuses (m : Model) (objective : IntId) (limit : Float) : Abort → Prop
  | limit : ¬ Timer.Allows limit → Refuses m objective limit (.invalidTimeLimit limit)
  | objective : Timer.Allows limit → m.formulation.registry.int? objective = none →
      Refuses m objective limit (.unknownObjective objective)
  | strategy {slot : IntSlot} : Timer.Allows limit →
      m.formulation.registry.int? objective = some slot →
      m.strategies.script? m.config.method = none →
      Refuses m objective limit (.noStrategy m.config.method)

variable {m : Model} {objective : IntId} {limit : Float} {script : Script} {cause : Abort}

theorem dispatch_eq_ok_iff :
    m.dispatch objective limit = .ok script ↔ m.InOrder objective limit script := by
  constructor
  · intro hdispatch
    unfold dispatch at hdispatch
    split at hdispatch
    · next hlimit =>
        split at hdispatch
        · cases hdispatch
        · next slot hslot =>
            split at hdispatch
            · cases hdispatch
            · next hscript =>
                cases hdispatch
                exact ⟨Timer.allows_iff.mpr hlimit, ⟨slot, hslot⟩, hscript⟩
    · cases hdispatch
  · rintro ⟨hlimit, ⟨slot, hslot⟩, hscript⟩
    exact Live.dispatch_of_slot (Timer.allows_iff.mp hlimit) (Option.isSome_of_eq_some hslot) hscript

theorem dispatch_eq_error_iff :
    m.dispatch objective limit = .error cause ↔ m.Refuses objective limit cause := by
  constructor
  · intro hdispatch
    unfold dispatch at hdispatch
    split at hdispatch
    · next hlimit =>
        have hallows := Timer.allows_iff.mpr hlimit
        split at hdispatch
        · next hslot =>
            cases hdispatch
            exact .objective hallows hslot
        · next slot hslot =>
            split at hdispatch
            · next hscript =>
                cases hdispatch
                exact .strategy hallows hslot hscript
            · cases hdispatch
    · next hlimit =>
        cases hdispatch
        exact .limit (mt Timer.allows_iff.mp hlimit)
  · rintro (hlimit | ⟨hlimit, hslot⟩ | ⟨hlimit, hslot, hscript⟩)
    · rw [dispatch, if_neg (mt Timer.allows_iff.mpr hlimit)]
    · simp only [dispatch, if_pos (Timer.allows_iff.mp hlimit), hslot]
    · simp only [dispatch, if_pos (Timer.allows_iff.mp hlimit), hslot, hscript]

end Model

namespace Live

/-! ## One step after the other -/

/-- The limit has to be positive. -/
def requirePositive (limit : Float) : EStateM Abort Live Unit :=
  if limit > 0.0 then pure () else throw (.invalidTimeLimit limit)

/-- The objective has to be a slot of the model. -/
def requireSlot (objective : IntId) : EStateM Abort Live Unit := fun s =>
  match s.model.formulation.registry.int? objective with
  | some _ => .ok () s
  | none => .error (.unknownObjective objective) s

/-- The method of the model has to have a strategy. -/
def requireStrategy : EStateM Abort Live Script := fun s =>
  match s.model.strategies.script? s.model.config.method with
  | some script => .ok script s
  | none => .error (.noStrategy s.model.config.method) s

/-- Records the objective. -/
def recordObjective (objective : IntId) : EStateM Abort Live Unit :=
  modify fun s => { s with model.formulation.objective := objective }

/-- Starts the timer of the model. -/
def startTimer (limit : Float) (now : Nat) : EStateM Abort Live Unit := fun s =>
  match Timer.start limit now with
  | .ok timer => .ok () { s with model.timer := timer }
  | .error cause => .error cause s

/-- Runs a strategy.  The clock is read again when it returns. -/
def runStrategy (script : Script) (objective : IntId) (limit : Float) (now : Nat) :
    EStateM Abort Live (List Solve.Reply × Nat) := fun s =>
  let ctx : Solve :=
    { method := s.model.config.method, objective, limit
      formulation := s.model.formulation, timer := s.model.timer }
  let (replies, done) := ctx.run ⟨s.solvers, s.model.outcome, now⟩ script
  .ok (replies, done.clock) ⟨{ s.model with outcome := done.outcome }, done.solvers⟩

/-- Adds the time since the timer was started to the time spent solving. -/
def addRunTime (now : Nat) : EStateM Abort Live Unit :=
  modify fun s => { s with model.runTime := s.model.runTime + s.model.timer.elapsed now }

/-- A call to minimize as steps, each of which takes effect before the next. -/
def minimizeStepwise (objective : IntId) (limit : Float) (now : Nat) :
    EStateM Abort Live (List Solve.Reply) := do
  requirePositive limit
  requireSlot objective
  let script ← requireStrategy
  recordObjective objective
  startTimer limit now
  let (replies, done) ← runStrategy script objective limit now
  addRunTime done
  pure replies

variable {s u : Live} {objective : IntId} {limit : Float} {script : Script} {replies : List Solve.Reply}
  {cause : Abort}

/-- Steps that take effect one after the other come to the same: what is checked after the
first effect was checked before. -/
theorem minimizeStepwise_eq (objective : IntId) (limit : Float) (now : Nat) (s : Live) :
    minimizeStepwise objective limit now s = minimize objective limit now s := by
  by_cases hlimit : limit > 0.0
  · have htimer : Timer.start limit now = .ok { limit, startedAt := some now } := if_pos hlimit
    cases hslot : s.model.formulation.registry.int? objective with
    | none =>
        simp only [minimizeStepwise, minimize, Model.dispatch, requirePositive, requireSlot,
          bind_apply, pure_apply, if_pos hlimit, hslot]
    | some slot =>
        cases hscript : s.model.strategies.script? s.model.config.method with
        | none =>
            simp only [minimizeStepwise, minimize, Model.dispatch, requirePositive, requireSlot,
              requireStrategy, bind_apply, pure_apply, if_pos hlimit, hslot, hscript]
        | some script =>
            simp only [minimizeStepwise, minimize, Model.dispatch, requirePositive, requireSlot,
              requireStrategy, recordObjective, startTimer, runStrategy, addRunTime, solve,
              bind_apply, pure_apply, modify_apply, if_pos hlimit, hslot, hscript, htimer]
  · simp only [minimizeStepwise, minimize, Model.dispatch, requirePositive, bind_apply, throw_apply,
      if_neg hlimit]

theorem minimize_eq_ok_iff {now : Nat} :
    minimize objective limit now s = .ok replies u ↔
      ∃ script, s.model.InOrder objective limit script ∧
        s.solve script objective limit now = (replies, u) := by
  simp only [← Model.dispatch_eq_ok_iff]
  constructor
  · intro hrun
    unfold minimize at hrun
    split at hrun
    · cases hrun
    · next script hdispatch =>
        cases hrun
        exact ⟨script, hdispatch, rfl⟩
  · rintro ⟨script, hdispatch, hsolve⟩
    rw [minimize_of_dispatch hdispatch, hsolve]

theorem minimize_eq_error_iff {now : Nat} :
    minimize objective limit now s = .error cause u ↔
      s.model.Refuses objective limit cause ∧ u = s := by
  rw [← Model.dispatch_eq_error_iff]
  constructor
  · intro hrun
    unfold minimize at hrun
    split at hrun
    · next hdispatch =>
        cases hrun
        exact ⟨hdispatch, rfl⟩
    · cases hrun
  · rintro ⟨hdispatch, rfl⟩
    simp only [minimize, hdispatch]

/-! ## What a strategy leaves -/

/-- The model after its timer was started, or set back. -/
def withTimer (s : Live) (timer : Timer) : Live := { s with model.timer := timer }

/-- From the state `s` a call was dispatched that led to `u`: the objective is recorded and the
timer was started, and the rest of the primary formulation, the entries behind its handles and
the uses of its bridge are as before. -/
structure Dispatched (objective : IntId) (limit : Float) (now : Nat) (s u : Live) : Prop where
  formulation : u.model.formulation = { s.model.formulation with objective }
  config : u.model.config = s.model.config
  strategies : u.model.strategies = s.model.strategies
  timer : Timer.start limit now = .ok u.model.timer
  entries : s.model.formulation.Retains s.solvers.session u.solvers.session
  bridge : ∀ {c}, s.model.formulation.bridge = some c → ∃ info info',
    s.solvers.session.cons? c = some info ∧ u.solvers.session.cons? c = some info' ∧
      info'.uses = info.uses

variable {solvers t : Solvers} {config : Config} {m : Model} {forked more : List Formulation}

/-- In every state of a run, the bridge of the primary formulation is used twice. -/
theorem bridge_steady (hsolvers : Unused solvers) (hcreate : Model.create config solvers = .ok m t)
    (hrun : LeadsTo ⟨m, t⟩ s forked) {c : ConsId} (hbridge : s.model.formulation.bridge = some c) :
    ∃ info, s.solvers.session.cons? c = some info ∧ info.uses = 2 := by
  obtain ⟨hcleared, hfaults⟩ := hsolvers.cleared
  obtain ⟨hprepared, hhooked⟩ := (Model.create_ends hcleared hfaults config).accepted hcreate
  obtain ⟨-, hkept⟩ := hrun.kept hprepared.faults hprepared.accounts hhooked
  exact hkept.accounts.resident_primary.bridge hbridge

/-- However far a strategy got that was dispatched. -/
theorem solve_dispatched (hsolvers : Unused solvers)
    (hcreate : Model.create config solvers = .ok m t) (hrun : LeadsTo ⟨m, t⟩ s forked)
    (timer : Timer) (horder : (s.withTimer timer).model.InOrder objective limit script) (now : Nat)
    {done : Script} (hdone : done <+: script) :
    Dispatched objective limit now (s.withTimer timer)
      ((s.withTimer timer).solve done objective limit now).2 := by
  -- the new timer takes the place of the one before, whichever that was
  have hdispatch : s.model.dispatch objective limit = .ok script :=
    Model.dispatch_eq_ok_iff.mpr ⟨horder.limit, horder.slot, horder.strategy⟩
  have hsolve : LeadsTo s (s.solve done objective limit now).2
      ([] ++ s.forkedBy done objective limit now) := LeadsTo.start.solve now hdispatch hdone
  refine ⟨rfl, rfl, rfl, if_pos (Timer.allows_iff.mp horder.limit),
    (primary_steady hsolvers hcreate hrun hsolve).2.1, fun {c} hbridge => ?_⟩
  obtain ⟨info, hinfo, huses⟩ := bridge_steady hsolvers hcreate hrun hbridge
  obtain ⟨info', hinfo', huses'⟩ := bridge_steady hsolvers hcreate (hrun.trans hsolve)
    (c := c) hbridge
  exact ⟨info, info', hinfo, hinfo', huses'.trans huses.symm⟩

/-- Every call to minimize either is in order, and then its strategy is run with the objective
recorded, and however far the strategy gets, it leaves the primary formulation alone; or the
first check that fails is what it aborts with, and then nothing was touched. -/
theorem minimize_dispatches_iff (hsolvers : Unused solvers)
    (hcreate : Model.create config solvers = .ok m t) (hrun : LeadsTo ⟨m, t⟩ s forked)
    (timer : Timer) (objective : IntId) (limit : Float) (now : Nat) :
    minimizeStepwise objective limit now (s.withTimer timer) =
      minimize objective limit now (s.withTimer timer) ∧
    (∀ replies u, minimize objective limit now (s.withTimer timer) = .ok replies u ↔
      ∃ script, (s.withTimer timer).model.InOrder objective limit script ∧
        (s.withTimer timer).solve script objective limit now = (replies, u)) ∧
    (∀ cause u, minimize objective limit now (s.withTimer timer) = .error cause u ↔
      (s.withTimer timer).model.Refuses objective limit cause ∧ u = s.withTimer timer) ∧
    ∀ script done, (s.withTimer timer).model.InOrder objective limit script → done <+: script →
      Dispatched objective limit now (s.withTimer timer)
        ((s.withTimer timer).solve done objective limit now).2 :=
  ⟨minimizeStepwise_eq objective limit now _, fun _ _ => minimize_eq_ok_iff,
    fun _ _ => minimize_eq_error_iff,
    fun _ _ horder hdone => solve_dispatched hsolvers hcreate hrun timer horder now hdone⟩

/-- A model that is asked for its constant 0 forks working copies, and one that is given no time
or a limit that is not a number is left alone. -/
theorem minimize_dispatches_or_refuses : Unused {} ∧ ∃ m t s, Model.create {} {} = .ok m t ∧
    LeadsTo ⟨m, t⟩ s [] ∧
    (∃ replies u, minimize ⟨0⟩ 1.0 0 s = .ok replies u ∧ u.solvers.session.depth = 1 ∧
      Dispatched ⟨0⟩ 1.0 0 s u) ∧
    minimize ⟨0⟩ 0.0 0 s = .error (.invalidTimeLimit 0.0) s ∧
    minimize ⟨0⟩ (0.0 / 0.0) 0 s = .error (.invalidTimeLimit (0.0 / 0.0)) s := by
  have hunused : Unused {} := .fresh none
  obtain ⟨m, t, hcreate, hdispatch, hdepth⟩ := exists_forkingStart
  have hstart : LeadsTo ⟨m, t⟩ ⟨m, t⟩ [] := .start
  let s : Live := ⟨{ m with strategies := m.strategies.set .branchAndCheck forkingScript }, t⟩
  have hrun : LeadsTo ⟨m, t⟩ s [] := hstart.register .branchAndCheck forkingScript
  have horder := Model.dispatch_eq_ok_iff.mp hdispatch
  have hcalls := minimize_dispatches_iff hunused hcreate hrun s.model.timer ⟨0⟩
  have hrefused (limit : Float) (hlimit : ¬ limit > 0.0) :
      minimize ⟨0⟩ limit 0 s = .error (.invalidTimeLimit limit) s :=
    ((hcalls limit 0).2.2.1 _ _).mpr ⟨.limit (mt Timer.allows_iff.mp hlimit), rfl⟩
  obtain ⟨-, hok, -, hleft⟩ := hcalls 1.0 0
  exact ⟨hunused, m, t, s, hcreate, hrun,
    ⟨_, _, (hok _ _).mpr ⟨_, horder, rfl⟩, hdepth, hleft _ _ horder (List.prefix_refl _)⟩,
    hrefused _ (by decide), hrefused _ (by decide)⟩

end Live

end JointModel
