import JointModel.Proofs.Model.Building
import JointModel.Proofs.Model.Teardown

/-!
# Creating a model

A model can be created in a cleared session.  Either it is ready, and the accounts of
its session are in order, or it was rejected, for a defect of its configuration or for
want of blocks, and then the session is cleared again (`create_ends`).

Setting the session up goes through states in which some of the constants are there
and others are not.  The accounts are in order in all of them (`Prepared`), which is
what lets a model that was rejected halfway be dropped like any other.
-/

namespace JointModel

open Effect Formulation

namespace Live

variable {α : Type} {backdrop : Session} {s : Live}

/-- The accounts of a model are in order, and no fault is armed. -/
structure Balanced (backdrop : Session) (s : Live) : Prop where
  faults : s.solvers.engine.faults = []
  backdrop : s.solvers.session.backdrop = backdrop
  accounts : s.solvers.session.Accounts 2 s.model.formulation

/-- The model with another session. -/
def withSession (s : Live) (t : Session) : Live := { s with solvers.engine := { session := t } }

/-- Without faults, a call ends as on the session. -/
theorem ends_onEngine (hfaults : s.solvers.engine.faults = []) {op : Operation}
    {act : Session.Run α} {Q : α → Live → Prop} {E : ModelError → Live → Prop} :
    Ends (onEngine (Engine.call op act)) s Q E ↔ Ends act s.solvers.session
      (fun a t => Q a (s.withSession t)) fun cause t => E (.engine cause) (s.withSession t) := by
  rw [onEngine, ends_onPart, Solvers.onEngine, ends_onPart, Engine.ends_call hfaults]
  rfl

/-- Adding slots to a model ends as it does for a draft of its registry. -/
theorem onRegistry_ends {act : Draft.Run α}
    {E : ModelError → Prop}
    (h : Ends act ⟨s.model.formulation.registry, s.solvers⟩
      (fun _ d => Draft.Balanced s.model.formulation backdrop d)
      fun cause d => Draft.Balanced s.model.formulation backdrop d ∧ E cause) :
    Ends (onRegistry act) s
      (fun _ t => Balanced backdrop t ∧ t.model.formulation.bridge = s.model.formulation.bridge)
      fun cause t => Balanced backdrop t ∧ E cause := by
  rw [onRegistry, ends_onPart]
  refine h.mono (fun _ d hd => ?_) fun _ d hd => ?_
  · exact ⟨⟨hd.faults, hd.backdrop, hd.accounts⟩, rfl⟩
  · exact ⟨⟨hd.1.faults, hd.1.backdrop, hd.1.accounts⟩, hd.2⟩

theorem Balanced.draft (hs : Balanced backdrop s) :
    Draft.Balanced s.model.formulation backdrop ⟨s.model.formulation.registry, s.solvers⟩ :=
  ⟨hs.faults, hs.backdrop, hs.accounts⟩

end Live

namespace Model

open Session Live

variable {start : Session} {s : Live} {solvers : Solvers} {config : Config}

/-- A model on its way to be set up in the session `start`. -/
structure Prepared (start : Session) (s : Live) : Prop where
  faults : s.solvers.engine.faults = []
  accounts : s.solvers.session.Accounts 2 s.model.formulation
  copies : s.solvers.session.copies = []
  ledger : s.solvers.session.ledger = start.ledger
  limit : s.solvers.session.limit = start.limit

/-- The problem is there, and nothing else yet. -/
structure Opened (start : Session) (s : Live) : Prop extends Prepared start s where
  handlers : s.solvers.session.handlers = []
  bridge : s.model.formulation.bridge = none

/-! ## Settings and the problem -/

/-- The settings of a session do not matter. -/
theorem applySettings_ends (start : Session) (m : Model) (domains : Domains) :
    Ends (sessionSettings.forM fun setting => Live.onEngine (Engine.changeSetting setting))
      ⟨m, { engine := { session := start }, domains }⟩
      (fun _ s => ∃ settings, s = ⟨m, { engine := { session := { start with settings } }, domains }⟩)
      fun _ _ => False := by
  refine ends_forM (I := fun _ (s : Live) => ∃ settings,
      s = ⟨m, { engine := { session := { start with settings } }, domains }⟩)
    (fun done setting rest hsplit s hs => ?_) ⟨start.settings, rfl⟩
  obtain ⟨settings, rfl⟩ := hs
  have hmem : setting ∈ sessionSettings := by simp [hsplit]
  have hthreads : setting ≠ .maxThreads 0 := by
    rintro rfl
    exact absurd hmem (by decide)
  rw [Engine.changeSetting, ends_onEngine rfl]
  exact ends_of_accepted (if_neg hthreads) ⟨settings.set setting, rfl⟩

/-- A new problem without members puts the accounts of a cleared session in
order. -/
theorem Cleared.accounts (hcleared : start.Cleared) (problem : Problem)
    (hvars : problem.vars = #[]) (hconss : problem.conss = #[]) (settings : Settings) :
    Accounts 2 {} { start with settings, problem := some problem } where
  sound := hcleared.sound.of_tables rfl rfl hcleared.sound.hooked
  paired g hg := by
    rw [hcleared.copies, List.mem_singleton] at hg
    rw [hg]
    exact Registry.paired_empty
  vars := by
    have hnone : start.var? = fun _ => none := funext hcleared.vars
    show Holds _ _ start.var? (_ ++ copyHoldings start.copies)
    rw [hcleared.copies, hnone]
    exact .nil
  conss := by
    have hnone : start.cons? = fun _ => none := funext hcleared.conss
    show Holds _ _ start.cons? (_ ++ copyBridges start.copies)
    rw [hcleared.copies, hnone]
    exact .nil
  members := ⟨problem, rfl, by rw [hvars]; exact .refl _, by rw [hconss]; exact .refl _⟩
  depth := by rw [hcleared.copies, ← hcleared.settled]; rfl

/-- Everything up to the constants is accepted. -/
theorem open_ends (hcleared : solvers.session.Cleared) (hfaults : solvers.engine.faults = [])
    (config : Config) {next : Live.Run Unit} {Q : Unit → Live → Prop} {E : ModelError → Live → Prop}
    (hnext : ∀ s, Opened solvers.session s → Ends next s Q E) :
    Ends (do
      sessionSettings.forM fun setting => Live.onEngine (Engine.changeSetting setting)
      Live.onEngine (Engine.newProblem config.problemName)
      Live.onEngine (Engine.setSense .minimize)
      setUpObjective config.integralObjective
      next) ⟨{ config }, solvers⟩ Q E := by
  have hsolvers : solvers = { engine := { session := solvers.session }, domains := solvers.domains } := by
    obtain ⟨⟨session, faults⟩, domains⟩ := solvers
    cases hfaults
    rfl
  rw [hsolvers, ends_bind]
  refine (applySettings_ends solvers.session { config } solvers.domains).mono (fun _ s hs => ?_)
    fun _ _ h => h.elim
  obtain ⟨settings, rfl⟩ := hs
  rw [ends_bind, Engine.newProblem, ends_onEngine rfl]
  refine ends_of_accepted (a := ())
    (t := { solvers.session with settings, problem := some { name := config.problemName } }) ?_ ?_
  · show newProblem config.problemName { solvers.session with settings } = _
    simp only [newProblem, hcleared.problem]
  rw [ends_bind, Engine.setSense, ends_onEngine rfl]
  refine ends_of_accepted (a := ())
    (t := { solvers.session with settings, problem := some { name := config.problemName } }) rfl ?_
  have hopened : ∀ problem : Problem, problem.vars = #[] → problem.conss = #[] →
      Opened solvers.session ⟨{ config }, { engine := { session :=
        { solvers.session with settings, problem := some problem } }, domains := solvers.domains }⟩ :=
    fun problem hvars hconss =>
      { faults := rfl
        accounts := Cleared.accounts hcleared problem hvars hconss settings
        copies := hcleared.copies
        ledger := rfl
        limit := rfl
        handlers := hcleared.handlers
        bridge := rfl }
  rw [ends_bind]
  cases config.integralObjective with
  | false => exact hnext _ (hopened _ rfl rfl)
  | true =>
      rw [setUpObjective, if_pos rfl, Engine.setIntegral, ends_onEngine rfl]
      refine ends_of_accepted (a := ()) (t := { solvers.session with
        settings, problem := some { name := config.problemName, integral := true } }) rfl ?_
      exact hnext _ (hopened _ rfl rfl)

/-! ## The constants, the bridge and the hooks -/

theorem Prepared.of_balanced (h : Prepared start s) {t : Live}
    (ht : Balanced s.solvers.session.backdrop t) : Prepared start t where
  faults := ht.faults
  accounts := ht.accounts
  copies := (congrArg Session.copies ht.backdrop :).trans h.copies
  ledger := (congrArg Session.ledger ht.backdrop :).trans h.ledger
  limit := (congrArg Session.limit ht.backdrop :).trans h.limit

theorem addConstants_ends (hs : Opened start s) :
    Ends (Live.onRegistry Draft.addConstants) s (fun _ t => Opened start t)
      fun cause t => Prepared start t ∧ Draft.OutOfBlocks start.limit cause := by
  have hbalanced : Balanced s.solvers.session.backdrop s := ⟨hs.faults, rfl, hs.accounts⟩
  refine (onRegistry_ends (Draft.addConstants_ends hbalanced.draft)).mono (fun _ t ht => ?_)
    fun cause t ht => ?_
  case refine_2 =>
    have hblocks : Draft.OutOfBlocks s.solvers.session.limit cause := ht.2
    exact ⟨hs.toPrepared.of_balanced ht.1, hs.limit ▸ hblocks⟩
  obtain ⟨ht, hbridge⟩ := ht
  exact
    { hs.toPrepared.of_balanced ht with
      handlers := (congrArg Session.handlers ht.backdrop :).trans hs.handlers
      bridge := hbridge.trans hs.bridge }

/-- The handler is accepted, and the bridge if a block is left. -/
theorem setUpBridge_ends (hs : Opened start s) (method : Method) :
    Ends (setUpBridge method) s (fun _ t => Prepared start t)
      fun cause t => Prepared start t ∧ Draft.OutOfBlocks start.limit cause := by
  cases hneeds : method.needsBridge with
  | false =>
      rw [setUpBridge, hneeds]
      exact hs.toPrepared
  | true =>
      have hengine : s.solvers.engine = { session := s.solvers.session } := by
        rw [← hs.faults]
        rfl
      obtain ⟨problem, hproblem, -⟩ := hs.accounts.members
      let included : Session := { s.solvers.session with handlers := [bridgeHandler] }
      have hincluded : included.Accounts 2 s.model.formulation :=
        hs.accounts.of_tables rfl rfl rfl rfl rfl hs.accounts.sound.hooked
      have hhandler : Session.addHandler bridgeHandler s.solvers.session = .ok () included := by
        simp [Session.addHandler, hasHandler, hs.handlers, included]
      rw [setUpBridge, if_pos hneeds, Live.onFormulation, ends_onPart, Assembly.addBridge,
        ends_bind, Assembly.onEngine, ends_onPart, Engine.addHandler, Engine.ends_call hs.faults]
      refine ends_of_accepted hhandler ?_
      rw [ends_bind, Assembly.onEngine, ends_onPart, Engine.newCons, Engine.ends_call rfl]
      have hknown : included.hasHandler bridgeHandler = true := by simp [hasHandler, included]
      refine (newCons_ends hincluded.sound.conss hincluded.problem hknown "cp").mono
        (fun c t ht => ?_) fun cause t ht => ?_
      · obtain ⟨-, hadds⟩ := ht
        have hc : t.cons? c = some ⟨"cp", bridgeHandler, 1⟩ := by rw [hadds.cons?, if_pos rfl]
        have hproblem' : t.problem = some problem :=
          (problem_eq_of_frame hadds.frame_eq).trans hproblem
        rw [ends_bind, ends_modify, Assembly.onEngine, ends_onPart, Engine.enrolCons,
          Engine.ends_call rfl]
        refine ends_of_accepted (enrolCons_accepted hc hproblem') ?_
        exact
          { faults := rfl
            accounts := hincluded.addBridge hs.bridge hadds rfl hproblem
            copies := (copies_eq_of_frame hadds.frame_eq).trans hs.copies
            ledger := hadds.ledger_eq.trans hs.ledger
            limit := (limit_eq_of_frame hadds.frame_eq).trans hs.limit }
      · obtain ⟨rfl, ⟨limit, hlimit, -⟩, detail, rfl⟩ := ht
        have hlimit' : start.limit = some limit := hs.limit.symm.trans hlimit
        exact ⟨⟨rfl, hincluded, hs.copies, hs.ledger, hs.limit⟩, by simp [hlimit'], detail, rfl⟩

/-- Setting a cleared session up fails only for want of blocks. -/
theorem setUp_ends (hcleared : solvers.session.Cleared) (hfaults : solvers.engine.faults = [])
    (config : Config) :
    Ends (setUp config) ⟨{ config }, solvers⟩
      (fun _ s => Prepared solvers.session s ∧ s.solvers.session.hooked = true)
      fun cause s => Prepared solvers.session s ∧ Draft.OutOfBlocks solvers.session.limit cause := by
  refine open_ends hcleared hfaults config fun s hs => ?_
  rw [ends_bind]
  refine (addConstants_ends hs).mono (fun _ t ht => ?_) fun _ _ ht => ht
  rw [ends_bind]
  refine (setUpBridge_ends ht config.method).mono (fun _ u hu => ?_) fun _ _ hu => hu
  rw [Engine.installHooks, ends_onEngine hu.faults]
  exact ⟨⟨rfl, hu.accounts.of_tables rfl rfl rfl rfl rfl fun _ => rfl, hu.copies, hu.ledger,
    hu.limit⟩, rfl⟩

/-- A model is created, or the session is cleared again. -/
theorem create_ends (hcleared : solvers.session.Cleared) (hfaults : solvers.engine.faults = [])
    (config : Config) :
    Ends (create config) solvers
      (fun m t => Prepared solvers.session ⟨m, t⟩ ∧ t.session.hooked = true)
      fun failure t => ∃ cause, failure = .rejected cause ∧ t.session.Cleared ∧
        t.engine.faults = [] ∧
        (config.defect? = none → Draft.OutOfBlocks solvers.session.limit cause) := by
  cases hdefect : config.defect? with
  | some defect =>
      refine ends_of_rejected (e := .rejected (.config defect.message)) (t := solvers)
        (by simp only [create, hdefect]) ⟨_, rfl, hcleared, hfaults, fun h => ?_⟩
      cases h
  | none =>
      have hsetUp := setUp_ends hcleared hfaults config
      cases hrun : setUp config ⟨{ config }, solvers⟩ with
      | ok _ s =>
          exact ends_of_accepted (a := s.model) (t := s.solvers)
            (by simp only [create, hdefect, hrun]) (hsetUp.accepted hrun)
      | error cause s =>
          obtain ⟨hprepared, hblocks⟩ := hsetUp.rejected hrun
          -- what was set up so far is a model whose accounts are in order
          obtain ⟨t, hdrop, hdropped⟩ := drop_accepted hprepared.accounts hprepared.faults
          have hcreate : create config solvers = .error (.rejected cause)
              { s.solvers with engine := { session := t } } := by
            simp only [create, hdefect, hrun, hdrop]
          exact ends_of_rejected hcreate
            ⟨cause, rfl, hdropped.cleared, rfl, fun _ => hblocks⟩

/-- Without a limit on blocks, every configuration in order gives a model. -/
theorem create_accepted (hcleared : solvers.session.Cleared)
    (hfaults : solvers.engine.faults = []) (hlimit : solvers.session.limit = none)
    (hconfig : config.defect? = none) : ∃ m t, create config solvers = .ok m t := by
  have hends : Ends (create config) solvers (fun _ _ => True) fun _ _ => False := by
    refine (create_ends hcleared hfaults config).mono (fun _ _ _ => trivial) fun _ _ h => ?_
    obtain ⟨cause, -, -, -, hblocks⟩ := h
    exact (hblocks hconfig).1 hlimit
  obtain ⟨m, t, hrun, -⟩ := hends.exists_accepted
  exact ⟨m, t, hrun⟩

end Model

end JointModel
