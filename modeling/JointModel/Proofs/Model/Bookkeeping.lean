import JointModel.Proofs.Model.Creation
import JointModel.Proofs.Model.Run

/-!
# The accounts along a run

What a model starts with, every step of a run keeps (`Live.LeadsTo.kept`): the accounts
are in order, no fault is armed and the hooks are installed.  The uses that were
captured for working copies are those of the formulations that the forks put together,
one for each handle, complete or not: a fork that goes through hands them to the new
copy, and one that fails has released them again.

Sessions are cleared before a model is created in them and after it is dropped
(`Unused.cleared`).

## Strategy

* `forkCopy_ends` and `discardCopy_ends_balanced` say what the two commands that reach
  the session do to the accounts.
* `perform_kept` is the step lemma for the commands of a strategy, and `run_kept` the
  induction over a script.
-/

namespace JointModel

open Effect Formulation

/-- The number of handles that the formulations of a list own. -/
def ownedBy (forked : List Formulation) : Nat :=
  (forked.flatMap fun f => f.registry.ownedVars).length

/-- The number of bridges of the formulations of a list. -/
def bridgesOf (forked : List Formulation) : Nat :=
  (forked.flatMap fun f => f.bridge.toList).length

theorem ownedBy_singleton (f : Formulation) : ownedBy [f] = f.registry.ownedVars.length := by
  rw [ownedBy, List.flatMap_singleton]

theorem bridgesOf_singleton (f : Formulation) : bridgesOf [f] = f.bridge.toList.length := by
  rw [bridgesOf, List.flatMap_singleton]

theorem ownedBy_append (forked more : List Formulation) :
    ownedBy (forked ++ more) = ownedBy forked + ownedBy more := by
  rw [ownedBy, List.flatMap_append, List.length_append]
  rfl

theorem bridgesOf_append (forked more : List Formulation) :
    bridgesOf (forked ++ more) = bridgesOf forked + bridgesOf more := by
  rw [bridgesOf, List.flatMap_append, List.length_append]
  rfl

namespace Session

variable {s t : Session} {f : Formulation} {uses : Nat}

/-- The accounts are in order, the hooks are installed, and since the session `s` the
formulations `forked` were put together. -/
structure Kept (f : Formulation) (s : Session) (forked : List Formulation) (t : Session) : Prop where
  accounts : t.Accounts 2 f
  hooked : t.hooked = true
  varsCaptured : t.varsCaptured = s.varsCaptured + ownedBy forked
  conssCaptured : t.conssCaptured = s.conssCaptured + bridgesOf forked

theorem Kept.refl (h : s.Accounts 2 f) (hhooked : s.hooked = true) : s.Kept f [] s :=
  ⟨h, hhooked, rfl, rfl⟩

theorem Kept.trans {u : Session} {g : Formulation} {forked more : List Formulation}
    (h : s.Kept f forked t) (h' : t.Kept g more u) : s.Kept g (forked ++ more) u where
  accounts := h'.accounts
  hooked := h'.hooked
  varsCaptured := by rw [h'.varsCaptured, h.varsCaptured, ownedBy_append, Nat.add_assoc]
  conssCaptured := by rw [h'.conssCaptured, h.conssCaptured, bridgesOf_append, Nat.add_assoc]

/-- New slots and other limits do not matter. -/
theorem Kept.of_counts {u : Session} {g : Formulation} {forked : List Formulation}
    (h : s.Kept f forked t) (haccounts : u.Accounts 2 g) (hhooked : u.hooked = t.hooked)
    (hledger : u.ledger = t.ledger) (hcopies : u.copies = t.copies) : s.Kept g forked u where
  accounts := haccounts
  hooked := hhooked.trans h.hooked
  varsCaptured := by
    rw [← h.varsCaptured, Session.varsCaptured, Session.varsCaptured, hledger, hcopies]
  conssCaptured := by
    rw [← h.conssCaptured, Session.conssCaptured, Session.conssCaptured, hledger, hcopies]

/-- The formulation that the next fork starts from. -/
theorem Accounts.source (h : s.Accounts 2 f) :
    (s.innermost?.getD f).registry.Paired ∧ (s.innermost?.getD f).LivesIn s := by
  have hmem : s.innermost?.getD f ∈ f :: s.copies := by
    cases hcopies : s.copies <;> simp [innermost?, hcopies]
  exact ⟨h.paired _ hmem, h.livesIn hmem⟩

/-- A new working copy holds what was captured for it. -/
theorem Kept.of_settles {copy : Formulation} (h : s.Accounts 2 f) (hhooked : s.hooked = true)
    (hpaired : copy.registry.Paired) (hsettles : copy.Settles s t) :
    s.Kept f [copy] { t with copies := copy :: t.copies, ledger.forks := t.ledger.forks + 1 } := by
  have hcopies : t.copies = s.copies := copies_eq_of_frame hsettles.frame
  refine ⟨h.fork hpaired hsettles hhooked, (hooked_eq_of_frame hsettles.frame).trans hhooked, ?_, ?_⟩
  · show t.ledger.varReleases + ((copy :: t.copies).flatMap _).length =
      s.varsCaptured + ownedBy [copy]
    rw [hsettles.ledger, hcopies, List.flatMap_cons, List.length_append, ownedBy_singleton,
      Session.varsCaptured]
    omega
  · show t.ledger.consReleases + ((copy :: t.copies).flatMap _).length =
      s.conssCaptured + bridgesOf [copy]
    rw [hsettles.ledger, hcopies, List.flatMap_cons, List.length_append, bridgesOf_singleton,
      Session.conssCaptured]
    omega

/-- After a failed fork, what was captured is released again. -/
theorem Kept.of_restored {copy : Formulation} (h : s.Accounts 2 f) (hhooked : s.hooked = true)
    (hrestored : Restored copy s t) : s.Kept f [copy] t := by
  have hcopies : t.copies = s.copies := copies_eq_of_frame hrestored.frame
  refine ⟨h.of_views hrestored.sound hrestored.var? hrestored.cons? hrestored.frame,
    (hooked_eq_of_frame hrestored.frame).trans hhooked, ?_, ?_⟩
  · rw [Session.varsCaptured, Session.varsCaptured, hrestored.varReleases, hcopies,
      ownedBy_singleton]
    omega
  · rw [Session.conssCaptured, Session.conssCaptured, hrestored.consReleases, hcopies,
      bridgesOf_singleton]
    omega

/-- A fork keeps the accounts, whether it goes through or not. -/
theorem forkCopy_ends (h : s.Accounts 2 f) (hhooked : s.hooked = true) :
    Ends (forkCopy f) s
      (fun _ t => s.Kept f [(s.innermost?.getD f).assembled { session := s }] t ∧
        t.innermost? = some ((s.innermost?.getD f).assembled { session := s }))
      fun _ t => s.Kept f [(s.innermost?.getD f).assembled { session := s }] t := by
  obtain ⟨hpaired, hlives⟩ := h.source
  have hfork := fork_ends (e := { session := s }) hpaired h.sound hlives
  refine ends_forkCopy (fun hunready => ?_) fun _ _ =>
    hfork.mono (fun copy e' hend => ?_) fun cause e' hend => ?_
  · -- the problem and the hooks are there, so the fork itself decides
    have hproblem := h.problem
    rcases hunready with hnone | hnone
    · rw [hnone] at hproblem
      cases hproblem
    · rw [hnone] at hhooked
      cases hhooked
  · obtain ⟨rfl, hcaptured⟩ := hend
    have hcopy := hpaired.of_polarities (polarities_of_copies hcaptured.bools)
    exact ⟨.of_settles h hhooked hcopy hcaptured.settles, rfl⟩
  · obtain ⟨-, hrestored⟩ := hend
    obtain ⟨hrestored, -⟩ := hrestored rfl rfl
    exact .of_restored h hhooked hrestored

/-- A discard keeps the accounts and is never rejected. -/
theorem discardCopy_kept (h : s.Accounts 2 f) (hhooked : s.hooked = true) :
    ∃ more t, discardCopy s = .ok more t ∧ s.Kept f [] t := by
  cases hcopies : s.copies with
  | nil => exact ⟨false, s, discardCopy_of_none hcopies, .refl h hhooked⟩
  | cons copy rest =>
      obtain ⟨t, hrun, ht, -, hhooked', hvars, hconss⟩ := discardCopy_accepted h hcopies
      exact ⟨true, t, hrun, ht, hhooked', hvars, hconss⟩

end Session

/-! ## The commands of a strategy -/

namespace Solve

variable {s : State}

theorem solvers_ask {α : Type} (act : EStateM EngineError Solvers α) (reply : α → Reply)
    (s : State) : (ask act reply s).2.solvers = after act s.solvers := by
  unfold ask Effect.after
  cases act s.solvers <;> rfl

/-- A call of the CP store stays away from the engine. -/
theorem engine_domains (ctx : Solve) (s : State) (c : Domains.Call) :
    (ctx.perform s (.domains c)).2.solvers.engine = s.solvers.engine := by
  have hends : Ends (Solvers.onDomains (Domains.perform c)) s.solvers
      (fun _ t => t.engine = s.solvers.engine) fun _ t => t.engine = s.solvers.engine := by
    rw [Solvers.onDomains, ends_onPart]
    exact ends_of_forall (fun _ _ => rfl) fun _ _ => rfl
  rw [perform, solvers_ask]
  exact hends.after

/-- A command keeps the accounts of the primary formulation. -/
theorem perform_kept (ctx : Solve) (hfaults : s.solvers.engine.faults = [])
    (h : s.solvers.session.Accounts 2 ctx.formulation) (hhooked : s.solvers.session.hooked = true)
    (c : Command) : (ctx.perform s c).2.solvers.engine.faults = [] ∧
      s.solvers.session.Kept ctx.formulation (ctx.forked s c) (ctx.perform s c).2.solvers.session := by
  cases c with
  | fork =>
      have hends : Ends (Solvers.onEngine (Engine.forkCopy ctx.formulation)) s.solvers
          (fun _ t => t.engine.faults = [] ∧
            s.solvers.session.Kept ctx.formulation (ctx.forked s .fork) t.session)
          fun _ t => t.engine.faults = [] ∧
            s.solvers.session.Kept ctx.formulation (ctx.forked s .fork) t.session := by
        rw [Solvers.onEngine, ends_onPart, Engine.forkCopy, Engine.ends_call hfaults]
        exact (Session.forkCopy_ends h hhooked).mono (fun _ _ ht => ⟨rfl, ht.1⟩)
          fun _ _ ht => ⟨rfl, ht⟩
      rw [perform, solvers_ask]
      exact hends.after
  | discard =>
      have hends : Ends (Solvers.onEngine Engine.discardCopy) s.solvers
          (fun _ t => t.engine.faults = [] ∧ s.solvers.session.Kept ctx.formulation [] t.session)
          fun _ t => t.engine.faults = [] ∧
            s.solvers.session.Kept ctx.formulation [] t.session := by
        rw [Solvers.onEngine, ends_onPart, Engine.discardCopy, Engine.ends_call hfaults]
        obtain ⟨more, t, hdiscard, ht⟩ := Session.discardCopy_kept h hhooked
        exact ends_of_accepted hdiscard ⟨rfl, ht⟩
      rw [perform, solvers_ask]
      exact hends.after
  | domains c =>
      rw [Solvers.session, Solvers.session, engine_domains]
      exact ⟨hfaults, .refl h hhooked⟩
  | arguments | formulation | workingCopy | session | inTime | setStatus | record | raiseBound
  | outcome | describe => exact ⟨hfaults, .refl h hhooked⟩

/-- A script keeps the accounts of the primary formulation. -/
theorem run_kept (ctx : Solve) (hfaults : s.solvers.engine.faults = [])
    (h : s.solvers.session.Accounts 2 ctx.formulation) (hhooked : s.solvers.session.hooked = true)
    (script : Script) : (ctx.run s script).2.solvers.engine.faults = [] ∧
      s.solvers.session.Kept ctx.formulation (ctx.forkedBy s script)
        (ctx.run s script).2.solvers.session := by
  induction script generalizing s with
  | nil => exact ⟨hfaults, .refl h hhooked⟩
  | cons command rest ih =>
      obtain ⟨hfaults', hstep⟩ :=
        ctx.perform_kept (s := { s with clock := s.clock + 1 }) hfaults h hhooked command
      obtain ⟨hfaults'', hrest⟩ := ih hfaults' hstep.accounts hstep.hooked
      exact ⟨hfaults'', hstep.trans hrest⟩

end Solve

/-! ## Whole runs -/

namespace Live

variable {start s : Live} {forked : List Formulation}

/-- New slots keep the accounts, and nothing is released for them. -/
theorem Balanced.add {backdrop : Session} (h : s.Balanced backdrop) (c : Draft.Call) :
    (after (onRegistry (Draft.perform c)) s).Balanced backdrop := by
  have hends : Ends (onRegistry (Draft.perform c)) s (fun _ t => t.Balanced backdrop)
      fun _ t => t.Balanced backdrop := by
    refine (onRegistry_ends (E := fun _ => True) ?_).mono (fun _ _ ht => ht.1) fun _ _ ht => ht.1
    exact (Draft.keeps_balanced_perform c _ h.draft).mono (fun _ _ hd => hd)
      fun _ _ hd => ⟨hd, trivial⟩
  exact hends.after

/-- A run keeps the accounts. -/
theorem LeadsTo.kept (hfaults : start.solvers.engine.faults = [])
    (haccounts : start.solvers.session.Accounts 2 start.model.formulation)
    (hhooked : start.solvers.session.hooked = true) (h : LeadsTo start s forked) :
    s.solvers.engine.faults = [] ∧
      start.solvers.session.Kept s.model.formulation forked s.solvers.session := by
  -- induction over the run, in which a solve is a run of its script
  induction h with
  | start => exact ⟨hfaults, .refl haccounts hhooked⟩
  | @add s forked c _ ih =>
      obtain ⟨hfaults, hkept⟩ := ih
      have hbalanced : s.Balanced s.solvers.session.backdrop := ⟨hfaults, rfl, hkept.accounts⟩
      have hafter := hbalanced.add c
      exact ⟨hafter.faults, hkept.of_counts hafter.accounts
        (congrArg Session.hooked hafter.backdrop :) (congrArg Session.ledger hafter.backdrop :)
        (congrArg Session.copies hafter.backdrop :)⟩
  | register method script _ ih => exact ih
  | setLimit count _ ih =>
      obtain ⟨hfaults, hkept⟩ := ih
      exact ⟨hfaults, hkept.of_counts (hkept.accounts.setLimit count) rfl rfl rfl⟩
  | @solve s forked objective limit script done now _ _ _ ih =>
      obtain ⟨hfaults, hkept⟩ := ih
      have hrun := (s.context objective limit now).run_kept
        (s := ⟨s.solvers, s.model.outcome, now⟩) hfaults
        (hkept.accounts.of_registry rfl rfl rfl) hkept.hooked done
      exact ⟨hrun.1, hkept.trans hrun.2⟩

end Live

/-- In unused solvers the session is cleared, and no fault is armed. -/
theorem Unused.cleared {solvers : Solvers} (h : Unused solvers) :
    solvers.session.Cleared ∧ solvers.engine.faults = [] := by
  induction h with
  | fresh limit => exact ⟨Session.cleared_fresh limit, rfl⟩
  | setLimit count _ ih =>
      obtain ⟨hcleared, hfaults⟩ := ih
      exact ⟨hcleared.setLimit count, hfaults⟩
  | domains domains _ ih => exact ih
  | rejected _ hcreate ih =>
      obtain ⟨cause, -, hcleared, hfaults, -⟩ :=
        (Model.create_ends ih.1 ih.2 _).rejected hcreate
      exact ⟨hcleared, hfaults⟩
  | dropped _ hcreate hleads hdrop ih =>
      obtain ⟨hprepared, hhooked⟩ := (Model.create_ends ih.1 ih.2 _).accepted hcreate
      obtain ⟨hfaults, hkept⟩ := hleads.kept hprepared.faults hprepared.accounts hhooked
      obtain ⟨t, hdrop', hdropped⟩ := Model.drop_accepted hkept.accounts hfaults
      rw [hdrop'] at hdrop
      cases hdrop
      exact ⟨hdropped.cleared, rfl⟩

end JointModel
