import JointModel.Proofs.Model.Bookkeeping

/-!
# Every use is given back once

Whatever happens to a model, it can be dropped, and then every use that was captured
for it has been given back: one for each handle of the primary formulation and one for
each handle that a fork found, whether the fork went through or not
(`dropped_after_run`).  On the way there no release is ever rejected
(`ReleasesAccepted`): adding slots releases nothing, what a failed fork captured can be
released without exception, and so can every working copy.

The session is then as good as new, so everything is true of the next model in it.
-/

namespace JointModel

open Effect Formulation

namespace Live

/-- The formulation that the next fork starts from. -/
def source (s : Live) : Formulation := s.solvers.session.innermost?.getD s.model.formulation

/-- No release is rejected, whatever happens next. -/
structure ReleasesAccepted (s : Live) : Prop where
  /-- Adding slots calls for no release. -/
  add : ∀ c, (after (onRegistry (Draft.perform c)) s).solvers.session.ledger =
    s.solvers.session.ledger
  discard : ∃ more t, Session.discardCopy s.solvers.session = .ok more t
  /-- The releases after a failed fork would be accepted if a rejection counted. -/
  rollback : ∀ cause a,
    Assembly.capture s.source ⟨{ session := s.solvers.session }, s.source.blank⟩ = .error cause a →
      ∃ e, a.formulation.release a.engine = .ok () e ∧ a.formulation.abandon a.engine = .ok () e
  /-- A fork that goes through hands over everything that it put together. -/
  fork : ∀ depth t, Session.forkCopy s.model.formulation s.solvers.session = .ok depth t →
    t.innermost? = some (s.source.assembled { session := s.solvers.session })

theorem releasesAccepted {s : Live} (hfaults : s.solvers.engine.faults = [])
    (h : s.solvers.session.Accounts 2 s.model.formulation)
    (hhooked : s.solvers.session.hooked = true) : s.ReleasesAccepted where
  add c := by
    have hbalanced : s.Balanced s.solvers.session.backdrop := ⟨hfaults, rfl, h⟩
    exact (congrArg Session.ledger (hbalanced.add c).backdrop :)
  discard := by
    obtain ⟨more, t, hdiscard, -⟩ := Session.discardCopy_kept h hhooked
    exact ⟨more, t, hdiscard⟩
  rollback cause a hrun := by
    obtain ⟨hpaired, hlives⟩ := h.source
    have hcapture := capture_ends (e := { session := s.solvers.session }) hpaired h.sound hlives
    have hblocked := hcapture.rejected hrun
    obtain ⟨t, hrelease, habandon, -⟩ := hblocked.released rfl rfl
    exact ⟨_, hrelease, habandon⟩
  fork depth t hrun := ((Session.forkCopy_ends h hhooked).accepted hrun).2

end Live

namespace Model

/-- Everything is given back: the solvers `t` are left by a model that was created in the
session `start` and dropped after the run that led to `s`. -/
structure GivenBack (start : Session) (s : Live) (forked : List Formulation) (t : Solvers) :
    Prop where
  blocks : t.session.blocks = 0
  problem : t.session.problem = none
  handlers : t.session.handlers = []
  hooked : t.session.hooked = false
  copies : t.session.copies = []
  settled : t.session.ledger.discards = t.session.ledger.forks
  varReleases : t.session.ledger.varReleases = start.ledger.varReleases +
    (s.model.formulation.registry.ownedVars.length + ownedBy forked)
  consReleases : t.session.ledger.consReleases = start.ledger.consReleases +
    (s.model.formulation.bridge.toList.length + bridgesOf forked)
  unused : Unused t
  /-- With blocks enough, there is room for another model. -/
  reusable : ∀ config : Config, config.defect? = none → ∃ m u,
    create config { t with engine.session := t.session.setLimit none } = .ok m u

variable {solvers : Solvers}

/-- After any run of a model, no release was or will be rejected, the forks are balanced
by the discards and the copies that are left, and dropping the model gives back every use
that was captured. -/
theorem dropped_after_run (h : Unused solvers) {config : Config} {m : Model} {t : Solvers}
    (hcreate : create config solvers = .ok m t) {s : Live} {forked : List Formulation}
    (hrun : Live.LeadsTo ⟨m, t⟩ s forked) :
    t.session.ledger = solvers.session.ledger ∧ s.ReleasesAccepted ∧
      s.solvers.session.ledger.forks =
        s.solvers.session.ledger.discards + s.solvers.session.depth ∧
      ∃ u, s.model.drop s.solvers = .ok () u ∧ GivenBack solvers.session s forked u := by
  obtain ⟨hcleared, hfaults⟩ := h.cleared
  obtain ⟨hprepared, hhooked⟩ := (create_ends hcleared hfaults config).accepted hcreate
  obtain ⟨hfaults', hkept⟩ := hrun.kept hprepared.faults hprepared.accounts hhooked
  have hledger : t.session.ledger = solvers.session.ledger := hprepared.ledger
  have hcopies : t.session.copies = [] := hprepared.copies
  obtain ⟨u, hdrop, hdropped⟩ := drop_accepted hkept.accounts hfaults'
  have hunused : Unused { s.solvers with engine := { session := u } } :=
    .dropped h hcreate hrun hdrop
  refine ⟨hledger, Live.releasesAccepted hfaults' hkept.accounts hkept.hooked,
    hkept.accounts.depth, _, hdrop, ?_⟩
  -- nothing was captured for copies yet when the model was created
  have hvars : t.session.varsCaptured = solvers.session.ledger.varReleases := by
    rw [Session.varsCaptured, hledger, hcopies, List.flatMap_nil, List.length_nil, Nat.add_zero]
  have hconss : t.session.conssCaptured = solvers.session.ledger.consReleases := by
    rw [Session.conssCaptured, hledger, hcopies, List.flatMap_nil, List.length_nil, Nat.add_zero]
  have hkeptVars : s.solvers.session.varsCaptured = t.session.varsCaptured + ownedBy forked :=
    hkept.varsCaptured
  have hkeptConss : s.solvers.session.conssCaptured = t.session.conssCaptured + bridgesOf forked :=
    hkept.conssCaptured
  exact
    { blocks := hdropped.cleared.blocks
      problem := hdropped.cleared.problem
      handlers := hdropped.cleared.handlers
      hooked := hdropped.cleared.hooked
      copies := hdropped.cleared.copies
      settled := hdropped.cleared.settled
      varReleases := by
        calc u.ledger.varReleases
            = s.solvers.session.varsCaptured + s.model.formulation.registry.ownedVars.length :=
              hdropped.varReleases
          _ = solvers.session.ledger.varReleases + ownedBy forked +
                s.model.formulation.registry.ownedVars.length := by rw [hkeptVars, hvars]
          _ = _ := by omega
      consReleases := by
        calc u.ledger.consReleases
            = s.solvers.session.conssCaptured + s.model.formulation.bridge.toList.length :=
              hdropped.consReleases
          _ = solvers.session.ledger.consReleases + bridgesOf forked +
                s.model.formulation.bridge.toList.length := by rw [hkeptConss, hconss]
          _ = _ := by omega
      unused := hunused
      reusable := fun config hconfig =>
        create_accepted (hdropped.cleared.setLimit none) rfl rfl hconfig }

/-- A model is dropped while a working copy is left. -/
theorem dropped_after_run_copies : Unused {} ∧ ∃ m t s forked, create {} {} = .ok m t ∧
    Live.LeadsTo ⟨m, t⟩ s forked ∧ s.solvers.session.depth = 1 ∧ s.ReleasesAccepted ∧
    ∃ u, s.model.drop s.solvers = .ok () u ∧ GivenBack {} s forked u := by
  have hunused : Unused {} := .fresh none
  obtain ⟨m, t, s, forked, hcreate, hrun, hdepth⟩ := exists_forkingRun
  obtain ⟨-, haccepted, -, hdropped⟩ := dropped_after_run hunused hcreate hrun
  exact ⟨hunused, m, t, s, forked, hcreate, hrun, hdepth, haccepted, hdropped⟩

end Model

end JointModel
