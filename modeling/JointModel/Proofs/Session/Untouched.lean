import JointModel.Proofs.Formulation.WorkingCopies
import JointModel.Proofs.Session.Rejections

/-!
# Rejected calls that leave no trace

Copies and enrolments can be rejected half-way.  Of the calls that check before they act, a
rejected one leaves the session as it was (`perform_rejected`), except that a release is entered
in the ledger first (`Call.entered`).

A fork acts before it is rejected, but it takes everything back.  Handles are then taken from and
given back to the tables, and blocks were allocated, so it is not the same session; but every
handle stands for what it stood for before (`fork_untouched`).  For this the handles that the
formulation owns have to be alive.  Its bridge need not be: it comes first, and without it nothing
is captured at all.
-/

namespace JointModel

open Effect

namespace Formulation

variable {f : Formulation} {s t : Session}

/-- Every variable that the formulation owns is alive, and none is an alias. -/
def OwnedAlive (f : Formulation) (s : Session) : Prop := ∀ v ∈ f.registry.ownedVars, s.Positive v

/-- If the bridge is gone, the first step of a fork is rejected. -/
theorem fork_of_dead_bridge {c : ConsId} (hbridge : f.bridge = some c) (hc : s.cons? c = none) :
    f.fork { session := s } = .error (.invalidCons c) { session := s } := by
  have hcopy : Session.copyCons c s = .error (.invalidCons c) s := by
    simp [Session.copyCons, Session.getCons, hc]
  have hcapture : Assembly.capture f ⟨{ session := s }, f.blank⟩ =
      .error (.invalidCons c) ⟨{ session := s }, f.blank⟩ := by
    simp [Assembly.capture, Assembly.captureBridge, Assembly.onEngine, Effect.onPart, hbridge,
      Engine.copyCons, Engine.call_of_unarmed, hcopy]
  have habandon : f.blank.abandon { session := s } = .ok () { session := s } := rfl
  simp only [fork, hcapture, habandon]

/-- A fork that is rejected takes back what it captured. -/
theorem fork_untouched (hbuilt : f.Built) (hs : s.Sound) (halive : f.OwnedAlive s) :
    Ends f.fork { session := s } (fun _ _ => True) fun _ e =>
      e.session.var? = s.var? ∧ e.session.cons? = s.cons? ∧ e.session.frame = s.frame := by
  by_cases hdead : ∃ c, f.bridge = some c ∧ s.cons? c = none
  · obtain ⟨c, hbridge, hc⟩ := hdead
    exact ends_of_rejected (fork_of_dead_bridge hbridge hc) ⟨rfl, rfl, rfl⟩
  · have hlives : f.LivesIn s := by
      refine ⟨halive, fun {c} hbridge => Option.ne_none_iff_exists'.mp fun hc => ?_⟩
      exact hdead ⟨c, hbridge, hc⟩
    refine (fork_ends (e := { session := s }) hbuilt.paired hs hlives).mono
      (fun _ _ _ => trivial) fun _ e he => ?_
    obtain ⟨hrestored, -⟩ := he.2 rfl rfl
    exact ⟨hrestored.var?, hrestored.cons?, hrestored.frame⟩

end Formulation

namespace Session

variable {s t : Session} {c : Call} {cause : EngineError}

/-- The calls that leave no trace if they are rejected.  A fork relies on what it forks. -/
def TakesBack (s : Session) : Call → Prop
  | .enrolVar _ | .copyVar _ | .enrolCons _ | .discardCopy | .close => False
  | .forkCopy source =>
    (s.innermost?.getD source).Built ∧ (s.innermost?.getD source).OwnedAlive s
  | _ => True

/-- What a call enters in the ledger before it is checked. -/
def Call.entered (s : Session) : Call → Session
  | .releaseVar _ => { s with ledger.varReleases := s.ledger.varReleases + 1 }
  | .releaseCons _ => { s with ledger.consReleases := s.ledger.consReleases + 1 }
  | _ => s

/-- After a call that was rejected, every handle stands for what it stood for before, and the
settings, the problem, the handlers, the hooks and the working copies are the same.  Unless the call
was a fork, so is all the rest, but for the release that was entered in the ledger. -/
structure Untouched (c : Call) (s t : Session) : Prop where
  var? : t.var? = s.var?
  cons? : t.cons? = s.cons?
  frame : t.frame = s.frame
  rest : (∀ source, c ≠ .forkCopy source) → t = c.entered s

theorem untouched_entered (c : Call) (s : Session) : Untouched c s (c.entered s) := by
  cases c <;> exact ⟨rfl, rfl, rfl, fun _ => rfl⟩

theorem modifyProblem_rejected (change : Problem → Problem) :
    Ends (modifyProblem change) s (fun _ _ => True) fun _ t => t = s := by
  unfold Ends modifyProblem
  cases s.problem with
  | none => rfl
  | some problem => trivial

theorem dropVarUse_rejected (v : VarId) :
    Ends (dropVarUse v) s (fun _ _ => True) fun _ t => t = s :=
  ends_dropVarUse v (fun _ _ _ _ => trivial) (fun _ _ _ _ _ => trivial) fun _ => rfl

theorem dropConsUse_rejected (c : ConsId) :
    Ends (dropConsUse c) s (fun _ _ => True) fun _ t => t = s :=
  ends_dropConsUse c (fun _ _ => trivial) (fun _ _ _ => trivial) fun _ => rfl

theorem forkCopy_rejected (hs : s.Sound) {source : Formulation} (h : s.TakesBack (.forkCopy source)) :
    Ends (forkCopy source) s (fun _ _ => True) fun _ t => Untouched (.forkCopy source) s t := by
  refine ends_forkCopy (fun _ _ => untouched_entered _ s) fun _ _ => ?_
  refine (Formulation.fork_untouched h.1 hs h.2).mono (fun _ _ _ => trivial) fun _ e he => ?_
  exact ⟨he.1, he.2.1, he.2.2, fun hother => absurd rfl (hother source)⟩

/-- The calls, one by one. -/
theorem perform_rejected (hs : s.Sound) (hc : s.TakesBack c) :
    Ends (perform c) s (fun _ _ => True) fun _ t => Untouched c s t := by
  have hsame : ∀ {act : Run Answer}, Ends act s (fun _ _ => True) (fun _ t => t = c.entered s) →
      Ends act s (fun _ _ => True) fun _ t => Untouched c s t := fun hact =>
    hact.mono (fun _ _ _ => trivial) fun _ _ ht => ht ▸ untouched_entered c s
  cases c with
  | changeSetting setting =>
      refine hsame (ends_map.mpr ?_)
      unfold Ends changeSetting
      split_ifs <;> simp [Call.entered]
  | newProblem name =>
      refine hsame (ends_map.mpr ?_)
      unfold Ends newProblem
      cases s.problem <;> simp [Call.entered]
  | setSense sense => exact hsame (ends_map.mpr (modifyProblem_rejected _))
  | setIntegral => exact hsame (ends_map.mpr (modifyProblem_rejected _))
  | newVar name lb ub obj kind =>
      exact hsame (ends_map.mpr
        (ends_newVar hs.vars name lb ub obj kind (fun _ _ _ => trivial) fun _ => rfl))
  | negateVar v =>
      exact hsame (ends_map.mpr (ends_negateVar hs.vars v (fun _ _ _ _ => trivial)
        (fun _ _ _ _ => trivial) fun _ => rfl))
  | releaseVar v => exact hsame (ends_map.mpr (ends_bind.mpr (dropVarUse_rejected v)))
  | addHandler name =>
      refine hsame (ends_map.mpr ?_)
      unfold Ends addHandler
      split_ifs <;> simp [Call.entered]
  | newCons handler name =>
      exact hsame (ends_map.mpr
        (ends_newCons hs.conss handler name (fun _ _ _ => trivial) fun _ => rfl))
  | copyCons d =>
      exact hsame (ends_map.mpr
        (ends_copyCons hs.conss d (fun _ _ _ _ _ => trivial) fun _ => rfl))
  | releaseCons d => exact hsame (ends_map.mpr (ends_bind.mpr (dropConsUse_rejected d)))
  | installHooks => exact trivial
  | forkCopy source => exact ends_map.mpr (forkCopy_rejected hs hc)
  | enrolVar | copyVar | enrolCons | discardCopy | close => exact hc.elim

/-- A release of what is no entry of its own. -/
theorem releaseVar_of_not_positive {v : VarId} (hv : ¬ s.Positive v) :
    ∃ cause, releaseVar v s = .error cause ((Call.releaseVar v).entered s) := by
  have hends : Ends (releaseVar v) s (fun _ _ => False)
      fun _ t => t = (Call.releaseVar v).entered s :=
    ends_bind.mpr (ends_dropVarUse v (fun entry m hlive hlink => hv ⟨entry, m, hlive, hlink⟩)
      (fun entry m hlive hlink _ => hv ⟨entry, m, hlive, hlink⟩) fun _ => rfl)
  cases hrun : releaseVar v s with
  | ok _ t => exact (hends.accepted hrun).elim
  | error cause t => exact ⟨cause, by rw [hends.rejected hrun]⟩

theorem releaseCons_of_dead {d : ConsId} (hd : s.cons? d = none) :
    releaseCons d s = .error (.invalidCons d) ((Call.releaseCons d).entered s) :=
  dropConsUse_of_dead (s := (Call.releaseCons d).entered s) hd

/-- A rejected call leaves no trace but the releases that are entered in the ledger, and, if it was
a fork, the blocks and the numbers that it took and gave back.  Releases of aliases and of
handles that stand for nothing are rejected, so they change no count of uses. -/
theorem rejections_untouched (hs : s.Reachable) :
    (∀ c cause t, s.TakesBack c → perform c s = .error cause t → Untouched c s t) ∧
    (∀ v, ¬ s.Positive v →
      ∃ cause, releaseVar v s = .error cause ((Call.releaseVar v).entered s)) ∧
    (∀ d, s.cons? d = none →
      releaseCons d s = .error (.invalidCons d) ((Call.releaseCons d).entered s)) :=
  ⟨fun _ _ _ hc hrun => (perform_rejected hs.sound hc).rejected hrun,
    fun _ hv => releaseVar_of_not_positive hv, fun _ hd => releaseCons_of_dead hd⟩

/-- A session with the entries of a new model, and with too few blocks left to copy it. -/
def crampedSession : Session :=
  (history (Formulation.seedCalls ++ [.installHooks])).setLimit (some 3)

/-- The fork is rejected at its last handle, and the release of an alias at once. -/
theorem rejections_untouched_cramped : crampedSession.Reachable ∧
    crampedSession.TakesBack (.forkCopy Formulation.seed) ∧ ¬ crampedSession.Positive ⟨1⟩ ∧
    (∃ cause t, perform (.forkCopy Formulation.seed) crampedSession = .error cause t ∧
      t.allocations = crampedSession.allocations + 3 ∧
      Untouched (.forkCopy Formulation.seed) crampedSession t) ∧
    ∃ cause, releaseVar ⟨1⟩ crampedSession =
      .error cause ((Call.releaseVar ⟨1⟩).entered crampedSession) := by
  have hreachable : crampedSession.Reachable := (reachable_history _).setLimit _
  have htakes : crampedSession.TakesBack (.forkCopy Formulation.seed) :=
    ⟨Formulation.built_seed, Formulation.livesIn_seed.vars⟩
  have halias : ¬ crampedSession.Positive ⟨1⟩ := by
    rintro ⟨entry, n, hv, hlink⟩
    cases hv
    cases hlink
  obtain ⟨hcalls, hreleases, -⟩ := rejections_untouched hreachable
  obtain ⟨cause, hrun⟩ : ∃ cause, perform (.forkCopy Formulation.seed) crampedSession =
      .error cause (after (perform (.forkCopy Formulation.seed)) crampedSession) :=
    exists_of_not_accepts (by decide +kernel)
  refine ⟨hreachable, htakes, halias, ⟨cause, _, hrun, by decide +kernel, ?_⟩, hreleases ⟨1⟩ halias⟩
  exact hcalls _ cause _ htakes hrun

end Session

end JointModel
