import JointModel.Proofs.Engine
import JointModel.Proofs.Session.Invariant

/-!
# All histories of a session keep it sound

`Reachable` collects the sessions that calls and changes of the limit lead to
from a fresh one.  They are all sound (`Reachable.sound`), whatever handles and
formulations the calls were made with.

Forks and releases make only five kinds of calls on a session: three capture
(`Capturing`) and two release (`Releasing`).  What all five keep (`Durable`), every
fork, release and rollback keeps, in the reach of faults or out of it.  A fork
captures first, and releases only when it is rolled back (`ends_fork_of_phases`).
-/

namespace JointModel

open Effect

namespace Session

/-! ## The calls on single entries -/

theorem keeps_getVar {P : Session → Prop} (v : VarId) : Keeps P (getVar v) := by
  intro s hs
  unfold Ends getVar
  cases s.var? v <;> exact hs

theorem keeps_getCons {P : Session → Prop} (c : ConsId) : Keeps P (getCons c) := by
  intro s hs
  unfold Ends getCons
  cases s.cons? c <;> exact hs

theorem keeps_requireProblem {P : Session → Prop} : Keeps P requireProblem := by
  intro s hs
  unfold Ends requireProblem
  cases s.problem <;> exact hs

theorem keeps_requireHandler {P : Session → Prop} (name : String) :
    Keeps P (requireHandler name) := by
  intro s hs
  cases hhandler : s.hasHandler name with
  | true => exact ends_of_accepted (a := ()) (by simp [requireHandler, hhandler]) hs
  | false =>
      exact ends_of_rejected (e := .unknownHandler name) (by simp [requireHandler, hhandler]) hs

theorem keeps_requireHooks {P : Session → Prop} : Keeps P requireHooks := by
  intro s hs
  cases hhooked : s.hooked with
  | true => exact ends_of_accepted (a := ()) (by simp [requireHooks, hhooked]) hs
  | false => exact ends_of_rejected (e := .noHooks) (by simp [requireHooks, hhooked]) hs

theorem keeps_dropVarUse (v : VarId) : Keeps Sound (dropVarUse v) := fun _ hs =>
  ends_dropVarUse v (fun _ _ hv hlink => hs.freeVar hv hlink)
    (fun _ _ hv hlink huses => hs.modifyUses hv hlink (· - 1) (Nat.sub_pos_of_lt huses))
    fun _ => hs

theorem keeps_dropConsUse (c : ConsId) : Keeps Sound (dropConsUse c) := fun _ hs =>
  ends_dropConsUse c (fun _ hc => hs.freeCons hc)
    (fun _ hc huses => hs.modifyConsUses hc (· - 1) (Nat.sub_pos_of_lt huses)) fun _ => hs

theorem keeps_releaseVar (v : VarId) : Keeps Sound (releaseVar v) :=
  Keeps.bind (fun _ hs => hs.of_tables rfl rfl hs.hooked) fun _ => keeps_dropVarUse v

theorem keeps_releaseCons (c : ConsId) : Keeps Sound (releaseCons c) :=
  Keeps.bind (fun _ hs => hs.of_tables rfl rfl hs.hooked) fun _ => keeps_dropConsUse c

theorem keeps_negateVar (v : VarId) : Keeps Sound (negateVar v) := fun _ hs =>
  ends_negateVar hs.vars v (fun _ _ _ _ => hs) (fun _ _ _ ht => ht.sound hs) fun _ => hs

theorem keeps_copyEntry (entry : VarInfo) : Keeps Sound (copyEntry entry) := by
  intro s hs
  refine (copyEntry_ends hs.vars entry).mono (fun v t ht => ?_) fun _ t ht => ht.1 ▸ hs
  exact ht.2.sound hs rfl Nat.one_pos

theorem keeps_copyVar (v : VarId) : Keeps Sound (copyVar v) := by
  refine Keeps.bind (keeps_getVar v) fun entry => ?_
  cases entry.link with
  | positive m => exact keeps_copyEntry entry
  | negation p =>
      exact Keeps.bind (keeps_getVar p) fun partner =>
        Keeps.bind (keeps_copyEntry partner) keeps_negateVar

theorem keeps_copyCons (c : ConsId) : Keeps Sound (copyCons c) := fun _ hs =>
  ends_copyCons hs.conss c (fun _ _ _ _ ht => ht.sound hs Nat.one_pos) fun _ => hs

theorem keeps_newVar (name : String) (lb ub obj : Float) (kind : VarKind) :
    Keeps Sound (newVar name lb ub obj kind) := fun _ hs =>
  ends_newVar hs.vars name lb ub obj kind (fun _ _ ht => ht.sound hs rfl Nat.one_pos) fun _ => hs

theorem keeps_enrolVar (v : VarId) : Keeps Sound (enrolVar v) := fun _ hs =>
  ends_enrolVar v
    (fun _ _ _ hv hlink _ => (hs.useVar hv hlink).of_tables rfl rfl hs.hooked)
    (fun _ _ _ hv hlink => hs.useVar hv hlink) fun _ => hs

theorem keeps_newCons (handler name : String) : Keeps Sound (newCons handler name) := fun _ hs =>
  ends_newCons hs.conss handler name (fun _ _ ht => ht.sound hs Nat.one_pos) fun _ => hs

theorem keeps_enrolCons (c : ConsId) : Keeps Sound (enrolCons c) := fun _ hs =>
  ends_enrolCons c
    (fun _ _ hc _ => (hs.modifyConsUses hc (· + 1) (Nat.succ_pos _)).of_tables rfl rfl hs.hooked)
    (fun _ _ hc => hs.modifyConsUses hc (· + 1) (Nat.succ_pos _)) fun _ => hs

/-! ## Calls on settings, the problem and handlers -/

/-- A condition that depends neither on the settings nor on the problem nor on the
handlers. -/
structure Indifferent (P : Session → Prop) : Prop where
  settings : ∀ {s : Session} settings, P s → P { s with settings }
  problem : ∀ {s : Session} problem, P s → P { s with problem }
  handlers : ∀ {s : Session} handlers, P s → P { s with handlers }

theorem indifferent_sound : Indifferent Sound where
  settings _ hs := hs.of_tables rfl rfl hs.hooked
  problem _ hs := hs.of_tables rfl rfl hs.hooked
  handlers _ hs := hs.of_tables rfl rfl hs.hooked

section Indifferent

variable {P : Session → Prop}

theorem Indifferent.changeSetting (h : Indifferent P) (setting : Setting) :
    Keeps P (changeSetting setting) := by
  intro s hs
  by_cases hsetting : setting = .maxThreads 0
  · exact ends_of_rejected (by rw [Session.changeSetting, if_pos hsetting]) hs
  · exact ends_of_accepted (by rw [Session.changeSetting, if_neg hsetting]) (h.settings _ hs)

theorem Indifferent.newProblem (h : Indifferent P) (name : String) : Keeps P (newProblem name) := by
  intro s hs
  unfold Ends Session.newProblem
  cases s.problem with
  | none => exact h.problem _ hs
  | some problem => exact hs

theorem Indifferent.modifyProblem (h : Indifferent P) (change : Problem → Problem) :
    Keeps P (modifyProblem change) := by
  intro s hs
  unfold Ends Session.modifyProblem
  cases s.problem with
  | none => exact hs
  | some problem => exact h.problem _ hs

theorem Indifferent.addHandler (h : Indifferent P) (name : String) : Keeps P (addHandler name) := by
  intro s hs
  unfold Ends Session.addHandler
  cases s.hasHandler name with
  | true => exact hs
  | false => exact h.handlers _ hs

theorem Indifferent.dropProblem (h : Indifferent P)
    (hmembers : ∀ problem, Keeps P (dropMembers problem)) : Keeps P dropProblem := by
  intro s hs
  unfold Ends Session.dropProblem
  cases s.problem with
  | none => exact hs
  | some problem => exact hmembers problem _ (h.problem none hs)

end Indifferent

/-! ## Forks and releases -/

/-- A condition that the calls by which a copy is captured keep. -/
structure Capturing (P : Session → Prop) : Prop where
  copyVar : ∀ v, Keeps P (copyVar v)
  negateVar : ∀ v, Keeps P (negateVar v)
  copyCons : ∀ c, Keeps P (copyCons c)

/-- A condition that the calls by which a formulation is released keep. -/
structure Releasing (P : Session → Prop) : Prop where
  releaseVar : ∀ v, Keeps P (releaseVar v)
  releaseCons : ∀ c, Keeps P (releaseCons c)

/-- A condition that the calls by which formulations are forked and released
keep. -/
structure Durable (P : Session → Prop) : Prop extends Capturing P, Releasing P

theorem durable_sound : Durable Sound where
  copyVar := keeps_copyVar
  negateVar := keeps_negateVar
  copyCons := keeps_copyCons
  releaseVar := keeps_releaseVar
  releaseCons := keeps_releaseCons

theorem Durable.and {P Q : Session → Prop} (hP : Durable P) (hQ : Durable Q) :
    Durable fun s => P s ∧ Q s where
  copyVar v := (hP.copyVar v).and (hQ.copyVar v)
  negateVar v := (hP.negateVar v).and (hQ.negateVar v)
  copyCons c := (hP.copyCons c).and (hQ.copyCons c)
  releaseVar v := (hP.releaseVar v).and (hQ.releaseVar v)
  releaseCons c := (hP.releaseCons c).and (hQ.releaseCons c)

section Frame

variable (frame : Session)

theorem keeps_frame_allocate (name : String) :
    Keeps (fun s => s.frame = frame) (allocate name) := by
  intro s hs
  refine (allocate_ends s name).mono (fun _ t ht => ?_) fun _ t ht => ht.1 ▸ hs
  rw [ht.2, ← hs]
  rfl

theorem keeps_frame_allocateVar (entry : VarInfo) :
    Keeps (fun s => s.frame = frame) (allocateVar entry) :=
  (keeps_frame_allocate frame entry.name).bind fun _ _ hs => hs

theorem keeps_frame_negateVar (v : VarId) :
    Keeps (fun s => s.frame = frame) (negateVar v) := by
  refine (keeps_getVar v).bind fun entry => ?_
  cases entry.link with
  | negation p => exact keeps_pure p
  | positive m =>
      cases m with
      | some n => exact keeps_pure n
      | none => exact (keeps_frame_allocateVar frame _).bind fun n _ hs => hs

theorem keeps_frame_copyVar (v : VarId) : Keeps (fun s => s.frame = frame) (copyVar v) := by
  refine (keeps_getVar v).bind fun entry => ?_
  cases entry.link with
  | positive m => exact keeps_frame_allocateVar frame _
  | negation p =>
      exact (keeps_getVar p).bind fun partner =>
        (keeps_frame_allocateVar frame _).bind (keeps_frame_negateVar frame)

theorem keeps_frame_dropVarUse (v : VarId) :
    Keeps (fun s => s.frame = frame) (dropVarUse v) := by
  refine (keeps_getVar v).bind fun entry => ?_
  cases entry.link with
  | negation p => exact keeps_throw _
  | positive m =>
      dsimp only
      split <;> exact fun _ hs => hs

theorem keeps_frame_dropConsUse (c : ConsId) :
    Keeps (fun s => s.frame = frame) (dropConsUse c) := by
  refine (keeps_getCons c).bind fun entry => ?_
  split <;> exact fun _ hs => hs

theorem durable_frame : Durable fun s => s.frame = frame where
  copyVar := keeps_frame_copyVar frame
  negateVar := keeps_frame_negateVar frame
  releaseVar v := Keeps.bind (fun _ hs => hs) fun _ => keeps_frame_dropVarUse frame v
  copyCons c := (keeps_getCons c).bind fun entry =>
    (keeps_frame_allocate frame entry.name).bind fun _ _ hs => hs
  releaseCons c := Keeps.bind (fun _ hs => hs) fun _ => keeps_frame_dropConsUse frame c

/-- What depends on the frame alone is kept. -/
theorem Durable.of_frame {P : Session → Prop} (h : ∀ s t : Session, t.frame = s.frame → P s → P t) :
    Durable P := by
  have keeps : ∀ {α : Type} {act : Run α}, (∀ frame, Keeps (fun s => s.frame = frame) act) →
      Keeps P act := fun hact s hs =>
    (hact s.frame s rfl).mono (fun _ t ht => h s t ht hs) fun _ t ht => h s t ht hs
  exact
    { copyVar := fun v => keeps fun frame => (durable_frame frame).copyVar v
      negateVar := fun v => keeps fun frame => (durable_frame frame).negateVar v
      copyCons := fun c => keeps fun frame => (durable_frame frame).copyCons c
      releaseVar := fun v => keeps fun frame => (durable_frame frame).releaseVar v
      releaseCons := fun c => keeps fun frame => (durable_frame frame).releaseCons c }

theorem durable_limit (limit : Option Nat) : Durable fun s => s.limit = limit :=
  .of_frame fun _ _ hframe hs => (limit_eq_of_frame hframe).trans hs

end Frame

end Session

namespace Engine

/-- The same for a condition on the engine, and calls through it. -/
structure Capturing (P : Engine → Prop) : Prop where
  copyVar : ∀ v, Keeps P (copyVar v)
  negateVar : ∀ v, Keeps P (negateVar v)
  copyCons : ∀ c, Keeps P (copyCons c)

structure Releasing (P : Engine → Prop) : Prop where
  releaseVar : ∀ v, Keeps P (releaseVar v)
  releaseCons : ∀ c, Keeps P (releaseCons c)

structure Durable (P : Engine → Prop) : Prop extends Capturing P, Releasing P

theorem Durable.and {P Q : Engine → Prop} (hP : Durable P) (hQ : Durable Q) :
    Durable fun e => P e ∧ Q e where
  copyVar v := (hP.copyVar v).and (hQ.copyVar v)
  negateVar v := (hP.negateVar v).and (hQ.negateVar v)
  copyCons c := (hP.copyCons c).and (hQ.copyCons c)
  releaseVar v := (hP.releaseVar v).and (hQ.releaseVar v)
  releaseCons c := (hP.releaseCons c).and (hQ.releaseCons c)

theorem durable_unarmed : Durable fun e => e.faults = [] where
  copyVar _ := keeps_unarmed_call
  negateVar _ := keeps_unarmed_call
  releaseVar _ := keeps_unarmed_call
  copyCons _ := keeps_unarmed_call
  releaseCons _ := keeps_unarmed_call

end Engine

namespace Session

variable {P : Session → Prop}

theorem Capturing.engine (h : Capturing P) : Engine.Capturing fun e => P e.session where
  copyVar v := Engine.keeps_call (h.copyVar v)
  negateVar v := Engine.keeps_call (h.negateVar v)
  copyCons c := Engine.keeps_call (h.copyCons c)

theorem Releasing.engine (h : Releasing P) : Engine.Releasing fun e => P e.session where
  releaseVar v := Engine.keeps_call (h.releaseVar v)
  releaseCons c := Engine.keeps_call (h.releaseCons c)

theorem Durable.engine (h : Durable P) : Engine.Durable fun e => P e.session :=
  { h.toCapturing.engine, h.toReleasing.engine with }

end Session

namespace Formulation

variable {P : Engine → Prop}

theorem keeps_release (h : Engine.Releasing P) (f : Formulation) : Keeps P f.release :=
  Keeps.bind (Keeps.forM h.releaseCons) fun _ => Keeps.forM h.releaseVar

theorem keeps_attempt {act : Engine.Run Unit} (h : Keeps P act) : Keeps P (attempt act) :=
  h.tryCatch fun _ => keeps_pure ()

theorem keeps_abandon (h : Engine.Releasing P) (f : Formulation) : Keeps P f.abandon :=
  Keeps.bind (Keeps.forM fun c => keeps_attempt (h.releaseCons c)) fun _ =>
    Keeps.forM fun v => keeps_attempt (h.releaseVar v)

namespace Assembly

theorem keeps_onEngine {α : Type} {act : Engine.Run α} (h : Keeps P act) :
    Keeps (fun a : Assembly => P a.engine) (onEngine act) :=
  Keeps.onPart h fun _ _ => rfl

theorem keeps_captureBridge (h : Engine.Capturing P) (c : ConsId) :
    Keeps (fun a : Assembly => P a.engine) (captureBridge c) :=
  (keeps_onEngine (h.copyCons c)).bind fun _ _ hs => hs

theorem keeps_captureBoolHandle (h : Engine.Capturing P) (slot : BoolSlot) :
    Keeps (fun a : Assembly => P a.engine) (captureBoolHandle slot) := by
  unfold captureBoolHandle
  cases slot.polarity with
  | positive n => exact keeps_onEngine (h.copyVar _)
  | negated p => exact Keeps.bind keeps_get fun a => keeps_onEngine (h.negateVar _)

theorem keeps_captureBool (h : Engine.Capturing P) (slot : BoolSlot) :
    Keeps (fun a : Assembly => P a.engine) (captureBool slot) :=
  (keeps_captureBoolHandle h slot).bind fun _ _ hs => hs

theorem keeps_captureIntHandle (h : Engine.Capturing P) (slot : IntSlot) :
    Keeps (fun a : Assembly => P a.engine) (captureIntHandle slot) := by
  unfold captureIntHandle
  cases slot.handle with
  | none => exact keeps_pure none
  | some v => exact (keeps_onEngine (h.copyVar v)).map

theorem keeps_captureInt (h : Engine.Capturing P) (slot : IntSlot) :
    Keeps (fun a : Assembly => P a.engine) (captureInt slot) :=
  (keeps_captureIntHandle h slot).bind fun _ _ hs => hs

theorem keeps_capture (h : Engine.Capturing P) (source : Formulation) :
    Keeps (fun a : Assembly => P a.engine) (capture source) :=
  Keeps.bind (Keeps.forM (keeps_captureBridge h)) fun _ =>
    Keeps.bind (Keeps.forM (keeps_captureBool h)) fun _ => Keeps.forM (keeps_captureInt h)

end Assembly

/-- A fork goes through two phases: `P` holds as long as it captures, and `Q` once it is rolled
back. -/
theorem ends_fork_of_phases {Q : Engine → Prop} (hcapturing : Engine.Capturing P)
    (hreleasing : Engine.Releasing Q) (hturn : ∀ e, P e → Q e) (source : Formulation) {e : Engine}
    (he : P e) : Ends source.fork e (fun _ e => P e) fun _ e => Q e := by
  have hcapture := Assembly.keeps_capture hcapturing source ⟨e, source.blank⟩ he
  unfold Ends fork
  cases hrun : Assembly.capture source ⟨e, source.blank⟩ with
  | ok _ a => exact hcapture.accepted hrun
  | error cause a =>
      have habandon := keeps_abandon hreleasing a.formulation a.engine
        (hturn _ (hcapture.rejected hrun))
      cases hend : a.formulation.abandon a.engine with
      | ok _ e' => simpa [hend] using habandon.accepted hend
      | error _ e' => simpa [hend] using habandon.rejected hend

theorem keeps_fork (h : Engine.Durable P) (source : Formulation) : Keeps P source.fork :=
  fun _ he => ends_fork_of_phases h.toCapturing h.toReleasing (fun _ => id) source he

theorem keeps_onSession_fork {P : Session → Prop} (h : Session.Durable P) (source : Formulation) :
    Keeps P (Engine.onSession source.fork) :=
  Engine.keeps_onSession (keeps_fork h.engine source)

theorem keeps_onSession_release {P : Session → Prop} (h : Session.Releasing P) (f : Formulation) :
    Keeps P (Engine.onSession f.release) :=
  Engine.keeps_onSession (keeps_release h.engine f)

end Formulation

namespace Session

/-! ## Working copies and the teardown -/

/-- A session that is ready forks from its innermost copy.  Any other one rejects the call. -/
theorem ends_forkCopy {s : Session} {source : Formulation} {P : Nat → Session → Prop}
    {Q : EngineError → Session → Prop}
    (hunready : s.problem = none ∨ s.hooked = false → ∀ cause, Q cause s)
    (hready : s.problem.isSome → s.hooked = true →
      Ends (s.innermost?.getD source).fork { session := s }
        (fun copy e => P (e.session.copies.length + 1)
          { e.session with
            copies := copy :: e.session.copies, ledger.forks := e.session.ledger.forks + 1 })
        fun cause e => Q cause e.session) :
    Ends (forkCopy source) s P Q := by
  unfold forkCopy
  rw [ends_bind]
  cases hproblem : s.problem with
  | none =>
      exact ends_of_rejected (e := .noProblem) (t := s) (by simp only [requireProblem, hproblem])
        (hunready (.inl hproblem) _)
  | some problem =>
      refine ends_of_accepted (a := problem) (t := s) (by simp only [requireProblem, hproblem]) ?_
      rw [ends_bind]
      cases hhooked : s.hooked with
      | false =>
          exact ends_of_rejected (e := .noHooks) (t := s) (by simp [requireHooks, hhooked])
            (hunready (.inr hhooked) _)
      | true =>
          refine ends_of_accepted (a := ()) (t := s) (by simp [requireHooks, hhooked]) ?_
          rw [ends_bind, ends_get, ends_bind, Engine.onSession, ends_onPart]
          exact hready (by rw [hproblem]; rfl) hhooked

theorem keeps_forkCopy (source : Formulation) : Keeps Sound (forkCopy source) := by
  intro s hs
  refine ends_forkCopy (fun _ _ => hs) fun _ hhooked => ?_
  have hfork := Formulation.keeps_fork (durable_sound.and (durable_frame s.frame)).engine
    (s.innermost?.getD source) { session := s } ⟨hs, rfl⟩
  refine hfork.mono (fun copy e he => ?_) fun _ e he => he.1
  exact he.1.of_tables rfl rfl fun _ => (hooked_eq_of_frame he.2).trans hhooked

theorem discardCopy_of_none {s : Session} (hcopies : s.copies = []) :
    discardCopy s = .ok false s := by
  simp only [discardCopy, hcopies]
  cases s.hooked <;> rfl

theorem discardCopy_of_copies {s : Session} {copy : Formulation} {rest : List Formulation}
    (hhooked : s.hooked = true) (hcopies : s.copies = copy :: rest) :
    discardCopy s = match Engine.onSession copy.release { s with copies := rest } with
      | .ok () t => .ok true { t with ledger.discards := t.ledger.discards + 1 }
      | .error cause t => .error cause t := by
  unfold discardCopy
  split
  · next copy' rest' _ hcons =>
      rw [hcopies] at hcons
      cases hcons
      rfl
  · next hno => exact absurd hcopies (hno copy rest hhooked)

/-- A discard releases the innermost copy, once that is off the stack. -/
theorem ends_discardCopy {s : Session} {P : Bool → Session → Prop}
    {Q : EngineError → Session → Prop}
    (hidle : s.hooked = false ∨ s.copies = [] → P false s)
    (hrelease : ∀ copy rest, s.hooked = true → s.copies = copy :: rest →
      Ends (Engine.onSession copy.release) { s with copies := rest }
        (fun _ t => P true { t with ledger.discards := t.ledger.discards + 1 }) Q) :
    Ends discardCopy s P Q := by
  cases hcopies : s.copies with
  | nil => exact ends_of_accepted (discardCopy_of_none hcopies) (hidle (.inr hcopies))
  | cons copy rest =>
      cases hhooked : s.hooked with
      | false =>
          exact ends_of_accepted (by simp only [discardCopy, hhooked]) (hidle (.inl hhooked))
      | true =>
          have hends := hrelease copy rest hhooked hcopies
          have hdiscard := discardCopy_of_copies hhooked hcopies
          cases hrun : Engine.onSession copy.release { s with copies := rest } with
          | ok _ t =>
              rw [hrun] at hdiscard
              exact ends_of_accepted hdiscard (hends.accepted hrun)
          | error cause t =>
              rw [hrun] at hdiscard
              exact ends_of_rejected hdiscard (hends.rejected hrun)

/-- A discard answers whether there was a copy, and then it is gone. -/
theorem discardCopy_ends {s : Session} (hs : s.Sound) :
    Ends discardCopy s
      (fun more t => t.Sound ∧ if more then t.copies = s.copies.tail else s.copies = [] ∧ t = s)
      fun _ t => t.Sound := by
  refine ends_discardCopy (fun hidle => ⟨hs, ?_, rfl⟩) fun copy rest hhooked hcopies => ?_
  · cases hidle with
    | inl hunhooked =>
        refine Decidable.byContradiction fun hsome => ?_
        rw [hs.hooked hsome] at hunhooked
        cases hunhooked
    | inr hnone => exact hnone
  · have hshort : Sound { s with copies := rest } := hs.of_tables rfl rfl fun _ => hhooked
    have hdurable := durable_sound.and (durable_frame ({ s with copies := rest } : Session).frame)
    have hrelease := Formulation.keeps_onSession_release hdurable.toReleasing copy
      { s with copies := rest } ⟨hshort, rfl⟩
    refine hrelease.mono (fun _ t ht => ⟨?_, ?_⟩) fun _ t ht => ht.1
    · exact ht.1.of_tables rfl rfl ht.1.hooked
    · have hrest : t.copies = rest := copies_eq_of_frame ht.2
      simpa [hcopies] using hrest

theorem keeps_discardCopies {P : Session → Prop} (h : Keeps P discardCopy) (count : Nat) :
    Keeps P (discardCopies count) := by
  induction count with
  | zero => exact keeps_pure ()
  | succ count ih =>
      refine h.bind fun more => ?_
      cases more with
      | true => exact ih
      | false => exact keeps_pure ()

/-- As many discards as there are copies leave none. -/
theorem discardCopies_ends (count : Nat) :
    ∀ s : Session, s.Sound → s.copies.length ≤ count →
      Ends (discardCopies count) s (fun _ t => t.Sound ∧ t.copies = []) fun _ t => t.Sound := by
  induction count with
  | zero =>
      intro s hs hlength
      exact ⟨hs, List.length_eq_zero_iff.mp (Nat.le_zero.mp hlength)⟩
  | succ count ih =>
      intro s hs hlength
      unfold discardCopies
      rw [ends_bind]
      refine (discardCopy_ends hs).mono (fun more t ht => ?_) fun _ _ ht => ht
      obtain ⟨hsound, hmore⟩ := ht
      cases more with
      | true =>
          refine ih t hsound ?_
          simp only [if_true] at hmore
          rw [hmore, List.length_tail]
          omega
      | false =>
          obtain ⟨hnone, rfl⟩ := hmore
          exact ⟨hsound, hnone⟩

theorem keeps_dropMembers (problem : Problem) : Keeps Sound (dropMembers problem) :=
  Keeps.bind (Keeps.forM keeps_dropConsUse) fun _ => Keeps.forM keeps_dropVarUse

theorem keeps_copies_dropMembers (copies : List Formulation) (problem : Problem) :
    Keeps (fun s => s.copies = copies) (dropMembers problem) := by
  intro s hs
  refine (Keeps.bind (P := fun t => t.frame = s.frame)
    (Keeps.forM (keeps_frame_dropConsUse s.frame))
    (fun _ => Keeps.forM (keeps_frame_dropVarUse s.frame)) s rfl).mono ?_ ?_ <;>
  exact fun _ t ht => (copies_eq_of_frame ht).trans hs

/-- A teardown that goes through leaves no copies. -/
theorem close_ends {s : Session} (hs : s.Sound) :
    Ends close s (fun _ t => t.Sound ∧ t.copies = []) fun _ t => t.Sound := by
  unfold close
  rw [ends_bind, ends_get, ends_bind]
  refine (discardCopies_ends _ s hs (Nat.le_refl _)).mono (fun _ t ht => ?_) fun _ _ ht => ht
  obtain ⟨ht, hcopies⟩ := ht
  rw [ends_bind]
  have hdrop : Ends dropProblem t (fun _ u => u.Sound ∧ u.copies = []) fun _ u => u.Sound := by
    unfold Ends dropProblem
    cases hproblem : t.problem with
    | none => exact ⟨ht, hcopies⟩
    | some problem =>
        have hnone : Sound { t with problem := none } := ht.of_tables rfl rfl ht.hooked
        exact (((keeps_dropMembers problem).and (keeps_copies_dropMembers [] problem))
          { t with problem := none } ⟨hnone, hcopies⟩).mono (fun _ _ hu => hu)
          fun _ _ hu => hu.1
  refine hdrop.mono (fun _ u hu => ?_) fun _ _ hu => hu
  exact ⟨hu.1.of_tables rfl rfl fun hcopies => absurd hu.2 hcopies, hu.2⟩

theorem keeps_close : Keeps Sound close := fun _ hs =>
  (close_ends hs).mono (fun _ _ ht => ht.1) fun _ _ ht => ht

/-! ## Histories -/

/-- The sessions that calls and changes of the limit lead to. -/
inductive Reachable : Session → Prop
  | fresh (limit : Option Nat) : Reachable { limit }
  | call {s : Session} (c : Call) : Reachable s → Reachable (after (perform c) s)
  | setLimit {s : Session} (count : Option Nat) : Reachable s → Reachable (s.setLimit count)

/-- The session after a history of calls. -/
def history (calls : List Call) : Session := calls.foldl (fun s c => after (perform c) s) {}

theorem reachable_history (calls : List Call) : (history calls).Reachable := by
  suffices h : ∀ s : Session, s.Reachable →
      (calls.foldl (fun s c => after (perform c) s) s).Reachable from h {} (.fresh none)
  induction calls with
  | nil => exact fun _ hs => hs
  | cons c calls ih => exact fun s hs => ih _ (hs.call c)

theorem keeps_perform (c : Call) : Keeps Sound (perform c) := by
  cases c with
  | changeSetting setting => exact (indifferent_sound.changeSetting setting).map
  | newProblem name => exact (indifferent_sound.newProblem name).map
  | setSense sense => exact (indifferent_sound.modifyProblem _).map
  | setIntegral => exact (indifferent_sound.modifyProblem _).map
  | newVar name lb ub obj kind => exact (keeps_newVar name lb ub obj kind).map
  | enrolVar v => exact (keeps_enrolVar v).map
  | negateVar v => exact (keeps_negateVar v).map
  | copyVar v => exact (keeps_copyVar v).map
  | releaseVar v => exact (keeps_releaseVar v).map
  | addHandler name => exact (indifferent_sound.addHandler name).map
  | newCons handler name => exact (keeps_newCons handler name).map
  | enrolCons c => exact (keeps_enrolCons c).map
  | copyCons c => exact (keeps_copyCons c).map
  | releaseCons c => exact (keeps_releaseCons c).map
  | installHooks => exact Keeps.map fun s hs => hs.of_tables rfl rfl fun _ => rfl
  | forkCopy source => exact (keeps_forkCopy source).map
  | discardCopy =>
      exact Keeps.map fun s hs =>
        (discardCopy_ends hs).mono (fun _ _ ht => ht.1) fun _ _ ht => ht
  | close => exact keeps_close.map

theorem Reachable.sound {s : Session} (h : s.Reachable) : s.Sound := by
  induction h with
  | fresh limit => exact sound_fresh limit
  | call c _ ih => exact (keeps_perform c).after ih
  | setLimit count _ ih => exact ih.of_tables rfl rfl ih.hooked

end Session

end JointModel
