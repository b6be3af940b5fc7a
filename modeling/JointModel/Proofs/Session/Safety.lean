import JointModel.Proofs.Formulation.Built
import JointModel.Proofs.Session.Checked

/-!
# No call breaks an assumption

In a sound session the calls on single entries agree with their checked versions: live
entries and free numbers belong to their tables, entries in use have a use to give back,
and the partner of an alias is positive.  Loops over such calls agree as well, since every
step leaves the session sound.

A fork looks up the new handle of a partner, so it agrees if slots are paired in the
source and in the copies on the stack.  A teardown discards no more copies than there are.
-/

namespace JointModel

open Effect JointModel.Checked

/-! ## Releases out of reach of faults -/

namespace Formulation

theorem onSession_release (f : Formulation) :
    Engine.onSession f.release = (do
      f.bridge.toList.forM Session.releaseCons
      f.registry.ownedVars.forM Session.releaseVar) := by
  have hconss : Keeps (fun e : Engine => e.faults = [])
      (f.bridge.toList.forM Engine.releaseCons) := Keeps.forM Engine.durable_unarmed.releaseCons
  rw [release, Engine.onSession_bind hconss,
    Engine.onSession_forM Engine.durable_unarmed.releaseCons,
    Engine.onSession_forM Engine.durable_unarmed.releaseVar]
  simp only [Engine.releaseCons, Engine.releaseVar, Engine.onSession_call]

theorem onSession_abandon (f : Formulation) :
    Engine.onSession f.abandon = (do
      f.bridge.toList.forM fun c => tryCatch (Session.releaseCons c) fun _ => pure ()
      f.registry.ownedVars.forM fun v => tryCatch (Session.releaseVar v) fun _ => pure ()) := by
  have hcons : ∀ c, Keeps (fun e : Engine => e.faults = []) (attempt (Engine.releaseCons c)) :=
    fun c => keeps_attempt (Engine.durable_unarmed.releaseCons c)
  have hvar : ∀ v, Keeps (fun e : Engine => e.faults = []) (attempt (Engine.releaseVar v)) :=
    fun v => keeps_attempt (Engine.durable_unarmed.releaseVar v)
  have hattempt : ∀ {op} (act : Session.Run Unit),
      Engine.onSession (attempt (Engine.call op act)) = tryCatch act fun _ => pure () := by
    intro op act
    rw [attempt, Engine.onSession_tryCatch Engine.keeps_unarmed_call, Engine.onSession_call]
    rfl
  rw [abandon, Engine.onSession_bind (Keeps.forM hcons), Engine.onSession_forM hcons,
    Engine.onSession_forM hvar]
  simp only [Engine.releaseCons, Engine.releaseVar, hattempt]

end Formulation

namespace Session.Checked

variable {α : Type} {s : Session}

/-! ## Calls on single entries -/

theorem agrees_bind_getVar {v : VarId} {f : VarInfo → Checked Session α} {g : VarInfo → Run α}
    (h : ∀ entry, s.var? v = some entry → Agrees (f entry) (g entry) s) :
    Agrees (plain (getVar v) >>= f) (getVar v >>= g) s := by
  refine (agrees_plain _ s).bind fun entry t ht => ?_
  cases hv : s.var? v with
  | none => simp [getVar, hv] at ht
  | some _ =>
      simp only [getVar, hv] at ht
      cases ht
      exact h entry hv

theorem agrees_bind_getCons {c : ConsId} {f : ConsInfo → Checked Session α}
    {g : ConsInfo → Run α} (h : ∀ entry, s.cons? c = some entry → Agrees (f entry) (g entry) s) :
    Agrees (plain (getCons c) >>= f) (getCons c >>= g) s := by
  refine (agrees_plain _ s).bind fun entry t ht => ?_
  cases hc : s.cons? c with
  | none => simp [getCons, hc] at ht
  | some _ =>
      simp only [getCons, hc] at ht
      cases ht
      exact h entry hc

theorem agrees_allocateVar (h : s.vars.Sound) (entry : VarInfo) :
    Agrees (allocateVar entry) (Session.allocateVar entry) s := by
  refine (agrees_plain _ s).bind fun _ t ht => ?_
  obtain ⟨-, rfl⟩ := (allocate_ends s entry.name).accepted ht
  exact agrees_change (by rw [h.insertChecked]; rfl) rfl

theorem agrees_allocateCons (h : s.conss.Sound) (entry : ConsInfo) :
    Agrees (allocateCons entry) (Session.allocateCons entry) s := by
  refine (agrees_plain _ s).bind fun _ t ht => ?_
  obtain ⟨-, rfl⟩ := (allocate_ends s entry.name).accepted ht
  exact agrees_change (by rw [h.insertChecked]; rfl) rfl

theorem agrees_newVar (h : s.Sound) (name : String) (lb ub obj : Float) (kind : VarKind) :
    Agrees (newVar name lb ub obj kind) (Session.newVar name lb ub obj kind) s :=
  (agrees_plain _ s).bind_keeps keeps_requireProblem h fun _ _ ht => agrees_allocateVar ht.vars _

theorem agrees_newCons (h : s.Sound) (handler name : String) :
    Agrees (newCons handler name) (Session.newCons handler name) s :=
  (agrees_plain _ s).bind_keeps (keeps_requireHandler handler) h fun _ t ht =>
    (agrees_plain _ t).bind_keeps keeps_requireProblem ht fun _ _ hu =>
      agrees_allocateCons hu.conss _

theorem agrees_copyCons (h : s.Sound) (c : ConsId) :
    Agrees (copyCons c) (Session.copyCons c) s :=
  agrees_bind_getCons fun _ _ => agrees_allocateCons h.conss _

theorem agrees_negateVar (h : s.Sound) (v : VarId) :
    Agrees (negateVar v) (Session.negateVar v) s := by
  refine agrees_bind_getVar fun entry _ => ?_
  cases entry.link with
  | negation p => exact agrees_pure p s
  | positive m =>
      cases m with
      | some n => exact agrees_pure n s
      | none =>
          refine (agrees_allocateVar h.vars _).bind fun n t _ => ?_
          exact (agrees_plain _ t).bind fun _ u _ => agrees_pure n u

/-- The partner of an alias is positive, so one step leads to the entry that is copied. -/
theorem agrees_copyVar (h : s.Sound) (v : VarId) :
    Agrees (copyVar v) (Session.copyVar v) s := by
  refine agrees_bind_getVar fun entry hv => ?_
  cases hlink : entry.link with
  | positive m => exact agrees_allocateVar h.vars _
  | negation p =>
      obtain ⟨-, partner, hp, hback⟩ := h.linked.positive hv hlink
      have htarget : Agrees (copyVarWithin 1 p) (getVar p >>= copyEntry) s := by
        refine agrees_bind_getVar fun entry hentry => ?_
        rw [hp] at hentry
        cases hentry
        simp only [hback]
        exact agrees_allocateVar h.vars _
      have hkeeps : Keeps Sound (getVar p >>= copyEntry) :=
        (keeps_getVar p).bind fun partner => keeps_copyEntry partner
      simp only
      rw [← bind_assoc]
      exact htarget.bind_keeps hkeeps h fun target _ ht => agrees_negateVar ht target

-- In a session that is not sound a check can fail: this alias is its own partner.
example : (copyVar ⟨0⟩).exec { vars.slots := #[some
    { name := "x", lb := 0.0, ub := 1.0, obj := 0.0, kind := .binary, space := .primary, uses := 0
      link := .negation ⟨0⟩ }] } = .error .endless := rfl

theorem agrees_freeVar (h : s.Sound) {v : VarId} {entry : VarInfo} (hv : s.var? v = some entry)
    {m : Option VarId} (hlink : entry.link = .positive m) :
    Agrees (freeVar v m) (modify (·.freeVar v m)) s := by
  have hlt : v.index < s.vars.slots.size := HandleTable.lt_size_of_live hv
  cases m with
  | none =>
      refine agrees_change (t := s.freeVar v none) (a := ⟨⟩) ?_ rfl
      rw [HandleTable.removeChecked_of_lt hlt]
      rfl
  | some n =>
      obtain ⟨negated, hn, -⟩ := h.linked.negation hv hlink
      have hlt' : n.index < (s.vars.remove v.index).slots.size := by
        rw [HandleTable.size_slots_remove]
        exact HandleTable.lt_size_of_live hn
      refine agrees_change (t := s.freeVar v (some n)) (a := ⟨⟩) ?_ rfl
      rw [HandleTable.removeChecked_of_lt hlt]
      change ((s.vars.remove v.index).removeChecked n.index >>= fun vars =>
        pure ((), { s with vars })) = _
      rw [HandleTable.removeChecked_of_lt hlt']
      rfl

theorem agrees_dropVarUse (h : s.Sound) (v : VarId) :
    Agrees (dropVarUse v) (Session.dropVarUse v) s := by
  refine agrees_bind_getVar fun entry hv => ?_
  cases hlink : entry.link with
  | negation p => rfl
  | positive m =>
      have hused : 0 < entry.uses := h.linked.used hv hlink
      dsimp only
      rw [if_neg (Nat.ne_of_gt hused)]
      by_cases hlast : entry.uses = 1
      · rw [if_pos hlast, if_pos (by omega)]
        exact agrees_freeVar h hv hlink
      · rw [if_neg hlast, if_neg (by omega)]
        exact agrees_plain _ s

theorem agrees_dropConsUse (h : s.Sound) (c : ConsId) :
    Agrees (dropConsUse c) (Session.dropConsUse c) s := by
  refine agrees_bind_getCons fun entry hc => ?_
  have hused : 0 < entry.uses := h.usedCons hc
  have hlt : c.index < s.conss.slots.size := HandleTable.lt_size_of_live hc
  rw [if_neg (Nat.ne_of_gt hused)]
  by_cases hlast : entry.uses = 1
  · rw [if_pos hlast, if_pos (by omega)]
    refine agrees_change (t := s.freeCons c) (a := ⟨⟩) ?_ rfl
    rw [HandleTable.removeChecked_of_lt hlt]
    rfl
  · rw [if_neg hlast, if_neg (by omega)]
    exact agrees_plain _ s

theorem agrees_releaseVar (h : s.Sound) (v : VarId) :
    Agrees (releaseVar v) (Session.releaseVar v) s :=
  (agrees_modify _ s).bind_keeps (P := Sound) (fun _ hs => hs.of_tables rfl rfl hs.hooked) h
    fun _ _ ht => agrees_dropVarUse ht v

theorem agrees_releaseCons (h : s.Sound) (c : ConsId) :
    Agrees (releaseCons c) (Session.releaseCons c) s :=
  (agrees_modify _ s).bind_keeps (P := Sound) (fun _ hs => hs.of_tables rfl rfl hs.hooked) h
    fun _ _ ht => agrees_dropConsUse ht c

/-! ## Forks -/

open Formulation (Assembly Gathered)

/-- The condition under which forks go on: the session is sound, and no fault is armed. -/
def Calm (e : Engine) : Prop := e.session.Sound ∧ e.faults = []

theorem durable_calm : Engine.Durable Calm := durable_sound.engine.and Engine.durable_unarmed

variable {a : Assembly} {source : Formulation}

theorem agrees_onSession {op : Operation} {checked : Checked Session α} {act : Run α}
    (ha : Calm a.engine) (h : a.engine.session.Sound → Agrees checked act a.engine.session) :
    Agrees (onSession checked) (Assembly.onEngine (Engine.call op act)) a := by
  obtain ⟨⟨s, faults⟩, f⟩ := a
  obtain ⟨hsound, hfaults⟩ := ha
  cases hfaults
  have hexec : checked.exec s = .ok (outcome (act s)) := h hsound
  change (checked.exec s).map _ = _
  rw [hexec, Assembly.onEngine, Effect.onPart, Engine.call_of_unarmed]
  cases act s <;> rfl

theorem agrees_captureBridge (ha : Calm a.engine) (c : ConsId) :
    Agrees (captureBridge c) (Assembly.captureBridge c) a :=
  (agrees_onSession ha fun hs => agrees_copyCons hs c).bind fun _ _ _ => agrees_modify _ _

theorem agrees_captureBool (ha : Calm a.engine) {slot : BoolSlot}
    (hpartner : ∀ p, slot.polarity = .negated p →
      ∃ partner, a.formulation.registry.bool? p = some partner) :
    Agrees (captureBool slot) (Assembly.captureBool slot) a := by
  refine Agrees.bind ?_ fun _ _ _ => agrees_modify _ _
  unfold captureBoolHandle Assembly.captureBoolHandle
  cases hpolarity : slot.polarity with
  | positive m => exact agrees_onSession ha fun hs => agrees_copyVar hs slot.handle
  | negated p =>
      obtain ⟨partner, hp⟩ := hpartner p hpolarity
      refine agrees_bind_get ?_
      simp only [hp, Option.getD_some]
      exact agrees_onSession ha fun hs => agrees_negateVar hs partner.handle

theorem agrees_captureInt (ha : Calm a.engine) (slot : IntSlot) :
    Agrees (captureInt slot) (Assembly.captureInt slot) a := by
  refine Agrees.bind ?_ fun _ _ _ => agrees_modify _ _
  unfold captureIntHandle Assembly.captureIntHandle
  cases slot.handle with
  | none => exact agrees_pure none a
  | some v => exact (agrees_onSession ha fun hs => agrees_copyVar hs v).map some

/-- Once the slots before a negated one are there, so is its partner. -/
theorem partner_captured (hpaired : source.registry.Paired) {done rest : List BoolSlot}
    {slot : BoolSlot} (hsplit : source.registry.bools.toList = done ++ slot :: rest)
    (ha : Gathered source done [] a.formulation.registry) {p : BoolId} (hpolarity : slot.polarity = .negated p) :
    ∃ partner, a.formulation.registry.bool? p = some partner := by
  have hslot : source.registry.bool? ⟨done.length⟩ = some slot := by
    rw [Registry.bool?, ← Array.getElem?_toList, hsplit, List.getElem?_append_right (Nat.le_refl _),
      Nat.sub_self, List.getElem?_cons_zero]
  have hlt : p.index < done.length := (hpaired.negated hslot hpolarity).1
  have hsize : a.formulation.registry.bools.size = done.length := by
    simpa only [List.length_map, Array.length_toList] using congrArg List.length ha.bools
  exact ⟨_, Array.getElem?_eq_getElem (hsize ▸ hlt)⟩

theorem agrees_capture (hpaired : source.registry.Paired) (h : s.Sound) :
    Agrees (capture source) (Assembly.capture source) ⟨{ session := s }, source.blank⟩ := by
  have hcalm : Calm { session := s } := ⟨h, rfl⟩
  -- the loop over the boolean slots also follows what was gathered
  have hbridges : Keeps
      (fun a : Assembly => Calm a.engine ∧ Gathered source [] [] a.formulation.registry)
      (source.bridge.toList.forM Assembly.captureBridge) :=
    (Keeps.forM (Assembly.keeps_captureBridge durable_calm.toCapturing)).and
      (Keeps.forM (Formulation.keeps_registry_captureBridge (P := Gathered source [] [])))
  have hbools : Keeps (fun a : Assembly => Calm a.engine)
      (source.registry.bools.toList.forM Assembly.captureBool) :=
    Keeps.forM (Assembly.keeps_captureBool durable_calm.toCapturing)
  refine Agrees.bind_keeps ?_ hbridges ⟨hcalm, rfl, rfl, rfl⟩ fun _ a ha =>
    Agrees.bind_keeps ?_ hbools ha.1 fun _ a ha => ?_
  · exact agrees_forM_keeps (P := fun a : Assembly => Calm a.engine)
      (fun c _ ha => agrees_captureBridge ha c) (Assembly.keeps_captureBridge durable_calm.toCapturing) hcalm
  · refine agrees_forM
      (I := fun done a => Calm a.engine ∧ Gathered source done [] a.formulation.registry)
      (fun done slot rest hsplit a ha => ⟨?_, fun t ht => ⟨?_, ?_⟩⟩) ha
    · exact agrees_captureBool ha.1 fun p hp => partner_captured hpaired hsplit ha.2 hp
    · exact (Assembly.keeps_captureBool durable_calm.toCapturing slot a ha.1).accepted ht
    · exact (Formulation.captureBool_gathered slot ha.2).accepted ht
  · exact agrees_forM_keeps (P := fun a : Assembly => Calm a.engine)
      (fun slot _ ha => agrees_captureInt ha slot) (Assembly.keeps_captureInt durable_calm.toCapturing) ha

theorem agrees_release (h : s.Sound) (f : Formulation) :
    Agrees (release f) (Engine.onSession f.release) s := by
  rw [Formulation.onSession_release]
  refine Agrees.bind_keeps ?_ (Keeps.forM keeps_releaseCons) h fun _ t ht => ?_
  · exact agrees_forM_keeps (fun c _ hs => agrees_releaseCons hs c) keeps_releaseCons h
  · exact agrees_forM_keeps (fun v _ hs => agrees_releaseVar hs v) keeps_releaseVar ht

theorem agrees_attempt {checked : Checked Session Unit} {act : Run Unit} (h : Agrees checked act s) :
    Agrees (attempt checked) (tryCatch act fun _ => pure ()) s :=
  h.tryCatch fun _ t => agrees_pure () t

theorem agrees_abandon (h : s.Sound) (f : Formulation) :
    Agrees (abandon f) (Engine.onSession f.abandon) s := by
  rw [Formulation.onSession_abandon]
  have hcons : ∀ c, Keeps Sound (tryCatch (Session.releaseCons c) fun _ => pure ()) :=
    fun c => (keeps_releaseCons c).tryCatch fun _ => keeps_pure ()
  have hvar : ∀ v, Keeps Sound (tryCatch (Session.releaseVar v) fun _ => pure ()) :=
    fun v => (keeps_releaseVar v).tryCatch fun _ => keeps_pure ()
  refine Agrees.bind_keeps ?_ (Keeps.forM hcons) h fun _ t ht => ?_
  · exact agrees_forM_keeps (fun c _ hs => agrees_attempt (agrees_releaseCons hs c)) hcons h
  · exact agrees_forM_keeps (fun v _ hs => agrees_attempt (agrees_releaseVar hs v)) hvar ht

theorem exec_fork_of_captured {a : Assembly}
    (h : (capture source).exec ⟨{ session := s }, source.blank⟩ = .ok (.ok (), a)) :
    (fork source).exec s = .ok (.ok a.formulation, a.engine.session) := by
  change (capture source).exec _ >>= _ = _
  rw [h]
  rfl

theorem exec_fork_of_blocked {a : Assembly} {cause : EngineError}
    (h : (capture source).exec ⟨{ session := s }, source.blank⟩ = .ok (.error cause, a)) :
    (fork source).exec s = (abandon a.formulation).exec a.engine.session >>= fun ended =>
      pure (.error cause, ended.2) := by
  change (capture source).exec _ >>= _ = _
  rw [h]
  rfl

theorem agrees_fork (hpaired : source.registry.Paired) (h : s.Sound) :
    Agrees (fork source) (Engine.onSession source.fork) s := by
  have hcapture := agrees_capture hpaired h
  have hcalm : Ends (Assembly.capture source) ⟨{ session := s }, source.blank⟩
      (fun _ a => Calm a.engine) fun _ a => Calm a.engine :=
    Assembly.keeps_capture durable_calm.toCapturing source _ ⟨h, rfl⟩
  cases hrun : Assembly.capture source ⟨{ session := s }, source.blank⟩ with
  | ok _ a =>
      have hexec := exec_fork_of_captured (by rw [hcapture, hrun, outcome])
      rw [Agrees, hexec]
      simp only [Engine.onSession, Effect.onPart, Formulation.fork, hrun]
      rfl
  | error cause a =>
      obtain ⟨hsound, hfaults⟩ := hcalm.rejected hrun
      obtain ⟨⟨t, faults⟩, f⟩ := a
      cases hfaults
      have hexec := exec_fork_of_blocked (by rw [hcapture, hrun, outcome])
      have habandon := agrees_abandon hsound f
      rw [Agrees, hexec, habandon]
      simp only [Engine.onSession, Effect.onPart, Formulation.fork_of_blocked hrun, after]
      cases f.abandon { session := t } <;> rfl

/-! ## Working copies and the teardown -/

theorem agrees_forkCopy (h : s.Sound) (hpaired : source.registry.Paired)
    (hcopies : ∀ g ∈ s.copies, g.registry.Paired) :
    Agrees (forkCopy source) (Session.forkCopy source) s := by
  refine (agrees_plain _ s).bind_keeps (P := (· = s)) keeps_requireProblem rfl fun _ t ht => ?_
  refine (agrees_plain _ t).bind_keeps (P := (· = s)) keeps_requireHooks ht fun _ t ht => ?_
  subst ht
  refine agrees_bind_get ((agrees_fork ?_ h).bind fun copy u _ => agrees_plain _ u)
  -- a copy is forked from the innermost one, if there is one
  cases hinnermost : t.innermost? with
  | none => exact hpaired
  | some parent => exact hcopies parent (List.mem_of_head? hinnermost)

theorem agrees_discardCopy (h : s.Sound) : Agrees discardCopy Session.discardCopy s := by
  refine Agrees.get_bind ?_
  cases hcopies : s.copies with
  | nil =>
      have hpure : Agrees (pure false) Session.discardCopy s :=
        (agrees_pure false s).congr (discardCopy_of_none hcopies)
      cases s.hooked <;> exact hpure
  | cons copy rest =>
      have hhooked : s.hooked = true := h.hooked (by simp [hcopies])
      have hshort : Sound { s with copies := rest } := h.of_tables rfl rfl fun _ => hhooked
      have hpop : Agrees (popCopy copy rest) (do
          modify fun s => { s with copies := rest }
          Engine.onSession copy.release
          modify fun s => { s with ledger.discards := s.ledger.discards + 1 }
          pure true) s := by
        refine (agrees_modify _ s).bind fun _ t ht => ?_
        cases ht
        refine (agrees_release hshort copy).bind fun _ t _ => ?_
        exact (agrees_modify _ t).bind fun _ u _ => agrees_pure true u
      simp only [hhooked]
      refine hpop.congr ?_
      rw [discardCopy_of_copies hhooked hcopies, bind_apply, modify_apply]
      dsimp only
      rw [bind_apply]
      cases Engine.onSession copy.release { s with copies := rest } <;> rfl

/-- One round more than there are copies is enough, since each discard that goes on leaves
one copy less. -/
theorem agrees_drain (rounds : Nat) : ∀ {s : Session}, s.Sound → s.copies.length ≤ rounds →
    Agrees (drain (rounds + 1)) (discardCopies rounds) s := by
  induction rounds with
  | zero =>
      intro s h hnone
      have hcopies : s.copies = [] := List.length_eq_zero_iff.mp (Nat.le_zero.mp hnone)
      have hstops : Agrees (drain 1) (Session.discardCopy >>= fun _ => pure ()) s := by
        refine (agrees_discardCopy h).bind fun more t ht => ?_
        rw [discardCopy_of_none hcopies] at ht
        cases ht
        exact agrees_pure () s
      exact hstops.congr (by rw [bind_apply, discardCopy_of_none hcopies]; rfl)
  | succ rounds ih =>
      intro s h hle
      refine (agrees_discardCopy h).bind fun more t ht => ?_
      obtain ⟨hsound, hmore⟩ := (discardCopy_ends h).accepted ht
      cases more with
      | false => exact agrees_pure () t
      | true =>
          refine ih hsound ?_
          simp only [if_true] at hmore
          rw [hmore, List.length_tail]
          omega

theorem agrees_dropMembers (h : s.Sound) (problem : Problem) :
    Agrees (dropMembers problem) (Session.dropMembers problem) s := by
  refine Agrees.bind_keeps ?_ (Keeps.forM keeps_dropConsUse) h fun _ t ht => ?_
  · exact agrees_forM_keeps (fun c _ hs => agrees_dropConsUse hs c) keeps_dropConsUse h
  · exact agrees_forM_keeps (fun v _ hs => agrees_dropVarUse hs v) keeps_dropVarUse ht

theorem agrees_dropProblem (h : s.Sound) : Agrees dropProblem Session.dropProblem s := by
  refine Agrees.get_bind ?_
  cases hproblem : s.problem with
  | none => exact (agrees_pure () s).congr (by simp only [Session.dropProblem, hproblem]; rfl)
  | some problem =>
      have hnone : Sound { s with problem := none } := h.of_tables rfl rfl h.hooked
      have hdrop : Agrees (modify (fun s => { s with problem := none }) >>= fun _ =>
          dropMembers problem) (modify (fun s => { s with problem := none }) >>= fun _ =>
          Session.dropMembers problem) s := by
        refine (agrees_modify _ s).bind fun _ t ht => ?_
        cases ht
        exact agrees_dropMembers hnone problem
      exact hdrop.congr (by simp only [Session.dropProblem, hproblem]; rfl)

theorem agrees_close (h : s.Sound) : Agrees close Session.close s := by
  refine agrees_bind_get ((agrees_drain _ h (Nat.le_refl _)).bind fun _ t ht => ?_)
  have hsound := ((discardCopies_ends _ s h (Nat.le_refl _)).accepted ht).1
  exact (agrees_dropProblem hsound).bind fun _ u _ => agrees_modify _ u

end Session.Checked

end JointModel
