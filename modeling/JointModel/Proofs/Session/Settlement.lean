import JointModel.Proofs.Formulation.Pool
import JointModel.Proofs.Session.Balance

/-!
# Working copies and the teardown in balance

A fork puts the claims of a new working copy on the list, and a discard takes those of the
innermost copy away.  The teardown does so for all copies and then for the problem, so what
is left in the end are the claims of the caller.

On the way entries only lose uses or are gone (`Dwindles`).
-/

namespace JointModel

open Effect Formulation Registry

namespace Session

variable {s t u : Session} {held : Captures} {v : VarId} {c : ConsId} {entry : VarInfo}
  {info : ConsInfo} {copy source : Formulation} {rest : List Formulation}

/-! ## Working copies -/

/-- What is claimed is alive. -/
theorem Balances.live_of_claim (h : s.Balances held) (hv : v ∈ s.varClaims held) :
    ∃ entry n, s.var? v = some entry ∧ entry.link = .positive n := by
  have huses := congrFun h.vars v
  rw [tally_of_mem hv] at huses
  obtain ⟨entry, n, hentry, hlink, -⟩ := varUses_eq_some.mp huses
  exact ⟨entry, n, hentry, hlink⟩

theorem Balances.live_of_consClaim (h : s.Balances held) (hc : c ∈ s.consClaims held) :
    ∃ info, s.cons? c = some info := by
  have huses := congrFun h.conss c
  rw [tally_of_mem hc] at huses
  obtain ⟨info, hinfo, -⟩ := Option.map_eq_some_iff.mp huses
  exact ⟨info, hinfo⟩

/-- The handles of a working copy on the stack are alive. -/
theorem Balances.livesIn_of_mem (h : s.Balances held) (hcopy : copy ∈ s.copies) :
    copy.LivesIn s where
  vars v hv := by
    have hmem : v ∈ s.copies.flatMap fun g => g.registry.ownedVars :=
      List.mem_flatMap.mpr ⟨copy, hcopy, hv⟩
    exact h.live_of_claim (List.mem_append_right _ (List.mem_append_right _ hmem))
  bridge {c} hc := by
    have hmem : c ∈ s.copies.flatMap fun g => g.bridge.toList :=
      List.mem_flatMap.mpr ⟨copy, hcopy, Option.mem_toList.mpr hc⟩
    exact h.live_of_consClaim (List.mem_append_right _ (List.mem_append_right _ hmem))

/-- A new working copy claims what was captured for it. -/
theorem Balances.push (h : s.Balances held) (hhooked : s.hooked = true)
    (hpaired : copy.registry.Paired) (hsettles : copy.Settles s t)
    (hu : u = { t with copies := copy :: t.copies, ledger.forks := t.ledger.forks + 1 }) :
    u.Balances held := by
  have hcopies : u.copies = copy :: s.copies := by
    rw [hu, ← copies_eq_of_frame hsettles.frame]
  have hproblem : u.problem = s.problem := by
    rw [hu, ← problem_eq_of_frame hsettles.frame]
  have hhooked' : u.hooked = true := by
    rw [hu, ← hhooked, ← hooked_eq_of_frame hsettles.frame]
  have hvars : u.varUses = t.varUses := varUses_congr (by rw [hu]; rfl)
  have hconss : u.consUses = t.consUses := consUses_congr (by rw [hu]; rfl)
  have hnodup : copy.registry.ownedVars.Nodup := hsettles.resident.nodup_ownedVars
  refine ⟨hsettles.sound.of_tables (by rw [hu]) (by rw [hu]) fun _ => hhooked', ?_, ?_, ?_, ?_⟩
  · rw [hcopies]
    exact List.forall_mem_cons.mpr ⟨hpaired, h.paired⟩
  · rw [hcopies]
    exact List.forall_mem_cons.mpr ⟨hnodup, h.distinct⟩
  · have hfresh : ∀ v ∈ copy.registry.ownedVars, tally (s.varClaims held) v = none := by
      intro v hv
      rw [← h.vars]
      exact varUses_fresh_of_settles hsettles hv
    funext v
    rw [hvars, varUses_of_settles hsettles, tally_perm (perm_varClaims_push hproblem hcopies),
      tally_append hnodup hfresh, h.vars]
  · have hfresh : ∀ c ∈ copy.bridge.toList, tally (s.consClaims held) c = none := by
      intro c hc
      rw [← h.conss]
      exact consUses_fresh_of_settles hsettles hc
    funext c
    rw [hconss, consUses_of_settles hsettles, tally_perm (perm_consClaims_push hproblem hcopies),
      tally_append copy.bridge.toList_nodup hfresh, h.conss]

/-- A fork starts from the innermost copy, and then its handles are alive, or from a source
that is. -/
theorem Balances.forkable (h : s.Balances held) 
    (hsource : s.copies = [] → source.Built ∧ source.LivesIn s) :
    (s.innermost?.getD source).registry.Paired ∧ (s.innermost?.getD source).LivesIn s := by
  cases hcopies : s.copies with
  | nil =>
      obtain ⟨hbuilt, hlives⟩ := hsource hcopies
      rw [innermost?, hcopies]
      exact ⟨hbuilt.paired, hlives⟩
  | cons copy rest =>
      have hcopy : copy ∈ s.copies := by simp [hcopies]
      rw [innermost?, hcopies]
      exact ⟨h.paired copy hcopy, h.livesIn_of_mem hcopy⟩

theorem Balances.forkCopy (h : s.Balances held) 
    (hsource : s.copies = [] → source.Built ∧ source.LivesIn s) :
    Ends (forkCopy source) s (fun _ t => t.Balances held) fun _ _ => True := by
  obtain ⟨hpaired, hlives⟩ := h.forkable hsource
  have hfork := fork_ends (e := { session := s }) hpaired h.sound hlives
  refine ends_forkCopy (fun _ _ => trivial) fun _ hhooked =>
    hfork.mono (fun copy e hend => ?_) fun _ _ _ => trivial
  obtain ⟨-, hcaptured⟩ := hend
  have hcopy : copy.registry.Paired := hpaired.of_polarities (polarities_of_copies hcaptured.bools)
  exact h.push hhooked hcopy hcaptured.settles rfl

/-- Everything that is left in `t` was there in `s`, though it may have been used more
often. -/
structure Dwindles (s t : Session) : Prop where
  vars : ∀ {v entry}, t.var? v = some entry → ∃ uses, s.var? v = some { entry with uses }
  conss : ∀ {c info}, t.cons? c = some info → ∃ uses, s.cons? c = some { info with uses }

theorem Dwindles.refl (s : Session) : s.Dwindles s :=
  ⟨fun {_ entry} hv => ⟨entry.uses, hv⟩, fun {_ info} hc => ⟨info.uses, hc⟩⟩

theorem Dwindles.trans (h : s.Dwindles t) (h' : t.Dwindles u) : s.Dwindles u where
  vars hv := by
    obtain ⟨uses, hmid⟩ := h'.vars hv
    obtain ⟨uses', hold⟩ := h.vars hmid
    exact ⟨uses', hold⟩
  conss hc := by
    obtain ⟨uses, hmid⟩ := h'.conss hc
    obtain ⟨uses', hold⟩ := h.conss hmid
    exact ⟨uses', hold⟩

/-- An entry that is left differs from what it was in its uses only. -/
theorem Dwindles.same (h : s.Dwindles t) {left : VarInfo} (hv : s.var? v = some entry)
    (hleft : t.var? v = some left) : left = { entry with uses := left.uses } := by
  obtain ⟨uses, hold⟩ := h.vars hleft
  rw [hv] at hold
  cases hold
  rfl

theorem Dwindles.sameCons (h : s.Dwindles t) {left : ConsInfo} (hc : s.cons? c = some info)
    (hleft : t.cons? c = some left) : left = { info with uses := left.uses } := by
  obtain ⟨uses, hold⟩ := h.conss hleft
  rw [hc] at hold
  cases hold
  rfl

theorem Dwindles.dead (h : s.Dwindles t) (hv : s.var? v = none) : t.var? v = none := by
  cases hleft : t.var? v with
  | none => rfl
  | some entry =>
      obtain ⟨uses, hold⟩ := h.vars hleft
      rw [hv] at hold
      cases hold

theorem Dwindles.deadCons (h : s.Dwindles t) (hc : s.cons? c = none) : t.cons? c = none := by
  cases hleft : t.cons? c with
  | none => rfl
  | some info =>
      obtain ⟨uses, hold⟩ := h.conss hleft
      rw [hc] at hold
      cases hold

theorem GaveBack.dwindles {vs : List VarId} {cs : List ConsId} (h : s.GaveBack vs cs t) :
    s.Dwindles t where
  vars {v entry} hv := by
    rw [h.var?] at hv
    cases hold : s.var? v with
    | none =>
        rw [remaining_of_dead hold] at hv
        cases hv
    | some old =>
        cases hlink : old.link with
        | positive m =>
            rw [remaining_of_positive hold hlink] at hv
            split at hv
            · cases hv
            · cases hv
              exact ⟨old.uses, rfl⟩
        | negation p =>
            rw [remaining_of_negation hold hlink] at hv
            split at hv
            · cases hv
            · cases hv
              exact ⟨entry.uses, rfl⟩
  conss {c info} hc := by
    rw [h.cons?, remainingCons] at hc
    obtain ⟨old, hold, hspent⟩ := Option.bind_eq_some_iff.mp hc
    by_cases hgone : old.uses ≤ cs.count c
    · rw [if_pos hgone] at hspent
      cases hspent
    · rw [if_neg hgone] at hspent
      cases hspent
      exact ⟨old.uses, hold⟩

/-- The innermost copy gives up its claims. -/
theorem Balances.discardCopy (h : s.Balances held) (hcopies : s.copies = copy :: rest) :
    ∃ t, discardCopy s = .ok true t ∧ t.Balances held ∧ t.copies = rest ∧ s.Dwindles t := by
  have hhooked : s.hooked = true := h.sound.hooked (by simp [hcopies])
  let short : Session := { s with copies := rest }
  have hshort : short.Sound := h.sound.of_tables rfl rfl fun _ => hhooked
  have hvarClaims : (s.varClaims held).Perm (copy.registry.ownedVars ++ short.varClaims held) :=
    perm_varClaims_push rfl hcopies
  have hconsClaims : (s.consClaims held).Perm (copy.bridge.toList ++ short.consClaims held) :=
    perm_consClaims_push rfl hcopies
  have hvars : short.varUses = tally (s.varClaims held) := h.vars
  have hconss : short.consUses = tally (s.consClaims held) := h.conss
  obtain ⟨t, hrun, hgave⟩ := release_gaveBack hshort (affords_of_tally hvars hvarClaims)
    (affordsCons_of_tally hconss hconsClaims)
  have hbalances : t.Balances held := by
    refine ⟨hgave.sound, ?_, ?_, ?_, ?_⟩
    · rw [copies_eq_of_frame hgave.frame]
      exact fun g hg => h.paired g (hcopies ▸ List.mem_cons_of_mem copy hg)
    · rw [copies_eq_of_frame hgave.frame]
      exact fun g hg => h.distinct g (hcopies ▸ List.mem_cons_of_mem copy hg)
    · rw [varClaims_of_frame hgave.frame, varUses_of_given hvars hvarClaims hgave.var?]
    · rw [consClaims_of_frame hgave.frame, consUses_of_given hconss hconsClaims hgave.cons?]
  refine ⟨{ t with ledger.discards := t.ledger.discards + 1 }, ?_, ?_, ?_, ?_⟩
  · rw [discardCopy_of_copies hhooked hcopies]
    simp only [short] at hrun
    rw [hrun]
  · exact hbalances.of_tables rfl rfl rfl ⟨rfl, rfl⟩ hbalances.sound.hooked
  · exact copies_eq_of_frame hgave.frame
  · exact ⟨hgave.dwindles.vars, hgave.dwindles.conss⟩

/-! ## The teardown -/

theorem Balances.discardCopies (h : s.Balances held) :
    ∃ t, discardCopies s.copies.length s = .ok () t ∧ t.Balances held ∧ t.copies = [] ∧
      s.Dwindles t := by
  generalize hcopies : s.copies = copies
  induction copies generalizing s with
  | nil => exact ⟨s, rfl, h, hcopies, .refl s⟩
  | cons copy rest ih =>
      obtain ⟨t, hrun, ht, hrest, hdwindles⟩ := h.discardCopy hcopies
      obtain ⟨u, hrun', hu, hnone, hdwindles'⟩ := ih ht hrest
      refine ⟨u, ?_, hu, hnone, hdwindles.trans hdwindles'⟩
      rw [List.length_cons, Session.discardCopies, bind_apply, hrun]
      exact hrun'

/-- The problem gives up its claims. -/
theorem Balances.dropProblem (h : s.Balances held) (hcopies : s.copies = []) :
    ∃ t, dropProblem s = .ok () t ∧ t.Balances held ∧ t.problem = none ∧ t.copies = [] ∧
      s.Dwindles t := by
  cases hproblem : s.problem with
  | none => exact ⟨s, by simp only [Session.dropProblem, hproblem], h, hproblem, hcopies, .refl s⟩
  | some problem =>
      let bare : Session := { s with problem := none }
      have hbare : bare.Sound := h.sound.of_tables rfl rfl h.sound.hooked
      have hvarClaims : (s.varClaims held).Perm (problem.vars.toList ++ bare.varClaims held) := by
        simp only [varClaims, enrolledVars, hproblem, Option.elim_some]
        exact perm_claims held.vars [] problem.vars.toList _
      have hconsClaims : (s.consClaims held).Perm
          (problem.conss.toList ++ bare.consClaims held) := by
        simp only [consClaims, enrolledConss, hproblem, Option.elim_some]
        exact perm_claims held.conss [] problem.conss.toList _
      have hvars : bare.varUses = tally (s.varClaims held) := h.vars
      have hconss : bare.consUses = tally (s.consClaims held) := h.conss
      obtain ⟨t, hrun, hgave⟩ := dropMembers_gaveBack hbare (affords_of_tally hvars hvarClaims)
        (affordsCons_of_tally hconss hconsClaims)
      have hnone : t.copies = [] := (copies_eq_of_frame hgave.frame).trans hcopies
      refine ⟨t, by simpa only [Session.dropProblem, hproblem] using hrun, ?_,
        problem_eq_of_frame hgave.frame, hnone, hgave.dwindles.vars, hgave.dwindles.conss⟩
      refine ⟨hgave.sound, ?_, ?_, ?_, ?_⟩
      · simp [hnone]
      · simp [hnone]
      · rw [varClaims_of_frame hgave.frame, varUses_of_given hvars hvarClaims hgave.var?]
      · rw [consClaims_of_frame hgave.frame, consUses_of_given hconss hconsClaims hgave.cons?]

/-- The teardown goes through, and only the claims of the caller are left. -/
theorem Balances.close (h : s.Balances held) :
    ∃ t, close s = .ok () t ∧ t.Balances held ∧ t.copies = [] ∧ t.problem = none ∧
      s.Dwindles t := by
  obtain ⟨t, hdiscards, ht, hcopies, hdwindles⟩ := h.discardCopies
  obtain ⟨u, hdrop, hu, hproblem, hcopies', hdwindles'⟩ := ht.dropProblem hcopies
  refine ⟨{ u with handlers := [], hooked := false }, ?_, ?_, hcopies', hproblem, ?_⟩
  · simp only [Session.close, bind_apply, get_apply, hdiscards, hdrop, modify_apply]
  · exact hu.of_tables rfl rfl rfl ⟨rfl, rfl⟩ fun hne => absurd hcopies' hne
  · have hdwindles := hdwindles.trans hdwindles'
    exact ⟨hdwindles.vars, hdwindles.conss⟩

end Session

end JointModel
