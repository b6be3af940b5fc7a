import JointModel.Model.Basic
import JointModel.Proofs.Model.Accounts

/-!
# Tearing a model down

If the accounts of a session are in order, the model that lives in it can be dropped
(`drop_accepted`): first the primary formulation is released, then the working copies
are discarded one by one, and last the problem gives back the uses of its members.
None of these is rejected, and what is left is a `Cleared` session without a block.

On the way the ledger is settled: for every working copy the handles that it owns
are either still held or have been released, so their number (`varsCaptured`) does
not change when a copy is discarded.
-/

namespace JointModel

open Effect Formulation

namespace Session

variable {s t : Session} {f copy : Formulation} {uses : Nat} {rest : List Formulation}

/-- The uses of variables that were released or are held by working copies. -/
def varsCaptured (s : Session) : Nat :=
  s.ledger.varReleases + (s.copies.flatMap fun copy => copy.registry.ownedVars).length

/-- The uses of constraints that were released or are held by working copies. -/
def conssCaptured (s : Session) : Nat :=
  s.ledger.consReleases + (s.copies.flatMap fun copy => copy.bridge.toList).length

/-- A session in which no model lives. -/
structure Cleared (s : Session) : Prop where
  sound : s.Sound
  vars : ∀ v, s.var? v = none
  conss : ∀ c, s.cons? c = none
  problem : s.problem = none
  handlers : s.handlers = []
  hooked : s.hooked = false
  copies : s.copies = []
  settled : s.ledger.discards = s.ledger.forks

theorem cleared_fresh (limit : Option Nat) : Cleared { limit } where
  sound := sound_fresh limit
  vars v := HandleTable.get?_empty v.index
  conss c := HandleTable.get?_empty c.index
  problem := rfl
  handlers := rfl
  hooked := rfl
  copies := rfl
  settled := rfl

theorem Cleared.blocks (h : s.Cleared) : s.blocks = 0 := by
  have hvars : s.vars.liveCount = 0 := HandleTable.liveCount_eq_zero_iff.mpr fun i => h.vars ⟨i⟩
  have hconss : s.conss.liveCount = 0 := HandleTable.liveCount_eq_zero_iff.mpr fun i => h.conss ⟨i⟩
  rw [Session.blocks, hvars, hconss, h.copies, h.problem]
  rfl

theorem Cleared.setLimit (h : s.Cleared) (count : Option Nat) : (s.setLimit count).Cleared :=
  { h with sound := h.sound.of_tables rfl rfl h.sound.hooked }

/-! ## Discarding the working copies -/

/-- A discard takes the innermost copy off the stack and releases it, and no release is
rejected. -/
theorem discardCopy_returned (h : s.Accounts uses f) (hcopies : s.copies = copy :: rest) :
    ∃ t, discardCopy s = .ok true { t with ledger.discards := t.ledger.discards + 1 } ∧
      copy.Returned { s with copies := rest } t ∧
      t.ledger.varReleases = s.ledger.varReleases + copy.registry.ownedVars.length ∧
      t.ledger.consReleases = s.ledger.consReleases + copy.bridge.toList.length := by
  have hhooked : s.hooked = true := h.sound.hooked (by simp [hcopies])
  -- the copy is released after it left the stack
  let short : Session := { s with copies := rest }
  have hshort : short.Sound := h.sound.of_tables rfl rfl fun _ => hhooked
  have hresident : copy.Resident 1 short := by
    have hcopy := h.resident_copy (g := copy) (by simp [hcopies])
    exact ⟨hcopy.aligned, hcopy.distinct, hcopy.graded, hcopy.bridge⟩
  obtain ⟨t, hrun, -, hreturned, hvars, hconss⟩ :=
    release_accepted hshort hresident (rfl : ([] : Faults).lookup .releaseVar = none) rfl
  have hrun' : Engine.onSession copy.release short = .ok () t := by
    rw [Engine.onSession, onPart]
    simp only [hrun]
  refine ⟨t, ?_, hreturned, hvars, hconss⟩
  rw [discardCopy_of_copies hhooked hcopies]
  simp only [short] at hrun'
  rw [hrun']

/-- A discard of a working copy is never rejected. -/
theorem discardCopy_accepted (h : s.Accounts uses f) (hcopies : s.copies = copy :: rest) :
    ∃ t, discardCopy s = .ok true t ∧ t.Accounts uses f ∧ t.copies = rest ∧ t.hooked = true ∧
      t.varsCaptured = s.varsCaptured ∧ t.conssCaptured = s.conssCaptured := by
  have hhooked : s.hooked = true := h.sound.hooked (by simp [hcopies])
  obtain ⟨t, hrun, hreturned, hvars, hconss⟩ := discardCopy_returned h hcopies
  have hrest : t.copies = rest := copies_eq_of_frame hreturned.frame
  refine ⟨{ t with ledger.discards := t.ledger.discards + 1 }, hrun,
    h.discard hcopies hreturned, hrest, (hooked_eq_of_frame hreturned.frame).trans hhooked, ?_, ?_⟩
  · show t.ledger.varReleases + (t.copies.flatMap _).length = s.varsCaptured
    rw [varsCaptured, hvars, hrest, hcopies, List.flatMap_cons, List.length_append, Nat.add_assoc]
  · show t.ledger.consReleases + (t.copies.flatMap _).length = s.conssCaptured
    rw [conssCaptured, hconss, hrest, hcopies, List.flatMap_cons, List.length_append, Nat.add_assoc]

theorem discardCopies_accepted (h : s.Accounts uses f) :
    ∃ t, discardCopies s.copies.length s = .ok () t ∧ t.Accounts uses f ∧ t.copies = [] ∧
      t.varsCaptured = s.varsCaptured ∧ t.conssCaptured = s.conssCaptured := by
  generalize hcopies : s.copies = copies
  induction copies generalizing s with
  | nil => exact ⟨s, rfl, h, hcopies, rfl, rfl⟩
  | cons copy rest ih =>
      obtain ⟨t, hrun, ht, hrest, -, hvars, hconss⟩ := discardCopy_accepted h hcopies
      obtain ⟨u, hrun', hu, hnone, hvars', hconss'⟩ := ih ht hrest
      refine ⟨u, ?_, hu, hnone, hvars'.trans hvars, hconss'.trans hconss⟩
      rw [List.length_cons, discardCopies, bind_apply, hrun]
      exact hrun'

/-! ## Giving back the members of the problem -/

theorem Affords.perm {vs ws : List VarId} (h : s.Affords vs) (hperm : ws.Perm vs) :
    s.Affords ws := by
  intro v hv
  obtain ⟨entry, n, hentry, hlink, hle⟩ := h v (hperm.mem_iff.mp hv)
  exact ⟨entry, n, hentry, hlink, hperm.count_eq v ▸ hle⟩

theorem AffordsCons.perm {cs ds : List ConsId} (h : s.AffordsCons cs) (hperm : ds.Perm cs) :
    s.AffordsCons ds := by
  intro c hc
  obtain ⟨info, hinfo, hle⟩ := h c (hperm.mem_iff.mp hc)
  exact ⟨info, hinfo, hperm.count_eq c ▸ hle⟩

/-- Without working copies, the members of the problem are all that is left. -/
theorem dropProblem_accepted (h : s.Accounts 1 f) (hcopies : s.copies = []) :
    ∃ t, dropProblem s = .ok () t ∧ t.Sound ∧ (∀ v, t.var? v = none) ∧ (∀ c, t.cons? c = none) ∧
      t.problem = none ∧ t.copies = [] ∧ t.ledger = s.ledger := by
  obtain ⟨problem, hproblem, hmembers, hbridges⟩ := h.members
  let bare : Session := { s with problem := none }
  have hbare : bare.Sound := h.sound.of_tables rfl rfl h.sound.hooked
  have hresident : f.Resident 1 bare := by
    have hprimary := h.resident_primary
    exact ⟨hprimary.aligned, hprimary.distinct, hprimary.graded, hprimary.bridge⟩
  obtain ⟨u, hconss, hdrops, hledger⟩ :=
    forM_dropConsUse hbare (hresident.affordsCons.perm hbridges)
  obtain ⟨t, hvars, hdrops', hledger'⟩ :=
    forM_dropVarUse hdrops.sound (hdrops.affords (hresident.affords.perm hmembers))
  have hreturned : f.Returned bare t := .of_drops hbridges hmembers hdrops hdrops'
  have hheld := h.vars
  have hheldConss := h.conss
  rw [hcopies] at hheld hheldConss
  -- without the primary formulation and without copies, nobody holds an entry
  obtain ⟨hothers, hothersCons⟩ := hreturned.holds_others hbare hresident.aligned hheld hheldConss
  refine ⟨t, ?_, hreturned.sound, fun v => hothers.others (by simp [copyHoldings]),
    fun c => hothersCons.others (by simp [copyBridges]), problem_eq_of_frame hreturned.frame,
    (copies_eq_of_frame hreturned.frame).trans hcopies, hledger'.trans hledger⟩
  have hrun : dropMembers problem bare = .ok () t := by
    rw [dropMembers, bind_apply, hconss]
    exact hvars
  simpa only [dropProblem, hproblem] using hrun

/-- The session can be freed once the model gave back its handles. -/
theorem close_accepted (h : s.Accounts 1 f) :
    ∃ t, close s = .ok () t ∧ t.Cleared ∧ t.ledger.varReleases = s.varsCaptured ∧
      t.ledger.consReleases = s.conssCaptured := by
  obtain ⟨t, hdiscards, ht, hcopies, hvars, hconss⟩ := discardCopies_accepted h
  obtain ⟨u, hdrop, hu, hnoVars, hnoConss, hproblem, hcopies', hledger⟩ :=
    dropProblem_accepted ht hcopies
  refine ⟨{ u with handlers := [], hooked := false }, ?_, ?_, ?_, ?_⟩
  · simp only [close, bind_apply, get_apply, hdiscards, hdrop, modify_apply]
  · refine ⟨hu.of_tables rfl rfl fun hne => absurd hcopies' hne, hnoVars, hnoConss, hproblem, rfl,
      rfl, hcopies', ?_⟩
    show u.ledger.discards = u.ledger.forks
    rw [hledger, ht.depth, hcopies, List.length_nil, Nat.add_zero]
  · show u.ledger.varReleases = s.varsCaptured
    rw [hledger, ← hvars, varsCaptured, hcopies, List.flatMap_nil, List.length_nil, Nat.add_zero]
  · show u.ledger.consReleases = s.conssCaptured
    rw [hledger, ← hconss, conssCaptured, hcopies, List.flatMap_nil, List.length_nil, Nat.add_zero]

end Session

/-! ## The whole teardown -/

namespace Model

open Session

variable {m : Model} {solvers : Solvers}

/-- What is left after a model was dropped: a cleared session, whose ledger counts
what the working copies captured and what the model owned. -/
structure Dropped (m : Model) (s t : Session) : Prop where
  cleared : t.Cleared
  varReleases : t.ledger.varReleases =
    s.varsCaptured + m.formulation.registry.ownedVars.length
  consReleases : t.ledger.consReleases =
    s.conssCaptured + m.formulation.bridge.toList.length

/-- A model in a session whose accounts are in order can be torn down, as long as
releases and the teardown itself are out of reach of faults. -/
theorem tearDown_accepted {s : Session} {faults : Faults} (h : s.Accounts 2 m.formulation)
    (hspared : faults.Spared) :
    ∃ t, m.tearDown ⟨s, faults⟩ = .ok () ⟨t, faults⟩ ∧ m.Dropped s t := by
  obtain ⟨t, hrelease, -, hreturned, hvars, hconss⟩ :=
    release_accepted h.sound h.resident_primary hspared.releaseVar hspared.releaseCons
  have hcopies : t.copies = s.copies := copies_eq_of_frame hreturned.frame
  obtain ⟨u, hclose, hcleared, hvarReleases, hconsReleases⟩ :=
    close_accepted (h.release hreturned)
  refine ⟨u, ?_, hcleared, ?_, ?_⟩
  · rw [tearDown, bind_apply, hrelease]
    simp only [Engine.close, Engine.call_of_spared (e := ⟨t, faults⟩) hspared.close, hclose]
  · rw [hvarReleases, varsCaptured, varsCaptured, hvars, hcopies]
    omega
  · rw [hconsReleases, conssCaptured, conssCaptured, hconss, hcopies]
    omega

/-- A teardown that leaves no block ends a model for good. -/
theorem drop_of_tearDown {t : Session} {faults : Faults}
    (htearDown : m.tearDown solvers.engine = .ok () ⟨t, faults⟩) (ht : t.Cleared) :
    m.drop solvers = .ok () { solvers with engine := ⟨t, faults⟩ } := by
  simp only [drop, htearDown, ht.blocks, if_true]

/-- A model in a session whose accounts are in order can be dropped. -/
theorem drop_accepted (h : solvers.session.Accounts 2 m.formulation)
    (hfaults : solvers.engine.faults = []) :
    ∃ t, m.drop solvers = .ok () { solvers with engine := { session := t } } ∧
      m.Dropped solvers.session t := by
  have hengine : solvers.engine = ⟨solvers.session, []⟩ := by
    rw [← hfaults]
    rfl
  obtain ⟨t, htearDown, hdropped⟩ := tearDown_accepted h Faults.spared_nil
  rw [← hengine] at htearDown
  exact ⟨t, drop_of_tearDown htearDown hdropped.cleared, hdropped⟩

end Model

end JointModel
