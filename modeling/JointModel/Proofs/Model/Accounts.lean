import JointModel.Proofs.Formulation.Built
import JointModel.Session.Interface

/-!
# The accounts of a session

`Accounts uses f s` says who owns what in a session that a model with the primary
formulation `f` lives in: the entries are those of `f` and of the working copies and
no others, no two handles of these are the same, the handles that `f` owns are used
`uses` times and those of a copy once, and the problem holds the handles that `f` owns.

There are two uses of the primary handles as long as the model lives, one of the model
and one of the problem.  Dropping the model gives the first one back.

There is one lemma for everything that happens to a session: a variable is enrolled,
a negation made, the bridge attached, a copy forked or discarded, a formulation
released.
-/

namespace JointModel

open Effect Formulation

namespace Session

variable {s t : Session} {f g copy : Formulation} {uses : Nat} {v n : VarId} {entry : VarInfo}

/-- The handles of the working copies with their stakes. -/
def copyHoldings (copies : List Formulation) : List (VarId × Stake) :=
  copies.flatMap fun copy => copy.registry.holdings 1

/-- The bridges of the working copies with their uses. -/
def copyBridges (copies : List Formulation) : List (ConsId × Nat) :=
  copies.flatMap fun copy => copy.bridgeHoldings 1

/-- All entries of the session are those of the formulation `f` and of the working
copies. -/
structure Accounts (uses : Nat) (f : Formulation) (s : Session) : Prop where
  sound : s.Sound
  paired : ∀ g ∈ f :: s.copies, g.registry.Paired
  vars : Holds VarInfo.stake (fun _ => none) s.var?
    (f.registry.holdings uses ++ copyHoldings s.copies)
  conss : Holds ConsInfo.uses (fun _ => none) s.cons?
    (f.bridgeHoldings uses ++ copyBridges s.copies)
  members : ∃ problem, s.problem = some problem ∧
    problem.vars.toList.Perm f.registry.ownedVars ∧ problem.conss.toList.Perm f.bridge.toList
  depth : s.ledger.forks = s.ledger.discards + s.copies.length

theorem Accounts.problem (h : s.Accounts uses f) : s.problem.isSome := by
  obtain ⟨problem, hproblem, -⟩ := h.members
  exact Option.isSome_of_eq_some hproblem

/-- Nothing but the entries, the copies and the problem matters. -/
theorem Accounts.of_views (h : s.Accounts uses f) (ht : t.Sound) (hvars : t.var? = s.var?)
    (hconss : t.cons? = s.cons?) (hframe : t.frame = s.frame) : t.Accounts uses f := by
  have hcopies : t.copies = s.copies := copies_eq_of_frame hframe
  refine ⟨ht, hcopies ▸ h.paired, ?_, ?_, problem_eq_of_frame hframe ▸ h.members, ?_⟩
  · rw [hvars, hcopies]
    exact h.vars
  · rw [hconss, hcopies]
    exact h.conss
  · rw [forks_eq_of_frame hframe, discards_eq_of_frame hframe, hcopies]
    exact h.depth

theorem Accounts.of_tables (h : s.Accounts uses f) (hvars : t.vars = s.vars)
    (hconss : t.conss = s.conss) (hcopies : t.copies = s.copies) (hproblem : t.problem = s.problem)
    (hledger : t.ledger = s.ledger) (hhooked : t.copies ≠ [] → t.hooked) : t.Accounts uses f := by
  have hvar? : t.var? = s.var? := by
    funext v
    rw [var?, var?, hvars]
  have hcons? : t.cons? = s.cons? := by
    funext c
    rw [cons?, cons?, hconss]
  refine ⟨h.sound.of_tables hvars hconss hhooked, hcopies ▸ h.paired, ?_, ?_,
    hproblem ▸ h.members, ?_⟩
  · rw [hvar?, hcopies]
    exact h.vars
  · rw [hcons?, hcopies]
    exact h.conss
  · rw [hledger, hcopies]
    exact h.depth

theorem Accounts.setLimit (h : s.Accounts uses f) (count : Option Nat) :
    (s.setLimit count).Accounts uses f := h.of_tables rfl rfl rfl rfl rfl h.sound.hooked

/-- Only the slots and the bridge of the primary formulation matter. -/
theorem Accounts.of_registry (h : s.Accounts uses f) (hbridge : g.bridge = f.bridge)
    (hbools : g.registry.bools = f.registry.bools)
    (hints : g.registry.intVars = f.registry.intVars) : s.Accounts uses g := by
  have howned : g.registry.ownedVars = f.registry.ownedVars := by
    show _ ++ g.registry.intVars = _ ++ f.registry.intVars
    rw [Registry.positives, Registry.positives, hbools, hints]
  refine ⟨h.sound, ?_, ?_, ?_, ?_, h.depth⟩
  · intro copy hcopy
    rcases List.mem_cons.mp hcopy with rfl | hcopy
    · exact (h.paired f List.mem_cons_self).of_bools hbools
    · exact h.paired copy (List.mem_cons_of_mem _ hcopy)
  · rw [Registry.holdings_congr hbools hints]
    exact h.vars
  · rw [bridgeHoldings, hbridge]
    exact h.conss
  · rw [howned, hbridge]
    exact h.members

/-! ## What is owned is alive -/

/-- The formulation `g` among the others. -/
theorem Accounts.holds_of_mem (h : s.Accounts uses f) (hg : g ∈ s.copies) :
    ∃ others othersCons,
      Holds VarInfo.stake (fun _ => none) s.var? (g.registry.holdings 1 ++ others) ∧
      Holds ConsInfo.uses (fun _ => none) s.cons? (g.bridgeHoldings 1 ++ othersCons) := by
  obtain ⟨l₁, l₂, hsplit⟩ := List.append_of_mem hg
  have hperm : s.copies.Perm (g :: (l₁ ++ l₂)) := by
    rw [hsplit]
    exact List.perm_middle
  refine ⟨f.registry.holdings uses ++ copyHoldings (l₁ ++ l₂),
    f.bridgeHoldings uses ++ copyBridges (l₁ ++ l₂), h.vars.perm ?_, h.conss.perm ?_⟩
  · have hcopies := hperm.flatMap_right fun copy => copy.registry.holdings 1
    rw [List.flatMap_cons] at hcopies
    exact (List.perm_append_comm_assoc _ _ _).trans (hcopies.symm.append_left _)
  · have hcopies := hperm.flatMap_right fun copy => copy.bridgeHoldings 1
    rw [List.flatMap_cons] at hcopies
    exact (List.perm_append_comm_assoc _ _ _).trans (hcopies.symm.append_left _)

theorem Accounts.resident_primary (h : s.Accounts uses f) : f.Resident uses s :=
  .of_holds (h.paired f List.mem_cons_self).aligned h.vars h.conss

theorem Accounts.resident_copy (h : s.Accounts uses f) (hg : g ∈ s.copies) : g.Resident 1 s := by
  obtain ⟨others, othersCons, hvars, hconss⟩ := h.holds_of_mem hg
  exact .of_holds (h.paired g (List.mem_cons_of_mem _ hg)).aligned hvars hconss

theorem livesIn_of_resident (h : g.Resident uses s) : g.LivesIn s where
  vars v hv := by
    obtain ⟨entry, m, hentry, hlink, -⟩ := h.owned hv
    exact ⟨entry, m, hentry, hlink⟩
  bridge hc := by
    obtain ⟨info, hinfo, -⟩ := h.bridge hc
    exact ⟨info, hinfo⟩

theorem Accounts.livesIn (h : s.Accounts uses f) (hg : g ∈ f :: s.copies) : g.LivesIn s := by
  rcases List.mem_cons.mp hg with rfl | hcopy
  · exact livesIn_of_resident h.resident_primary
  · exact livesIn_of_resident (h.resident_copy hcopy)

/-! ## New slots -/

/-- A new variable becomes a member of the problem. -/
theorem Accounts.enrol (h : s.Accounts 2 f) (henrols : s.Enrols v entry t)
    (hentry : entry.stake = ⟨1, .positive none⟩) (hpaired : g.registry.Paired)
    (hbridge : g.bridge = f.bridge)
    (hholdings : (g.registry.holdings 2).Perm
      ((v, ⟨2, .positive none⟩) :: f.registry.holdings 2)) : t.Accounts 2 g := by
  have hcopies : t.copies = s.copies := henrols.copies_eq
  have hledger : t.ledger = s.ledger := by rw [henrols.rest]
  obtain ⟨problem, hproblem, hmembers, hconss⟩ := h.members
  obtain ⟨problem', hproblem', hpushed⟩ := henrols.problem
  rw [hproblem] at hproblem'
  cases hproblem'
  refine ⟨henrols.sound h.sound (congrArg Stake.link hentry), ?_, ?_, ?_,
    ⟨_, hpushed, ?_, hbridge ▸ hconss⟩, ?_⟩
  · intro copy hcopy
    rcases List.mem_cons.mp hcopy with rfl | hcopy
    · exact hpaired
    · exact h.paired copy (List.mem_cons_of_mem _ (hcopies ▸ hcopy))
  · rw [hcopies]
    exact (henrols.holds hentry h.vars).perm (hholdings.append_right _)
  · rw [hcopies, henrols.cons?_eq, bridgeHoldings, hbridge]
    exact h.conss
  · have howned : g.registry.ownedVars.Perm (v :: f.registry.ownedVars) := by
      rw [g.registry.ownedVars_eq 2, f.registry.ownedVars_eq 2]
      exact (hholdings.filter _).map Prod.fst
    rw [Array.toList_push]
    exact (List.perm_append_singleton v _).trans ((hmembers.cons v).trans howned.symm)
  · rw [hledger, hcopies]
    exact h.depth

/-- A slot gets a negation. -/
theorem Accounts.negate {p : VarId} (h : s.Accounts uses f) (hnegates : s.Negates p entry n t)
    (hpaired : g.registry.Paired) (hbridge : g.bridge = f.bridge) {rest : List (VarId × Stake)}
    (hbefore : (f.registry.holdings uses).Perm ((p, ⟨uses, .positive none⟩) :: rest))
    (hafter : (g.registry.holdings uses).Perm
      ((n, ⟨0, .negation p⟩) :: (p, ⟨uses, .positive (some n)⟩) :: rest)) :
    t.Accounts uses g := by
  -- an alias is not owned, so the members of the problem are still the right ones
  have howned : g.registry.ownedVars.Perm f.registry.ownedVars := by
    rw [g.registry.ownedVars_eq uses, f.registry.ownedVars_eq uses]
    have hafter := (hafter.filter fun holding => holding.2.link.isPositive).map Prod.fst
    have hbefore := (hbefore.filter fun holding => holding.2.link.isPositive).map Prod.fst
    exact hafter.trans hbefore.symm
  have hcopies : t.copies = s.copies := copies_eq_of_frame hnegates.frame_eq
  have hvars : Holds VarInfo.stake (fun _ => none) s.var?
      ((p, ⟨uses, .positive none⟩) :: (rest ++ copyHoldings s.copies)) :=
    h.vars.perm (hbefore.symm.append_right _)
  obtain ⟨problem, hproblem, hmembers, hconss⟩ := h.members
  refine ⟨hnegates.sound h.sound, ?_, ?_, ?_,
    ⟨problem, (problem_eq_of_frame hnegates.frame_eq).trans hproblem, hmembers.trans howned.symm,
      hbridge ▸ hconss⟩, ?_⟩
  · intro copy hcopy
    rcases List.mem_cons.mp hcopy with rfl | hcopy
    · exact hpaired
    · exact h.paired copy (List.mem_cons_of_mem _ (hcopies ▸ hcopy))
  · rw [hcopies]
    exact (hnegates.holds hvars).perm (hafter.append_right _)
  · rw [hnegates.cons?_eq, hcopies, bridgeHoldings, hbridge]
    exact h.conss
  · rw [hnegates.ledger_eq, hcopies]
    exact h.depth

/-- The bridge is attached and becomes a member of the problem. -/
theorem Accounts.addBridge (h : s.Accounts 2 f) (hnone : f.bridge = none) {c : ConsId}
    {info : ConsInfo} (hadds : s.AddsCons c info t) (huses : info.uses = 1) {problem : Problem}
    (hproblem : s.problem = some problem) :
    Accounts 2 { f with bridge := some c }
      { t with
        conss := t.conss.modify c.index fun info => { info with uses := info.uses + 1 }
        problem := some { problem with conss := problem.conss.push c } } := by
  have hc : t.cons? c = some info := by rw [hadds.cons?, if_pos rfl]
  have ht : t.Sound := hadds.sound h.sound (by rw [huses]; exact Nat.one_pos)
  have hcopies : t.copies = s.copies := copies_eq_of_frame hadds.frame_eq
  let used : ConsInfo := { info with uses := info.uses + 1 }
  have hconss : Holds ConsInfo.uses (fun _ => none)
      ({ t with conss := t.conss.modify c.index fun info =>
        { info with uses := info.uses + 1 } } : Session).cons?
      ((c, used.uses) :: (f.bridgeHoldings 2 ++ copyBridges s.copies)) := by
    refine (h.conss.add hadds.fresh hadds.cons?).change fun d => ?_
    rw [cons?_modify]
    split
    · next hd => rw [hd, hc, Option.map_some]
    · rfl
  obtain ⟨problem', hproblem', hmembers, hbridges⟩ := h.members
  rw [hproblem] at hproblem'
  cases hproblem'
  rw [hnone, Option.toList_none, List.perm_nil] at hbridges
  refine ⟨?_, ?_, ?_, ?_, ⟨_, rfl, hmembers, ?_⟩, ?_⟩
  · exact (ht.modifyConsUses hc (· + 1) (Nat.succ_pos _)).of_tables rfl rfl ht.hooked
  · intro copy hcopy
    rcases List.mem_cons.mp hcopy with rfl | hcopy
    · exact h.paired f List.mem_cons_self
    · exact h.paired copy (List.mem_cons_of_mem _ (hcopies ▸ hcopy))
  · show Holds _ _ t.var? (f.registry.holdings 2 ++ copyHoldings t.copies)
    rw [hcopies, hadds.var?_eq]
    exact h.vars
  · show Holds _ _ _ ([(c, 2)] ++ copyBridges t.copies)
    rw [hcopies]
    rw [show used.uses = 2 by simp only [used, huses], bridgeHoldings, hnone] at hconss
    exact hconss
  · rw [Array.toList_push, hbridges]
    exact .refl _
  · show t.ledger.forks = t.ledger.discards + t.copies.length
    rw [hadds.ledger_eq, hcopies]
    exact h.depth

/-! ## Working copies and releases -/

/-- A new working copy. -/
theorem Accounts.fork (h : s.Accounts uses f) (hpaired : copy.registry.Paired)
    (hsettles : copy.Settles s t) (hhooked : s.hooked = true) :
    Accounts uses f
      { t with copies := copy :: t.copies, ledger.forks := t.ledger.forks + 1 } := by
  have hcopies : t.copies = s.copies := copies_eq_of_frame hsettles.frame
  refine ⟨?_, ?_, ?_, ?_, problem_eq_of_frame hsettles.frame ▸ h.members, ?_⟩
  · exact hsettles.sound.of_tables rfl rfl fun _ =>
      (hooked_eq_of_frame hsettles.frame).trans hhooked
  · intro g hg
    rw [hcopies] at hg
    rcases List.mem_cons.mp hg with rfl | hg
    · exact h.paired g List.mem_cons_self
    · rcases List.mem_cons.mp hg with rfl | hg
      · exact hpaired
      · exact h.paired g (List.mem_cons_of_mem _ hg)
  · show Holds _ _ t.var? (f.registry.holdings uses ++ copyHoldings (copy :: t.copies))
    rw [hcopies]
    exact (h.vars.trans hsettles.vars).perm (List.perm_append_comm_assoc _ _ _)
  · show Holds _ _ t.cons? (f.bridgeHoldings uses ++ copyBridges (copy :: t.copies))
    rw [hcopies]
    exact (h.conss.trans hsettles.conss).perm (List.perm_append_comm_assoc _ _ _)
  · show t.ledger.forks + 1 = t.ledger.discards + (t.copies.length + 1)
    rw [hsettles.ledger, hcopies, h.depth, Nat.add_assoc]

/-- The innermost working copy is discarded. -/
theorem Accounts.discard (h : s.Accounts uses f) {rest : List Formulation}
    (hcopies : s.copies = copy :: rest) (hreturned : copy.Returned { s with copies := rest } t) :
    Accounts uses f { t with ledger.discards := t.ledger.discards + 1 } := by
  have hrest : t.copies = rest := copies_eq_of_frame hreturned.frame
  have hforks : t.ledger.forks = s.ledger.forks := (forks_eq_of_frame hreturned.frame :)
  have hdiscards : t.ledger.discards = s.ledger.discards := (discards_eq_of_frame hreturned.frame :)
  have hpaired := h.paired
  rw [hcopies] at hpaired
  -- the copy is off the stack before it is released
  have hshort : Sound { s with copies := rest } :=
    h.sound.of_tables rfl rfl fun _ => h.sound.hooked (by simp [hcopies])
  have hvars := h.vars
  have hconss := h.conss
  rw [hcopies] at hvars hconss
  obtain ⟨hothers, hothersCons⟩ := hreturned.holds_others hshort
    (hpaired copy (List.mem_cons_of_mem _ List.mem_cons_self)).aligned
    (hvars.perm (List.perm_append_comm_assoc _ _ _))
    (hconss.perm (List.perm_append_comm_assoc _ _ _))
  refine ⟨?_, ?_, ?_, ?_, problem_eq_of_frame hreturned.frame ▸ h.members, ?_⟩
  · exact hreturned.sound.of_tables rfl rfl hreturned.sound.hooked
  · intro g hg
    rw [hrest] at hg
    rcases List.mem_cons.mp hg with rfl | hg
    · exact hpaired g List.mem_cons_self
    · exact hpaired g (List.mem_cons_of_mem _ (List.mem_cons_of_mem _ hg))
  · show Holds _ _ t.var? (f.registry.holdings uses ++ copyHoldings t.copies)
    rw [hrest]
    exact hothers
  · show Holds _ _ t.cons? (f.bridgeHoldings uses ++ copyBridges t.copies)
    rw [hrest]
    exact hothersCons
  · show t.ledger.forks = t.ledger.discards + 1 + t.copies.length
    rw [hforks, hdiscards, hrest, h.depth, hcopies, List.length_cons]
    omega

/-- The model gives back its use of every handle. -/
theorem Accounts.release (h : s.Accounts 2 f) (hreturned : f.Returned s t) : t.Accounts 1 f := by
  have hcopies : t.copies = s.copies := copies_eq_of_frame hreturned.frame
  obtain ⟨hvars, hconss⟩ := hreturned.holds_fewer h.sound (h.paired f List.mem_cons_self).aligned
    h.vars h.conss
  refine ⟨hreturned.sound, hcopies ▸ h.paired, hcopies ▸ hvars, hcopies ▸ hconss,
    problem_eq_of_frame hreturned.frame ▸ h.members, ?_⟩
  rw [forks_eq_of_frame hreturned.frame, discards_eq_of_frame hreturned.frame, hcopies]
  exact h.depth

end Session

end JointModel
