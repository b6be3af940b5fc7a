import JointModel.Proofs.Session.Claims

/-!
# The balance of a session

A caller captures uses of variables and constraints and gives them back later (`Captures`).
So do the problem and the working copies on the stack, and everybody's claims form one
list.  A session is in balance if the uses of its entries are the `tally` of that list
(`Balances`).

New entries put one claim on the list, a member of the problem puts another one there, and a
release takes a claim away.  As a claimed entry is used, such a release is never rejected.
-/

namespace JointModel

open Effect Formulation Registry

/-- The uses that a caller captured and still has to give back. -/
structure Captures where
  vars : List VarId := []
  conss : List ConsId := []

/-- The positive partner of an alias; any other variable is its own. -/
def Session.positiveOf (s : Session) (v : VarId) : VarId :=
  match (s.var? v).map VarInfo.link with
  | some (.negation p) => p
  | _ => v

namespace Session

variable {s t : Session} {held : Captures} {v n : VarId} {c : ConsId} {entry : VarInfo}
  {info : ConsInfo} {copy : Formulation} {problem : Problem}

/-! ## The invariant -/

/-- The members of the problem, each as often as it was made one. -/
def enrolledVars (s : Session) : List VarId := s.problem.elim [] fun problem => problem.vars.toList

def enrolledConss (s : Session) : List ConsId :=
  s.problem.elim [] fun problem => problem.conss.toList

/-- Everybody's claims on variables: those of the caller, of the problem, and of the working
copies on the stack. -/
def varClaims (s : Session) (held : Captures) : List VarId :=
  held.vars ++ (s.enrolledVars ++ s.copies.flatMap fun g => g.registry.ownedVars)

def consClaims (s : Session) (held : Captures) : List ConsId :=
  held.conss ++ (s.enrolledConss ++ s.copies.flatMap fun g => g.bridge.toList)

/-- Every entry is used as often as it is claimed. -/
structure Balances (s : Session) (held : Captures) : Prop where
  sound : s.Sound
  paired : ∀ g ∈ s.copies, g.registry.Paired
  distinct : ∀ g ∈ s.copies, g.registry.ownedVars.Nodup
  vars : s.varUses = tally (s.varClaims held)
  conss : s.consUses = tally (s.consClaims held)

theorem balances_fresh (limit : Option Nat) : Balances { limit } {} where
  sound := sound_fresh limit
  paired _ hg := absurd hg List.not_mem_nil
  distinct _ hg := absurd hg List.not_mem_nil
  vars := by
    funext v
    exact varUses_of_dead (s := { limit }) (HandleTable.get?_empty v.index)
  conss := by
    funext c
    rw [consUses, show cons? { limit } c = none from HandleTable.get?_empty c.index]
    rfl

theorem varClaims_of_frame (h : t.frame = s.frame) (held : Captures) :
    t.varClaims held = s.varClaims held := by
  rw [varClaims, enrolledVars, problem_eq_of_frame h, copies_eq_of_frame h]
  rfl

theorem consClaims_of_frame (h : t.frame = s.frame) (held : Captures) :
    t.consClaims held = s.consClaims held := by
  rw [consClaims, enrolledConss, problem_eq_of_frame h, copies_eq_of_frame h]
  rfl

/-- Neither new entries nor new claims. -/
theorem Balances.of_tables (h : s.Balances held) (hvars : t.vars = s.vars)
    (hconss : t.conss = s.conss) (hcopies : t.copies = s.copies)
    (henrolled : t.enrolledVars = s.enrolledVars ∧ t.enrolledConss = s.enrolledConss)
    (hhooked : t.copies ≠ [] → t.hooked) : t.Balances held where
  sound := h.sound.of_tables hvars hconss hhooked
  paired := hcopies ▸ h.paired
  distinct := hcopies ▸ h.distinct
  vars := by
    have hsame : t.varUses = s.varUses := varUses_congr (by funext v; rw [var?, var?, hvars])
    rw [hsame, h.vars, varClaims, varClaims, henrolled.1, hcopies]
  conss := by
    have hsame : t.consUses = s.consUses := consUses_congr (by funext c; rw [cons?, cons?, hconss])
    rw [hsame, h.conss, consClaims, consClaims, henrolled.2, hcopies]

/-- A new limit, new settings, and counts of calls do not matter. -/
theorem Balances.of_frame (h : s.Balances held) (ht : t.Sound) (hframe : t.frame = s.frame)
    {held' : Captures} (hvars : t.varUses = tally (s.varClaims held'))
    (hconss : t.consUses = tally (s.consClaims held')) : t.Balances held' where
  sound := ht
  paired := copies_eq_of_frame hframe ▸ h.paired
  distinct := copies_eq_of_frame hframe ▸ h.distinct
  vars := by rw [hvars, varClaims_of_frame hframe]
  conss := by rw [hconss, consClaims_of_frame hframe]

/-! ## Captures and new members -/

/-- A new variable is claimed by the caller. -/
theorem Balances.captureVar (h : s.Balances held) (hadds : s.Adds v entry t)
    (hlink : entry.link = .positive none) (huses : entry.uses = 1) :
    t.Balances { held with vars := v :: held.vars } := by
  have hsound : t.Sound := hadds.sound h.sound hlink (by omega)
  refine h.of_frame hsound hadds.frame_eq ?_ ((consUses_congr hadds.cons?_eq).trans h.conss)
  funext w
  have hfresh : tally (s.varClaims held) v = none := by
    rw [← h.vars]
    exact varUses_of_dead hadds.fresh
  rw [hadds.varUses hlink, huses, h.vars]
  change _ = tally (v :: s.varClaims held) w
  rw [tally_cons, hfresh, Option.getD_none]

/-- A new constraint is claimed by the caller. -/
theorem Balances.captureCons (h : s.Balances held) (hadds : s.AddsCons c info t)
    (huses : info.uses = 1) : t.Balances { held with conss := c :: held.conss } := by
  have hsound : t.Sound := hadds.sound h.sound (by omega)
  refine h.of_frame hsound hadds.frame_eq ((varUses_congr hadds.var?_eq).trans h.vars) ?_
  funext d
  have hfresh : tally (s.consClaims held) c = none := by
    rw [← h.conss, consUses, hadds.fresh, Option.map_none]
  rw [hadds.consUses, huses, h.conss]
  change _ = tally (c :: s.consClaims held) d
  rw [tally_cons, hfresh, Option.getD_none]

/-- Nobody claims an alias. -/
theorem Balances.negate (h : s.Balances held) (hnegates : s.Negates v entry n t) :
    t.Balances held :=
  h.of_frame (hnegates.sound h.sound) hnegates.frame_eq (hnegates.varUses.trans h.vars)
    ((consUses_congr hnegates.cons?_eq).trans h.conss)

/-- Claims anywhere on the list count. -/
theorem perm_claims {κ : Type} (first middle new last : List κ) :
    (first ++ (middle ++ (new ++ last))).Perm (new ++ (first ++ (middle ++ last))) := by
  have hfirst : (first ++ (middle ++ (new ++ last))).Perm (first ++ (new ++ (middle ++ last))) := by
    rw [← List.append_assoc middle, ← List.append_assoc new]
    exact (List.perm_append_comm.append_right last).append_left first
  refine hfirst.trans ?_
  rw [← List.append_assoc first, ← List.append_assoc new]
  exact List.perm_append_comm.append_right _

theorem perm_varClaims_enrol (hproblem : s.problem = some problem) (hcopies : t.copies = s.copies)
    (ht : t.problem = some { problem with vars := problem.vars.push v }) :
    (t.varClaims held).Perm (v :: s.varClaims held) := by
  rw [varClaims, enrolledVars, ht, hcopies, Option.elim_some, Array.toList_push, List.append_assoc,
    varClaims, enrolledVars, hproblem]
  exact perm_claims _ _ [v] _

theorem perm_consClaims_enrol (hproblem : s.problem = some problem) (hcopies : t.copies = s.copies)
    (ht : t.problem = some { problem with conss := problem.conss.push c }) :
    (t.consClaims held).Perm (c :: s.consClaims held) := by
  rw [consClaims, enrolledConss, ht, hcopies, Option.elim_some, Array.toList_push,
    List.append_assoc, consClaims, enrolledConss, hproblem]
  exact perm_claims _ _ [c] _

/-- The claims with one more working copy on the stack. -/
theorem perm_varClaims_push (hproblem : t.problem = s.problem)
    (hcopies : t.copies = copy :: s.copies) :
    (t.varClaims held).Perm (copy.registry.ownedVars ++ s.varClaims held) := by
  rw [varClaims, enrolledVars, hproblem, hcopies, List.flatMap_cons]
  exact perm_claims _ _ _ _

theorem perm_consClaims_push (hproblem : t.problem = s.problem)
    (hcopies : t.copies = copy :: s.copies) :
    (t.consClaims held).Perm (copy.bridge.toList ++ s.consClaims held) := by
  rw [consClaims, enrolledConss, hproblem, hcopies, List.flatMap_cons]
  exact perm_claims _ _ _ _

/-- The problem claims a variable once more. -/
theorem Balances.claimVar (h : s.Balances held) (hv : s.var? v = some entry) {m : Option VarId}
    (hlink : entry.link = .positive m) (hproblem : s.problem = some problem)
    (ht : t = { s.useVar v with problem := some { problem with vars := problem.vars.push v } }) :
    t.Balances held := by
  have hused : (s.useVar v).Sound := h.sound.useVar hv hlink
  have hsound : t.Sound := hused.of_tables (by rw [ht]) (by rw [ht]) (by rw [ht]; exact h.sound.hooked)
  have hcopies : t.copies = s.copies := by rw [ht]; rfl
  have hvars : t.varUses = (s.useVar v).varUses := varUses_congr (by rw [ht]; rfl)
  have hconss : t.consUses = s.consUses := consUses_congr (by rw [ht]; rfl)
  have hperm : (t.varClaims held).Perm (v :: s.varClaims held) :=
    perm_varClaims_enrol hproblem hcopies (by rw [ht])
  have hclaims : t.consClaims held = s.consClaims held := by
    rw [consClaims, enrolledConss, hcopies, ht, consClaims, enrolledConss, hproblem]
    rfl
  refine ⟨hsound, hcopies ▸ h.paired, hcopies ▸ h.distinct, ?_, by rw [hconss, hclaims, h.conss]⟩
  have hclaimed : tally (s.varClaims held) v = some entry.uses := by
    rw [← h.vars]
    exact varUses_of_positive hv hlink
  funext w
  rw [hvars, varUses_useVar hv hlink, tally_perm hperm, tally_cons, hclaimed, ← h.vars,
    Option.getD_some]

/-- The problem claims a constraint once more. -/
theorem Balances.claimCons (h : s.Balances held) (hc : s.cons? c = some info)
    (hproblem : s.problem = some problem)
    (ht : t = { s with
      conss := s.conss.modify c.index fun entry => { entry with uses := entry.uses + 1 }
      problem := some { problem with conss := problem.conss.push c } }) : t.Balances held := by
  have hused := h.sound.modifyConsUses hc (· + 1) (Nat.succ_pos _)
  have hsound : t.Sound := hused.of_tables (by rw [ht]) (by rw [ht]) (by rw [ht]; exact h.sound.hooked)
  have hcopies : t.copies = s.copies := by rw [ht]
  have hvars : t.varUses = s.varUses := varUses_congr (by rw [ht]; rfl)
  have hperm : (t.consClaims held).Perm (c :: s.consClaims held) :=
    perm_consClaims_enrol hproblem hcopies (by rw [ht])
  have hclaims : t.varClaims held = s.varClaims held := by
    rw [varClaims, enrolledVars, hcopies, ht, varClaims, enrolledVars, hproblem]
    rfl
  refine ⟨hsound, hcopies ▸ h.paired, hcopies ▸ h.distinct, by rw [hvars, hclaims, h.vars], ?_⟩
  have hclaimed : tally (s.consClaims held) c = some info.uses := by
    rw [← h.conss]
    exact consUses_of_some hc
  funext d
  rw [tally_perm hperm, tally_cons, hclaimed, ← h.conss, Option.getD_some, ← consUses_modify hc, ht]
  rfl

/-! ## Releases -/

theorem Balances.releaseVar (h : s.Balances held) (hheld : v ∈ held.vars) :
    ∃ t, releaseVar v s = .ok () t ∧ t.Balances { held with vars := held.vars.erase v } := by
  have hperm : (s.varClaims held).Perm ([v] ++ s.varClaims { held with vars := held.vars.erase v }) :=
    (List.perm_cons_erase hheld).append_right _
  obtain ⟨t, hrun, hdrops, -⟩ := forM_releaseVar h.sound (affords_of_tally h.vars hperm)
  have hframe : t.frame = s.frame := by
    rw [hdrops.rest]
    rfl
  have hconss : t.consUses = s.consUses := consUses_congr (by rw [hdrops.rest]; rfl)
  exact ⟨t, accepted_of_forM_singleton hrun, h.of_frame hdrops.sound hframe
    (varUses_of_given h.vars hperm hdrops.var?) (hconss.trans h.conss)⟩

theorem Balances.releaseCons (h : s.Balances held) (hheld : c ∈ held.conss) :
    ∃ t, releaseCons c s = .ok () t ∧ t.Balances { held with conss := held.conss.erase c } := by
  have hperm : (s.consClaims held).Perm
      ([c] ++ s.consClaims { held with conss := held.conss.erase c }) :=
    (List.perm_cons_erase hheld).append_right _
  obtain ⟨t, hrun, hdrops, -⟩ := forM_releaseCons h.sound (affordsCons_of_tally h.conss hperm)
  have hframe : t.frame = s.frame := by
    rw [hdrops.rest]
    rfl
  have hvars : t.varUses = s.varUses := varUses_congr hdrops.var?_eq
  exact ⟨t, accepted_of_forM_singleton hrun, h.of_frame hdrops.sound hframe
    (hvars.trans h.vars) (consUses_of_given h.conss hperm hdrops.cons?)⟩

/-! ## Calls on variables, constraints and the problem -/

theorem Balances.modifyProblem (h : s.Balances held) {change : Problem → Problem}
    (hvars : ∀ problem, (change problem).vars = problem.vars)
    (hconss : ∀ problem, (change problem).conss = problem.conss) :
    Ends (modifyProblem change) s (fun _ t => t.Balances held) fun _ _ => True := by
  cases hproblem : s.problem with
  | none =>
      exact ends_of_rejected (e := .noProblem) (t := s)
        (by simp only [Session.modifyProblem, hproblem]) trivial
  | some problem =>
      refine ends_of_accepted (a := ()) (t := { s with problem := some (change problem) })
        (by simp only [Session.modifyProblem, hproblem]) ?_
      refine h.of_tables rfl rfl rfl ⟨?_, ?_⟩ h.sound.hooked
      · simp only [enrolledVars, hproblem, Option.elim_some, hvars]
      · simp only [enrolledConss, hproblem, Option.elim_some, hconss]

theorem Balances.newVar (h : s.Balances held) (name : String) (lb ub obj : Float) (kind : VarKind) :
    Ends (newVar name lb ub obj kind) s
      (fun v t => t.Balances { held with vars := v :: held.vars }) fun _ _ => True :=
  ends_newVar h.sound.vars name lb ub obj kind (fun _ _ ht => h.captureVar ht rfl rfl)
    fun _ => trivial

theorem Balances.enrolVar (h : s.Balances held) (v : VarId) :
    Ends (Session.enrolVar v) s (fun _ t => t.Balances held) fun _ _ => True :=
  ends_enrolVar v (fun _ _ _ hv hlink hproblem => h.claimVar hv hlink hproblem rfl)
    (fun _ _ _ _ _ => trivial) fun _ => trivial

theorem Balances.negateVar (h : s.Balances held) (v : VarId) :
    Ends (negateVar v) s (fun _ t => t.Balances held) fun _ _ => True :=
  ends_negateVar h.sound.vars v (fun _ _ _ _ => h) (fun _ _ _ ht => h.negate ht)
    fun _ => trivial

/-- Whatever is copied, the caller holds the positive variable of the two. -/
theorem Balances.copyVar (h : s.Balances held) (v : VarId) :
    Ends (copyVar v) s
      (fun w t => t.Balances { held with vars := t.positiveOf w :: held.vars }) fun _ _ => True := by
  cases hv : s.var? v with
  | none =>
      exact ends_of_rejected (e := .invalidVar v) (t := s) (by simp [Session.copyVar, getVar, hv])
        trivial
  | some entry =>
      cases hlink : entry.link with
      | positive m =>
          refine (copyVar_ends h.sound.vars hv hlink).mono (fun w t ht => ?_) fun _ _ _ => trivial
          have hadds := ht.2
          have hself : t.positiveOf w = w := by
            simp only [positiveOf, hadds.var?, if_true, Option.map_some, VarInfo.copied]
          rw [hself]
          exact h.captureVar hadds rfl rfl
      | negation p =>
          obtain ⟨-, partner, hp, -⟩ := h.sound.linked.positive hv hlink
          refine (copyVar_alias_ends h.sound.vars hv hlink hp).mono (fun n t ht => ?_)
            fun _ _ _ => trivial
          obtain ⟨target, u, hadds, hnegates⟩ := ht
          have htarget : t.positiveOf n = target := by
            simp only [positiveOf, hnegates.var?, if_true, Option.map_some, VarInfo.negated]
          rw [htarget]
          exact (h.captureVar hadds rfl rfl).negate hnegates

theorem Balances.newCons (h : s.Balances held) (handler name : String) :
    Ends (newCons handler name) s
      (fun c t => t.Balances { held with conss := c :: held.conss }) fun _ _ => True := by
  cases hhandler : s.hasHandler handler with
  | false =>
      exact ends_of_rejected (e := .unknownHandler handler) (t := s)
        (by simp [Session.newCons, requireHandler, hhandler]) trivial
  | true =>
      cases hproblem : s.problem with
      | none =>
          exact ends_of_rejected (e := .noProblem) (t := s)
            (by simp [Session.newCons, requireHandler, requireProblem, hhandler, hproblem]) trivial
      | some problem =>
          refine (newCons_ends h.sound.conss (Option.isSome_of_eq_some hproblem) hhandler
            name).mono (fun c t ht => ?_) fun _ _ _ => trivial
          exact h.captureCons ht.2 rfl

theorem Balances.enrolCons (h : s.Balances held) (c : ConsId) :
    Ends (Session.enrolCons c) s (fun _ t => t.Balances held) fun _ _ => True := by
  cases hc : s.cons? c with
  | none =>
      exact ends_of_rejected (e := .invalidCons c) (t := s) (by simp [Session.enrolCons, getCons, hc])
        trivial
  | some info =>
      cases hproblem : s.problem with
      | none =>
          unfold Ends Session.enrolCons
          simp [getCons, hc, modifyCons, Session.modifyProblem, hproblem]
      | some problem =>
          exact ends_of_accepted (enrolCons_accepted hc hproblem) (h.claimCons hc hproblem rfl)

theorem Balances.copyCons (h : s.Balances held) (c : ConsId) :
    Ends (copyCons c) s
      (fun d t => t.Balances { held with conss := d :: held.conss }) fun _ _ => True := by
  cases hc : s.cons? c with
  | none =>
      exact ends_of_rejected (e := .invalidCons c) (t := s) (by simp [Session.copyCons, getCons, hc])
        trivial
  | some info =>
      refine (copyCons_ends h.sound.conss hc).mono (fun d t ht => ?_) fun _ _ _ => trivial
      exact h.captureCons ht.2 rfl

end Session

end JointModel
