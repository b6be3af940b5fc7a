import JointModel.Proofs.Session.Members
import JointModel.Proofs.Session.Reachable

/-!
# What rejected calls leave behind

A rejected call should leave the session as it was.  Copies and enrolments do so
up to one case each.

* The copy of an alias takes two blocks.  If the limit leaves room for one only,
  the copy of the partner is made and that of the alias is rejected.  The first
  copy then stays, with one use that nobody holds (`copyVar_rejections`).
* An enrolment counts the use before it looks for the problem.  Without a
  problem the use stays counted, and it takes one release more to free the entry
  (`enrolment_rejections`).

## Strategy

Each call is computed case by case of the entry it finds, so that a rejection is
an equation between sessions.  What that means for later releases is said by
`GoneAfter`, which counts them; its rule `goneAfter_iff` is an induction on the
number of uses, with one step for variables and one for constraints.
-/

namespace JointModel.Session

open Effect

variable {s t : Session} {v p : VarId} {c : ConsId} {entry partner : VarInfo}

/-! ## Copies -/

/-- The variable is the alias of a live entry, and the limit leaves room for one
block only. -/
def OneShort (s : Session) (v : VarId) : Prop :=
  (∃ entry p, s.var? v = some entry ∧ entry.link = .negation p) ∧
    s.limit = some (s.allocations + 1)

/-- The session `t` is `s` with a copy of the positive partner of `v`.  The copy
has one use, and no handle for it was given out. -/
def Strands (s : Session) (v : VarId) (t : Session) : Prop :=
  ∃ entry p partner target, s.var? v = some entry ∧ entry.link = .negation p ∧
    s.var? p = some partner ∧ s.Adds target partner.copied t ∧ t.blocks = s.blocks + 1

theorem copyEntry_blocks (hs : s.Sound) (entry : VarInfo) :
    Ends (copyEntry entry) s (fun _ t => t.blocks = s.blocks + 1) fun _ _ => True := by
  unfold copyEntry allocateVar
  rw [ends_bind]
  refine (allocate_ends s _).mono (fun _ t ht => ?_) fun _ _ _ => trivial
  obtain ⟨-, rfl⟩ := ht
  change (s.vars.insert entry.copied).2.liveCount + s.conss.liveCount + s.copies.length +
    s.problem.elim 0 (fun _ => 1) = _
  rw [hs.vars.liveCount_insert, blocks]
  omega

/-- A copy of what is not an alias takes one block, and is made or not. -/
theorem copyVar_rejected_of_positive (hs : s.Sound) {n : Option VarId}
    (hv : s.var? v = some entry) (hlink : entry.link = .positive n) {cause : EngineError}
    (hrun : copyVar v s = .error cause t) : t = s :=
  ((copyVar_ends hs.vars hv hlink).rejected hrun).1

theorem copyVar_of_dead (hv : s.var? v = none) : copyVar v s = .error (.invalidVar v) s := by
  rw [copyVar, bind_apply, getVar, hv]

/-- The copy of an alias is the alias of the copy of its partner. -/
theorem copyVar_of_alias (hv : s.var? v = some entry) (hlink : entry.link = .negation p)
    (hp : s.var? p = some partner) :
    copyVar v s = (copyEntry partner >>= negateVar) s := by
  rw [copyVar, bind_apply, getVar, hv]
  simp only [hlink]
  rw [bind_apply, getVar, hp]

/-- With room for one block only, the partner is copied and the alias is not. -/
theorem copyVar_oneShort (hs : s.Sound) (h : s.OneShort v) :
    ∃ detail t, copyVar v s = .error (.allocation detail) t ∧ s.Strands v t := by
  obtain ⟨⟨entry, p, hv, hlink⟩, hlimit⟩ := h
  obtain ⟨-, partner, hp, -⟩ := hs.linked.positive hv hlink
  have hcopy := copyEntry_ends hs.vars partner
  have hblocks := copyEntry_blocks hs partner
  rw [copyVar_of_alias hv hlink hp, bind_apply]
  cases hrun : copyEntry partner s with
  | error cause u =>
      obtain ⟨-, ⟨limit, hl, hle⟩, -⟩ := hcopy.rejected hrun
      rw [hlimit] at hl
      cases hl
      omega
  | ok target u =>
      have hadds : s.Adds target partner.copied u := (hcopy.accepted hrun).2
      have htarget : u.var? target = some partner.copied := by rw [hadds.var?, if_pos rfl]
      have hnegate := negateVar_ends hadds.table htarget rfl
      cases hrun' : negateVar target u with
      | ok n t =>
          -- the copy has used up the limit
          have hroom := (hnegate.accepted hrun').1 (s.allocations + 1)
            ((limit_eq_of_frame hadds.frame_eq).trans hlimit)
          rw [hadds.allocations_eq] at hroom
          omega
      | error cause t =>
          obtain ⟨rfl, -, detail, rfl⟩ := hnegate.rejected hrun'
          exact ⟨detail, t, by simp only [hrun'], entry, p, partner, target, hv, hlink, hp, hadds,
            hblocks.accepted hrun⟩

/-- With more room or less, a rejected copy leaves the session as it was. -/
theorem copyVar_rejected (hs : s.Sound) (h : ¬ s.OneShort v) {cause : EngineError}
    (hrun : copyVar v s = .error cause t) : t = s := by
  cases hv : s.var? v with
  | none =>
      rw [copyVar_of_dead hv] at hrun
      cases hrun
      rfl
  | some entry =>
      cases hlink : entry.link with
      | positive n => exact copyVar_rejected_of_positive hs hv hlink hrun
      | negation p =>
          obtain ⟨-, partner, hp, -⟩ := hs.linked.positive hv hlink
          have hcopy := copyEntry_ends hs.vars partner
          rw [copyVar_of_alias hv hlink hp, bind_apply] at hrun
          cases hrun' : copyEntry partner s with
          | error cause' u =>
              rw [hrun'] at hrun
              cases hrun
              exact (hcopy.rejected hrun').1
          | ok target u =>
              -- the first block was within the limit and the second is not, so exactly one was left
              rw [hrun'] at hrun
              obtain ⟨hroom, hadds⟩ := hcopy.accepted hrun'
              have htarget : u.var? target = some partner.copied := by rw [hadds.var?, if_pos rfl]
              obtain ⟨-, ⟨limit, hl, hle⟩, -⟩ :=
                (negateVar_ends hadds.table htarget rfl).rejected hrun
              rw [limit_eq_of_frame hadds.frame_eq] at hl
              rw [hadds.allocations_eq] at hle
              have hlt := hroom limit hl
              refine absurd ⟨⟨entry, p, hv, hlink⟩, ?_⟩ h
              rw [hl]
              congr 1
              omega

/-- A rejected copy leaves the session as it was, unless the variable is an alias and the limit
leaves room for one block only.  Then the copy is always rejected, and what it made first
stays. -/
theorem copyVar_rejections (hs : s.Reachable) (v : VarId) :
    (¬ s.OneShort v → ∀ cause t, copyVar v s = .error cause t → t = s) ∧
    (s.OneShort v → ∃ detail t, copyVar v s = .error (.allocation detail) t ∧ s.Strands v t) :=
  ⟨fun h _ _ hrun => copyVar_rejected hs.sound h hrun, copyVar_oneShort hs.sound⟩

/-- A variable, its alias, and room for one more block. -/
def shortSession : Session :=
  (history [.newProblem "p", .newVar "x" 0 1 0 .binary, .negateVar ⟨0⟩]).setLimit (some 1)

theorem copyVar_rejections_short : shortSession.Reachable ∧ shortSession.OneShort ⟨1⟩ ∧
    ∃ detail t, copyVar ⟨1⟩ shortSession = .error (.allocation detail) t ∧
      shortSession.Strands ⟨1⟩ t := by
  have hreachable : shortSession.Reachable := (reachable_history _).setLimit _
  have hshort : shortSession.OneShort ⟨1⟩ := ⟨⟨_, ⟨0⟩, rfl, rfl⟩, rfl⟩
  exact ⟨hreachable, hshort, (copyVar_rejections hreachable ⟨1⟩).2 hshort⟩

/-! ## Counting releases -/

/-- The call, made `count` times, is accepted each time, and then `gone` holds. -/
def GoneAfter (release : Run Unit) (gone : Session → Prop) (count : Nat) (s : Session) : Prop :=
  ∃ t, (List.replicate count ()).forM (fun _ => release) s = .ok () t ∧ gone t

theorem goneAfter_zero {release : Run Unit} {gone : Session → Prop} :
    GoneAfter release gone 0 s ↔ gone s := by
  constructor
  · rintro ⟨t, hrun, hgone⟩
    cases hrun
    exact hgone
  · exact fun hgone => ⟨s, rfl, hgone⟩

theorem goneAfter_succ {release : Run Unit} {gone : Session → Prop} {count : Nat} :
    GoneAfter release gone (count + 1) s ↔
      ∃ t, release s = .ok () t ∧ GoneAfter release gone count t := by
  unfold GoneAfter
  simp only [List.replicate_succ, List.forM_eq_forM, List.forM_cons, bind_apply]
  cases release s with
  | ok _ t => simp
  | error cause t => simp

/-- If each release takes back one use, the last one makes `gone` hold, and what is gone cannot
be released, then it takes exactly as many releases as there are uses. -/
theorem goneAfter_iff {release : Run Unit} {gone : Session → Prop}
    (held : Nat → Session → Prop)
    (hlast : ∀ s, held 1 s → ∃ t, release s = .ok () t ∧ gone t)
    (hmore : ∀ uses s, held (uses + 2) s → ∃ t, release s = .ok () t ∧ held (uses + 1) t)
    (hheld : ∀ uses s, held (uses + 1) s → ¬ gone s)
    (hgone : ∀ s, gone s → ∃ cause t, release s = .error cause t)
    {uses : Nat} (hs : held (uses + 1) s) (count : Nat) :
    GoneAfter release gone count s ↔ count = uses + 1 := by
  induction uses generalizing s count with
  | zero =>
      obtain ⟨t, hrun, ht⟩ := hlast s hs
      cases count with
      | zero => simpa [goneAfter_zero] using hheld 0 s hs
      | succ count =>
          rw [goneAfter_succ]
          cases count with
          | zero => simpa [goneAfter_zero, hrun] using ht
          | succ count =>
              obtain ⟨cause, u, hreject⟩ := hgone t ht
              simp [goneAfter_succ, hrun, hreject]
  | succ uses ih =>
      obtain ⟨t, hrun, ht⟩ := hmore uses s hs
      cases count with
      | zero => simpa [goneAfter_zero] using hheld (uses + 1) s hs
      | succ count =>
          rw [goneAfter_succ, hrun]
          simp [ih ht count]

/-- The entry of the variable is positive and used so often. -/
def UsedVar (v : VarId) (uses : Nat) (s : Session) : Prop :=
  ∃ entry n, s.var? v = some entry ∧ entry.link = .positive n ∧ entry.uses = uses

/-- The entry of the constraint is used so often. -/
def UsedCons (c : ConsId) (uses : Nat) (s : Session) : Prop :=
  ∃ entry, s.cons? c = some entry ∧ entry.uses = uses

/-- So many releases free the entry of the variable. -/
def VarFreedBy (v : VarId) : Nat → Session → Prop :=
  GoneAfter (releaseVar v) fun s => s.var? v = none

/-- So many releases free the entry of the constraint. -/
def ConsFreedBy (c : ConsId) : Nat → Session → Prop :=
  GoneAfter (releaseCons c) fun s => s.cons? c = none

theorem dropVarUse_of_dead (hv : s.var? v = none) : dropVarUse v s = .error (.invalidVar v) s := by
  simp [dropVarUse, getVar, hv]

theorem dropConsUse_of_dead (hc : s.cons? c = none) :
    dropConsUse c s = .error (.invalidCons c) s := by
  simp [dropConsUse, getCons, hc]

theorem varFreedBy_iff {uses : Nat} (h : UsedVar v (uses + 1) s) (count : Nat) :
    VarFreedBy v count s ↔ count = uses + 1 := by
  refine goneAfter_iff (UsedVar v) ?_ ?_ ?_ ?_ h count
  · rintro s ⟨entry, n, hv, hlink, huses⟩
    refine ⟨_, dropVarUse_last hv hlink (Nat.le_of_eq huses), ?_⟩
    rw [var?_freeVar, if_pos (.inl rfl)]
  · rintro uses s ⟨entry, n, hv, hlink, huses⟩
    refine ⟨_, dropVarUse_more hv hlink (by omega), { entry with uses := entry.uses - 1 }, n, ?_,
      hlink, by simp only [huses]; omega⟩
    rw [var?_modify, if_pos rfl]
    exact congrArg _ hv
  · rintro uses s ⟨entry, n, hv, -⟩ hnone
    rw [hnone] at hv
    cases hv
  · intro s hnone
    let counted : Session := { s with ledger.varReleases := s.ledger.varReleases + 1 }
    exact ⟨_, _, dropVarUse_of_dead (s := counted) hnone⟩

theorem consFreedBy_iff {uses : Nat} (h : UsedCons c (uses + 1) s) (count : Nat) :
    ConsFreedBy c count s ↔ count = uses + 1 := by
  refine goneAfter_iff (UsedCons c) ?_ ?_ ?_ ?_ h count
  · rintro s ⟨entry, hc, huses⟩
    refine ⟨_, dropConsUse_last hc (Nat.le_of_eq huses), ?_⟩
    rw [cons?_freeCons, if_pos rfl]
  · rintro uses s ⟨entry, hc, huses⟩
    refine ⟨_, dropConsUse_more hc (by omega), { entry with uses := entry.uses - 1 }, ?_,
      by simp only [huses]; omega⟩
    rw [cons?_modify, if_pos rfl]
    exact congrArg _ hc
  · rintro uses s ⟨entry, hc, -⟩ hnone
    rw [hnone] at hc
    cases hc
  · intro s hnone
    let counted : Session := { s with ledger.consReleases := s.ledger.consReleases + 1 }
    exact ⟨_, _, dropConsUse_of_dead (s := counted) hnone⟩

/-! ## Enrolments -/

/-- The variable is live, and it is not an alias. -/
def Positive (s : Session) (v : VarId) : Prop :=
  ∃ entry n, s.var? v = some entry ∧ entry.link = .positive n

/-- Counts one more use of a constraint. -/
def useCons (s : Session) (c : ConsId) : Session :=
  { s with conss := s.conss.modify c.index fun entry => { entry with uses := entry.uses + 1 } }

/-- It takes one release more in `t` than in `s`. -/
def OneMore (freedBy : Nat → Session → Prop) (s t : Session) : Prop :=
  ∃ uses, ∀ count, (freedBy count s ↔ count = uses) ∧ (freedBy count t ↔ count = uses + 1)

theorem enrolVar_of_dead (hv : s.var? v = none) : enrolVar v s = .error (.invalidVar v) s := by
  simp [enrolVar, getVar, hv]

theorem enrolVar_of_alias (hv : s.var? v = some entry) (hlink : entry.link = .negation p) :
    enrolVar v s = .error (.invalidVar v) s := by
  simp [enrolVar, getVar, hv, hlink]

theorem enrolVar_of_no_problem (hv : s.Positive v) (hproblem : s.problem = none) :
    enrolVar v s = .error .noProblem (s.useVar v) := by
  obtain ⟨entry, n, hv, hlink⟩ := hv
  simp [enrolVar, getVar, hv, hlink, modifyVar, modifyProblem, hproblem, useVar]

theorem enrolCons_of_dead (hc : s.cons? c = none) :
    enrolCons c s = .error (.invalidCons c) s := by
  simp [enrolCons, getCons, hc]

theorem enrolCons_of_no_problem (hc : (s.cons? c).isSome) (hproblem : s.problem = none) :
    enrolCons c s = .error .noProblem (s.useCons c) := by
  obtain ⟨entry, hc⟩ := Option.isSome_iff_exists.mp hc
  simp [enrolCons, getCons, hc, modifyCons, modifyProblem, hproblem, useCons]

theorem useVar_oneMore (hs : s.Sound) (hv : s.Positive v) :
    OneMore (VarFreedBy v) s (s.useVar v) := by
  obtain ⟨entry, n, hv, hlink⟩ := hv
  obtain ⟨uses, huses⟩ := Nat.exists_eq_add_of_lt (hs.linked.used hv hlink)
  have hbefore : UsedVar v (uses + 1) s := ⟨entry, n, hv, hlink, by omega⟩
  have hafter : UsedVar v (uses + 1 + 1) (s.useVar v) := by
    refine ⟨{ entry with uses := entry.uses + 1 }, n, ?_, hlink, by simp only; omega⟩
    rw [useVar, var?_modify, if_pos rfl, hv, Option.map_some]
  exact ⟨uses + 1, fun count => ⟨varFreedBy_iff hbefore count, varFreedBy_iff hafter count⟩⟩

theorem useCons_oneMore (hs : s.Sound) (hc : (s.cons? c).isSome) :
    OneMore (ConsFreedBy c) s (s.useCons c) := by
  obtain ⟨entry, hc⟩ := Option.isSome_iff_exists.mp hc
  obtain ⟨uses, huses⟩ := Nat.exists_eq_add_of_lt (hs.usedCons hc)
  have hbefore : UsedCons c (uses + 1) s := ⟨entry, hc, by omega⟩
  have hafter : UsedCons c (uses + 1 + 1) (s.useCons c) := by
    refine ⟨{ entry with uses := entry.uses + 1 }, ?_, by simp only; omega⟩
    rw [useCons, cons?_modify, if_pos rfl, hc, Option.map_some]
  exact ⟨uses + 1, fun count => ⟨consFreedBy_iff hbefore count, consFreedBy_iff hafter count⟩⟩

theorem enrolVar_rejected (h : ¬ (s.problem = none ∧ s.Positive v)) {cause : EngineError}
    (hrun : enrolVar v s = .error cause t) : t = s := by
  cases hv : s.var? v with
  | none =>
      rw [enrolVar_of_dead hv] at hrun
      cases hrun
      rfl
  | some entry =>
      cases hlink : entry.link with
      | negation p =>
          rw [enrolVar_of_alias hv hlink] at hrun
          cases hrun
          rfl
      | positive n =>
          have hproblem : s.problem ≠ none := fun hnone => h ⟨hnone, entry, n, hv, hlink⟩
          obtain ⟨problem, hproblem⟩ := Option.ne_none_iff_exists'.mp hproblem
          rw [enrolVar_accepted hv hlink hproblem] at hrun
          cases hrun

theorem enrolCons_rejected (h : ¬ (s.problem = none ∧ (s.cons? c).isSome)) {cause : EngineError}
    (hrun : enrolCons c s = .error cause t) : t = s := by
  cases hc : s.cons? c with
  | none =>
      rw [enrolCons_of_dead hc] at hrun
      cases hrun
      rfl
  | some entry =>
      have hproblem : s.problem ≠ none := fun hnone => h ⟨hnone, by rw [hc]; rfl⟩
      obtain ⟨problem, hproblem⟩ := Option.ne_none_iff_exists'.mp hproblem
      rw [enrolCons_accepted hc hproblem] at hrun
      cases hrun

/-- A rejected enrolment leaves the session as it was, unless it is rejected because there is no
problem.  Then one more use is counted, and it takes one release more to free the entry. -/
theorem enrolment_rejections (hs : s.Reachable) :
    (∀ v, ¬ (s.problem = none ∧ s.Positive v) →
      ∀ cause t, enrolVar v s = .error cause t → t = s) ∧
    (∀ v, s.problem = none ∧ s.Positive v →
      enrolVar v s = .error .noProblem (s.useVar v) ∧ OneMore (VarFreedBy v) s (s.useVar v)) ∧
    (∀ c, ¬ (s.problem = none ∧ (s.cons? c).isSome) →
      ∀ cause t, enrolCons c s = .error cause t → t = s) ∧
    (∀ c, s.problem = none ∧ (s.cons? c).isSome →
      enrolCons c s = .error .noProblem (s.useCons c) ∧
        OneMore (ConsFreedBy c) s (s.useCons c)) := by
  refine ⟨fun v h _ _ hrun => enrolVar_rejected h hrun, fun v h => ?_,
    fun c h _ _ hrun => enrolCons_rejected h hrun, fun c h => ?_⟩
  · exact ⟨enrolVar_of_no_problem h.2 h.1, useVar_oneMore hs.sound h.2⟩
  · exact ⟨enrolCons_of_no_problem h.2 h.1, useCons_oneMore hs.sound h.2⟩

/-- A session that was torn down while its caller still held a variable and a constraint. -/
def heldSession : Session :=
  history [.newProblem "p", .addHandler "h", .newVar "x" 0 1 0 .binary, .newCons "h" "c", .close]

theorem enrolment_rejections_held : heldSession.Reachable ∧
    OneMore (VarFreedBy ⟨0⟩) heldSession (heldSession.useVar ⟨0⟩) ∧
    OneMore (ConsFreedBy ⟨0⟩) heldSession (heldSession.useCons ⟨0⟩) ∧
    enrolVar ⟨0⟩ heldSession = .error .noProblem (heldSession.useVar ⟨0⟩) ∧
    enrolCons ⟨0⟩ heldSession = .error .noProblem (heldSession.useCons ⟨0⟩) := by
  have hreachable : heldSession.Reachable := reachable_history _
  have hproblem : heldSession.problem = none := rfl
  obtain ⟨-, hvar, -, hcons⟩ := enrolment_rejections hreachable
  obtain ⟨hvar, hvarMore⟩ := hvar ⟨0⟩ ⟨hproblem, _, none, rfl, rfl⟩
  obtain ⟨hcons, hconsMore⟩ := hcons ⟨0⟩ ⟨hproblem, rfl⟩
  exact ⟨hreachable, hvarMore, hconsMore, hvar, hcons⟩

end JointModel.Session
