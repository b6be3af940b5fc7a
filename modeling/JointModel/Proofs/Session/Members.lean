import JointModel.Proofs.Session.Invariant

/-!
# New members of the problem

A variable becomes a member of the problem in two calls: it is created, and it is
enrolled, which counts a second use.  `Enrols` says what both do together.  If the
problem refuses the variable, its creator takes back the only use, and what was there
before is there again (`Adds.undo`): the session is `Unchanged` but for its counts of
allocations and releases.
-/

namespace JointModel

/-- The entry of a new variable. -/
def VarInfo.new (name : String) (lb ub obj : Float) (kind : VarKind) : VarInfo :=
  { name, lb, ub, obj, kind, space := .primary, uses := 1, link := .positive none }

namespace Session

open Effect

variable {s t u : Session} {v w n : VarId} {entry : VarInfo} {problem : Problem}

/-! ## Nothing but counts changed -/

/-- The session `t` differs from `s` in its counts of allocations and releases only. -/
structure Unchanged (s t : Session) : Prop where
  sound : t.Sound
  var? : t.var? = s.var?
  cons? : t.cons? = s.cons?
  frame : t.frame = s.frame

theorem Unchanged.refl (h : s.Sound) : s.Unchanged s := ⟨h, rfl, rfl, rfl⟩

/-! ## Members -/

/-- The session `t` is `s` with a new variable `v` that its problem holds as its last
member. -/
structure Enrols (s : Session) (v : VarId) (entry : VarInfo) (t : Session) : Prop where
  fresh : s.var? v = none
  var? : ∀ w, t.var? w = if w = v then some { entry with uses := entry.uses + 1 } else s.var? w
  table : t.vars.Sound
  problem : ∃ problem, s.problem = some problem ∧
    t.problem = some { problem with vars := problem.vars.push v }
  rest : t = { s with
    vars := t.vars, problem := t.problem, allocations := s.allocations + 1 }

theorem Adds.enrols (h : s.Adds v entry t) (hproblem : s.problem = some problem) :
    s.Enrols v entry
      { t.useVar v with problem := some { problem with vars := problem.vars.push v } } where
  fresh := h.fresh
  var? w := by
    refine (var?_modify t v w _).trans ?_
    rw [h.var?]
    by_cases hw : w = v
    · rw [if_pos hw, if_pos hw, if_pos hw, Option.map_some]
    · rw [if_neg hw, if_neg hw, if_neg hw]
  table := h.table.modify _ _
  problem := ⟨problem, hproblem, rfl⟩
  rest := by
    rw [h.rest]
    rfl

theorem Enrols.conss_eq (h : s.Enrols v entry t) : t.conss = s.conss := by rw [h.rest]

theorem Enrols.cons?_eq (h : s.Enrols v entry t) : t.cons? = s.cons? := by
  funext c
  rw [cons?, cons?, h.conss_eq]

theorem Enrols.copies_eq (h : s.Enrols v entry t) : t.copies = s.copies := by rw [h.rest]

theorem Enrols.hooked_eq (h : s.Enrols v entry t) : t.hooked = s.hooked := by rw [h.rest]

theorem Enrols.live_of_ne (h : s.Enrols v entry t) {other : VarInfo} (hw : s.var? w = some other) :
    t.var? w = some other := by
  rw [h.var?, if_neg, hw]
  rintro rfl
  rw [h.fresh] at hw
  cases hw

theorem Enrols.sound (h : s.Enrols v entry t) (hs : s.Sound) (hlink : entry.link = .positive none) :
    t.Sound := by
  refine ⟨h.table, h.conss_eq ▸ hs.conss, hs.linked.add h.fresh h.var? hlink (Nat.succ_pos _),
    fun hc => hs.usedCons (h.cons?_eq ▸ hc), fun hcopies => ?_⟩
  rw [h.copies_eq] at hcopies
  rw [h.hooked_eq]
  exact hs.hooked hcopies

/-- The creator of an entry takes its use back. -/
theorem Adds.undo (h : s.Adds v entry t) (hs : s.Sound) (hlink : entry.link = .positive none)
    (huses : entry.uses = 1) : ∃ u, releaseVar v t = .ok () u ∧ s.Unchanged u := by
  have ht : t.Sound := h.sound hs hlink (by rw [huses]; exact Nat.one_pos)
  let counted : Session := { t with ledger.varReleases := t.ledger.varReleases + 1 }
  have hcounted : counted.Sound := ht.of_tables rfl rfl ht.hooked
  have hv : counted.var? v = some entry := (h.var? v).trans (if_pos rfl)
  refine ⟨counted.freeVar v none, ?_, hcounted.freeVar hv hlink, ?_, ?_, ?_⟩
  · have hdrop : dropVarUse v counted = .ok () (counted.freeVar v none) :=
      dropVarUse_last hv hlink (Nat.le_of_eq huses)
    rw [releaseVar, bind_apply]
    exact hdrop
  · funext w
    rw [var?_freeVar]
    by_cases hw : w = v
    · rw [if_pos (.inl hw), hw, h.fresh]
    · rw [if_neg (by simp [hw])]
      exact (h.var? w).trans (if_neg hw)
  · exact h.cons?_eq
  · exact h.frame_eq

end Session

end JointModel
