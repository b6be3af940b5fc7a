import JointModel.Proofs.Formulation.Settling
import JointModel.Proofs.Session.Safety

/-!
# Claims on the entries of a session

Every use of an entry belongs to somebody: to a caller that captured it, to the problem, or
to a working copy.  Whoever it is, the uses can be listed, an entry once for each of them,
and `tally` reads off such a list of claims how often each entry is used.

This file says what happens to the uses when entries are added, used once more and given
back, and what the claims have to do with it.  Aliases have no uses, so nobody claims
them.
-/

namespace JointModel

/-! ## Counting claims -/

section Tally

variable {κ : Type} [DecidableEq κ] {claims claims' gone rest : List κ} {k j : κ}

/-- How often a key is claimed, if it is. -/
def tally (claims : List κ) (k : κ) : Option Nat :=
  if k ∈ claims then some (claims.count k) else none

theorem tally_of_mem (hk : k ∈ claims) : tally claims k = some (claims.count k) := if_pos hk

theorem tally_eq_none : tally claims k = none ↔ k ∉ claims := by
  simp [tally]

theorem tally_eq_some {n : Nat} : tally claims k = some n ↔ k ∈ claims ∧ claims.count k = n := by
  simp [tally]

theorem tally_perm (h : claims.Perm claims') : tally claims = tally claims' := by
  funext k
  simp only [tally, h.mem_iff, h.count_eq]

/-- One more claim. -/
theorem tally_cons (claims : List κ) (k j : κ) :
    tally (k :: claims) j =
      if j = k then some ((tally claims k).getD 0 + 1) else tally claims j := by
  by_cases hj : j = k
  · subst hj
    rw [if_pos rfl, tally_of_mem List.mem_cons_self, List.count_cons_self, tally]
    split
    · rfl
    · next hno => rw [List.count_eq_zero_of_not_mem hno, Option.getD_none]
  · rw [if_neg hj]
    simp only [tally, List.mem_cons, hj, false_or, List.count_cons_of_ne (Ne.symm hj)]

/-- Claims on keys that nobody claimed before. -/
theorem tally_append (hnodup : gone.Nodup) (hfresh : ∀ k ∈ gone, tally rest k = none) (k : κ) :
    tally (gone ++ rest) k = if k ∈ gone then some 1 else tally rest k := by
  by_cases hk : k ∈ gone
  · have hrest : k ∉ rest := tally_eq_none.mp (hfresh k hk)
    rw [if_pos hk, tally_of_mem (List.mem_append_left rest hk), List.count_append,
      List.count_eq_one_of_mem hnodup hk, List.count_eq_zero_of_not_mem hrest]
  · simp only [tally, List.mem_append, hk, false_or, if_false, List.count_append,
      List.count_eq_zero_of_not_mem hk, Nat.zero_add]

/-- What is left of `n` uses after `given` of them were given back. -/
def spend (given n : Nat) : Option Nat := if n ≤ given then none else some (n - given)

/-- Some of the claims are given up. -/
theorem tally_spend (h : claims.Perm (gone ++ rest)) (k : κ) :
    tally rest k = (tally claims k).bind (spend (gone.count k)) := by
  rw [tally_perm h]
  by_cases hk : k ∈ gone ++ rest
  · rw [tally_of_mem hk, Option.bind_some, List.count_append, spend]
    by_cases hrest : k ∈ rest
    · have hcount : 0 < rest.count k := List.count_pos_iff.mpr hrest
      rw [tally_of_mem hrest, if_neg (by omega), Nat.add_sub_cancel_left]
    · rw [tally_eq_none.mpr hrest, List.count_eq_zero_of_not_mem hrest, Nat.add_zero,
        if_pos (Nat.le_refl _)]
  · have hrest : k ∉ rest := fun hmem => hk (List.mem_append_right gone hmem)
    rw [tally_eq_none.mpr hk, tally_eq_none.mpr hrest, Option.bind_none]

end Tally

/-- The uses of an entry of its own.  An alias has none. -/
def VarInfo.ownUses (entry : VarInfo) : Option Nat :=
  match entry.link with
  | .positive _ => some entry.uses
  | .negation _ => none

theorem VarInfo.ownUses_of_positive {entry : VarInfo} {n : Option VarId}
    (h : entry.link = .positive n) : entry.ownUses = some entry.uses := by
  simp only [ownUses, h]

theorem VarInfo.ownUses_of_negation {entry : VarInfo} {p : VarId} (h : entry.link = .negation p) :
    entry.ownUses = none := by
  simp only [ownUses, h]

namespace Session

open Effect Formulation Registry

variable {s t : Session} {v w n : VarId} {c d : ConsId} {entry : VarInfo} {info : ConsInfo}
  {vs : List VarId} {cs : List ConsId} {f : Formulation}

/-! ## The uses of entries -/

/-- How often a variable with an entry of its own is used. -/
def varUses (s : Session) (v : VarId) : Option Nat := (s.var? v).bind VarInfo.ownUses

/-- How often a constraint is used. -/
def consUses (s : Session) (c : ConsId) : Option Nat := (s.cons? c).map ConsInfo.uses

theorem varUses_of_positive (hv : s.var? v = some entry) {m : Option VarId}
    (hlink : entry.link = .positive m) : s.varUses v = some entry.uses := by
  rw [varUses, hv, Option.bind_some, VarInfo.ownUses_of_positive hlink]

theorem varUses_of_negation (hv : s.var? v = some entry) {p : VarId}
    (hlink : entry.link = .negation p) : s.varUses v = none := by
  rw [varUses, hv, Option.bind_some, VarInfo.ownUses_of_negation hlink]

theorem varUses_of_dead (hv : s.var? v = none) : s.varUses v = none := by
  rw [varUses, hv, Option.bind_none]

theorem varUses_eq_some {uses : Nat} : s.varUses v = some uses ↔
    ∃ entry m, s.var? v = some entry ∧ entry.link = .positive m ∧ entry.uses = uses := by
  constructor
  · intro h
    obtain ⟨entry, hv, huses⟩ := Option.bind_eq_some_iff.mp h
    cases hlink : entry.link with
    | negation p => rw [VarInfo.ownUses_of_negation hlink] at huses; cases huses
    | positive m =>
        rw [VarInfo.ownUses_of_positive hlink] at huses
        exact ⟨entry, m, hv, hlink, Option.some.inj huses⟩
  · rintro ⟨entry, m, hv, hlink, rfl⟩
    exact varUses_of_positive hv hlink

theorem consUses_of_some (hc : s.cons? c = some info) : s.consUses c = some info.uses := by
  rw [consUses, hc, Option.map_some]

theorem varUses_congr (h : t.var? = s.var?) : t.varUses = s.varUses := by
  funext v
  rw [varUses, varUses, h]

theorem consUses_congr (h : t.cons? = s.cons?) : t.consUses = s.consUses := by
  funext c
  rw [consUses, consUses, h]

/-! ## New entries and new uses -/

theorem Adds.varUses (h : s.Adds v entry t) (hlink : entry.link = .positive none) (w : VarId) :
    t.varUses w = if w = v then some entry.uses else s.varUses w := by
  by_cases hw : w = v
  · rw [if_pos hw]
    exact varUses_of_positive (by rw [h.var?, if_pos hw]) hlink
  · rw [if_neg hw, Session.varUses, h.var?, if_neg hw, Session.varUses]

theorem AddsCons.consUses (h : s.AddsCons c info t) (d : ConsId) :
    t.consUses d = if d = c then some info.uses else s.consUses d := by
  rw [Session.consUses, h.cons?]
  split <;> rfl

/-- A new alias changes nobody's uses. -/
theorem Negates.varUses (h : s.Negates v entry n t) : t.varUses = s.varUses := by
  funext w
  by_cases hn : w = n
  · rw [varUses_of_negation (by rw [h.var?, if_pos hn]) rfl, hn, varUses_of_dead h.fresh]
  · by_cases hv : w = v
    · rw [varUses_of_positive (by rw [h.var?, if_neg hn, if_pos hv]) rfl, hv,
        varUses_of_positive h.live h.link]
    · rw [Session.varUses, h.var?, if_neg hn, if_neg hv, Session.varUses]

theorem varUses_useVar (hv : s.var? v = some entry) {m : Option VarId}
    (hlink : entry.link = .positive m) (w : VarId) :
    (s.useVar v).varUses w = if w = v then some (entry.uses + 1) else s.varUses w := by
  rw [varUses, useVar, var?_modify]
  by_cases hw : w = v
  · rw [if_pos hw, if_pos hw, hw, hv, Option.map_some, Option.bind_some]
    exact VarInfo.ownUses_of_positive hlink
  · rw [if_neg hw, if_neg hw, varUses]

theorem consUses_modify (hc : s.cons? c = some info) (d : ConsId) :
    ({ s with conss := s.conss.modify c.index fun entry => { entry with uses := entry.uses + 1 } } :
      Session).consUses d = if d = c then some (info.uses + 1) else s.consUses d := by
  rw [consUses, cons?_modify]
  by_cases hd : d = c
  · rw [if_pos hd, if_pos hd, hd, hc, Option.map_some, Option.map_some]
  · rw [if_neg hd, if_neg hd, consUses]

/-- Every handle that a new formulation owns is used once. -/
theorem varUses_of_settles (h : f.Settles s t) (v : VarId) :
    t.varUses v = if v ∈ f.registry.ownedVars then some 1 else s.varUses v := by
  by_cases howned : v ∈ f.registry.ownedVars
  · obtain ⟨entry, m, hv, hlink, huses⟩ := h.resident.owned howned
    rw [if_pos howned, varUses_of_positive hv hlink, huses]
  · rw [if_neg howned]
    by_cases hv : v ∈ f.registry.vars
    · -- what is not owned is an alias, and nobody uses it
      obtain ⟨stake, hholding⟩ := exists_holding hv 1
      obtain ⟨entry, hentry, hstake⟩ := h.resident.graded hholding
      have hfresh : s.var? v = none := h.vars.fresh ((map_fst_holdings f.registry 1).symm ▸ hv)
      rw [varUses_of_dead hfresh]
      cases hlink : stake.link with
      | positive m => exact absurd (owned_of_holding hholding hlink).1 howned
      | negation p =>
          exact varUses_of_negation hentry ((congrArg Stake.link hstake).trans hlink)
    · rw [varUses, h.vars.others ((map_fst_holdings f.registry 1).symm ▸ hv), varUses]

theorem varUses_fresh_of_settles (h : f.Settles s t) (hv : v ∈ f.registry.ownedVars) :
    s.varUses v = none := by
  refine varUses_of_dead (h.vars.fresh ?_)
  rw [map_fst_holdings]
  exact f.registry.ownedVars_sublist.mem hv

theorem consUses_of_settles (h : f.Settles s t) (c : ConsId) :
    t.consUses c = if c ∈ f.bridge.toList then some 1 else s.consUses c := by
  by_cases hc : c ∈ f.bridge.toList
  · obtain ⟨info, hinfo, huses⟩ := h.resident.bridge (Option.mem_toList.mp hc)
    rw [if_pos hc, consUses_of_some hinfo, huses]
  · rw [if_neg hc, consUses, h.conss.others (by rwa [map_fst_bridgeHoldings]), consUses]

theorem consUses_fresh_of_settles (h : f.Settles s t) (hc : c ∈ f.bridge.toList) :
    s.consUses c = none := by
  rw [consUses, h.conss.fresh (by rwa [map_fst_bridgeHoldings]), Option.map_none]

/-! ## Uses that are given back -/

theorem varUses_of_remaining (h : ∀ w, t.var? w = s.remaining vs w) (v : VarId) :
    t.varUses v = (s.varUses v).bind (spend (vs.count v)) := by
  rw [varUses, h]
  cases hv : s.var? v with
  | none => rw [remaining_of_dead hv, varUses_of_dead hv, Option.bind_none, Option.bind_none]
  | some entry =>
      cases hlink : entry.link with
      | positive m =>
          rw [remaining_of_positive hv hlink, varUses_of_positive hv hlink, Option.bind_some, spend]
          split
          · rfl
          · exact VarInfo.ownUses_of_positive hlink
      | negation p =>
          rw [remaining_of_negation hv hlink, varUses_of_negation hv hlink, Option.bind_none]
          split
          · rfl
          · exact VarInfo.ownUses_of_negation hlink

theorem consUses_of_remaining (h : ∀ d, t.cons? d = s.remainingCons cs d) (c : ConsId) :
    t.consUses c = (s.consUses c).bind (spend (cs.count c)) := by
  rw [consUses, h, remainingCons, consUses]
  cases s.cons? c with
  | none => rfl
  | some info =>
      rw [Option.bind_some, Option.map_some, Option.bind_some, spend]
      split <;> rfl

/-- What is claimed can be given back. -/
theorem affords_of_tally {claims rest : List VarId} (h : s.varUses = tally claims)
    (hperm : claims.Perm (vs ++ rest)) : s.Affords vs := by
  intro v hv
  have hmem : v ∈ claims := hperm.mem_iff.mpr (List.mem_append_left rest hv)
  obtain ⟨entry, m, hentry, hlink, huses⟩ :=
    varUses_eq_some.mp ((congrFun h v).trans (tally_of_mem hmem))
  refine ⟨entry, m, hentry, hlink, ?_⟩
  rw [huses, hperm.count_eq, List.count_append]
  exact Nat.le_add_right _ _

theorem affordsCons_of_tally {claims rest : List ConsId} (h : s.consUses = tally claims)
    (hperm : claims.Perm (cs ++ rest)) : s.AffordsCons cs := by
  intro c hc
  have hmem : c ∈ claims := hperm.mem_iff.mpr (List.mem_append_left rest hc)
  obtain ⟨info, hinfo, huses⟩ :=
    Option.map_eq_some_iff.mp ((congrFun h c).trans (tally_of_mem hmem))
  refine ⟨info, hinfo, ?_⟩
  rw [huses, hperm.count_eq, List.count_append]
  exact Nat.le_add_right _ _

/-- Of the claims on the variables, those of the handles that gave back their uses are
gone. -/
theorem varUses_of_given {claims rest : List VarId} (h : s.varUses = tally claims)
    (hperm : claims.Perm (vs ++ rest)) (hvar : ∀ w, t.var? w = s.remaining vs w) :
    t.varUses = tally rest := by
  funext w
  rw [varUses_of_remaining hvar, h, tally_spend hperm]

theorem consUses_of_given {claims rest : List ConsId} (h : s.consUses = tally claims)
    (hperm : claims.Perm (cs ++ rest)) (hcons : ∀ d, t.cons? d = s.remainingCons cs d) :
    t.consUses = tally rest := by
  funext d
  rw [consUses_of_remaining hcons, h, tally_spend hperm]

/-! ## Releases of formulations and of the problem -/

/-- A formulation can be released if the uses of its handles can be given back. -/
theorem release_gaveBack (h : s.Sound) (hvars : s.Affords f.registry.ownedVars)
    (hconss : s.AffordsCons f.bridge.toList) :
    ∃ t, Engine.onSession f.release s = .ok () t ∧
      s.GaveBack f.registry.ownedVars f.bridge.toList t := by
  obtain ⟨u, hrunConss, hdrops, -⟩ := forM_releaseCons h hconss
  obtain ⟨t, hrunVars, hdrops', -⟩ := forM_releaseVar hdrops.sound (hdrops.affords hvars)
  refine ⟨t, ?_, gaveBack_of_drops hdrops hdrops'⟩
  rw [onSession_release, bind_apply, hrunConss]
  exact hrunVars

/-- So can the members of a problem. -/
theorem dropMembers_gaveBack (h : s.Sound) {problem : Problem} (hvars : s.Affords problem.vars.toList)
    (hconss : s.AffordsCons problem.conss.toList) :
    ∃ t, dropMembers problem s = .ok () t ∧
      s.GaveBack problem.vars.toList problem.conss.toList t := by
  obtain ⟨u, hrunConss, hdrops, -⟩ := forM_dropConsUse h hconss
  obtain ⟨t, hrunVars, hdrops', -⟩ := forM_dropVarUse hdrops.sound (hdrops.affords hvars)
  refine ⟨t, ?_, gaveBack_of_drops hdrops hdrops'⟩
  rw [dropMembers, bind_apply, hrunConss]
  exact hrunVars

end Session

end JointModel
