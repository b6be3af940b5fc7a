import JointModel.Formulation.Copy
import JointModel.Proofs.Holds
import JointModel.Proofs.Registry.Holdings
import JointModel.Proofs.Session.Release

/-!
# Releasing a formulation

A formulation is `Resident` if the session keeps an entry of its own for each of
its handles, with the stakes that the registry lists.

A resident formulation can always be released out of reach of faults, and giving
it up after a failure comes to the same (`release_accepted`).  Only the entries
behind its own handles notice: they lose one use, and if it was the last one they
are gone.  For a session that holds the formulation among others, that means that
it holds the others still (`Returned.holds_others`).
-/

namespace JointModel

namespace Formulation

open Effect Session Registry

variable {f : Formulation} {s t : Session} {v w : VarId} {c : ConsId} {uses : Nat}

/-- The session keeps an entry of its own for every handle of the formulation,
and owned handles are used `uses` times. -/
structure Resident (f : Formulation) (uses : Nat) (s : Session) : Prop where
  aligned : f.registry.Aligned
  distinct : f.registry.vars.Nodup
  graded : ∀ {v stake}, (v, stake) ∈ f.registry.holdings uses →
    ∃ entry, s.var? v = some entry ∧ entry.stake = stake
  bridge : ∀ {c}, f.bridge = some c → ∃ info, s.cons? c = some info ∧ info.uses = uses

/-- The session `t` is `s` after every handle that the formulation owns gave back
one use. -/
structure Returned (f : Formulation) (s t : Session) : Prop where
  sound : t.Sound
  var? : ∀ v, t.var? v = s.remaining f.registry.ownedVars v
  cons? : ∀ c, t.cons? c = s.remainingCons f.bridge.toList c
  allocations : t.allocations = s.allocations
  frame : t.frame = s.frame

theorem Resident.nodup_ownedVars (h : f.Resident uses s) : f.registry.ownedVars.Nodup :=
  h.distinct.sublist f.registry.ownedVars_sublist

/-- The entry of an owned handle. -/
theorem Resident.owned (h : f.Resident uses s) (hv : v ∈ f.registry.ownedVars) :
    ∃ entry m, s.var? v = some entry ∧ entry.link = .positive m ∧ entry.uses = uses := by
  obtain ⟨m, hmem⟩ := exists_holding_of_owned hv uses
  obtain ⟨entry, hentry, hstake⟩ := h.graded hmem
  exact ⟨entry, m, hentry, congrArg Stake.link hstake, congrArg Stake.uses hstake⟩

theorem Resident.affords (h : f.Resident (uses + 1) s) : s.Affords f.registry.ownedVars := by
  intro v hv
  obtain ⟨entry, m, hentry, hlink, huses⟩ := h.owned hv
  have hcount : f.registry.ownedVars.count v ≤ 1 := List.nodup_iff_count_le_one.mp
    h.nodup_ownedVars v
  exact ⟨entry, m, hentry, hlink, by omega⟩

theorem Resident.affordsCons (h : f.Resident (uses + 1) s) : s.AffordsCons f.bridge.toList := by
  intro c hc
  cases hbridge : f.bridge with
  | none => simp [hbridge] at hc
  | some d =>
      obtain rfl : c = d := by simpa [hbridge] using hc
      obtain ⟨info, hinfo, huses⟩ := h.bridge hbridge
      exact ⟨info, hinfo, by simp [huses]⟩

/-! ## Releases -/

/-- Once the bridge and then the owned handles gave back a use. -/
theorem Returned.of_drops {u : Session} {cs : List ConsId} {vs : List VarId}
    (hcs : cs.Perm f.bridge.toList) (hvs : vs.Perm f.registry.ownedVars)
    (hconss : s.DropsConss cs u) (hvars : u.DropsVars vs t) : f.Returned s t := by
  have hgave := gaveBack_of_drops hconss hvars
  refine ⟨hgave.sound, fun v => ?_, fun c => ?_, hgave.allocations, hgave.frame⟩
  · rw [hgave.var?]
    simp only [remaining, hvs.count_eq]
  · rw [hgave.cons?]
    simp only [remainingCons, hcs.count_eq]

/-- Out of reach of faults, a resident formulation can be released, and giving it
up after a failure comes to the same. -/
theorem release_accepted (h : s.Sound) (hresident : f.Resident (uses + 1) s) {faults : Faults}
    (hvar : faults.lookup .releaseVar = none) (hcons : faults.lookup .releaseCons = none) :
    ∃ t, f.release ⟨s, faults⟩ = .ok () ⟨t, faults⟩ ∧ f.abandon ⟨s, faults⟩ = .ok () ⟨t, faults⟩ ∧
      f.Returned s t ∧
      t.ledger.varReleases = s.ledger.varReleases + f.registry.ownedVars.length ∧
      t.ledger.consReleases = s.ledger.consReleases + f.bridge.toList.length := by
  obtain ⟨u, hconss, hdrops, hconsCount⟩ := forM_releaseCons h hresident.affordsCons
  obtain ⟨t, hvars, hdrops', hvarCount⟩ :=
    forM_releaseVar hdrops.sound (hdrops.affords hresident.affords)
  have hcallCons : ∀ c s t, Session.releaseCons c s = .ok ⟨⟩ t →
      Engine.releaseCons c ⟨s, faults⟩ = .ok ⟨⟩ ⟨t, faults⟩ := by
    intro c s t hrun
    rw [Engine.releaseCons, Engine.call_of_spared hcons, hrun]
  have hcallVar : ∀ v s t, Session.releaseVar v s = .ok ⟨⟩ t →
      Engine.releaseVar v ⟨s, faults⟩ = .ok ⟨⟩ ⟨t, faults⟩ := by
    intro v s t hrun
    rw [Engine.releaseVar, Engine.call_of_spared hvar, hrun]
  -- as no release is rejected, it makes no difference to forget rejections
  have hattempt : ∀ {act : Engine.Run Unit} {e e' : Engine}, act e = .ok ⟨⟩ e' →
      attempt act e = .ok ⟨⟩ e' := by
    intro act e e' hrun
    rw [attempt, tryCatch_apply, hrun]
  refine ⟨t, ?_, ?_, .of_drops (.refl _) (.refl _) hdrops hdrops', ?_, ?_⟩
  · rw [release, bind_apply, Engine.forM_spared hcallCons hconss]
    exact Engine.forM_spared hcallVar hvars
  · rw [abandon, bind_apply,
      Engine.forM_spared (fun c s t hrun => hattempt (hcallCons c s t hrun)) hconss]
    exact Engine.forM_spared (fun v s t hrun => hattempt (hcallVar v s t hrun)) hvars
  · rw [hvarCount, hdrops.rest]
  · rw [hdrops'.rest]
    exact hconsCount

/-! ## What is left after a release -/

section Returned

variable (hreturned : f.Returned s t)

include hreturned

/-- Only the handles of the formulation notice. -/
theorem Returned.var?_of_not_mem (h : s.Sound) (hresident : f.Resident (uses + 1) s)
    (hw : w ∉ f.registry.vars) : t.var? w = s.var? w := by
  have howned : ∀ {v}, v ∉ f.registry.vars → f.registry.ownedVars.count v = 0 := fun hv =>
    List.count_eq_zero_of_not_mem fun hmem => hv (f.registry.ownedVars_sublist.mem hmem)
  rw [hreturned.var?]
  cases hentry : s.var? w with
  | none => exact remaining_of_dead hentry _
  | some entry =>
      cases hlink : entry.link with
      | positive m =>
          have hused : 0 < entry.uses := h.linked.used hentry hlink
          rw [remaining_of_positive hentry hlink, howned hw, if_neg (by omega)]
          rfl
      | negation p =>
          obtain ⟨-, partner, hp, hback⟩ := h.linked.positive hentry hlink
          have hused : 0 < partner.uses := h.linked.used hp hback
          -- if the formulation owned `p`, then `w` would be one of its aliases
          have hpv : p ∉ f.registry.ownedVars := by
            intro hmem
            obtain ⟨m, hholding⟩ := exists_holding_of_owned hmem (uses + 1)
            obtain ⟨partner', hp', hstake⟩ := hresident.graded hholding
            rw [hp] at hp'
            cases hp'
            have hlink' : partner.link = .positive m := congrArg Stake.link hstake
            exact hw (mem_vars_of_link hholding (hlink'.symm.trans hback))
          rw [remaining_of_negation hentry hlink, hp, List.count_eq_zero_of_not_mem hpv,
            Option.elim_some, if_neg (by omega)]

theorem Returned.var?_of_owned (hresident : f.Resident (uses + 1) s)
    (hv : v ∈ f.registry.ownedVars) :
    t.var? v = if uses = 0 then none else (s.var? v).map fun entry => { entry with uses } := by
  obtain ⟨entry, m, hentry, hlink, huses⟩ := hresident.owned hv
  have hcount : f.registry.ownedVars.count v = 1 :=
    List.count_eq_one_of_mem hresident.nodup_ownedVars hv
  rw [hreturned.var?, remaining_of_positive hentry hlink, hcount, huses, hentry, Option.map_some]
  simp

theorem Returned.var?_of_alias (hresident : f.Resident (uses + 1) s) {stake : Stake} {p : VarId}
    (hv : (v, stake) ∈ f.registry.holdings (uses + 1)) (hlink : stake.link = .negation p) :
    t.var? v = if uses = 0 then none else s.var? v := by
  obtain ⟨entry, hentry, hstake⟩ := hresident.graded hv
  have hlink' : entry.link = .negation p := (congrArg Stake.link hstake).trans hlink
  obtain ⟨-, hp⟩ := alias_of_holding hresident.aligned hv hlink
  obtain ⟨partner, m, hpartner, -, huses⟩ := hresident.owned hp
  have hcount : f.registry.ownedVars.count p = 1 :=
    List.count_eq_one_of_mem hresident.nodup_ownedVars hp
  rw [hreturned.var?, remaining_of_negation hentry hlink', hpartner,
    Option.elim_some, huses, hcount, hentry]
  simp

/-- If it was the last use, the entries of the formulation are gone. -/
theorem Returned.var?_of_mem (hresident : f.Resident 1 s) (hv : v ∈ f.registry.vars) :
    t.var? v = none := by
  obtain ⟨stake, hholding⟩ := exists_holding hv 1
  cases hlink : stake.link with
  | positive m =>
      exact (hreturned.var?_of_owned hresident (owned_of_holding hholding hlink).1).trans (if_pos rfl)
  | negation p => exact (hreturned.var?_of_alias hresident hholding hlink).trans (if_pos rfl)

theorem Returned.cons?_of_not_mem (h : s.Sound) (hc : f.bridge ≠ some c) :
    t.cons? c = s.cons? c := by
  rw [hreturned.cons?]
  exact remainingCons_of_not_mem h (by simpa using hc)

theorem Returned.cons?_of_bridge (hresident : f.Resident (uses + 1) s) (hc : f.bridge = some c) :
    t.cons? c = if uses = 0 then none else (s.cons? c).map fun info => { info with uses } := by
  obtain ⟨info, hinfo, huses⟩ := hresident.bridge hc
  have hcount : f.bridge.toList.count c = 1 := by simp [hc]
  rw [hreturned.cons?, remainingCons_of_some hinfo, hcount, huses, hinfo, Option.map_some]
  simp

end Returned

/-! ## What a session holds after a release -/

/-- The bridge of a formulation with its uses. -/
def bridgeHoldings (f : Formulation) (uses : Nat) : List (ConsId × Nat) :=
  f.bridge.toList.map fun c => (c, uses)

theorem mem_bridgeHoldings {n : Nat} : (c, n) ∈ f.bridgeHoldings uses ↔
    f.bridge = some c ∧ n = uses := by
  cases hbridge : f.bridge <;> simp [bridgeHoldings, hbridge, eq_comm]

theorem map_fst_bridgeHoldings (f : Formulation) (uses : Nat) :
    (f.bridgeHoldings uses).map Prod.fst = f.bridge.toList := by
  simp [bridgeHoldings, Function.comp_def]

variable {base : VarId → Option VarInfo} {baseCons : ConsId → Option ConsInfo}
  {others : List (VarId × Stake)} {othersCons : List (ConsId × Nat)}

theorem Resident.of_holds (haligned : f.registry.Aligned)
    (hvars : Holds VarInfo.stake base s.var? (f.registry.holdings uses ++ others))
    (hconss : Holds ConsInfo.uses baseCons s.cons? (f.bridgeHoldings uses ++ othersCons)) :
    f.Resident uses s := by
  refine ⟨haligned, ?_, fun hv => hvars.graded (List.mem_append_left _ hv), ?_⟩
  · have hdistinct := hvars.distinct
    rw [List.map_append, map_fst_holdings] at hdistinct
    exact (List.nodup_append.mp hdistinct).1
  · intro c hc
    exact hconss.graded (List.mem_append_left _ (mem_bridgeHoldings.mpr ⟨hc, rfl⟩))

/-- After the last use of a formulation was given back, the session holds the
others. -/
theorem Returned.holds_others (hreturned : f.Returned s t) (h : s.Sound)
    (haligned : f.registry.Aligned)
    (hvars : Holds VarInfo.stake base s.var? (f.registry.holdings 1 ++ others))
    (hconss : Holds ConsInfo.uses baseCons s.cons? (f.bridgeHoldings 1 ++ othersCons)) :
    Holds VarInfo.stake base t.var? others ∧ Holds ConsInfo.uses baseCons t.cons? othersCons := by
  have hresident : f.Resident 1 s := .of_holds haligned hvars hconss
  refine ⟨hvars.drop ?_ ?_, hconss.drop ?_ ?_⟩
  · intro v hv
    rw [map_fst_holdings] at hv
    exact hreturned.var?_of_mem hresident hv
  · intro v hv
    rw [map_fst_holdings] at hv
    exact hreturned.var?_of_not_mem h hresident hv
  · intro c hc
    rw [map_fst_bridgeHoldings, Option.mem_toList] at hc
    exact (hreturned.cons?_of_bridge hresident hc).trans (if_pos rfl)
  · intro c hc
    rw [map_fst_bridgeHoldings, Option.mem_toList] at hc
    exact hreturned.cons?_of_not_mem h hc

/-- After a use that was not the last one, the session holds the formulation with
one use less. -/
theorem Returned.holds_fewer (hreturned : f.Returned s t) (h : s.Sound)
    (haligned : f.registry.Aligned)
    (hvars : Holds VarInfo.stake base s.var? (f.registry.holdings (uses + 2) ++ others))
    (hconss : Holds ConsInfo.uses baseCons s.cons? (f.bridgeHoldings (uses + 2) ++ othersCons)) :
    Holds VarInfo.stake base t.var? (f.registry.holdings (uses + 1) ++ others) ∧
      Holds ConsInfo.uses baseCons t.cons? (f.bridgeHoldings (uses + 1) ++ othersCons) := by
  have hresident : f.Resident (uses + 2) s := .of_holds haligned hvars hconss
  refine ⟨hvars.regrade (by rw [map_fst_holdings, map_fst_holdings]) ?_ ?_,
    hconss.regrade (by rw [map_fst_bridgeHoldings, map_fst_bridgeHoldings]) ?_ ?_⟩
  · intro v stake hv
    cases hlink : stake.link with
    | positive m =>
        obtain ⟨howned, huses⟩ := owned_of_holding hv hlink
        obtain ⟨entry, hentry, hstake⟩ := hresident.graded (holding_of_owned hv hlink (uses + 2))
        have hlink' : entry.link = .positive m := congrArg Stake.link hstake
        rw [hreturned.var?_of_owned hresident howned, hentry, if_neg (Nat.succ_ne_zero uses)]
        refine ⟨_, rfl, ?_⟩
        cases stake
        cases huses
        cases hlink
        simp [VarInfo.stake, hlink']
    | negation p =>
        have huses := (alias_of_holding haligned hv hlink).1
        have hholding := holding_of_alias hv hlink (uses + 2)
        obtain ⟨entry, hentry, hstake⟩ := hresident.graded hholding
        rw [hreturned.var?_of_alias hresident hholding rfl, if_neg (Nat.succ_ne_zero uses)]
        refine ⟨entry, hentry, hstake.trans ?_⟩
        cases stake
        cases huses
        cases hlink
        rfl
  · intro v hv
    rw [map_fst_holdings] at hv
    exact hreturned.var?_of_not_mem h hresident hv
  · intro c n hc
    obtain ⟨hbridge, rfl⟩ := mem_bridgeHoldings.mp hc
    obtain ⟨info, hinfo, -⟩ := hresident.bridge hbridge
    rw [hreturned.cons?_of_bridge hresident hbridge, hinfo, if_neg (Nat.succ_ne_zero uses)]
    exact ⟨_, rfl, rfl⟩
  · intro c hc
    rw [map_fst_bridgeHoldings, Option.mem_toList] at hc
    exact hreturned.cons?_of_not_mem h hc

end Formulation

end JointModel
