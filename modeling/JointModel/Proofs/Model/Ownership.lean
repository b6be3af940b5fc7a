import JointModel.Proofs.Model.Bookkeeping
import Mathlib.Data.List.Flatten

/-!
# Who owns which entry

`Ownership f s` says who owns what in a session that a model with the primary
formulation `f` lives in, slot by slot and entry by entry:

* Every entry that is no alias belongs to one owning slot of all formulations, and its
  uses are those of the owner and, for the primary formulation, of the problem.
* Every alias is the handle of one negated slot, next to the slot of its positive entry.
* The members of the problem are the handles that the primary formulation owns, each
  once, and its bridge.

It holds in every state of every run (`create_ownership`).

## Strategy

The accounts of a session list its entries (`Session.Accounts`).  As no two handles of
the list are the same, an entry that is found in it is found once.
-/

namespace JointModel

open Effect Formulation

/-- The handles of the negated slots. -/
def Registry.aliasVars (r : Registry) : List VarId :=
  (r.bools.toList.filter fun slot => !slot.isPositive).map BoolSlot.handle

namespace Session

variable {s : Session} {f g : Formulation} {v n p : VarId} {entry : VarInfo} {c : ConsId}

/-- The handles of the owning slots of the primary formulation and the working copies,
one for each slot. -/
def ownedBySlots (f : Formulation) (s : Session) : List VarId :=
  (f :: s.copies).flatMap fun g => g.registry.ownedVars

/-- The handles of all negated slots, one for each slot. -/
def aliasesOfSlots (f : Formulation) (s : Session) : List VarId :=
  (f :: s.copies).flatMap fun g => g.registry.aliasVars

/-- The bridges of the primary formulation and the working copies. -/
def bridges (f : Formulation) (s : Session) : List ConsId :=
  (f :: s.copies).flatMap fun g => g.bridge.toList

/-- The entry `n` is the alias of the entry `p`, and the registry has two slots for them
that are each other's negation. -/
def PairedIn (r : Registry) (n p : VarId) : Prop :=
  ∃ i slot j partner, r.bool? i = some slot ∧ slot.handle = n ∧ slot.polarity = .negated j ∧
    r.bool? j = some partner ∧ partner.handle = p ∧ partner.polarity = .positive (some i)

/-- Every entry has its owner, and every owner its entry. -/
structure Ownership (f : Formulation) (s : Session) : Prop where
  positive : ∀ v entry m, s.var? v = some entry → entry.link = .positive m →
    (s.ownedBySlots f).count v = 1 ∧ entry.uses = if v ∈ f.registry.ownedVars then 2 else 1
  negation : ∀ n entry p, s.var? n = some entry → entry.link = .negation p →
    (s.aliasesOfSlots f).count n = 1 ∧ ∃ g ∈ f :: s.copies, PairedIn g.registry n p
  bridge : ∀ c info, s.cons? c = some info →
    (s.bridges f).count c = 1 ∧ info.uses = if c ∈ f.bridge then 2 else 1
  ownedLive : ∀ v ∈ s.ownedBySlots f, ∃ entry m, s.var? v = some entry ∧ entry.link = .positive m
  aliasLive : ∀ n ∈ s.aliasesOfSlots f, ∃ entry p, s.var? n = some entry ∧ entry.link = .negation p
  bridgeLive : ∀ c ∈ s.bridges f, ∃ info, s.cons? c = some info
  members : ∃ problem, s.problem = some problem ∧
    problem.vars.toList.Perm f.registry.ownedVars ∧ problem.vars.toList.Nodup ∧
    problem.conss.toList = f.bridge.toList

/-! ## Slots and holdings -/

theorem aliasVars_sublist (r : Registry) : r.aliasVars.Sublist r.vars :=
  (List.filter_sublist.map BoolSlot.handle).trans (List.sublist_append_left _ _)

/-- What is tied as an alias is the handle of a negated slot, next to its partner. -/
theorem pairedIn_of_holding {r : Registry} (hr : r.Paired) {uses : Nat} {stake : Stake}
    (h : (n, stake) ∈ r.holdings uses) (hlink : stake.link = .negation p) :
    n ∈ r.aliasVars ∧ PairedIn r n p := by
  rcases Registry.mem_holdings.mp h with ⟨slot, hslot, rfl, rfl⟩ | ⟨-, rfl⟩
  · have hnegated : slot.isPositive = false := Registry.not_isPositive_of_link hlink
    refine ⟨List.mem_map_of_mem (List.mem_filter.mpr ⟨hslot, by simp [hnegated]⟩), ?_⟩
    obtain ⟨i, hi⟩ := Registry.exists_bool?_of_mem hslot
    cases hpolarity : slot.polarity with
    | positive m => simp [BoolSlot.isPositive_of_positive hpolarity] at hnegated
    | negated j =>
        obtain ⟨-, partner, hpartner, hback⟩ := hr.negated hi hpolarity
        have hp : partner.handle = p := by
          simpa [Registry.boolStake, Registry.link, hpolarity, Registry.handle?, hpartner] using hlink
        exact ⟨i, slot, j, partner, hi, rfl, hpolarity, hpartner, hp, hback⟩
  · cases hlink

/-- The handle of a negated slot is tied as an alias. -/
theorem exists_holding_of_alias {r : Registry} (hn : n ∈ r.aliasVars) (uses : Nat) :
    ∃ p, (n, ⟨0, .negation p⟩) ∈ r.holdings uses := by
  obtain ⟨slot, hslot, rfl⟩ := List.mem_map.mp hn
  obtain ⟨hslot, hnegated⟩ := List.mem_filter.mp hslot
  have hnegated : slot.isPositive = false := by simpa using hnegated
  cases hlink : r.link slot with
  | positive m =>
      rw [Registry.isPositive_of_link hlink] at hnegated
      cases hnegated
  | negation p =>
      refine ⟨p, Registry.mem_holdings.mpr (.inl ⟨slot, hslot, rfl, ?_⟩)⟩
      simp [Registry.boolStake, hnegated, hlink]

/-! ## From the accounts to the owners -/

namespace Accounts

variable {uses : Nat}

/-- All handles of all formulations are different. -/
theorem nodup_vars (h : s.Accounts uses f) :
    ((f :: s.copies).flatMap fun g => g.registry.vars).Nodup := by
  have hdistinct := h.vars.distinct
  rw [List.map_append, Registry.map_fst_holdings, copyHoldings, List.map_flatMap] at hdistinct
  simpa only [List.flatMap_cons, Registry.map_fst_holdings] using hdistinct

theorem nodup_ownedBySlots (h : s.Accounts uses f) : (s.ownedBySlots f).Nodup :=
  h.nodup_vars.sublist (List.Sublist.flatMap_right _ fun g _ => g.registry.ownedVars_sublist)

theorem nodup_aliasesOfSlots (h : s.Accounts uses f) : (s.aliasesOfSlots f).Nodup :=
  h.nodup_vars.sublist (List.Sublist.flatMap_right _ fun g _ => aliasVars_sublist g.registry)

theorem nodup_bridges (h : s.Accounts uses f) : (s.bridges f).Nodup := by
  have hdistinct := h.conss.distinct
  rw [List.map_append, map_fst_bridgeHoldings, copyBridges, List.map_flatMap] at hdistinct
  simpa only [bridges, List.flatMap_cons, map_fst_bridgeHoldings] using hdistinct

/-- Every entry is held by one of the formulations, the primary one or a copy. -/
theorem exists_holder (h : s.Accounts uses f) (hv : s.var? v = some entry) :
    (v, entry.stake) ∈ f.registry.holdings uses ∨
      ∃ g ∈ s.copies, (v, entry.stake) ∈ g.registry.holdings 1 := by
  rcases h.vars.mem_or_base hv with hmem | hbase
  · rcases List.mem_append.mp hmem with hprimary | hcopy
    · exact .inl hprimary
    · exact .inr (List.mem_flatMap.mp hcopy)
  · cases hbase

theorem exists_bridgeHolder (h : s.Accounts uses f) {info : ConsInfo} (hc : s.cons? c = some info) :
    (c, info.uses) ∈ f.bridgeHoldings uses ∨
      ∃ g ∈ s.copies, (c, info.uses) ∈ g.bridgeHoldings 1 := by
  rcases h.conss.mem_or_base hc with hmem | hbase
  · rcases List.mem_append.mp hmem with hprimary | hcopy
    · exact .inl hprimary
    · exact .inr (List.mem_flatMap.mp hcopy)
  · cases hbase

/-- A handle of a copy is none of the primary formulation. -/
theorem not_mem_primary (h : s.Accounts uses f) (hg : g ∈ s.copies) (hv : v ∈ g.registry.vars) :
    v ∉ f.registry.vars := by
  have hnodup := h.nodup_vars
  rw [List.flatMap_cons, List.nodup_append'] at hnodup
  intro hprimary
  exact hnodup.2.2 hprimary (List.mem_flatMap.mpr ⟨g, hg, hv⟩)

theorem not_mem_bridge (h : s.Accounts uses f) (hg : g ∈ s.copies) (hc : c ∈ g.bridge.toList) :
    c ∉ f.bridge := by
  have hnodup := h.nodup_bridges
  rw [bridges, List.flatMap_cons, List.nodup_append'] at hnodup
  intro hprimary
  exact hnodup.2.2 (Option.mem_toList.mpr hprimary) (List.mem_flatMap.mpr ⟨g, hg, hc⟩)

/-- The accounts of a model say who owns what. -/
theorem ownership (h : s.Accounts 2 f) : s.Ownership f where
  positive v entry m hv hlink := by
    rcases h.exists_holder hv with hprimary | ⟨g, hg, hcopy⟩
    · obtain ⟨howned, huses⟩ := Registry.owned_of_holding hprimary hlink
      refine ⟨List.count_eq_one_of_mem h.nodup_ownedBySlots ?_, ?_⟩
      · exact List.mem_flatMap.mpr ⟨f, List.mem_cons_self, howned⟩
      · rw [if_pos howned]
        exact huses
    · obtain ⟨howned, huses⟩ := Registry.owned_of_holding hcopy hlink
      refine ⟨List.count_eq_one_of_mem h.nodup_ownedBySlots ?_, ?_⟩
      · exact List.mem_flatMap.mpr ⟨g, List.mem_cons_of_mem _ hg, howned⟩
      · have hother := h.not_mem_primary hg (g.registry.ownedVars_sublist.mem howned)
        rw [if_neg fun hmem => hother (f.registry.ownedVars_sublist.mem hmem)]
        exact huses
  negation n entry p hn hlink := by
    rcases h.exists_holder hn with hprimary | ⟨g, hg, hcopy⟩
    · obtain ⟨halias, hpair⟩ := pairedIn_of_holding (h.paired f List.mem_cons_self) hprimary hlink
      refine ⟨List.count_eq_one_of_mem h.nodup_aliasesOfSlots ?_, f, List.mem_cons_self, hpair⟩
      exact List.mem_flatMap.mpr ⟨f, List.mem_cons_self, halias⟩
    · have hmem : g ∈ f :: s.copies := List.mem_cons_of_mem _ hg
      obtain ⟨halias, hpair⟩ := pairedIn_of_holding (h.paired g hmem) hcopy hlink
      refine ⟨List.count_eq_one_of_mem h.nodup_aliasesOfSlots ?_, g, hmem, hpair⟩
      exact List.mem_flatMap.mpr ⟨g, hmem, halias⟩
  bridge c info hc := by
    rcases h.exists_bridgeHolder hc with hprimary | ⟨g, hg, hcopy⟩
    · obtain ⟨hbridge, huses⟩ := mem_bridgeHoldings.mp hprimary
      refine ⟨List.count_eq_one_of_mem h.nodup_bridges ?_, ?_⟩
      · exact List.mem_flatMap.mpr ⟨f, List.mem_cons_self, Option.mem_toList.mpr hbridge⟩
      · rw [if_pos (Option.mem_def.mpr hbridge), huses]
    · obtain ⟨hbridge, huses⟩ := mem_bridgeHoldings.mp hcopy
      have hbridge : c ∈ g.bridge.toList := Option.mem_toList.mpr hbridge
      refine ⟨List.count_eq_one_of_mem h.nodup_bridges ?_, ?_⟩
      · exact List.mem_flatMap.mpr ⟨g, List.mem_cons_of_mem _ hg, hbridge⟩
      · rw [if_neg (h.not_mem_bridge hg hbridge), huses]
  ownedLive v hv := by
    obtain ⟨g, hg, howned⟩ := List.mem_flatMap.mp hv
    obtain ⟨entry, m, hentry, hlink⟩ := (h.livesIn hg).vars v howned
    exact ⟨entry, m, hentry, hlink⟩
  aliasLive n hn := by
    obtain ⟨g, hg, halias⟩ := List.mem_flatMap.mp hn
    rcases List.mem_cons.mp hg with rfl | hcopy
    · obtain ⟨p, hholding⟩ := exists_holding_of_alias halias 2
      obtain ⟨entry, hentry, hstake⟩ := h.resident_primary.graded hholding
      exact ⟨entry, p, hentry, congrArg Stake.link hstake⟩
    · obtain ⟨p, hholding⟩ := exists_holding_of_alias halias 1
      obtain ⟨entry, hentry, hstake⟩ := (h.resident_copy hcopy).graded hholding
      exact ⟨entry, p, hentry, congrArg Stake.link hstake⟩
  bridgeLive c hc := by
    obtain ⟨g, hg, hbridge⟩ := List.mem_flatMap.mp hc
    exact (h.livesIn hg).bridge (Option.mem_toList.mp hbridge)
  members := by
    obtain ⟨problem, hproblem, hmembers, hbridges⟩ := h.members
    have hnodup : f.registry.ownedVars.Nodup := h.resident_primary.nodup_ownedVars
    refine ⟨problem, hproblem, hmembers, hmembers.nodup_iff.mpr hnodup, ?_⟩
    cases hbridge : f.bridge with
    | none =>
        rw [hbridge, Option.toList_none, List.perm_nil] at hbridges
        exact hbridges
    | some c =>
        rw [hbridge, Option.toList_some, List.perm_singleton] at hbridges
        exact hbridges

end Accounts

end Session

/-! ## Runs -/

variable {solvers : Solvers}

/-- In every state of every run of a model, entries and owners are in balance.  If no
model could be created, nothing is left of the attempt. -/
theorem create_ownership (h : Unused solvers) (config : Config) :
    (∀ m t, Model.create config solvers = .ok m t → ∀ s forked, Live.LeadsTo ⟨m, t⟩ s forked →
      s.solvers.session.Ownership s.model.formulation) ∧
    ∀ failure t, Model.create config solvers = .error failure t →
      (∀ v, t.session.var? v = none) ∧ (∀ c, t.session.cons? c = none) ∧
        t.session.problem = none ∧ t.session.copies = [] := by
  obtain ⟨hcleared, hfaults⟩ := h.cleared
  have hends := Model.create_ends hcleared hfaults config
  constructor
  · intro m t hcreate s forked hrun
    obtain ⟨hprepared, hhooked⟩ := hends.accepted hcreate
    obtain ⟨-, hkept⟩ := hrun.kept hprepared.faults hprepared.accounts hhooked
    exact hkept.accounts.ownership
  · intro failure t hcreate
    obtain ⟨cause, -, hcleared, -⟩ := hends.rejected hcreate
    exact ⟨hcleared.vars, hcleared.conss, hcleared.problem, hcleared.copies⟩

/-- The strategy of a model leaves a working copy behind, and another slot is added. -/
theorem create_ownership_copies : Unused {} ∧ ∃ m t s forked, Model.create {} {} = .ok m t ∧
    Live.LeadsTo ⟨m, t⟩ s forked ∧ s.solvers.session.depth = 1 ∧
    s.solvers.session.Ownership s.model.formulation ∧
    ∃ u, Live.LeadsTo ⟨m, t⟩ u forked ∧ u.solvers.session.Ownership u.model.formulation := by
  have hunused : Unused {} := .fresh none
  obtain ⟨m, t, s, forked, hcreate, hrun, hdepth⟩ := exists_forkingRun
  have hbalance := (create_ownership hunused {}).1 m t hcreate
  have hlonger := hrun.add (.bool "x")
  exact ⟨hunused, m, t, s, forked, hcreate, hrun, hdepth, hbalance s forked hrun,
    _, hlonger, hbalance _ forked hlonger⟩

end JointModel
