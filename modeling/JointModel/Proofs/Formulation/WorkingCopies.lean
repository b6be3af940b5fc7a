import JointModel.Proofs.Formulation.Built
import JointModel.Workbench

/-!
# What a fork guarantees

For a formulation that can be built and whose handles are alive in a session that
can be reached:

* A fork is all or nothing (`fork_all_or_nothing`).  It goes through exactly if the
  blocks that are left suffice for all of its slots and the bridge; otherwise, and
  if a fault strikes on the way, every handle stands for what it stood for before.
  The blocks that are left are those of the budget that was set last, except that a
  budget which overflows the limit leaves none (`room?_setLimit`).
* A copy is faithful (`fork_faithful`).  It has the slots of the source with other
  handles, the entries behind them are copies of the entries of the source, and
  negated slots are the aliases of their partners' new handles.
-/

namespace JointModel

open Effect

namespace Session

/-- The blocks that can still be allocated, if there is a limit. -/
def room? (s : Session) : Option Nat := s.limit.map (· - s.allocations)

/-- A budget is the room under it, unless the limit overflows.  Then it wraps around to a
number below that of the allocations, and no block is left. -/
theorem room?_setLimit (s : Session) (b : UInt64) : (s.setLimit (some b.toNat)).room? =
    some (if s.allocations + b.toNat < UInt64.size then b.toNat else 0) := by
  have hword : b.toNat < UInt64.size := b.toNat_lt_size
  show some ((s.allocations + b.toNat) % UInt64.size - s.allocations) = _
  congr 1
  split
  · next hfits => rw [Nat.mod_eq_of_lt hfits, Nat.add_sub_cancel_left]
  · next hoverflows =>
      simp only [UInt64.size] at hword hoverflows ⊢
      omega

end Session

namespace Formulation

open Session Registry

variable {f copy : Formulation} {s t : Session} {e e' : Engine} {cause : EngineError}

theorem LivesIn.setLimit (h : f.LivesIn s) (count : Option Nat) : f.LivesIn (s.setLimit count) :=
  ⟨h.vars, h.bridge⟩

/-! ## An example -/

/-- The calls by which a session gets the entries of a new model for
branch-and-check. -/
def seedCalls : List Session.Call :=
  [.newProblem "hybrid", .newVar "false" 0.0 0.0 0.0 .binary, .enrolVar ⟨0⟩, .negateVar ⟨0⟩,
    .newVar "zero" (Float.ofInt 0) (Float.ofInt 0) 0.0 .integer, .enrolVar ⟨2⟩,
    .addHandler bridgeHandler, .newCons bridgeHandler "cp", .enrolCons ⟨0⟩]

/-- The formulation of a new model for branch-and-check. -/
def seed : Formulation :=
  let engine : Engine := { session := history [.newProblem "hybrid"] }
  let registry := (after Draft.addConstants ⟨{}, { engine }⟩).registry
  (after Assembly.addBridge ⟨engine, { registry }⟩).formulation

theorem built_seed : seed.Built := .bridge _ (.constants _ .empty)

theorem livesIn_seed : seed.LivesIn (history seedCalls) := by
  constructor
  · intro v hv
    rw [show seed.registry.ownedVars = [⟨0⟩, ⟨2⟩] by decide] at hv
    rcases List.mem_cons.mp hv with rfl | hv
    · exact ⟨_, _, rfl, rfl⟩
    · cases List.mem_singleton.mp hv
      exact ⟨_, _, rfl, rfl⟩
  · intro c hc
    rw [show seed.bridge = some ⟨0⟩ by decide] at hc
    cases hc
    exact ⟨_, rfl⟩

/-! ## All or nothing -/

theorem blocks_eq_sum (f : Formulation) : f.blocks =
    f.registry.bools.size + f.registry.intVars.length + if f.bridge.isSome then 1 else 0 := by
  rw [blocks, Registry.vars, List.length_append, List.length_map, ← Array.length_toList]
  cases f.bridge with
  | none => simp
  | some c =>
      simp only [Option.toList_some, List.length_singleton, Option.isSome_some, if_true]
      omega

/-- The workbench sets a budget unless the limit overflows. -/
theorem setLimit_of_budget (b : UInt64) (w : Workbench) :
    Workbench.setLimit (some b.toNat) w =
      if w.solvers.session.allocations + b.toNat < UInt64.size then
        .ok () { w with solvers.engine.session := w.solvers.session.setLimit (some b.toNat) }
      else .error (.abort .limitOverflow) w := by
  by_cases hfits : w.solvers.session.allocations + b.toNat < UInt64.size
  · rw [if_pos hfits]
    exact if_neg (ne_true_of_eq_false (decide_eq_false (Nat.not_le_of_lt hfits)))
  · rw [if_neg hfits]
    exact if_pos (decide_eq_true (Nat.le_of_not_lt hfits))

/-- With no fault armed, a fork is accepted or out of blocks. -/
theorem fork_within_room (hpaired : f.registry.Paired) (hsound : s.Sound) (hlives : f.LivesIn s) :
    Ends f.fork { session := s } (fun _ _ => ∀ room ∈ s.room?, f.blocks ≤ room)
      fun cause _ => ∃ room ∈ s.room?, room < f.blocks ∧ ∃ detail, cause = .allocation detail := by
  refine (fork_ends (e := { session := s }) hpaired hsound hlives).mono (fun copy e' h => ?_)
    fun cause e' h => ?_
  · obtain ⟨-, hcaptured⟩ := h
    intro room hroom
    obtain ⟨limit, hlimit, rfl⟩ := Option.map_eq_some_iff.mp hroom
    have hwithin := hcaptured.room limit hlimit
    rw [hcaptured.settles.allocations, hcaptured.blocks_eq, ← blocks_eq] at hwithin
    dsimp only at hwithin
    omega
  · obtain ⟨⟨a, -, hblocked⟩, -⟩ := h
    have hshort := hblocked.short
    rcases hblocked.reason with ⟨hdetail, limit, hlimit, hle⟩ | ⟨op, -, hfault⟩
    · dsimp only at hle
      exact ⟨limit - s.allocations, Option.map_eq_some_iff.mpr ⟨limit, hlimit, rfl⟩, by omega,
        hdetail⟩
    · exact absurd rfl hfault

theorem fork_accepted (hpaired : f.registry.Paired) (hsound : s.Sound) (hlives : f.LivesIn s)
    (hroom : ∀ room ∈ s.room?, f.blocks ≤ room) :
    ∃ copy e', f.fork { session := s } = .ok copy e' := by
  have hends : Ends f.fork { session := s } (fun _ _ => True) fun _ _ => False :=
    (fork_within_room hpaired hsound hlives).mono (fun _ _ _ => trivial)
      fun _ _ ⟨room, hmem, hshort, _⟩ => absurd (hroom room hmem) (Nat.not_le_of_lt hshort)
  obtain ⟨copy, e', hfork, -⟩ := hends.exists_accepted
  exact ⟨copy, e', hfork⟩

/-- A fork goes through exactly if there are blocks for all handles.  Under a budget these
are the blocks of the budget, unless the limit overflows: then there are none.  The workbench
sets a budget exactly if the limit does not overflow, and aborts otherwise.  A fork that is
rejected, for want of blocks or because a call on the way fails, leaves all entries and all
else that is not a count as it was. -/
theorem fork_all_or_nothing (hbuilt : f.Built) (hs : s.Reachable) (hlives : f.LivesIn s) :
    (∀ b : UInt64,
      ((∃ copy e', f.fork { session := s.setLimit (some b.toNat) } = .ok copy e') ↔
        f.registry.bools.size + f.registry.intVars.length + (if f.bridge.isSome then 1 else 0) ≤
          if s.allocations + b.toNat < UInt64.size then b.toNat else 0) ∧
      ((∃ copy e', f.fork { session := s.setLimit (some b.toNat) } = .ok copy e') ∨
        ∃ detail e',
          f.fork { session := s.setLimit (some b.toNat) } = .error (.allocation detail) e') ∧
      ∀ w : Workbench, w.solvers.session = s → Workbench.setLimit (some b.toNat) w =
        if s.allocations + b.toNat < UInt64.size then
          .ok () { w with solvers.engine.session := s.setLimit (some b.toNat) }
        else .error (.abort .limitOverflow) w) ∧
    ∀ limit (faults : Faults) cause e',
      faults.lookup .releaseVar = none → faults.lookup .releaseCons = none →
      f.fork ⟨s.setLimit limit, faults⟩ = .error cause e' →
        e'.session.var? = s.var? ∧ e'.session.cons? = s.cons? ∧
          e'.session.frame = (s.setLimit limit).frame := by
  have hpaired := hbuilt.paired
  constructor
  · intro b
    have hends := fork_within_room hpaired (hs.setLimit (some b.toNat)).sound (hlives.setLimit _)
    rw [room?_setLimit, blocks_eq_sum] at hends
    simp only [Option.mem_some_iff, forall_eq', exists_eq_left'] at hends
    rw [← and_assoc]
    refine ⟨?_, fun w hw => hw ▸ setLimit_of_budget b w⟩
    cases hrun : f.fork { session := s.setLimit (some b.toNat) } with
    | ok copy e' =>
        refine ⟨⟨fun _ => hends.accepted hrun, fun _ => ⟨copy, e', rfl⟩⟩, .inl ⟨copy, e', rfl⟩⟩
    | error cause e' =>
        obtain ⟨hshort, detail, rfl⟩ := hends.rejected hrun
        refine ⟨⟨fun ⟨copy, e', hok⟩ => ?_, ?_⟩, .inr ⟨detail, e', rfl⟩⟩
        · cases hok
        · intro hle
          exact absurd hle (Nat.not_le_of_lt hshort)
  · intro limit faults cause e' hvar hcons hfork
    have hends := fork_ends (e := ⟨s.setLimit limit, faults⟩) hpaired (hs.setLimit limit).sound
      (hlives.setLimit _)
    obtain ⟨-, hrestored⟩ := hends.rejected hfork
    obtain ⟨hrestored, -⟩ := hrestored hvar hcons
    exact ⟨hrestored.var?, hrestored.cons?, hrestored.frame⟩

/-- Two boolean slots, an integer slot and the bridge take four blocks.  A copy that
fails at the second variable leaves no trace. -/
theorem fork_all_or_nothing_seed :
    (seed.Built ∧ (history seedCalls).Reachable ∧ seed.LivesIn (history seedCalls)) ∧
    (∃ copy e', seed.fork { session := (history seedCalls).setLimit (some 4) } = .ok copy e') ∧
    (¬ ∃ copy e', seed.fork { session := (history seedCalls).setLimit (some 3) } = .ok copy e') ∧
    ∃ cause e', seed.fork ⟨(history seedCalls).setLimit none, [(.copyVar, 1)]⟩ = .error cause e' ∧
      e'.session.var? = (history seedCalls).var? := by
  have hreachable := reachable_history seedCalls
  have hall := fork_all_or_nothing built_seed hreachable livesIn_seed
  have hfails : (match seed.fork ⟨(history seedCalls).setLimit none, [(.copyVar, 1)]⟩ with
      | .ok _ _ => false
      | .error _ _ => true) = true := by decide +kernel
  obtain ⟨cause, e', hfork⟩ : ∃ cause e',
      seed.fork ⟨(history seedCalls).setLimit none, [(.copyVar, 1)]⟩ = .error cause e' := by
    cases hrun : seed.fork ⟨(history seedCalls).setLimit none, [(.copyVar, 1)]⟩ with
    | ok copy e' => simp [hrun] at hfails
    | error cause e' => exact ⟨cause, e', rfl⟩
  refine ⟨⟨built_seed, hreachable, livesIn_seed⟩, (hall.1 4).1.mpr (by decide +kernel), ?_,
    cause, e', hfork, (hall.2 _ _ cause e' rfl rfl hfork).1⟩
  have hthree := (hall.1 3).1
  rw [show (3 : UInt64).toNat = 3 from rfl] at hthree
  rw [hthree]
  decide +kernel

/-- The largest budget is more than enough for the four blocks, and leaves none of them.  The
workbench does not set it. -/
theorem fork_refused_by_largest_budget :
    (seed.Built ∧ (history seedCalls).Reachable ∧ seed.LivesIn (history seedCalls)) ∧
    seed.registry.bools.size + seed.registry.intVars.length +
      (if seed.bridge.isSome then 1 else 0) ≤ UInt64.size - 1 ∧
    (∃ detail e', seed.fork { session := (history seedCalls).setLimit (some (UInt64.size - 1)) } =
      .error (.allocation detail) e') ∧
    ∀ w : Workbench, w.solvers.session = history seedCalls →
      Workbench.setLimit (some (UInt64.size - 1)) w = .error (.abort .limitOverflow) w := by
  have hfails : (match seed.fork
      { session := (history seedCalls).setLimit (some (UInt64.size - 1)) } with
      | .error (.allocation _) _ => true
      | _ => false) = true := by decide +kernel
  have hlargest : (UInt64.ofNat (UInt64.size - 1)).toNat = UInt64.size - 1 := by decide +kernel
  have hoverflows : ¬ (history seedCalls).allocations + (UInt64.size - 1) < UInt64.size := by
    decide +kernel
  refine ⟨⟨built_seed, reachable_history seedCalls, livesIn_seed⟩, by decide +kernel, ?_,
    fun w hw => ?_⟩
  · split at hfails
    · next detail e' hfork => exact ⟨detail, e', hfork⟩
    · cases hfails
  · have hset := setLimit_of_budget (.ofNat (UInt64.size - 1)) w
    rw [hlargest, hw, if_neg hoverflows] at hset
    exact hset

/-! ## Faithful copies -/

/-- The formulation `copy` is a copy of `f` that a fork made in the session `s`, and
`t` is the session after the fork. -/
structure Faithful (f : Formulation) (s : Session) (copy : Formulation) (t : Session) : Prop where
  /-- Slot by slot the same with another handle, and an owned handle stands for a copy
  of the entry that the source slot stands for. -/
  bools : List.Forall₂ (CopiesBool s t) f.registry.bools.toList copy.registry.bools.toList
  ints : List.Forall₂ (CopiesInt s t) f.registry.ints.toList copy.registry.ints.toList
  tables : copy.registry.tables = f.registry.tables
  objective : copy.objective = f.objective
  bridge : List.Forall₂ (CopiesCons s t) f.bridge.toList copy.bridge.toList
  /-- No handle stood for anything before. -/
  fresh : ∀ v ∈ copy.registry.vars, s.var? v = none
  freshBridge : ∀ c, copy.bridge = some c → s.cons? c = none
  distinct : copy.registry.vars.Nodup
  space : ∀ v ∈ copy.registry.vars, ∃ entry, t.var? v = some entry ∧ entry.space = .copy
  /-- The handle of a negated slot and that of its partner are each other's
  negation. -/
  aliases : ∀ v slot p, copy.registry.bool? v = some slot → slot.polarity = .negated p →
    ∃ partner, copy.registry.bool? p = some partner ∧
      negateVar partner.handle t = .ok slot.handle t ∧
      negateVar slot.handle t = .ok partner.handle t
  kept : ∀ v entry, s.var? v = some entry → t.var? v = some entry
  keptConss : ∀ c info, s.cons? c = some info → t.cons? c = some info
  frame : t.frame = s.frame

theorem exists_of_copied {α : Type} {R : α → α → Prop} {xs ys : List α}
    (h : List.Forall₂ R xs ys) {y : α} (hy : y ∈ ys) : ∃ x ∈ xs, R x y := by
  induction h with
  | nil => simp at hy
  | cons hxy _ ih =>
      rcases List.mem_cons.mp hy with rfl | hy
      · exact ⟨_, List.mem_cons_self, hxy⟩
      · obtain ⟨x, hx, hxy⟩ := ih hy
        exact ⟨x, List.mem_cons_of_mem _ hx, hxy⟩

/-- Owned handles of a copy belong to it. -/
theorem space_of_owned (hbools : List.Forall₂ (CopiesBool s t) f.registry.bools.toList
      copy.registry.bools.toList)
    (hints : List.Forall₂ (CopiesInt s t) f.registry.ints.toList copy.registry.ints.toList)
    {v : VarId} (hv : v ∈ copy.registry.ownedVars) :
    ∃ entry, t.var? v = some entry ∧ entry.space = .copy := by
  have hcopied : ∀ {old}, CopiesVar s t old v → ∃ entry, t.var? v = some entry ∧
      entry.space = .copy := fun ⟨entry, link, _, hentry⟩ => ⟨_, hentry, rfl⟩
  rcases mem_ownedVars.mp hv with ⟨slot', hslot', hpositive, rfl⟩ | hv
  · obtain ⟨slot, -, hslot⟩ := exists_of_copied hbools hslot'
    refine hcopied (hslot.entry ?_)
    rw [hslot.same] at hpositive
    exact hpositive
  · obtain ⟨slot', hslot', hhandle⟩ := List.mem_filterMap.mp hv
    obtain ⟨slot, -, hslot⟩ := exists_of_copied hints hslot'
    have hentry := hslot.entry
    rw [hhandle] at hentry
    generalize slot.handle = old at hentry
    cases hentry with
    | some hvar => exact hcopied hvar

/-- A fork that goes through makes a faithful copy. -/
theorem fork_faithful (hbuilt : f.Built) (hs : e.session.Reachable) (hlives : f.LivesIn e.session)
    (hfork : f.fork e = .ok copy e') : f.Faithful e.session copy e'.session := by
  obtain ⟨-, hcaptured⟩ := (fork_ends hbuilt.paired hs.sound hlives).accepted hfork
  have hsettles : copy.Settles e.session e'.session := hcaptured.settles
  have hkeys := map_fst_holdings copy.registry 1
  have hlinked := hsettles.sound.linked
  exact
    { bools := hcaptured.bools
      ints := hcaptured.ints
      tables := hcaptured.tables
      objective := hcaptured.objective
      bridge := hcaptured.conss
      fresh := fun v hv => hsettles.vars.fresh (hkeys ▸ hv)
      freshBridge := fun c hc => hsettles.conss.fresh (by
        rw [map_fst_bridgeHoldings, hc]
        exact List.mem_singleton_self c)
      distinct := hkeys ▸ hsettles.vars.distinct
      space := fun v hv => by
        obtain ⟨stake, hholding⟩ := exists_holding hv 1
        cases hlink : stake.link with
        | positive m =>
            exact space_of_owned hcaptured.bools hcaptured.ints (owned_of_holding hholding hlink).1
        | negation p =>
            -- the entry of an alias is where that of its partner is
            obtain ⟨entry, hentry, hstake⟩ := hsettles.vars.graded hholding
            have hlink' : entry.link = .negation p := (congrArg Stake.link hstake).trans hlink
            obtain ⟨-, partner, hpartner, hback⟩ := hlinked.positive hentry hlink'
            obtain ⟨entry', hentry', -, hspace⟩ := hlinked.negation hpartner hback
            obtain ⟨partner', hpartner', hcopy⟩ := space_of_owned hcaptured.bools hcaptured.ints
              (alias_of_holding hsettles.aligned hholding hlink).2
            rw [hentry] at hentry'
            cases hentry'
            rw [hpartner] at hpartner'
            cases hpartner'
            exact ⟨entry, hentry, hspace.trans hcopy⟩
      aliases := fun v slot p hv hp => by
        obtain ⟨-, partner, hpartner, -⟩ := hsettles.aligned.negated hv hp
        have hholding : (slot.handle, copy.registry.boolStake 1 slot) ∈ copy.registry.holdings 1 :=
          mem_holdings.mpr (.inl ⟨slot, mem_of_bool? hv, rfl, rfl⟩)
        obtain ⟨entry, hentry, hstake⟩ := hsettles.vars.graded hholding
        have hlink : entry.link = .negation partner.handle := by
          refine (congrArg Stake.link hstake).trans ?_
          simp only [boolStake, link, hp, handle?, hpartner, Option.map_some, Option.getD_some]
        obtain ⟨-, entry', hentry', hback⟩ := hlinked.positive hentry hlink
        exact ⟨partner, hpartner, negateVar_of_linked hentry' (.inl hback),
          negateVar_of_linked hentry (.inr hlink)⟩
      kept := fun v entry hv => hsettles.vars.kept hv
      keptConss := fun c info hc => hsettles.conss.kept hc
      frame := hsettles.frame }

theorem fork_faithful_seed :
    (seed.Built ∧ ((history seedCalls).setLimit (some 4)).Reachable ∧
      seed.LivesIn ((history seedCalls).setLimit (some 4))) ∧
    ∃ copy e', seed.fork { session := (history seedCalls).setLimit (some 4) } = .ok copy e' ∧
      seed.Faithful ((history seedCalls).setLimit (some 4)) copy e'.session := by
  have hreachable := reachable_history seedCalls
  have hlives := livesIn_seed.setLimit (some 4)
  have hroom : ∀ room ∈ ((history seedCalls).setLimit (some 4)).room?, seed.blocks ≤ room := by
    decide +kernel
  obtain ⟨copy, e', hfork⟩ :=
    fork_accepted built_seed.paired (hreachable.setLimit (some 4)).sound hlives hroom
  exact ⟨⟨built_seed, hreachable.setLimit (some 4), hlives⟩, copy, e', hfork,
    fork_faithful built_seed (hreachable.setLimit (some 4)) hlives hfork⟩

end Formulation

end JointModel
