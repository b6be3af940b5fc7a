import JointModel.Proofs.Formulation.Moves
import JointModel.Proofs.Model.Bookkeeping
import JointModel.Proofs.Registry.Lockstep

/-!
# Building a model while copies come and go

A model is built by calls that add slots, and working copies are forked and discarded
between these calls (`Build`).  Forks take handles and discards return them, so the handles
that the model gets depend on what happened to the copies.  Nothing else does: two builds
with the same calls get the same answers, and the models are the same once the handles of
one are renamed (`forks_invisible`).

## Strategy

* Two builds are compared by `Draft.Twins`: what nothing hinders and is alike.
* A call goes the same way in both builds (`Draft.blind_perform`).
* A move in one of them spares the entries of its model (`Pool.move_kept`), so the builds
  stay alike while the other one waits (`Build.Alike.moveLeft`, `Build.Alike.moveRight`).
* An induction over one sequence of events, and within it over the other, puts the two
  together (`Build.Alike.run`).
-/

namespace JointModel

open Effect Session Formulation

/-- What happens while a model is built. -/
inductive Build.Event
  | call (c : Draft.Call)
  | move (m : Pool.Move)
deriving Repr

/-- The calls among the events. -/
def Build.calls (events : List Build.Event) : List Draft.Call :=
  events.filterMap fun
    | .call c => some c
    | .move _ => none

/-- A model that is built beside the detached working copies, and the answers to the calls so
far, the latest one in front. -/
structure Build where
  live : Live
  detached : List Formulation := []
  answers : List (Except ModelError Nat) := []

namespace Build

/-- The registry of the model and its solvers. -/
def draft (b : Build) : Draft := ⟨b.live.model.formulation.registry, b.live.solvers⟩

/-- The working copies beside the model. -/
def pool (b : Build) : Pool :=
  { session := b.live.solvers.session
    detached := b.detached
    made := (b.detached ++ b.live.solvers.session.copies).length }

/-- Performs a call and notes the answer. -/
def call (b : Build) (c : Draft.Call) : Build :=
  match Live.onRegistry (Draft.perform c) b.live with
  | .ok i live => { b with live, answers := .ok i :: b.answers }
  | .error cause live => { b with live, answers := .error cause :: b.answers }

/-- Forks or discards a working copy. -/
def move (b : Build) (m : Pool.Move) : Build :=
  let p := b.pool.move b.live.model.formulation m
  { b with live.solvers.engine.session := p.session, detached := p.detached }

/-- What an event does to a build. -/
def act (b : Build) : Event → Build
  | .call c => b.call c
  | .move m => b.move m

/-- What a sequence of events does to a build. -/
def run (b : Build) (events : List Event) : Build := events.foldl act b

end Build

/-! ## Moves beside one draft -/

namespace Draft

variable {base : Session} {copies copies' : List Formulation} {d d' : Draft} {f : Formulation}
  {p : Pool} {ρ : VarId → VarId}

/-- What a move leaves of a draft. -/
structure Spared (base : Session) (d : Draft) (p : Pool) : Prop where
  unhindered : Unhindered base p.detached { d with solvers.engine.session := p.session }
  problem : p.session.problem = d.solvers.session.problem
  vars : ∀ {v entry}, v ∈ d.registry.vars → d.solvers.session.var? v = some entry →
    p.session.var? v = some entry

/-- A move spares the draft that it is made beside. -/
theorem Unhindered.move (h : d.Unhindered base copies) (hf : f.registry = d.registry)
    (hbridge : ∀ {c}, f.bridge = some c → ∃ info, base.cons? c = some info)
    (hsession : p.session = d.solvers.session) (hdetached : p.detached = copies)
    (hcounted : p.made = p.gone + p.copies.length) (m : Pool.Move) :
    d.Spared base (p.move f m) := by
  have hcopies : p.copies = copies ++ d.solvers.session.copies := by
    rw [Pool.copies, hdetached, hsession]
  have hpool : p.InOrder base (d.registry.holdings 2) := by
    refine ⟨?_, hcounted⟩
    rw [hcopies, hsession]
    exact h.hosts
  have hlives : f.LivesIn p.session := hsession ▸ h.hosts.livesIn hf hbridge
  obtain ⟨horder, hspares⟩ := Pool.move_kept hpool (hf ▸ h.paired) hlives m
  have hproblem : (p.move f m).session.problem = d.solvers.session.problem := by
    rw [hspares.problem, hsession]
  have hlimit : (p.move f m).session.limit = none := by
    rw [Pool.limit_move, hsession, h.unlimited]
  refine ⟨⟨horder.entries, h.paired, ?_, hlimit, h.unarmed⟩, hproblem, fun {v entry} hv hentry => ?_⟩
  · show (p.move f m).session.problem.isSome
    rw [hproblem]
    exact h.problem
  · refine hspares.vars ?_ (hsession ▸ hentry)
    rw [hcopies]
    refine h.hosts.foreign_of_tenant ?_
    rwa [Registry.map_fst_holdings]

/-- The first draft may move. -/
theorem Twins.left_of_spared (h : Twins base copies copies' d d') (hspared : d.Spared base p) :
    Twins base p.detached copies' { d with solvers.engine.session := p.session } d' := by
  obtain ⟨ρ, halike⟩ := h.alike
  exact ⟨hspared.unhindered, h.right, ρ, halike.registry, halike.domains,
    halike.session.of_left hspared.vars hspared.problem⟩

/-- So may the second one. -/
theorem Twins.right_of_spared (h : Twins base copies copies' d d') (hspared : d'.Spared base p) :
    Twins base copies p.detached d { d' with solvers.engine.session := p.session } := by
  obtain ⟨ρ, halike⟩ := h.alike
  refine ⟨h.left, hspared.unhindered, ρ, halike.registry, halike.domains,
    halike.session.of_right (fun {w entry} hw => hspared.vars ?_) hspared.problem⟩
  rwa [halike.registry, Registry.vars_renamed]

/-- Any draft is alike itself, as long as its problem has no members from elsewhere. -/
theorem Unhindered.twins (h : d.Unhindered base copies) {problem : Problem}
    (hproblem : d.solvers.session.problem = some problem)
    (hmembers : ∀ v ∈ problem.vars, v ∈ d.registry.vars) : Twins base copies copies d d := by
  refine ⟨h, h, id, d.registry.renamed_id.symm, rfl, ?_, fun v hv => ?_, problem, hproblem, ?_,
    hmembers⟩
  · rw [List.map_id]
    exact h.hosts.nodup_vars
  · obtain ⟨stake, hstake⟩ := Registry.exists_holding hv 2
    obtain ⟨entry, hentry, rfl⟩ := h.hosts.vars.graded (List.mem_append_right _ hstake)
    refine ⟨entry, hentry, by rwa [VarInfo.renamed_id], fun w hw => ?_⟩
    -- the partner of a slot has a slot too
    cases hlink : entry.link with
    | positive m =>
        rw [hlink] at hw
        have hpositive : entry.link = .positive (some w) := hlink.trans (congrArg _ hw)
        exact Registry.mem_vars_of_link hstake hpositive
    | negation q =>
        rw [hlink] at hw
        cases hw
        obtain ⟨-, howned⟩ := Registry.alias_of_holding h.paired.aligned hstake hlink
        exact d.registry.ownedVars_sublist.subset howned
  · rw [Problem.renamed_id]
    exact hproblem

end Draft

/-! ## Two builds -/

namespace Build

variable {base : Session} {m : Model} {b b' : Build} {c : Draft.Call} {d d' : Draft}

/-- The model is `m` but for its registry. -/
def Extends (m : Model) (b : Build) : Prop :=
  b.live.model = { m with formulation.registry := b.live.model.formulation.registry }

/-- Two builds of the model `m` that differ in handles only and got the same answers. -/
structure Alike (base : Session) (m : Model) (b b' : Build) : Prop where
  twins : Draft.Twins base b.detached b'.detached b.draft b'.draft
  answers : b'.answers = b.answers
  left : Extends m b
  right : Extends m b'

/-- The build after a call that made `d` of its draft. -/
def answered (b : Build) (d : Draft) (answer : Except ModelError Nat) : Build where
  live := ⟨{ b.live.model with formulation.registry := d.registry }, d.solvers⟩
  detached := b.detached
  answers := answer :: b.answers

theorem call_of_accepted {i : Nat} (hrun : Draft.perform c b.draft = .ok i d) :
    b.call c = b.answered d (.ok i) := by
  have hlive : Live.onRegistry (Draft.perform c) b.live = .ok i (b.answered d (.ok i)).live := by
    simp only [draft] at hrun
    simp only [Live.onRegistry, onPart, hrun, answered]
  rw [call, hlive]
  rfl

theorem call_of_rejected {cause : ModelError} (hrun : Draft.perform c b.draft = .error cause d) :
    b.call c = b.answered d (.error cause) := by
  have hlive : Live.onRegistry (Draft.perform c) b.live =
      .error cause (b.answered d (.error cause)).live := by
    simp only [draft] at hrun
    simp only [Live.onRegistry, onPart, hrun, answered, id]
  rw [call, hlive]
  rfl

theorem Extends.answered (h : Extends m b) (d : Draft) (answer : Except ModelError Nat) :
    Extends m (b.answered d answer) := by
  unfold Extends at h ⊢
  simp only [Build.answered]
  rw [h]

/-- The step lemma for calls: both builds get the same answer and stay alike. -/
theorem Alike.call (h : Alike base m b b') (c : Draft.Call) :
    Alike base m (b.call c) (b'.call c) := by
  have hanswered : ∀ {e e' : Draft} (answer : Except ModelError Nat),
      Draft.Twins base b.detached b'.detached e e' →
        Alike base m (b.answered e answer) (b'.answered e' answer) := fun answer htwins =>
    ⟨htwins, congrArg (answer :: ·) h.answers, h.left.answered _ _, h.right.answered _ _⟩
  obtain ⟨i, e, e', hrun, hrun', htwins⟩ | ⟨cause, e, e', hrun, hrun', htwins⟩ :=
    Draft.blind_perform c b.draft b'.draft h.twins
  · rw [call_of_accepted hrun, call_of_accepted hrun']
    exact hanswered (.ok i) htwins
  · rw [call_of_rejected hrun, call_of_rejected hrun']
    exact hanswered (.error cause) htwins

/-- What a move leaves of a build. -/
theorem spared_move (h : b.draft.Unhindered base b.detached) (hextends : Extends m b)
    (hbridge : ∀ {c}, m.formulation.bridge = some c → ∃ info, base.cons? c = some info)
    (move : Pool.Move) : b.draft.Spared base (b.pool.move b.live.model.formulation move) := by
  refine h.move rfl (fun {c} hc => hbridge ?_) rfl rfl (Nat.zero_add _).symm move
  rw [hextends] at hc
  exact hc

/-- The step lemma for moves in the first build. -/
theorem Alike.moveLeft (h : Alike base m b b')
    (hbridge : ∀ {c}, m.formulation.bridge = some c → ∃ info, base.cons? c = some info)
    (move : Pool.Move) : Alike base m (b.move move) b' :=
  ⟨h.twins.left_of_spared (spared_move h.twins.left h.left hbridge move), h.answers, h.left, h.right⟩

/-- The step lemma for moves in the second build. -/
theorem Alike.moveRight (h : Alike base m b b')
    (hbridge : ∀ {c}, m.formulation.bridge = some c → ∃ info, base.cons? c = some info)
    (move : Pool.Move) : Alike base m b (b'.move move) :=
  ⟨h.twins.right_of_spared (spared_move h.twins.right h.right hbridge move), h.answers, h.left,
    h.right⟩

/-- The run lemma: events with the same calls lead to builds that are alike. -/
theorem Alike.run (h : Alike base m b b')
    (hbridge : ∀ {c}, m.formulation.bridge = some c → ∃ info, base.cons? c = some info)
    {first second : List Event} (hcalls : calls first = calls second) :
    Alike base m (b.run first) (b'.run second) := by
  -- the first build waits for the second one to come to its next call
  induction first generalizing b b' second with
  | nil =>
      induction second generalizing b' with
      | nil => exact h
      | cons event rest ih =>
          cases event with
          | call c => cases hcalls
          | move move => exact ih (h.moveRight hbridge move) hcalls
  | cons event rest ih =>
      cases event with
      | move move => exact ih (h.moveLeft hbridge move) hcalls
      | call c =>
          induction second generalizing b' with
          | nil => cases hcalls
          | cons event' rest' ih' =>
              cases event' with
              | move move => exact ih' (h.moveRight hbridge move) hcalls
              | call c' =>
                  obtain ⟨rfl, hrest⟩ := List.cons.inj (hcalls : c :: calls rest = c' :: calls rest')
                  exact ih (h.call c) hrest

end Build

/-! ## Created models -/

/-- The model and the solvers `b` are those of `a` with the handles renamed.  A renaming
relates the handles of the two models one to one, aliases included. -/
structure Live.RenamedBy (ρ : VarId → VarId) (a b : Live) : Prop where
  /-- The slots have the same order, kinds, names, domains, bounds and tables. -/
  model : b.model = { a.model with
    formulation.registry := a.model.formulation.registry.renamed ρ }
  domains : b.solvers.domains = a.solvers.domains
  handles : Set.BijOn ρ {v | v ∈ a.model.formulation.registry.vars}
    {w | w ∈ b.model.formulation.registry.vars}
  /-- The entries agree in everything, uses included, and their links lead to each other. -/
  entries : ∀ v ∈ a.model.formulation.registry.vars, ∃ entry,
    a.solvers.session.var? v = some entry ∧
      b.solvers.session.var? (ρ v) = some (entry.renamed ρ)
  problem : ∃ problem, a.solvers.session.problem = some problem ∧
    b.solvers.session.problem = some (problem.renamed ρ)
  /-- The bridge was there before, so it keeps its handle. -/
  bridge : ∀ {c}, a.model.formulation.bridge = some c → ∃ info,
    a.solvers.session.cons? c = some info ∧ b.solvers.session.cons? c = some info

namespace Build

variable {base start : Session} {m : Model} {t : Solvers} {b b' : Build}

theorem Alike.renamedBy (h : Alike base m b b')
    (hbridge : ∀ {c}, m.formulation.bridge = some c → ∃ info, base.cons? c = some info) :
    ∃ ρ, Live.RenamedBy ρ b.live b'.live := by
  obtain ⟨ρ, halike⟩ := h.twins.alike
  have hregistry : b'.live.model.formulation.registry =
      b.live.model.formulation.registry.renamed ρ := halike.registry
  refine ⟨ρ, ?_, halike.domains, ?_, fun v hv => ?_, ?_, fun {c} hc => ?_⟩
  · rw [h.right, h.left, hregistry]
  · rw [hregistry, Registry.vars_renamed]
    exact halike.session.bijOn
  · obtain ⟨entry, hentry, hentry', -⟩ := halike.session.entries v hv
    exact ⟨entry, hentry, hentry'⟩
  · obtain ⟨problem, hproblem, hproblem', -⟩ := halike.session.problem
    exact ⟨problem, hproblem, hproblem'⟩
  · rw [h.left] at hc
    obtain ⟨info, hinfo⟩ := hbridge hc
    exact ⟨info, h.twins.left.hosts.conss.kept hinfo, h.twins.right.hosts.conss.kept hinfo⟩

/-- A created model is alike itself.  Its entries are all there are, and its bridge belongs
to what is there from the start. -/
theorem alike_created (h : Model.Prepared start ⟨m, t⟩) (hlimit : start.limit = none) :
    ∃ base, Alike base m { live := ⟨m, t⟩ } { live := ⟨m, t⟩ } ∧
      ∀ {c}, m.formulation.bridge = some c → ∃ info, base.cons? c = some info := by
  let base : Session := { t.session with vars := {} }
  have haccounts : t.session.Accounts 2 m.formulation := h.accounts
  have hcopies : t.session.copies = [] := h.copies
  obtain ⟨problem, hproblem, hmembers, -⟩ := haccounts.members
  have hhosts : base.Hosts (m.formulation.registry.holdings 2) ([] ++ t.session.copies)
      t.session := by
    refine ⟨haccounts.sound, fun g hg => ?_, ?_, ?_⟩
    · rw [hcopies] at hg
      cases hg
    · have hnone : base.var? = fun _ => none := funext fun v => HandleTable.get?_empty v.index
      have hvars := haccounts.vars
      rw [hcopies] at hvars ⊢
      rw [hnone]
      exact hvars.perm List.perm_append_comm
    · rw [hcopies]
      exact .nil
  have hunhindered : Draft.Unhindered base [] ⟨m.formulation.registry, t⟩ :=
    ⟨hhosts, haccounts.paired _ List.mem_cons_self, haccounts.problem, h.limit.trans hlimit,
      h.faults⟩
  refine ⟨base, ⟨hunhindered.twins hproblem fun v hv => ?_, rfl, rfl, rfl⟩, fun {c} hc => ?_⟩
  · have howned : v ∈ m.formulation.registry.ownedVars :=
      hmembers.mem_iff.mp (Array.mem_toList_iff.mpr hv)
    exact m.formulation.registry.ownedVars_sublist.subset howned
  · obtain ⟨info, hinfo, -⟩ := haccounts.conss.graded
      (List.mem_append_left _ (mem_bridgeHoldings.mpr ⟨hc, rfl⟩))
    exact ⟨info, hinfo⟩

/-- Forking is invisible to those who build a model.  Whatever working copies are forked and
discarded between the same calls, the calls get the same answers, and but for the numbers of
its handles the model is the same. -/
theorem forks_invisible {solvers : Solvers} (hsolvers : Unused solvers)
    (hlimit : solvers.session.limit = none) {config : Config}
    (hcreate : Model.create config solvers = .ok m t) {first second : List Event}
    (hcalls : calls first = calls second) :
    (run { live := ⟨m, t⟩ } second).answers = (run { live := ⟨m, t⟩ } first).answers ∧
      ∃ ρ, Live.RenamedBy ρ (run { live := ⟨m, t⟩ } first).live
        (run { live := ⟨m, t⟩ } second).live := by
  obtain ⟨hcleared, hfaults⟩ := hsolvers.cleared
  obtain ⟨hprepared, -⟩ := (Model.create_ends hcleared hfaults config).accepted hcreate
  obtain ⟨base, halike, hbridge⟩ := alike_created hprepared hlimit
  have hruns := halike.run hbridge hcalls
  exact ⟨hruns.answers, hruns.renamedBy hbridge⟩

/-- Calls of every kind, one of them rejected. -/
def plainEvents : List Event :=
  [.call (.bool "x"), .call (.int 0 3 "y"), .call (.negate ⟨2⟩), .call (.virtualInt 5 4 "z"),
    .call (.virtualInt 0 1 "w"), .call (.indicator ⟨1⟩ 2)]

/-- The same calls.  Before the first one a copy is forked, and another one from it.  The first
copy is gone before the third call, and one more is forked before the last. -/
def forkingEvents : List Event :=
  [.move (.fork 0), .move (.push 1), .call (.bool "x"), .call (.int 0 3 "y"), .move (.discard 0),
    .call (.negate ⟨2⟩), .call (.virtualInt 5 4 "z"), .call (.virtualInt 0 1 "w"),
    .move (.fork 0), .call (.indicator ⟨1⟩ 2)]

theorem forks_invisible_diverging : Unused {} ∧ ({} : Solvers).session.limit = none ∧
    calls plainEvents = calls forkingEvents ∧ ∃ m t, Model.create {} {} = .ok m t ∧
      let first := run { live := ⟨m, t⟩ } plainEvents
      let second := run { live := ⟨m, t⟩ } forkingEvents
      first.live.model.formulation.registry.handle? ⟨2⟩ = some ⟨3⟩ ∧
      second.live.model.formulation.registry.handle? ⟨2⟩ = some ⟨9⟩ ∧
      second.answers = first.answers ∧ ∃ ρ, Live.RenamedBy ρ first.live second.live := by
  have hunused : Unused {} := .fresh none
  have hcalls : calls plainEvents = calls forkingEvents := rfl
  have hhandles : (match Model.create {} {} with
      | .ok m t =>
        let first := run { live := ⟨m, t⟩ } plainEvents
        let second := run { live := ⟨m, t⟩ } forkingEvents
        first.live.model.formulation.registry.handle? ⟨2⟩ == some ⟨3⟩ &&
          second.live.model.formulation.registry.handle? ⟨2⟩ == some ⟨9⟩
      | .error _ _ => false) = true := by decide +kernel
  cases hcreate : Model.create {} {} with
  | error failure t => simp [hcreate] at hhandles
  | ok m t =>
      simp only [hcreate, Bool.and_eq_true, beq_iff_eq] at hhandles
      obtain ⟨hfirst, hsecond⟩ := hhandles
      exact ⟨hunused, rfl, hcalls, m, t, rfl, hfirst, hsecond,
        forks_invisible hunused rfl hcreate hcalls⟩

end Build

end JointModel
