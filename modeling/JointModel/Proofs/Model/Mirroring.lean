import JointModel.Proofs.Model.Bookkeeping
import JointModel.Proofs.Registry.Calls

/-!
# What a fresh copy mirrors

A working copy mirrors the formulation from which it was forked: it has the same pairs of
slots, as many integer slots, a bridge if that has one, and the same objective.  The session
forks from the innermost copy, and copies may be left behind by an earlier solve.  So all
copies that are alive mirror each other (`Session.InStep`), but not necessarily the primary
formulation: what was added to it after the outermost copy was forked is in none of them
(`fork_misses_objective`).  `fork_mirrors` says exactly how far a fresh copy is behind.

## Strategy

* `Formulation.Trails` is what is left of mirroring once the primary formulation grows.
* `Session.InStep` is kept by every command of a strategy (`Solve.perform_inStep`), by a
  script (`Solve.run_inStep`) and along a run (`Live.LeadsTo.inStep`).
-/

namespace JointModel

open Effect Formulation

/-! ## What is added to a registry -/

namespace Registry

variable {r : Registry} {v : BoolId} {slot : BoolSlot}

theorem backReferences_withBool (r : Registry) (new : BoolSlot) :
    (r.withBool new).backReferences = r.backReferences ++ [new.negates?] := by
  simp only [backReferences, withBool, Array.toList_push, List.map_append, List.map_cons,
    List.map_nil]

/-- To get a negation does not make a slot one. -/
theorem backReferences_repolarized (hv : r.bool? v = some slot)
    (hslot : slot.polarity = .positive none) (n : Option BoolId) :
    (r.repolarized v (.positive n)).backReferences = r.backReferences := by
  refine List.ext_getElem? fun i => ?_
  have hbool := bool?_repolarized r v ⟨i⟩ (.positive n)
  simp only [bool?, ← Array.getElem?_toList] at hbool hv
  simp only [backReferences, List.getElem?_map]
  rw [hbool]
  split
  · next hvi =>
      cases hvi
      rw [hv]
      simp [BoolSlot.negates?, hslot]
  · rfl

theorem backReferences_withNegation (hv : r.bool? v = some slot)
    (hslot : slot.polarity = .positive none) (new : BoolSlot) :
    (r.withNegation v new).backReferences = r.backReferences ++ [new.negates?] := by
  rw [withNegation_eq (lt_size_of_bool? hv), backReferences_withBool,
    backReferences_repolarized hv hslot]

theorem length_backReferences (r : Registry) : r.backReferences.length = r.bools.size := by
  rw [backReferences, List.length_map, Array.length_toList]

theorem size_ints_withIndicator (r : Registry) (x : IntId) (slot : IntSlot) (value : Int)
    (v : BoolId) : (r.withIndicator x slot value v).ints.size = r.ints.size := by
  unfold withIndicator
  cases slot.table with
  | some table => rfl
  | none => exact Array.size_modify

end Registry

/-- The pairs of slots that there are stay, and so do the integer slots. -/
theorem Draft.Grows.appends {d d' : Draft} (h : d.Grows d') :
    d.registry.backReferences <+: d'.registry.backReferences ∧
      d.registry.ints.size ≤ d'.registry.ints.size := by
  cases h with
  | store e hgrows => exact ⟨List.prefix_refl _, Nat.le_refl _⟩
  | bool e handle name =>
      refine ⟨?_, Nat.le_refl _⟩
      rw [Registry.backReferences_withBool]
      exact List.prefix_append _ _
  | negation e handle hv hpolarity =>
      refine ⟨?_, Nat.le_refl _⟩
      rw [Registry.backReferences_withNegation hv hpolarity]
      exact List.prefix_append _ _
  | int e handle name hle =>
      refine ⟨List.prefix_refl _, ?_⟩
      rw [Registry.withInt, Array.size_push]
      exact Nat.le_succ _
  | @indicator e handle x slot value literal s hx hlower hupper hfree hnone hequal =>
      let new : BoolSlot :=
        ⟨handle, literal, .positive none, "[" ++ slot.name ++ " == " ++ toString value ++ "]"⟩
      have hbools : (d.registry.withIndicatorSlot x slot value handle literal).backReferences =
          (d.registry.withBool new).backReferences := by
        rw [Registry.backReferences, Registry.backReferences, Registry.withIndicatorSlot,
          Registry.bools_withIndicator]
      refine ⟨?_, ?_⟩
      · rw [hbools, Registry.backReferences_withBool]
        exact List.prefix_append _ _
      · rw [Registry.withIndicatorSlot, Registry.size_ints_withIndicator]
        exact Nat.le_refl _

/-! ## Formulations that mirror each other -/

namespace Formulation

variable {f g h copy : Formulation} {e e' : Engine}

/-- Two formulations have the same pairs of slots, equally many integer slots, both a bridge
or none, and the same objective. -/
structure Mirrors (g f : Formulation) : Prop where
  backReferences : g.registry.backReferences = f.registry.backReferences
  ints : g.registry.ints.size = f.registry.ints.size
  bridge : g.bridge.isSome = f.bridge.isSome
  objective : g.objective = f.objective

/-- The formulation `g` mirrors what `f` was when it had fewer slots or another objective. -/
structure Trails (g f : Formulation) : Prop where
  backReferences : g.registry.backReferences <+: f.registry.backReferences
  ints : g.registry.ints.size ≤ f.registry.ints.size
  bridge : g.bridge.isSome = f.bridge.isSome

theorem Mirrors.refl (f : Formulation) : f.Mirrors f := ⟨rfl, rfl, rfl, rfl⟩

theorem Mirrors.symm (hg : g.Mirrors f) : f.Mirrors g :=
  ⟨hg.backReferences.symm, hg.ints.symm, hg.bridge.symm, hg.objective.symm⟩

theorem Mirrors.trans (hh : h.Mirrors g) (hg : g.Mirrors f) : h.Mirrors f :=
  ⟨hh.backReferences.trans hg.backReferences, hh.ints.trans hg.ints, hh.bridge.trans hg.bridge,
    hh.objective.trans hg.objective⟩

theorem Mirrors.trails (hg : g.Mirrors f) : g.Trails f :=
  ⟨hg.backReferences ▸ List.prefix_refl _, Nat.le_of_eq hg.ints, hg.bridge⟩

theorem Trails.trans (hh : h.Trails g) (hg : g.Trails f) : h.Trails f :=
  ⟨hh.backReferences.trans hg.backReferences, Nat.le_trans hh.ints hg.ints,
    hh.bridge.trans hg.bridge⟩

/-- What trails a formulation mirrors it, unless that has more slots or another objective. -/
theorem Trails.mirrors_iff (hg : g.Trails f) : g.Mirrors f ↔
    g.registry.bools.size = f.registry.bools.size ∧ g.registry.ints.size = f.registry.ints.size ∧
      g.objective = f.objective := by
  constructor
  · intro hmirrors
    refine ⟨?_, hmirrors.ints, hmirrors.objective⟩
    rw [← Registry.length_backReferences, hmirrors.backReferences, Registry.length_backReferences]
  · rintro ⟨hbools, hints, hobjective⟩
    refine ⟨hg.backReferences.eq_of_length ?_, hints, hg.bridge, hobjective⟩
    rw [Registry.length_backReferences, Registry.length_backReferences, hbools]

/-- A complete copy mirrors its source. -/
theorem Captured.mirrors (hcaptured : Captured f e f.bridge.toList f.registry.bools.toList
    f.registry.ints.toList ⟨e', copy⟩) : copy.Mirrors f where
  backReferences := map_of_copies (fun _ _ => rfl) hcaptured.bools
  ints := by
    have hlength := hcaptured.ints.length_eq
    rw [Array.length_toList, Array.length_toList] at hlength
    exact hlength.symm
  bridge := by
    have hlength := hcaptured.conss.length_eq
    cases hbridge : f.bridge <;> cases hbridge' : copy.bridge <;>
      simp_all [Option.toList]
  objective := hcaptured.objective

end Formulation

/-! ## Copies in step -/

/-- All working copies mirror each other and trail the primary formulation `f`. -/
structure InStep (f : Formulation) (copies : List Formulation) : Prop where
  trails : ∀ g ∈ copies, g.Trails f
  alike : ∀ g ∈ copies, ∀ h ∈ copies, g.Mirrors h

/-- What a command of a strategy can make of the stack of copies, the innermost in front. -/
inductive Restacks (f : Formulation) : List Formulation → List Formulation → Prop
  | same (copies : List Formulation) : Restacks f copies copies
  | push {copies : List Formulation} {copy : Formulation} : copy.Mirrors (copies.head?.getD f) →
      Restacks f copies (copy :: copies)
  | pop (copies : List Formulation) : Restacks f copies copies.tail

section InStep

variable {f g : Formulation} {copies copies' : List Formulation}

/-- The primary formulation may grow. -/
theorem InStep.grow (h : InStep f copies) (hgrows : f.Trails g) : InStep g copies :=
  ⟨fun copy hcopy => (h.trails copy hcopy).trans hgrows, h.alike⟩

/-- What is forked next trails the primary formulation and mirrors all copies. -/
theorem InStep.source (h : InStep f copies) : (copies.head?.getD f).Trails f ∧
    ∀ g ∈ copies, (copies.head?.getD f).Mirrors g := by
  cases copies with
  | nil => exact ⟨(Mirrors.refl f).trails, fun g hg => absurd hg List.not_mem_nil⟩
  | cons copy rest =>
      exact ⟨h.trails copy List.mem_cons_self, h.alike copy List.mem_cons_self⟩

theorem InStep.restack (h : InStep f copies) (hrestacks : Restacks f copies copies') :
    InStep f copies' := by
  cases hrestacks with
  | same => exact h
  | @push copy hcopy =>
      obtain ⟨htrails, halike⟩ := h.source
      have hfirst : ∀ g ∈ copies, copy.Mirrors g := fun g hg => hcopy.trans (halike g hg)
      constructor
      · exact List.forall_mem_cons.mpr ⟨hcopy.trails.trans htrails, h.trails⟩
      · refine List.forall_mem_cons.mpr ⟨?_, fun g hg => ?_⟩
        · exact List.forall_mem_cons.mpr ⟨.refl copy, hfirst⟩
        · exact List.forall_mem_cons.mpr ⟨(hfirst g hg).symm, h.alike g hg⟩
  | pop =>
      exact ⟨fun g hg => h.trails g (List.mem_of_mem_tail hg), fun g hg g' hg' =>
        h.alike g (List.mem_of_mem_tail hg) g' (List.mem_of_mem_tail hg')⟩

/-- Restacking keeps the copies in step. -/
theorem InStep.restacks (h : InStep f copies)
    (hrestacks : Relation.ReflTransGen (Restacks f) copies copies') : InStep f copies' := by
  induction hrestacks with
  | refl => exact h
  | tail _ hstep ih => exact ih.restack hstep

/-- If all copies mirror the primary formulation, the next ones do. -/
theorem Restacks.mirrors (hrestacks : Restacks f copies copies') (h : ∀ g ∈ copies, g.Mirrors f) :
    ∀ g ∈ copies', g.Mirrors f := by
  cases hrestacks with
  | same => exact h
  | push hcopy =>
      refine List.forall_mem_cons.mpr ⟨?_, h⟩
      cases copies with
      | nil => exact hcopy
      | cons first rest => exact hcopy.trans (h first List.mem_cons_self)
  | pop => exact fun g hg => h g (List.mem_of_mem_tail hg)

theorem mirrors_of_restacks (hrestacks : Relation.ReflTransGen (Restacks f) copies copies')
    (h : ∀ g ∈ copies, g.Mirrors f) : ∀ g ∈ copies', g.Mirrors f := by
  induction hrestacks with
  | refl => exact h
  | tail _ hstep ih => exact hstep.mirrors ih

end InStep

/-! ## The commands of a strategy -/

namespace Session

variable {s : Session} {f : Formulation}

/-- A fork puts a copy on the stack that mirrors its source, or it fails. -/
theorem forkCopy_mirrors (h : s.Accounts 2 f) :
    Ends (forkCopy f) s
      (fun _ t => ∃ copy, t.copies = copy :: s.copies ∧ copy.Mirrors (s.copies.head?.getD f))
      fun _ t => t.copies = s.copies := by
  obtain ⟨hpaired, hlives⟩ := h.source
  have hfork := fork_ends (e := { session := s }) hpaired h.sound hlives
  refine ends_forkCopy (fun _ _ => rfl) fun _ _ =>
    hfork.mono (fun copy e hend => ?_) fun _ e hend => ?_
  · refine ⟨copy, ?_, hend.2.mirrors⟩
    rw [copies_eq_of_frame hend.2.settles.frame]
  · exact copies_eq_of_frame (hend.2 rfl rfl).1.frame

/-- A discard takes the innermost copy off the stack. -/
theorem discardCopy_tail (h : s.Accounts 2 f) :
    ∃ more t, discardCopy s = .ok more t ∧ t.copies = s.copies.tail := by
  cases hcopies : s.copies with
  | nil => exact ⟨false, s, discardCopy_of_none hcopies, hcopies⟩
  | cons copy rest =>
      obtain ⟨t, hrun, -, hrest, -⟩ := discardCopy_accepted h hcopies
      exact ⟨true, t, hrun, hrest⟩

end Session

namespace Solve

variable {ctx : Solve} {s t : State}

/-- A state of a solve in which the primary formulation can be forked. -/
structure Forkable (ctx : Solve) (s : State) : Prop where
  faults : s.solvers.engine.faults = []
  accounts : s.solvers.session.Accounts 2 ctx.formulation
  hooked : s.solvers.session.hooked = true

/-- The copies that are alive, the innermost in front. -/
def State.copies (s : State) : List Formulation := s.solvers.session.copies

theorem Forkable.perform (h : ctx.Forkable s) (c : Command) : ctx.Forkable (ctx.perform s c).2 := by
  obtain ⟨hfaults, hkept⟩ := perform_kept ctx h.faults h.accounts h.hooked c
  exact ⟨hfaults, hkept.accounts, hkept.hooked⟩

theorem Forkable.onEngine_fork (h : ctx.Forkable s) :
    Ends (Solvers.onEngine (Engine.forkCopy ctx.formulation)) s.solvers
      (fun _ t => ∃ copy, t.session.copies = copy :: s.copies ∧
        copy.Mirrors (s.copies.head?.getD ctx.formulation))
      fun _ t => t.session.copies = s.copies := by
  rw [Solvers.onEngine, ends_onPart, Engine.forkCopy, Engine.ends_call h.faults]
  exact Session.forkCopy_mirrors h.accounts

/-- A fork that goes through. -/
theorem Forkable.fork (h : ctx.Forkable s) {depth : Nat}
    (hfork : ctx.perform s .fork = (.depth depth, t)) :
    ∃ copy, t.copies = copy :: s.copies ∧
      copy.Mirrors (s.copies.head?.getD ctx.formulation) := by
  rw [Solve.perform, ask] at hfork
  cases hrun : Solvers.onEngine (Engine.forkCopy ctx.formulation) s.solvers with
  | ok answer solvers =>
      rw [hrun] at hfork
      cases hfork
      exact h.onEngine_fork.accepted hrun
  | error cause solvers =>
      rw [hrun] at hfork
      cases hfork

theorem Forkable.restacks (h : ctx.Forkable s) (c : Command) :
    Restacks ctx.formulation s.copies (ctx.perform s c).2.copies := by
  cases c with
  | fork =>
      have hends : Ends (Solvers.onEngine (Engine.forkCopy ctx.formulation)) s.solvers
          (fun _ t => Restacks ctx.formulation s.copies t.session.copies)
          fun _ t => Restacks ctx.formulation s.copies t.session.copies := by
        refine h.onEngine_fork.mono (fun _ t ht => ?_) fun _ t ht => ?_
        · obtain ⟨copy, hcopies, hcopy⟩ := ht
          rw [hcopies]
          exact .push hcopy
        · rw [ht]
          exact .same _
      rw [Solve.perform, State.copies, State.copies, solvers_ask]
      exact hends.after
  | discard =>
      obtain ⟨more, t, hdiscard, ht⟩ := Session.discardCopy_tail h.accounts
      have hends : Ends (Solvers.onEngine Engine.discardCopy) s.solvers
          (fun _ t => t.session.copies = s.copies.tail)
          fun _ t => t.session.copies = s.copies.tail := by
        rw [Solvers.onEngine, ends_onPart, Engine.discardCopy, Engine.ends_call h.faults]
        exact ends_of_accepted hdiscard ht
      rw [Solve.perform, State.copies, State.copies, solvers_ask, hends.after]
      exact .pop _
  | domains c =>
      rw [State.copies, State.copies, Solvers.session, Solvers.session, engine_domains]
      exact .same _
  | arguments | formulation | workingCopy | session | inTime | setStatus | record | raiseBound
  | outcome | describe => exact .same _

/-- What a script makes of the stack of copies, it makes by restacking them. -/
theorem Forkable.run (h : ctx.Forkable s) (script : Script) :
    ctx.Forkable (ctx.run s script).2 ∧
      Relation.ReflTransGen (Restacks ctx.formulation) s.copies (ctx.run s script).2.copies := by
  induction script generalizing s with
  | nil => exact ⟨h, .refl⟩
  | cons command rest ih =>
      have htick : ctx.Forkable { s with clock := s.clock + 1 } :=
        ⟨h.faults, h.accounts, h.hooked⟩
      obtain ⟨hend, hrest⟩ := ih (htick.perform command)
      exact ⟨hend, .head (htick.restacks command) hrest⟩

end Solve

/-! ## Whole runs -/

namespace Live

variable {start s : Live} {forked : List Formulation}

/-- Adding slots leaves the copies behind. -/
theorem trails_add (s : Live) (c : Draft.Call) : s.model.formulation.Trails
    (after (onRegistry (Draft.perform c)) s).model.formulation := by
  have hends : Ends (onRegistry (Draft.perform c)) s
      (fun _ t => s.model.formulation.Trails t.model.formulation)
      fun _ t => s.model.formulation.Trails t.model.formulation := by
    rw [onRegistry, ends_onPart]
    exact (Draft.perform_grows c _).mono (fun _ _ hd => ⟨hd.appends.1, hd.appends.2, rfl⟩)
      fun _ _ hd => ⟨hd.appends.1, hd.appends.2, rfl⟩
  exact hends.after

/-- A solve can fork whenever the accounts are in order. -/
theorem LeadsTo.forkable (hfaults : start.solvers.engine.faults = [])
    (haccounts : start.solvers.session.Accounts 2 start.model.formulation)
    (hhooked : start.solvers.session.hooked = true) (h : LeadsTo start s forked)
    (objective : IntId) (limit : Float) (now : Nat) :
    (s.context objective limit now).Forkable ⟨s.solvers, s.model.outcome, now⟩ := by
  obtain ⟨hfaults', hkept⟩ := h.kept hfaults haccounts hhooked
  exact ⟨hfaults', hkept.accounts.of_registry rfl rfl rfl, hkept.hooked⟩

/-- Along a run the copies are in step. -/
theorem LeadsTo.inStep (hfaults : start.solvers.engine.faults = [])
    (haccounts : start.solvers.session.Accounts 2 start.model.formulation)
    (hhooked : start.solvers.session.hooked = true) (hcopies : start.solvers.session.copies = [])
    (h : LeadsTo start s forked) : InStep s.model.formulation s.solvers.session.copies := by
  induction h with
  | start =>
      rw [hcopies]
      exact ⟨fun g hg => absurd hg List.not_mem_nil, fun g hg => absurd hg List.not_mem_nil⟩
  | @add s forked c hrun ih =>
      obtain ⟨hfaults', hkept⟩ := hrun.kept hfaults haccounts hhooked
      have hbalanced : s.Balanced s.solvers.session.backdrop := ⟨hfaults', rfl, hkept.accounts⟩
      have hsame : (after (onRegistry (Draft.perform c)) s).solvers.session.copies =
          s.solvers.session.copies := (congrArg Session.copies (hbalanced.add c).backdrop :)
      rw [hsame]
      exact ih.grow (trails_add s c)
  | register method script _ ih => exact ih
  | setLimit count _ ih => exact ih
  | @solve s forked objective limit script done now hrun _ _ ih =>
      have hforkable := hrun.forkable hfaults haccounts hhooked objective limit now
      have hstart : InStep (s.context objective limit now).formulation s.solvers.session.copies :=
        ih.grow ⟨List.prefix_refl _, Nat.le_refl _, rfl⟩
      exact hstart.restacks (hforkable.run done).2

end Live

/-- How a fresh working copy relates to the primary formulation and to the copies that were
alive before, the innermost in front. -/
structure Formulation.Fresh (copy primary : Formulation) (before : List Formulation) : Prop where
  source : copy.Mirrors (before.head?.getD primary)
  alike : ∀ g ∈ before, copy.Mirrors g
  trails : copy.Trails primary
  /-- A copy mirrors the primary formulation exactly if that has no more slots than the
  outermost copy, and the same objective. -/
  mirrors_iff : copy.Mirrors primary ↔ ∀ oldest, before.getLast? = some oldest →
    oldest.registry.bools.size = primary.registry.bools.size ∧
      oldest.registry.ints.size = primary.registry.ints.size ∧
      oldest.objective = primary.objective

theorem InStep.fresh {primary copy : Formulation} {before : List Formulation}
    (h : InStep primary before) (hcopy : copy.Mirrors (before.head?.getD primary)) :
    copy.Fresh primary before := by
  obtain ⟨htrails, halike⟩ := h.source
  refine ⟨hcopy, fun g hg => hcopy.trans (halike g hg), hcopy.trails.trans htrails, ?_⟩
  cases holdest : before.getLast? with
  | none =>
      rw [List.getLast?_eq_none_iff.mp holdest] at hcopy
      exact ⟨fun _ _ hnone => (by cases hnone), fun _ => hcopy⟩
  | some oldest =>
      have hmem : oldest ∈ before := List.mem_of_getLast? holdest
      have hsame : copy.Mirrors oldest := hcopy.trans (halike oldest hmem)
      have hiff := (h.trails oldest hmem).mirrors_iff
      constructor
      · rintro hmirrors _ ⟨⟩
        exact hiff.mp (hsame.symm.trans hmirrors)
      · exact fun hall => hsame.trans (hiff.mpr (hall oldest rfl))

namespace Live

variable {solvers t : Solvers} {config : Config} {m : Model} {s : Live} {forked : List Formulation}

/-- Whenever a fork in a solve goes through, the new copy mirrors the innermost copy that was
alive, and with it all others, or the primary formulation if there was none.  It never is
ahead of the primary formulation, and has a bridge exactly if that has one.  In a solve that
was started without any copies, all copies mirror the primary formulation. -/
theorem fork_mirrors (hsolvers : Unused solvers) (hcreate : Model.create config solvers = .ok m t)
    (hrun : LeadsTo ⟨m, t⟩ s forked) (objective : IntId) (limit : Float) (now : Nat)
    (done : Script) {before after : Solve.State}
    (hbefore : ((s.context objective limit now).run ⟨s.solvers, s.model.outcome, now⟩ done).2 =
      before) {depth : Nat}
    (hfork : (s.context objective limit now).perform { before with clock := before.clock + 1 }
      .fork = (.depth depth, after)) :
    ∃ copy, after.solvers.session.innermost? = some copy ∧
      copy.Fresh { s.model.formulation with objective } before.solvers.session.copies ∧
      (s.solvers.session.copies = [] → copy.Mirrors { s.model.formulation with objective }) := by
  obtain ⟨hcleared, hfaults⟩ := hsolvers.cleared
  obtain ⟨hprepared, hhooked⟩ := (Model.create_ends hcleared hfaults config).accepted hcreate
  have hforkable := hrun.forkable hprepared.faults hprepared.accounts hhooked objective limit now
  have hstart : InStep { s.model.formulation with objective } s.solvers.session.copies :=
    (hrun.inStep hprepared.faults hprepared.accounts hhooked hprepared.copies).grow
      ⟨List.prefix_refl _, Nat.le_refl _, rfl⟩
  obtain ⟨hforkable', hrestacks⟩ := hforkable.run done
  rw [hbefore] at hforkable' hrestacks
  have htick : (s.context objective limit now).Forkable { before with clock := before.clock + 1 } :=
    ⟨hforkable'.faults, hforkable'.accounts, hforkable'.hooked⟩
  obtain ⟨copy, hcopies, hcopy⟩ := htick.fork hfork
  refine ⟨copy, ?_, (hstart.restacks hrestacks).fresh hcopy, fun hnone => ?_⟩
  · rw [Session.innermost?, show after.solvers.session.copies = _ from hcopies, List.head?_cons]
  · have hall : ∀ g ∈ before.copies, g.Mirrors { s.model.formulation with objective } := by
      refine mirrors_of_restacks hrestacks fun g hg => ?_
      have hempty : g ∈ ([] : List Formulation) := hnone ▸ hg
      cases hempty
    exact (Restacks.push hcopy).mirrors hall copy List.mem_cons_self

/-- A strategy that forks one copy and leaves it behind. -/
def leavingScript : Script := [.fork]

/-- A solve that leaves a copy behind. -/
def leavesCopy (s : Live) : Live :=
  let s := after (onRegistry (Draft.perform (.int 0 3 "y"))) s
  let s := { s with model.strategies := s.model.strategies.set .mip leavingScript }
  (s.solve leavingScript ⟨0⟩ 5.0 0).2

/-- After such a solve, another objective is minimized by the same strategy. -/
theorem exists_leavesCopy : ∃ m t s forked after copy, Model.create { method := .mip } {} = .ok m t ∧
    LeadsTo ⟨m, t⟩ s forked ∧ s.solvers.session.depth = 1 ∧
    s.model.dispatch ⟨1⟩ 5.0 = .ok leavingScript ∧
    (s.context ⟨1⟩ 5.0 1).perform ⟨s.solvers, s.model.outcome, 2⟩ .fork = (.depth 2, after) ∧
    after.solvers.session.innermost? = some copy ∧ copy.objective = ⟨0⟩ := by
  have hrun : (match Model.create { method := .mip } {} with
      | .ok m t =>
        let s := leavesCopy ⟨m, t⟩
        let s₁ := (after (onRegistry (Draft.perform (.int 0 3 "y"))) (⟨m, t⟩ : Live))
        (s₁.model.formulation.registry.int? ⟨0⟩).isSome &&
          decide (s₁.model.config.method = .mip) && s.solvers.session.depth == 1 &&
          (s.model.formulation.registry.int? ⟨1⟩).isSome &&
          decide (s.model.config.method = .mip) &&
          match (s.context ⟨1⟩ 5.0 1).perform ⟨s.solvers, s.model.outcome, 2⟩ .fork with
          | (.depth depth, after) =>
            depth == 2 && after.solvers.session.innermost?.map (·.objective) == some ⟨0⟩
          | _ => false
      | .error _ _ => false) = true := by decide +kernel
  cases hcreate : Model.create { method := .mip } {} with
  | error failure t => simp [hcreate] at hrun
  | ok m t =>
      simp only [hcreate, Bool.and_eq_true, beq_iff_eq, decide_eq_true_eq] at hrun
      obtain ⟨⟨⟨⟨⟨hint, hmethod⟩, hdepth⟩, hint'⟩, hmethod'⟩, hfork⟩ := hrun
      have hpositive : (5.0 : Float) > 0.0 := by decide
      let s₁ : Live := after (onRegistry (Draft.perform (.int 0 3 "y"))) ⟨m, t⟩
      let s₂ : Live :=
        { s₁ with model.strategies := s₁.model.strategies.set .mip leavingScript }
      have hdispatch : s₂.model.dispatch ⟨0⟩ 5.0 = .ok leavingScript := by
        obtain ⟨slot, hslot⟩ := Option.isSome_iff_exists.mp hint
        simp only [s₂, s₁, Model.dispatch, if_pos hpositive, hslot, hmethod, Strategies.set,
          if_true]
      have hdispatch' : (leavesCopy ⟨m, t⟩).model.dispatch ⟨1⟩ 5.0 = .ok leavingScript := by
        obtain ⟨slot, hslot⟩ := Option.isSome_iff_exists.mp hint'
        simp only [Model.dispatch, if_pos hpositive, hslot, hmethod']
        simp only [leavesCopy, Live.solve, Strategies.set, if_true]
      have hleads : LeadsTo ⟨m, t⟩ (leavesCopy ⟨m, t⟩) _ :=
        ((LeadsTo.start.add (.int 0 3 "y")).register .mip leavingScript).solve 0 hdispatch
          (List.prefix_refl _)
      split at hfork
      · next depth after hperform =>
          simp only [Bool.and_eq_true, beq_iff_eq] at hfork
          obtain ⟨rfl, hinnermost⟩ := hfork
          obtain ⟨copy, hcopy, hobjective⟩ := Option.map_eq_some_iff.mp hinnermost
          exact ⟨m, t, _, _, after, copy, rfl, hleads, hdepth, hdispatch', hperform, hcopy,
            hobjective⟩
      · cases hfork

/-- The copy that a fork makes may miss the objective of the primary formulation. -/
theorem fork_misses_objective : ∃ m t s forked after copy,
    Model.create { method := .mip } {} = .ok m t ∧ LeadsTo ⟨m, t⟩ s forked ∧
    s.model.dispatch ⟨1⟩ 5.0 = .ok leavingScript ∧
    (s.context ⟨1⟩ 5.0 1).perform ⟨s.solvers, s.model.outcome, 2⟩ .fork = (.depth 2, after) ∧
    after.solvers.session.innermost? = some copy ∧
    ¬ copy.Mirrors (s.context ⟨1⟩ 5.0 1).formulation := by
  obtain ⟨m, t, s, forked, after, copy, hcreate, hleads, -, hdispatch, hfork, hcopy, hobjective⟩ :=
    exists_leavesCopy
  refine ⟨m, t, s, forked, after, copy, hcreate, hleads, hdispatch, hfork, hcopy, fun hmirrors => ?_⟩
  have hsame : copy.objective = ⟨1⟩ := hmirrors.objective
  rw [hobjective] at hsame
  cases hsame

/-- The copy that is left behind by then is the one that is mirrored. -/
theorem fork_mirrors_left : Unused {} ∧ ∃ m t s forked after copy,
    Model.create { method := .mip } {} = .ok m t ∧ LeadsTo ⟨m, t⟩ s forked ∧
    s.solvers.session.depth = 1 ∧
    (s.context ⟨1⟩ 5.0 1).perform ⟨s.solvers, s.model.outcome, 2⟩ .fork = (.depth 2, after) ∧
    after.solvers.session.innermost? = some copy ∧
    copy.Fresh { s.model.formulation with objective := ⟨1⟩ } s.solvers.session.copies := by
  have hunused : Unused {} := .fresh none
  obtain ⟨m, t, s, forked, after, -, hcreate, hleads, hdepth, -, hfork, -⟩ := exists_leavesCopy
  obtain ⟨copy, hcopy, hfresh, -⟩ :=
    fork_mirrors hunused hcreate hleads ⟨1⟩ 5.0 1 [] rfl hfork
  exact ⟨hunused, m, t, s, forked, after, copy, hcreate, hleads, hdepth, hfork, hcopy, hfresh⟩

end Live

end JointModel
