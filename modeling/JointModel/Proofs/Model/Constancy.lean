import JointModel.Proofs.Model.Mirroring
import JointModel.Proofs.Model.Ownership
import JointModel.Proofs.Registry.Continuity
import Mathlib.Data.List.Induction

/-!
# What identifiers stand for

The session gives the number of a freed entry to the next new one, and every discard and
every fork that fails frees entries.  Still no handle of a formulation that is alive ever
comes to stand for another variable: `Session.Steady` says that a step leaves the slots of
the primary formulation and of all working copies what they are, and the entries behind
their handles too, aliases included.

It holds of every step of every run, whether the step goes through or not
(`identifiers_steady`), and so along whole runs (`primary_steady`).

## Strategy

* What a session knows of the handles of a formulation is kept when entries are only added
  (`Session.Carries`), which covers new slots and forks.
* A discard frees the entries of the innermost copy.  As no handle belongs to two
  formulations, the others do not notice.
* `Live.RunStep` lists the steps of a run, and `Live.LeadsTo.steps` says that there are no
  others.
-/

namespace JointModel

open Effect Formulation

/-! ## The handles of a formulation -/

/-- Every handle of the formulation has an entry in the session `s`, and in `t` it has the
same one, but for its tie to an alias. -/
def Formulation.Retains (g : Formulation) (s t : Session) : Prop :=
  ∀ v ∈ g.registry.vars, ∃ entry link, s.var? v = some entry ∧ t.var? v = some { entry with link }

namespace Session

variable {s t : Session} {f f' g g' copy : Formulation} {rest : List Formulation} {uses : Nat}
  {v : VarId}

theorem Accounts.live (h : s.Accounts uses f) (hg : g ∈ f :: s.copies)
    (hv : v ∈ g.registry.vars) : ∃ entry, s.var? v = some entry := by
  have hresident : ∃ uses, g.Resident uses s := by
    rcases List.mem_cons.mp hg with rfl | hg
    · exact ⟨uses, h.resident_primary⟩
    · exact ⟨1, h.resident_copy hg⟩
  obtain ⟨uses, hresident⟩ := hresident
  obtain ⟨stake, hholding⟩ := Registry.exists_holding hv uses
  obtain ⟨entry, hentry, -⟩ := hresident.graded hholding
  exact ⟨entry, hentry⟩

/-- New entries change none of those that there are. -/
theorem Accounts.retains (h : s.Accounts uses f) (hcarries : s.Carries t) (hg : g ∈ f :: s.copies) :
    g.Retains s t := by
  intro v hv
  obtain ⟨entry, hentry⟩ := h.live hg hv
  obtain ⟨link, hlink⟩ := hcarries hentry
  exact ⟨entry, link, hentry, hlink⟩

/-- A fork adds entries, or it leaves them as they were. -/
theorem forkCopy_carries (h : s.Accounts 2 f) :
    Ends (forkCopy f) s (fun _ t => s.Carries t) fun _ t => s.Carries t := by
  obtain ⟨hpaired, hlives⟩ := h.source
  have hfork := fork_ends (e := { session := s }) hpaired h.sound hlives
  refine ends_forkCopy (fun _ _ => Carries.refl s) fun _ _ =>
    hfork.mono (fun copy e hend => ?_) fun _ e hend => ?_
  · have hnew := hend.2.settles.vars
    exact fun {_ entry} hv => ⟨entry.link, hnew.kept hv⟩
  · have hsame : e.session.var? = s.var? := (hend.2 rfl rfl).1.var?
    exact fun {v entry} hv => ⟨entry.link, (congrFun hsame v).trans hv⟩

/-- A discard frees no entry of another formulation. -/
theorem discardCopy_retains (h : s.Accounts 2 f) :
    Ends discardCopy s (fun _ t => ∀ g, g = f ∨ g ∈ t.copies → g.Retains s t)
      fun _ _ => False := by
  cases hcopies : s.copies with
  | nil =>
      exact ends_of_accepted (discardCopy_of_none hcopies) fun g hg =>
        h.retains (Carries.refl s) (List.mem_cons.mpr hg)
  | cons copy rest =>
      obtain ⟨t, hrun, hreturned, -⟩ := discardCopy_returned h hcopies
      refine ends_of_accepted hrun fun g hg v hv => ?_
      have hrest : t.copies = rest := copies_eq_of_frame hreturned.frame
      have hmem : g ∈ f :: rest := List.mem_cons.mpr (hg.imp_right fun hg => hrest ▸ hg)
      have hlive : g ∈ f :: s.copies := by
        rw [hcopies]
        exact List.cons_subset_cons f (List.subset_cons_self copy rest) hmem
      obtain ⟨entry, hentry⟩ := h.live hlive hv
      -- all handles of the copy that goes are different from these
      have hother : v ∉ copy.registry.vars := by
        intro hcopy
        have hdistinct := h.nodup_vars
        rw [hcopies] at hdistinct
        have hfirst : ((copy :: f :: rest).flatMap fun g => g.registry.vars).Nodup :=
          ((List.Perm.swap f copy rest).flatMap_right _).nodup_iff.mpr hdistinct
        rw [List.flatMap_cons, List.nodup_append'] at hfirst
        exact hfirst.2.2 hcopy (List.mem_flatMap.mpr ⟨g, hmem, hv⟩)
      have hresident : copy.Resident 1 { s with copies := rest } := by
        have hcopy := h.resident_copy (g := copy) (by simp [hcopies])
        exact ⟨hcopy.aligned, hcopy.distinct, hcopy.graded, hcopy.bridge⟩
      have hshort : Sound { s with copies := rest } :=
        h.sound.of_tables rfl rfl fun _ => h.sound.hooked (by simp [hcopies])
      have hkept := hreturned.var?_of_not_mem hshort hresident hother
      exact ⟨entry, entry.link, hentry, hkept.trans hentry⟩

/-! ## Steady steps -/

/-- The formulations that live in a session: the primary one, and then the working copies,
the outermost first.  A place in this list stays with its formulation as long as that is
alive. -/
def formulations (f : Formulation) (s : Session) : List Formulation := f :: s.copies.reverse

/-- From the session `s` with the primary formulation `f` to the session `t` with `f'`, what
is alive before and after keeps its slots and the entries behind its handles. -/
structure Steady (f f' : Formulation) (s t : Session) : Prop where
  slots : ∀ {i : Nat} {g g' : Formulation}, (s.formulations f)[i]? = some g →
    (t.formulations f')[i]? = some g' → g.registry.Continues g'.registry
  entries : ∀ {i : Nat} {g g' : Formulation}, (s.formulations f)[i]? = some g →
    (t.formulations f')[i]? = some g' → g.Retains s t
  backReferences : f.registry.backReferences <+: f'.registry.backReferences

end Session

/-- A copy that is alive before and after is the same. -/
theorem Restacks.getElem?_eq {f g g' : Formulation} {copies copies' : List Formulation} {i : Nat}
    (h : Restacks f copies copies') (hg : copies.reverse[i]? = some g)
    (hg' : copies'.reverse[i]? = some g') : g' = g := by
  cases h with
  | same => exact Option.some.inj (hg'.symm.trans hg)
  | @push copy hcopy =>
      have hlt : i < copies.reverse.length := (List.getElem?_eq_some_iff.mp hg).1
      rw [List.reverse_cons, List.getElem?_append_left hlt] at hg'
      exact Option.some.inj (hg'.symm.trans hg)
  | pop =>
      cases copies with
      | nil => exact Option.some.inj (hg'.symm.trans hg)
      | cons copy rest =>
          have hlt : i < rest.reverse.length := (List.getElem?_eq_some_iff.mp hg').1
          rw [List.reverse_cons, List.getElem?_append_left hlt] at hg
          exact Option.some.inj (hg'.symm.trans hg)

/-- What is to be shown of a step: the primary formulation goes on, at most one copy comes
or goes, and the handles of the others keep their entries. -/
theorem Session.Steady.of_restacks {f f' : Formulation} {s t : Session}
    (hcontinues : f.registry.Continues f'.registry)
    (hgrows : f.registry.backReferences <+: f'.registry.backReferences)
    (hrestacks : Restacks f s.copies t.copies)
    (hretains : ∀ g ∈ f :: s.copies, g = f ∨ g ∈ t.copies → g.Retains s t) : Steady f f' s t := by
  refine ⟨fun {i g g'} hg hg' => ?_, fun {i g g'} hg hg' => ?_, hgrows⟩
  · cases i with
    | zero =>
        cases hg
        cases hg'
        exact hcontinues
    | succ i =>
        rw [hrestacks.getElem?_eq hg hg']
        exact .refl _
  · cases i with
    | zero =>
        cases hg
        exact hretains f List.mem_cons_self (.inl rfl)
    | succ i =>
        obtain rfl := hrestacks.getElem?_eq hg hg'
        have hmem : g' ∈ s.copies := List.mem_reverse.mp (List.mem_of_getElem? hg)
        have hmem' : g' ∈ t.copies := List.mem_reverse.mp (List.mem_of_getElem? hg')
        exact hretains g' (List.mem_cons_of_mem _ hmem) (.inr hmem')

namespace Solve

variable {ctx : Solve} {s : State}

/-- What a command makes of the entries. -/
theorem Forkable.retains (h : ctx.Forkable s) (c : Command) {g : Formulation}
    (hg : g ∈ ctx.formulation :: s.copies)
    (hstays : g = ctx.formulation ∨ g ∈ (ctx.perform s c).2.copies) :
    g.Retains s.solvers.session (ctx.perform s c).2.solvers.session := by
  cases c with
  | fork =>
      have hends : Ends (Solvers.onEngine (Engine.forkCopy ctx.formulation)) s.solvers
          (fun _ t => g.Retains s.solvers.session t.session)
          fun _ t => g.Retains s.solvers.session t.session := by
        rw [Solvers.onEngine, ends_onPart, Engine.forkCopy, Engine.ends_call h.faults]
        exact (Session.forkCopy_carries h.accounts).mono
          (fun _ _ ht => h.accounts.retains ht hg) fun _ _ ht => h.accounts.retains ht hg
      rw [Solve.perform, solvers_ask]
      exact hends.after
  | discard =>
      have hends : Ends (Solvers.onEngine Engine.discardCopy) s.solvers
          (fun _ t => ∀ g, g = ctx.formulation ∨ g ∈ t.session.copies →
            g.Retains s.solvers.session t.session)
          fun _ t => ∀ g, g = ctx.formulation ∨ g ∈ t.session.copies →
            g.Retains s.solvers.session t.session := by
        rw [Solvers.onEngine, ends_onPart, Engine.discardCopy, Engine.ends_call h.faults]
        exact (Session.discardCopy_retains h.accounts).mono (fun _ _ ht => ht) fun _ _ ht => ht.elim
      rw [State.copies] at hstays
      rw [Solve.perform, solvers_ask] at hstays ⊢
      exact hends.after g hstays
  | domains c =>
      rw [Solvers.session, Solvers.session, engine_domains]
      exact h.accounts.retains (Session.Carries.refl _) hg
  | arguments | formulation | workingCopy | session | inTime | setStatus | record | raiseBound
  | outcome | describe => exact h.accounts.retains (Session.Carries.refl _) hg

/-- A command leaves what is alive before and after what it is. -/
theorem Forkable.steady (h : ctx.Forkable s) (c : Command) :
    Session.Steady ctx.formulation ctx.formulation s.solvers.session
      (ctx.perform s c).2.solvers.session :=
  .of_restacks (.refl _) (List.prefix_refl _) (h.restacks c) fun _ hg hstays => h.retains c hg hstays

/-- The last command of a script comes after the others. -/
theorem run_concat (ctx : Solve) (s : State) (done : Script) (c : Command) :
    (ctx.run s (done ++ [c])).2 =
      (ctx.perform { (ctx.run s done).2 with clock := (ctx.run s done).2.clock + 1 } c).2 := by
  induction done generalizing s with
  | nil => rfl
  | cons first rest ih => exact ih _

end Solve

namespace Live

variable {start s u : Live} {forked more : List Formulation}

/-! ## The steps of a run -/

/-- The steps of a run: slots are added, a strategy is registered, the limit changes, a solve
begins, or its strategy performs its next command.  Calls that fail are steps too. -/
inductive RunStep (start : Live) : Live → Live → Prop
  | add {s : Live} {forked : List Formulation} (c : Draft.Call) : LeadsTo start s forked →
      RunStep start s (after (onRegistry (Draft.perform c)) s)
  | register {s : Live} {forked : List Formulation} (method : Method) (script : Script) :
      LeadsTo start s forked →
      RunStep start s { s with model.strategies := s.model.strategies.set method script }
  | setLimit {s : Live} {forked : List Formulation} (count : Option Nat) : LeadsTo start s forked →
      RunStep start s { s with solvers.engine.session := s.solvers.session.setLimit count }
  | dispatch {s : Live} {forked : List Formulation} {objective : IntId} {limit : Float}
      {script : Script} (now : Nat) : LeadsTo start s forked →
      s.model.dispatch objective limit = .ok script →
      RunStep start s (s.solve [] objective limit now).2
  | command {s : Live} {forked : List Formulation} {objective : IntId} {limit : Float}
      {script done : Script} {c : Command} (now : Nat) : LeadsTo start s forked →
      s.model.dispatch objective limit = .ok script → done ++ [c] <+: script →
      RunStep start (s.solve done objective limit now).2 (s.solve (done ++ [c]) objective limit now).2

theorem LeadsTo.trans (h : LeadsTo start s forked) (h' : LeadsTo s u more) :
    LeadsTo start u (forked ++ more) := by
  induction h' with
  | start => rwa [List.append_nil]
  | add c _ ih => exact ih.add c
  | register method script _ ih => exact ih.register method script
  | setLimit count _ ih => exact ih.setLimit count
  | solve now _ hdispatch hprefix ih =>
      rw [← List.append_assoc]
      exact ih.solve now hdispatch hprefix

/-- A run makes no other steps. -/
theorem LeadsTo.steps (h : LeadsTo start s forked) (h' : LeadsTo s u more) :
    Relation.ReflTransGen (RunStep start) s u := by
  induction h' with
  | start => exact .refl
  | add c hrun ih => exact ih.tail (.add c (h.trans hrun))
  | register method script hrun ih => exact ih.tail (.register method script (h.trans hrun))
  | setLimit count hrun ih => exact ih.tail (.setLimit count (h.trans hrun))
  | @solve u forked objective limit script done now hrun hdispatch hprefix ih =>
      -- the strategy gets to `done` one command after the other
      induction done using List.reverseRecOn with
      | nil => exact ih.tail (.dispatch now (h.trans hrun) hdispatch)
      | append_singleton done c ihdone =>
          exact (ihdone ((List.prefix_append done [c]).trans hprefix)).tail
            (.command now (h.trans hrun) hdispatch hprefix)

section Steady

variable (hfaults : start.solvers.engine.faults = [])
  (haccounts : start.solvers.session.Accounts 2 start.model.formulation)
  (hhooked : start.solvers.session.hooked = true)
include hfaults haccounts hhooked

/-- Adding slots leaves what is alive what it is. -/
theorem LeadsTo.steady_add (h : LeadsTo start s forked) (c : Draft.Call) :
    Session.Steady s.model.formulation (after (onRegistry (Draft.perform c)) s).model.formulation
      s.solvers.session (after (onRegistry (Draft.perform c)) s).solvers.session := by
  obtain ⟨hfaults', hkept⟩ := h.kept hfaults haccounts hhooked
  have hbalanced : s.Balanced s.solvers.session.backdrop := ⟨hfaults', rfl, hkept.accounts⟩
  have hcopies : (after (onRegistry (Draft.perform c)) s).solvers.session.copies =
      s.solvers.session.copies := (congrArg Session.copies (hbalanced.add c).backdrop :)
  have hready : Draft.Ready ⟨s.model.formulation.registry, s.solvers⟩ :=
    ⟨hkept.accounts.sound, hkept.accounts.problem, by rw [hfaults']; rfl⟩
  have hcontinues : Ends (onRegistry (Draft.perform c)) s
      (fun _ t => s.model.formulation.registry.Continues t.model.formulation.registry)
      fun _ t => s.model.formulation.registry.Continues t.model.formulation.registry := by
    rw [onRegistry, ends_onPart]
    exact (Draft.perform_grows c _).mono (fun _ _ hd => hd.continues) fun _ _ hd => hd.continues
  have hcarries : Ends (onRegistry (Draft.perform c)) s
      (fun _ t => Draft.Carries ⟨s.model.formulation.registry, s.solvers⟩
        ⟨t.model.formulation.registry, t.solvers⟩)
      fun _ t => Draft.Carries ⟨s.model.formulation.registry, s.solvers⟩
        ⟨t.model.formulation.registry, t.solvers⟩ := by
    rw [onRegistry, ends_onPart]
    exact (Draft.perform_carries hready c).mono (fun _ _ hd => hd) fun _ _ hd => hd
  refine .of_restacks hcontinues.after (trails_add s c).backReferences ?_ fun g hg _ => ?_
  · rw [hcopies]
    exact .same _
  · exact hkept.accounts.retains hcarries.after.session hg

theorem RunStep.steady (h : RunStep start s u) : Session.Steady s.model.formulation
    u.model.formulation s.solvers.session u.solvers.session := by
  -- a step that leaves the slots and the entries alone
  have hidle : ∀ {s u : Live} {forked}, LeadsTo start s forked →
      u.model.formulation.registry = s.model.formulation.registry →
      u.solvers.session.var? = s.solvers.session.var? →
      u.solvers.session.copies = s.solvers.session.copies →
      Session.Steady s.model.formulation u.model.formulation s.solvers.session u.solvers.session := by
    intro s u forked hrun hregistry hvars hcopies
    obtain ⟨-, hkept⟩ := hrun.kept hfaults haccounts hhooked
    refine .of_restacks (hregistry ▸ .refl _) (hregistry ▸ List.prefix_refl _) ?_ fun g hg _ => ?_
    · rw [hcopies]
      exact .same _
    · refine hkept.accounts.retains (fun {v entry} hv => ⟨entry.link, ?_⟩) hg
      rw [hvars, hv]
  cases h with
  | add c hrun => exact hrun.steady_add hfaults haccounts hhooked c
  | register method script hrun => exact hidle hrun rfl rfl rfl
  | setLimit count hrun => exact hidle hrun rfl rfl rfl
  | dispatch now hrun _ => exact hidle hrun rfl rfl rfl
  | @command s forked objective limit script done c now hrun _ _ =>
      have hforkable := hrun.forkable hfaults haccounts hhooked objective limit now
      have hdone := (hforkable.run done).1
      have htick : (s.context objective limit now).Forkable
          { ((s.context objective limit now).run ⟨s.solvers, s.model.outcome, now⟩ done).2 with
            clock := ((s.context objective limit now).run
              ⟨s.solvers, s.model.outcome, now⟩ done).2.clock + 1 } :=
        ⟨hdone.faults, hdone.accounts, hdone.hooked⟩
      have hstep := htick.steady c
      rw [← Solve.run_concat] at hstep
      exact hstep

end Steady

/-! ## Runs of created models -/

variable {solvers t : Solvers} {config : Config} {m : Model}

/-- In no step of a run does an index or a handle that is in use come to stand for anything
else: the primary formulation and every working copy that is alive before and after keep
their slots, and the entries behind all their handles. -/
theorem identifiers_steady (hsolvers : Unused solvers)
    (hcreate : Model.create config solvers = .ok m t) (hstep : RunStep ⟨m, t⟩ s u) :
    Session.Steady s.model.formulation u.model.formulation s.solvers.session
      u.solvers.session := by
  obtain ⟨hcleared, hfaults⟩ := hsolvers.cleared
  obtain ⟨hprepared, hhooked⟩ := (Model.create_ends hcleared hfaults config).accepted hcreate
  exact hstep.steady hprepared.faults hprepared.accounts hhooked

/-- The step that discards the second of two copies. -/
theorem identifiers_steady_discard : Unused {} ∧ ∃ m t s u, Model.create {} {} = .ok m t ∧
    RunStep ⟨m, t⟩ s u ∧ u.solvers.session.depth = 1 ∧
    Session.Steady s.model.formulation u.model.formulation s.solvers.session
      u.solvers.session := by
  have hunused : Unused {} := .fresh none
  obtain ⟨m, t, hcreate, hdispatch, hdepth⟩ := exists_forkingStart
  have hstart : LeadsTo ⟨m, t⟩ ⟨m, t⟩ [] := .start
  have hregister := hstart.register .branchAndCheck forkingScript
  let s : Live := ⟨{ m with strategies := m.strategies.set .branchAndCheck forkingScript }, t⟩
  have hstep : RunStep ⟨m, t⟩ (s.solve [.fork, .fork] ⟨0⟩ 1.0 0).2
      (s.solve ([.fork, .fork] ++ [.discard]) ⟨0⟩ 1.0 0).2 :=
    .command 0 hregister hdispatch (List.prefix_refl _)
  exact ⟨hunused, m, t, _, _, hcreate, hstep, hdepth, identifiers_steady hunused hcreate hstep⟩

/-- Along a whole run the primary formulation only gets more slots. -/
theorem primary_steady (hsolvers : Unused solvers) (hcreate : Model.create config solvers = .ok m t)
    (hrun : LeadsTo ⟨m, t⟩ s forked) (hmore : LeadsTo s u more) :
    s.model.formulation.registry.Continues u.model.formulation.registry ∧
      s.model.formulation.Retains s.solvers.session u.solvers.session ∧
      s.model.formulation.registry.backReferences <+:
        u.model.formulation.registry.backReferences := by
  obtain ⟨hcleared, hfaults⟩ := hsolvers.cleared
  obtain ⟨hprepared, hhooked⟩ := (Model.create_ends hcleared hfaults config).accepted hcreate
  have hsteps := hrun.steps hmore
  clear hmore
  induction hsteps with
  | refl =>
      obtain ⟨-, hkept⟩ := hrun.kept hprepared.faults hprepared.accounts hhooked
      exact ⟨.refl _, hkept.accounts.retains (Session.Carries.refl _) List.mem_cons_self,
        List.prefix_refl _⟩
  | tail _ hstep ih =>
      obtain ⟨hcontinues, hretains, hprefix⟩ := ih
      have hsteady := hstep.steady hprepared.faults hprepared.accounts hhooked
      refine ⟨hcontinues.trans (hsteady.slots (i := 0) rfl rfl), fun v hv => ?_,
        hprefix.trans hsteady.backReferences⟩
      obtain ⟨entry, link, hentry, hmid⟩ := hretains v hv
      obtain ⟨entry', link', hentry', hend⟩ :=
        hsteady.entries (i := 0) rfl rfl v (hcontinues.mem_vars hv)
      cases hmid.symm.trans hentry'
      exact ⟨entry, link', hentry, hend⟩

end Live

end JointModel
