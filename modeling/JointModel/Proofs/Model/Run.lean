import JointModel.Model.Basic
import JointModel.Proofs.Formulation.Forking

/-!
# Runs of a model

A run starts with a created model.  Slots are added, strategies registered, limits
changed and objectives minimized, in any order and with any success.  `Live.LeadsTo`
collects what a run leads to.  A solve can stop after any of its commands, so the
states that a strategy sees are among them.

A run also lists the formulations that its forks put together, complete or not:
these hold everything that was ever captured for a working copy.

A created model went through two phases, before and after its constants were made
(`Model.create_of_phases`).  `Unused` collects the solvers that a model can be created in:
fresh ones, and those that earlier models left behind.
-/

namespace JointModel

open Effect

namespace Solve

/-- What a command puts together: something only if it forks. -/
def forked (ctx : Solve) (s : State) : Command → List Formulation
  | .fork =>
    [(s.solvers.session.innermost?.getD ctx.formulation).assembled { session := s.solvers.session }]
  | _ => []

/-- What the forks of a script put together, in their order. -/
def forkedBy (ctx : Solve) (s : State) : Script → List Formulation
  | [] => []
  | command :: rest =>
    let s := { s with clock := s.clock + 1 }
    ctx.forked s command ++ ctx.forkedBy (ctx.perform s command).2 rest

end Solve

namespace Live

/-- What a strategy is called with when `objective` is minimized. -/
def context (s : Live) (objective : IntId) (limit : Float) (now : Nat) : Solve where
  method := s.model.config.method
  objective := objective
  limit := limit
  formulation := { s.model.formulation with objective }
  timer := { limit, startedAt := some now }

/-- What the forks of a solve put together. -/
def forkedBy (s : Live) (script : Script) (objective : IntId) (limit : Float) (now : Nat) :
    List Formulation :=
  (s.context objective limit now).forkedBy ⟨s.solvers, s.model.outcome, now⟩ script

/-- What a run of a model leads to, and what its forks put together. -/
inductive LeadsTo (start : Live) : Live → List Formulation → Prop
  | start : LeadsTo start start []
  | add {s : Live} {forked : List Formulation} (c : Draft.Call) : LeadsTo start s forked →
      LeadsTo start (after (onRegistry (Draft.perform c)) s) forked
  | register {s : Live} {forked : List Formulation} (method : Method) (script : Script) :
      LeadsTo start s forked →
      LeadsTo start { s with model.strategies := s.model.strategies.set method script } forked
  | setLimit {s : Live} {forked : List Formulation} (count : Option Nat) : LeadsTo start s forked →
      LeadsTo start { s with solvers.engine.session := s.solvers.session.setLimit count } forked
  /-- A call to minimize, whose strategy got as far as `done`. -/
  | solve {s : Live} {forked : List Formulation} {objective : IntId} {limit : Float}
      {script done : Script} (now : Nat) : LeadsTo start s forked →
      s.model.dispatch objective limit = .ok script → done <+: script →
      LeadsTo start (s.solve done objective limit now).2
        (forked ++ s.forkedBy done objective limit now)

end Live

/-! ## Where runs start -/

namespace Model

section Phases

variable {config : Config} {solvers t : Solvers} {m : Model} {P Q : Live → Prop}
  (hstart : P ⟨{ config }, solvers⟩) (hbefore : ∀ act : Engine.Run Unit, Keeps P (Live.onEngine act))
  (hconstants : ∀ s, P s →
    Ends (Live.onRegistry Draft.addConstants) s (fun _ s => Q s) fun _ _ => True)
  (hbridge : Keeps Q (Live.onFormulation Formulation.Assembly.addBridge))
  (hafter : ∀ act : Engine.Run Unit, Keeps Q (Live.onEngine act))
include hstart hbefore hconstants hbridge hafter

/-- Setting up keeps `P` until the constants are made, and `Q` since. -/
theorem setUp_of_phases :
    Ends (setUp config) ⟨{ config }, solvers⟩ (fun _ s => Q s) fun _ _ => True := by
  have hnext : ∀ {R : Live → Prop} {x : Live.Run Unit} {f : Unit → Live.Run Unit} {s : Live},
      Keeps R x → R s → (∀ s, R s → Ends (f ()) s (fun _ s => Q s) fun _ _ => True) →
      Ends (x >>= f) s (fun _ s => Q s) fun _ _ => True := fun hx hs hf =>
    ends_bind.mpr ((hx _ hs).mono (fun _ s hs => hf s hs) fun _ _ _ => trivial)
  have hobjective : Keeps P (setUpObjective config.integralObjective) := by
    unfold setUpObjective
    split
    · exact hbefore _
    · exact keeps_pure _
  have hclose : Keeps Q (setUpBridge config.method) := by
    unfold setUpBridge
    split
    · exact hbridge
    · exact keeps_pure _
  refine hnext (Keeps.forM fun _ => hbefore _) hstart fun s hs => ?_
  refine hnext (hbefore _) hs fun s hs => hnext (hbefore _) hs fun s hs => ?_
  refine hnext hobjective hs fun s hs => ?_
  refine ends_bind.mpr ((hconstants s hs).mono (fun _ s hs => ?_) fun _ _ _ => trivial)
  refine hnext hclose hs fun s hs => ?_
  exact (hafter _ s hs).mono (fun _ _ hs => hs) fun _ _ _ => trivial

/-- What holds of a model that was created. -/
theorem create_of_phases (hcreate : create config solvers = .ok m t) : Q ⟨m, t⟩ := by
  have hsetUp := setUp_of_phases hstart hbefore hconstants hbridge hafter
  unfold create at hcreate
  cases hdefect : config.defect? with
  | some defect => simp [hdefect] at hcreate
  | none =>
      cases hrun : setUp config ⟨{ config }, solvers⟩ with
      | ok _ s =>
          simp only [hdefect, hrun, EStateM.Result.ok.injEq] at hcreate
          obtain ⟨rfl, rfl⟩ := hcreate
          exact hsetUp.accepted hrun
      | error cause s =>
          simp only [hdefect, hrun] at hcreate
          split at hcreate <;> cases hcreate

end Phases

end Model

/-- The solvers that a model can be created in. -/
inductive Unused : Solvers → Prop
  | fresh (limit : Option Nat) : Unused { engine := { session := { limit } } }
  | setLimit {s : Solvers} (count : Option Nat) : Unused s →
      Unused { s with engine.session := s.session.setLimit count }
  | domains {s : Solvers} (domains : Domains) : Unused s → Unused { s with domains }
  | rejected {s t : Solvers} {config : Config} {cause : ModelError} : Unused s →
      Model.create config s = .error (.rejected cause) t → Unused t
  | dropped {s t u : Solvers} {config : Config} {m : Model} {live : Live}
      {forked : List Formulation} : Unused s → Model.create config s = .ok m t →
      Live.LeadsTo ⟨m, t⟩ live forked → live.model.drop live.solvers = .ok () u → Unused u

/-! ## An example -/

/-- Two working copies are forked, and one of them is discarded. -/
def forkingScript : Script := [.fork, .fork, .discard]

/-- A strategy that leaves a working copy behind. -/
def forkingRun (s : Live) : Live :=
  let s := { s with model.strategies := s.model.strategies.set .branchAndCheck forkingScript }
  (s.solve forkingScript ⟨0⟩ 1.0 0).2

/-- The strategy can be dispatched, and it leaves one working copy. -/
theorem exists_forkingStart : ∃ m t, Model.create {} {} = .ok m t ∧
    Model.dispatch { m with strategies := m.strategies.set .branchAndCheck forkingScript } ⟨0⟩ 1.0 =
      .ok forkingScript ∧
    (forkingRun ⟨m, t⟩).solvers.session.depth = 1 := by
  have hrun : (match Model.create {} {} with
      | .ok m t => (m.formulation.registry.int? ⟨0⟩).isSome &&
          decide (m.config.method = .branchAndCheck) &&
          (forkingRun ⟨m, t⟩).solvers.session.depth == 1
      | .error _ _ => false) = true := by decide +kernel
  cases hcreate : Model.create {} {} with
  | error failure t => simp [hcreate] at hrun
  | ok m t =>
      simp only [hcreate, Bool.and_eq_true, beq_iff_eq, decide_eq_true_eq] at hrun
      obtain ⟨⟨hint, hmethod⟩, hdepth⟩ := hrun
      obtain ⟨slot, hslot⟩ := Option.isSome_iff_exists.mp hint
      have hpositive : (1.0 : Float) > 0.0 := by decide
      refine ⟨m, t, rfl, ?_, hdepth⟩
      simp only [Model.dispatch, if_pos hpositive, hslot, hmethod, Strategies.set, if_true]

/-- A run that leads to a working copy. -/
theorem exists_forkingRun : ∃ m t s forked, Model.create {} {} = .ok m t ∧
    Live.LeadsTo ⟨m, t⟩ s forked ∧ s.solvers.session.depth = 1 := by
  obtain ⟨m, t, hcreate, hdispatch, hdepth⟩ := exists_forkingStart
  have hstart : Live.LeadsTo ⟨m, t⟩ ⟨m, t⟩ [] := .start
  have hregister := hstart.register .branchAndCheck forkingScript
  exact ⟨m, t, _, _, hcreate, hregister.solve 0 hdispatch (List.prefix_refl _), hdepth⟩

end JointModel
