import JointModel.Proofs.Formulation.Rehandling

/-!
# Formulations that can be built

`Built` collects the formulations that the calls of the library lead to: slots are
added in any solvers, in any order and with any success, a bridge may be attached,
the objective may change, and a fork of a built formulation is built again.

In all of them the slots are paired (`Built.paired`).  For a fork that is so
because a copied slot keeps its polarity, whatever the session makes of its handle.
-/

namespace JointModel.Formulation

open Effect Registry

variable {f : Formulation}

/-- The formulations that the calls of the library lead to. -/
inductive Built : Formulation → Prop
  | empty : Built {}
  | constants {f : Formulation} (solvers : Solvers) : Built f →
      Built { f with registry := (after Draft.addConstants ⟨f.registry, solvers⟩).registry }
  | slot {f : Formulation} (c : Draft.Call) (solvers : Solvers) : Built f →
      Built { f with registry := (after (Draft.perform c) ⟨f.registry, solvers⟩).registry }
  | bridge {f : Formulation} (e : Engine) : Built f →
      Built (after Assembly.addBridge ⟨e, f⟩).formulation
  | objective {f : Formulation} (v : IntId) : Built f → Built { f with objective := v }
  | fork {f copy : Formulation} {e e' : Engine} : Built f → f.fork e = .ok copy e' → Built copy

/-- In every formulation that can be built the slots are paired. -/
theorem Built.paired (h : f.Built) : f.registry.Paired := by
  induction h with
  | empty => exact paired_empty
  | constants solvers _ ih => exact Draft.keeps_paired_addConstants.after ih
  | slot c solvers _ ih => exact (Draft.keeps_paired_perform c).after ih
  | bridge e _ ih =>
      -- no step of it touches a slot
      have hkeeps : Keeps (fun a : Assembly => a.formulation.registry.Paired)
          Assembly.addBridge :=
        Keeps.bind (keeps_formulation_onEngine (P := fun f => f.registry.Paired) _) fun _ =>
          Keeps.bind (keeps_formulation_onEngine (P := fun f => f.registry.Paired) _) fun _ =>
            Keeps.bind (fun _ ha => ha) fun _ =>
              keeps_formulation_onEngine (P := fun f => f.registry.Paired) _
      exact hkeeps.after ih
  | objective v _ ih => exact ih
  | fork _ hfork ih => exact ih.rehandled (fork_rehandled hfork)

end JointModel.Formulation
