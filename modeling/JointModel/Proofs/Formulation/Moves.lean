import JointModel.Proofs.Formulation.Pool

/-!
# Moves in a pool

A move forks or discards one working copy, of whatever formulation is alive.  As moves are
plain data, a sequence of them can be written down and performed (`Pool.move`).

A move is a step of the pool, so it spares every entry that belongs to none of the copies
(`move_kept`).  It leaves the limit on blocks alone (`limit_move`).
-/

namespace JointModel

open Effect Formulation

namespace Session

/-- Forks and discards do not touch the limit. -/
theorem keeps_limit_forkCopy (limit : Option Nat) (source : Formulation) :
    Keeps (fun s => s.limit = limit) (forkCopy source) :=
  keeps_requireProblem.bind fun _ => keeps_requireHooks.bind fun _ => keeps_get.bind fun s =>
    (keeps_onSession_fork (durable_limit limit) (s.innermost?.getD source)).bind fun _ _ hs => hs

theorem keeps_limit_discardCopy (limit : Option Nat) :
    Keeps (fun s => s.limit = limit) discardCopy := by
  intro s hs
  refine ends_discardCopy (fun _ => hs) fun copy rest _ _ => ?_
  exact keeps_onSession_release (durable_limit limit).toReleasing copy { s with copies := rest } hs

end Session

namespace Pool

variable {f : Formulation} {p : Pool} {base : Session} {tenants : List (VarId × Stake)}

/-- A fork or a discard.  Formulations are counted, the primary one being the first. -/
inductive Move
  /-- Forks a detached copy of a formulation. -/
  | fork (source : Nat)
  /-- Lets the session fork a copy from its innermost one, or else from a formulation. -/
  | push (source : Nat)
  /-- Discards a detached copy. -/
  | discard (copy : Nat)
  /-- Lets the session discard its innermost copy. -/
  | pop
deriving Repr

/-- Makes a move.  Nothing happens if the formulation is not there. -/
def move (f : Formulation) (p : Pool) : Move → Pool
  | .fork i => (f :: p.copies)[i]?.elim p fun source => p.fork source []
  | .push i => (f :: p.copies)[i]?.elim p p.push
  | .discard i => p.detached[i]?.elim p p.discard
  | .pop => p.pop

/-- A move is a step, or nothing happens. -/
theorem step_move (f : Formulation) (p : Pool) (m : Move) :
    p.move f m = p ∨ Step f p (p.move f m) := by
  cases m with
  | fork i =>
      cases hi : (f :: p.copies)[i]? with
      | none => exact .inl (by rw [move, hi, Option.elim_none])
      | some source =>
          rw [move, hi, Option.elim_some]
          exact .inr (.fork (List.mem_of_getElem? hi) rfl rfl)
  | push i =>
      cases hi : (f :: p.copies)[i]? with
      | none => exact .inl (by rw [move, hi, Option.elim_none])
      | some source =>
          rw [move, hi, Option.elim_some]
          exact .inr (.push (List.mem_of_getElem? hi))
  | discard i =>
      cases hi : p.detached[i]? with
      | none => exact .inl (by rw [move, hi, Option.elim_none])
      | some copy =>
          rw [move, hi, Option.elim_some]
          exact .inr (.discard (List.mem_of_getElem? hi))
  | pop => exact .inr (.pop p)

theorem move_kept (h : p.InOrder base tenants) (hpaired : f.registry.Paired)
    (hlives : f.LivesIn p.session) (m : Move) :
    (p.move f m).InOrder base tenants ∧ p.Spares (p.move f m) := by
  rcases step_move f p m with hsame | hstep
  · rw [hsame]
    exact ⟨h, rfl, rfl, fun _ hv => hv⟩
  · exact hstep.kept h hpaired hlives

/-! ## The limit -/

theorem session_fork (p : Pool) (source : Formulation) (faults : Faults) :
    (p.fork source faults).session = (after source.fork ⟨p.session, faults⟩).session := by
  unfold Pool.fork after
  cases source.fork ⟨p.session, faults⟩ <;> rfl

theorem session_push (p : Pool) (source : Formulation) :
    (p.push source).session = after (Session.forkCopy source) p.session := by
  unfold Pool.push after
  cases Session.forkCopy source p.session <;> rfl

theorem session_discard (p : Pool) (copy : Formulation) :
    (p.discard copy).session = (after copy.release { session := p.session }).session := by
  unfold Pool.discard after
  cases copy.release { session := p.session } <;> rfl

theorem session_pop (p : Pool) : p.pop.session = after Session.discardCopy p.session := by
  unfold Pool.pop after
  cases Session.discardCopy p.session with
  | ok more s => cases more <;> rfl
  | error cause s => rfl

theorem limit_move (f : Formulation) (p : Pool) (m : Move) :
    (p.move f m).session.limit = p.session.limit := by
  have hdurable := (Session.durable_limit p.session.limit).engine
  cases m with
  | fork i =>
      cases hi : (f :: p.copies)[i]? with
      | none => rw [move, hi, Option.elim_none]
      | some source =>
          rw [move, hi, Option.elim_some, session_fork]
          exact (keeps_fork hdurable source).after rfl
  | push i =>
      cases hi : (f :: p.copies)[i]? with
      | none => rw [move, hi, Option.elim_none]
      | some source =>
          rw [move, hi, Option.elim_some, session_push]
          exact (Session.keeps_limit_forkCopy p.session.limit source).after rfl
  | discard i =>
      cases hi : p.detached[i]? with
      | none => rw [move, hi, Option.elim_none]
      | some copy =>
          rw [move, hi, Option.elim_some, session_discard]
          exact (keeps_release hdurable.toReleasing copy).after rfl
  | pop =>
      rw [move, session_pop]
      exact (Session.keeps_limit_discardCopy p.session.limit).after rfl

end Pool

end JointModel
