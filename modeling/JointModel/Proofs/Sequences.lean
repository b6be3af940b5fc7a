import JointModel.Proofs.Engine
import JointModel.Proofs.Session.Members
import Mathlib.Algebra.GroupWithZero.Nat

/-!
# Sequences of calls

A larger call makes a fixed sequence of calls on the engine, one after the other, as
long as none is rejected.  `Proceeds ops act s Q R` says so of the operations `ops`: if
`act` is accepted, all of these calls went through (`Engine.Passes`), and if it is
rejected, one of them was struck by a fault or found no block left (`Engine.Halts`), and
nothing else can be the reason.

The state may be larger than the engine; `engine` finds the engine in it.  A composed
call proceeds through the sequences of its parts (`proceeds_bind`).
-/

namespace JointModel

open Effect

/-- The blocks that a call takes for a new entry. -/
def Operation.blocks : Operation → Nat
  | .newVar | .negateVar | .newCons => 1
  | _ => 0

/-- The blocks that a sequence of calls takes. -/
def blocksOf (ops : List Operation) : Nat := (ops.map Operation.blocks).sum

theorem blocksOf_append (ops more : List Operation) :
    blocksOf (ops ++ more) = blocksOf ops + blocksOf more := by
  rw [blocksOf, List.map_append, List.sum_append]
  rfl

namespace Engine

variable {e e' e'' : Engine} {ops more : List Operation} {cause : EngineError}

/-- A sequence of calls went through, and it took its blocks. -/
structure Passes (e : Engine) (ops : List Operation) (e' : Engine) : Prop where
  faults : e.faults.passing ops = some e'.faults
  allocations : e'.session.allocations = e.session.allocations + blocksOf ops
  limit : e'.session.limit = e.session.limit
  room : ∀ limit, e.session.limit = some limit → 0 < blocksOf ops →
    e.session.allocations + blocksOf ops ≤ limit

/-- A sequence of calls was cut short, by a fault or for want of blocks. -/
structure Halts (e : Engine) (ops : List Operation) (cause : EngineError) (e' : Engine) : Prop where
  faults : e'.faults.Within e.faults
  reason : (∃ op, cause = injected op ∧ e.faults.lookup op ≠ none ∧ e.faults.passing ops = none) ∨
    (∃ detail, cause = .allocation detail) ∧
      ∃ limit, e.session.limit = some limit ∧ limit < e.session.allocations + blocksOf ops

theorem Passes.refl (e : Engine) : e.Passes [] e := ⟨rfl, rfl, rfl, fun _ _ h => absurd h (by decide)⟩

theorem Passes.within (h : e.Passes ops e') : e'.faults.Within e.faults :=
  Faults.passing_within h.faults

theorem Passes.trans (h : e.Passes ops e') (h' : e'.Passes more e'') :
    e.Passes (ops ++ more) e'' where
  faults := by
    rw [Faults.passing_append, h.faults]
    exact h'.faults
  allocations := by
    rw [h'.allocations, h.allocations, blocksOf_append]
    omega
  limit := h'.limit.trans h.limit
  room limit hlimit hpos := by
    rw [blocksOf_append] at hpos ⊢
    have hfirst := h.room limit hlimit
    have hrest := h'.room limit (h.limit.trans hlimit)
    rw [h.allocations] at hrest
    omega

/-- A sequence that was cut short has no room for what would have followed. -/
theorem Halts.append (h : e.Halts ops cause e') (more : List Operation) :
    e.Halts (ops ++ more) cause e' := by
  refine ⟨h.faults, ?_⟩
  rcases h.reason with ⟨op, hcause, hlookup, hpassing⟩ | ⟨hdetail, limit, hlimit, hlt⟩
  · exact .inl ⟨op, hcause, hlookup, by rw [Faults.passing_append, hpassing]; rfl⟩
  · refine .inr ⟨hdetail, limit, hlimit, ?_⟩
    rw [blocksOf_append]
    omega

theorem Passes.halts (h : e.Passes ops e') (h' : e'.Halts more cause e'') :
    e.Halts (ops ++ more) cause e'' := by
  refine ⟨h.within.trans h'.faults, ?_⟩
  rcases h'.reason with ⟨op, hcause, hlookup, hpassing⟩ | ⟨hdetail, limit, hlimit, hlt⟩
  · refine .inl ⟨op, hcause, fun hnone => hlookup (h.within op hnone), ?_⟩
    rw [Faults.passing_append, h.faults]
    exact hpassing
  · refine .inr ⟨hdetail, limit, h.limit.symm.trans hlimit, ?_⟩
    rw [h.allocations] at hlt
    rw [blocksOf_append]
    omega

end Engine

/-! ## Composed calls -/

section Proceeds

variable {σ τ ε ε' α β : Type} {engine : σ → Engine} {wrap : EngineError → ε}
  {ops more : List Operation} {act : EStateM ε σ α} {s : σ} {Q Q' : α → σ → Prop} {R R' : σ → Prop}

/-- The call proceeds through the operations `ops`: `Q` holds if they all went through,
and `R` holds of the state in which they were cut short. -/
def Proceeds (engine : σ → Engine) (wrap : EngineError → ε) (ops : List Operation)
    (act : EStateM ε σ α) (s : σ) (Q : α → σ → Prop) (R : σ → Prop) : Prop :=
  Ends act s (fun a t => (engine s).Passes ops (engine t) ∧ Q a t)
    fun e t => (∃ cause, e = wrap cause ∧ (engine s).Halts ops cause (engine t)) ∧ R t

/-- However a call ends, it armed no fault. -/
theorem Proceeds.mono (h : Proceeds engine wrap ops act s Q R)
    (hok : ∀ a t, (engine t).faults.Within (engine s).faults → Q a t → Q' a t)
    (hcut : ∀ t, (engine t).faults.Within (engine s).faults → R t → R' t) :
    Proceeds engine wrap ops act s Q' R' := by
  refine Ends.mono h (fun a t ht => ?_) fun _ t ht => ?_
  · exact ⟨ht.1, hok a t ht.1.within ht.2⟩
  · obtain ⟨⟨cause, hcause, hhalts⟩, hR⟩ := ht
    exact ⟨⟨cause, hcause, hhalts⟩, hcut t hhalts.faults hR⟩

/-- A step that stays away from the engine. -/
theorem proceeds_of_accepted {a : α} {t : σ} (hrun : act s = .ok a t) (hengine : engine t = engine s)
    (h : Q a t) : Proceeds engine wrap [] act s Q R := by
  refine ends_of_accepted hrun ⟨?_, h⟩
  rw [hengine]
  exact .refl _

theorem proceeds_bind {x : EStateM ε σ β} {f : β → EStateM ε σ α} {P : β → σ → Prop}
    (hx : Proceeds engine wrap ops x s P R)
    (hf : ∀ b t, (engine s).Passes ops (engine t) → P b t →
      Proceeds engine wrap more (f b) t Q R) :
    Proceeds engine wrap (ops ++ more) (x >>= f) s Q R := by
  unfold Proceeds
  rw [ends_bind]
  refine Ends.mono hx (fun b t ht => ?_) fun _ t ht => ?_
  · obtain ⟨hpasses, hP⟩ := ht
    refine Ends.mono (hf b t hpasses hP) (fun a u hu => ?_) fun _ u hu => ?_
    · exact ⟨hpasses.trans hu.1, hu.2⟩
    · obtain ⟨⟨cause, rfl, hhalts⟩, hR⟩ := hu
      exact ⟨⟨cause, rfl, hpasses.halts hhalts⟩, hR⟩
  · obtain ⟨⟨cause, rfl, hhalts⟩, hR⟩ := ht
    exact ⟨⟨cause, rfl, hhalts.append more⟩, hR⟩

/-- A first step that stays away from the engine. -/
theorem proceeds_bind_of_accepted {x : EStateM ε σ β} {f : β → EStateM ε σ α} {b : β} {t : σ}
    (hrun : x s = .ok b t) (hengine : engine t = engine s)
    (h : Proceeds engine wrap ops (f b) t Q R) : Proceeds engine wrap ops (x >>= f) s Q R := by
  unfold Proceeds at h ⊢
  rw [hengine] at h
  rw [ends_bind]
  exact ends_of_accepted hrun h

/-- The rule for loops that make the same call for every element. -/
theorem proceeds_forM {op : Operation} {f : β → EStateM ε σ PUnit} {I : σ → Prop} {xs : List β}
    (hstep : ∀ x ∈ xs, ∀ s, I s → Proceeds engine wrap [op] (f x) s (fun _ t => I t) R)
    (hstart : I s) :
    Proceeds engine wrap (xs.map fun _ => op) (xs.forM f) s (fun _ t => I t) R := by
  induction xs generalizing s with
  | nil => exact proceeds_of_accepted rfl rfl hstart
  | cons x xs ih =>
      rw [List.forM_eq_forM, List.forM_cons]
      refine (proceeds_bind (hstep x List.mem_cons_self s hstart) fun _ t _ ht => ?_ :)
      exact ih (fun y hy => hstep y (List.mem_cons_of_mem x hy)) ht

/-- What a call on a part of the state proceeds through, the whole call does. -/
theorem proceeds_onPart {get : σ → τ} {put : σ → τ → σ} {wrapPart : EngineError → ε'}
    {wrapError : ε' → ε} {part : τ → Engine} {act : EStateM ε' τ α}
    (hget : part (get s) = engine s) (hput : ∀ t, engine (put s t) = part t)
    (hwrap : ∀ cause, wrapError (wrapPart cause) = wrap cause)
    (h : Proceeds part wrapPart ops act (get s) (fun a t => Q a (put s t)) fun t => R (put s t)) :
    Proceeds engine wrap ops (onPart get put wrapError act) s Q R := by
  unfold Proceeds
  rw [ends_onPart]
  refine Ends.mono h (fun a t ht => ?_) fun _ t ht => ?_
  · rw [hput, ← hget]
    exact ht
  · obtain ⟨⟨cause, rfl, hhalts⟩, hR⟩ := ht
    refine ⟨⟨cause, hwrap cause, ?_⟩, hR⟩
    rw [hput, ← hget]
    exact hhalts

end Proceeds

/-! ## Single calls -/

namespace Engine

variable {α : Type} {e : Engine} {op : Operation} {act : Session.Run α} {Q : α → Session → Prop}
  {R : Session → Prop}

/-- A call on an engine proceeds through the calls `ops`. -/
abbrev Proceeds (ops : List Operation) (act : Run α) (e : Engine) (Q : α → Engine → Prop)
    (R : Engine → Prop) : Prop :=
  JointModel.Proceeds id id ops act e Q R

/-- A call that takes no block is accepted unless it is struck. -/
theorem proceeds_call {a : α} {t : Session} (hrun : act e.session = .ok a t)
    (hblocks : op.blocks = 0) (hallocations : t.allocations = e.session.allocations)
    (hlimit : t.limit = e.session.limit) (hQ : Q a t) (hR : R e.session) :
    Proceeds [op] (call op act) e (fun a e' => Q a e'.session) fun e' => R e'.session := by
  have hnone : blocksOf [op] = 0 := by simp [blocksOf, hblocks]
  have hends : Ends act e.session (fun b u => b = a ∧ u = t) fun _ _ => False :=
    ends_of_accepted hrun ⟨rfl, rfl⟩
  refine Ends.mono (call_ends_passing hends) (fun b e' he' => ?_) fun cause e' he' => ?_
  · obtain ⟨⟨rfl, hsession⟩, hpassing⟩ := he'
    have hend : Q b e'.session := hsession ▸ hQ
    refine ⟨⟨hpassing, ?_, ?_, fun _ _ hpos => ?_⟩, hend⟩
    · rw [id, id, hsession, hallocations, hnone, Nat.add_zero]
    · rw [id, id, hsession, hlimit]
    · rw [hnone] at hpos
      exact absurd hpos (Nat.lt_irrefl 0)
  · obtain ⟨hno | ⟨rfl, hsession, hlookup, hpassing⟩, hwithin⟩ := he'
    · exact hno.elim
    · have hend : R e'.session := hsession ▸ hR
      exact ⟨⟨_, rfl, hwithin, .inl ⟨op, rfl, by simp [hlookup], hpassing⟩⟩, hend⟩

/-- A call that makes a new entry is accepted unless it is struck or no block is
left. -/
theorem proceeds_call_new (h : Ends act e.session
      (fun a t => e.session.HasRoom ∧ t.allocations = e.session.allocations + 1 ∧
        t.limit = e.session.limit ∧ Q a t)
      fun cause t => t = e.session ∧ e.session.Exhausted cause)
    (hblocks : op.blocks = 1) (hR : R e.session) :
    Proceeds [op] (call op act) e (fun a e' => Q a e'.session) fun e' => R e'.session := by
  have hone : blocksOf [op] = 1 := by simp [blocksOf, hblocks]
  refine Ends.mono (call_ends_passing h) (fun a e' he' => ?_) fun cause e' he' => ?_
  · obtain ⟨⟨hroom, hallocations, hlimit, hQ⟩, hpassing⟩ := he'
    refine ⟨⟨hpassing, by rw [hone]; exact hallocations, hlimit, fun limit hl _ => ?_⟩, hQ⟩
    rw [hone]
    exact hroom limit hl
  · obtain ⟨⟨hsession, ⟨limit, hl, hle⟩, hdetail⟩ | ⟨rfl, hsession, hlookup, hpassing⟩, hwithin⟩ :=
      he'
    · have hend : R e'.session := hsession ▸ hR
      refine ⟨⟨cause, rfl, hwithin, .inr ⟨hdetail, limit, hl, ?_⟩⟩, hend⟩
      rw [hone]
      exact Nat.lt_succ_of_le hle
    · have hend : R e'.session := hsession ▸ hR
      exact ⟨⟨_, rfl, hwithin, .inl ⟨op, rfl, by simp [hlookup], hpassing⟩⟩, hend⟩

end Engine

end JointModel
