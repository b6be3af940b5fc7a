/-!
# Calls with a state

A call reads and changes a state, and it answers or is rejected.  A rejected
call keeps the changes that it made before it was rejected.  Calls are values
of the type `EStateM ε σ α`; the lemmas below compute what a composed call does
to a state, so that no proof has to open the monad.

`onPart` performs a call on a part of a larger state.
-/

namespace JointModel.Effect

variable {ε ε' σ τ α β : Type}

/-! ## Computing a call -/

@[simp] theorem pure_apply (a : α) (s : σ) : (pure a : EStateM ε σ α) s = .ok a s := rfl

@[simp] theorem bind_apply (x : EStateM ε σ α) (f : α → EStateM ε σ β) (s : σ) :
    (x >>= f) s = match x s with
      | .ok a s => f a s
      | .error e s => .error e s := rfl

@[simp] theorem map_apply (f : α → β) (x : EStateM ε σ α) (s : σ) :
    (f <$> x) s = match x s with
      | .ok a s => .ok (f a) s
      | .error e s => .error e s := rfl

@[simp] theorem get_apply (s : σ) : (get : EStateM ε σ σ) s = .ok s s := rfl

@[simp] theorem modify_apply (f : σ → σ) (s : σ) :
    (modify f : EStateM ε σ PUnit) s = .ok ⟨⟩ (f s) := rfl

@[simp] theorem throw_apply (e : ε) (s : σ) : (throw e : EStateM ε σ α) s = .error e s := rfl

@[simp] theorem tryCatch_apply (x : EStateM ε σ α) (handle : ε → EStateM ε σ α) (s : σ) :
    (tryCatch x handle) s = match x s with
      | .ok a s => .ok a s
      | .error e s => handle e s := by
  change EStateM.tryCatch x handle s = _
  delta EStateM.tryCatch
  dsimp only
  cases x s <;> rfl

/-! ## Calls on a part of the state -/

/-- Performs a call on the part of a state that `get` reads and `put` writes.
The errors of the call become errors of the larger one by `wrap`. -/
def onPart (get : σ → τ) (put : σ → τ → σ) (wrap : ε → ε') (act : EStateM ε τ α) :
    EStateM ε' σ α := fun s =>
  match act (get s) with
  | .ok a t => .ok a (put s t)
  | .error e t => .error (wrap e) (put s t)

/-- Performs a call that only reads the state. -/
def read (act : σ → Except ε α) : EStateM ε σ α := fun s =>
  match act s with
  | .ok a => .ok a s
  | .error e => .error e s

end JointModel.Effect
