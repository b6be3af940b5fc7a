import JointModel.Error
import JointModel.HandleTable
import JointModel.Proofs.Effect
import JointModel.Proofs.HandleTable

/-!
# Calls that check what they rely on

A call may rely on facts that it does not check: a number that it looks up belongs to
the table, a count from which it takes one is not zero, a loop comes to an end.  A
`Checked` call checks them.  A check that fails is a `Breach`: it ends everything at once
and leaves no state behind.

`Agrees checked act s` says that the checked call ends in the state `s` as `act` does, so
that no check fails.  The rules follow those for `Ends`: what is shown of the second part
of a call is shown for the states that the first part leads to.
-/

namespace JointModel

/-- What a call relies on and does not find. -/
inductive Breach
  /-- A use is taken from a count that is zero. -/
  | underflow
  /-- A number does not belong to the table. -/
  | outOfRange
  /-- A recursion or a loop goes on for too long. -/
  | endless
deriving DecidableEq, Repr

/-- A call that is accepted, rejected or broken off by a breach. -/
abbrev Checked (σ α : Type) := ExceptT EngineError (StateT σ (Except Breach)) α

namespace Checked

open Effect

variable {σ τ α β : Type}

/-- How a call ended, in the form in which a checked call says it. -/
def outcome : EStateM.Result EngineError σ α → Except EngineError α × σ
  | .ok a s => (.ok a, s)
  | .error e s => (.error e, s)

/-- Performs a checked call. -/
def exec (act : Checked σ α) (s : σ) : Except Breach (Except EngineError α × σ) := act.run.run s

/-- A call that relies on nothing. -/
def plain (act : EStateM EngineError σ α) : Checked σ α := ExceptT.mk fun s => .ok (outcome (act s))

/-- The call breaks off. -/
def breach (b : Breach) : Checked σ α := ExceptT.mk fun _ => .error b

/-- Changes the state unless a check fails. -/
def change (f : σ → Except Breach (α × σ)) : Checked σ α :=
  ExceptT.mk fun s => (f s).map fun (a, t) => (.ok a, t)

/-- Performs a checked call on a part of the state. -/
def onPart (get : σ → τ) (put : σ → τ → σ) (act : Checked τ α) : Checked σ α :=
  ExceptT.mk fun s => (act.exec (get s)).map fun (answer, t) => (answer, put s t)

/-- The checked call ends as `act` does. -/
def Agrees (checked : Checked σ α) (act : EStateM EngineError σ α) (s : σ) : Prop :=
  checked.exec s = .ok (outcome (act s))

variable {checked : Checked σ α} {act act' : EStateM EngineError σ α} {s : σ}

theorem Agrees.congr (h : Agrees checked act s) (hact : act' s = act s) :
    Agrees checked act' s := by
  rw [Agrees, hact]
  exact h

theorem agrees_plain (act : EStateM EngineError σ α) (s : σ) : Agrees (plain act) act s := rfl

theorem agrees_pure (a : α) (s : σ) : Agrees (pure a) (pure a) s := rfl

theorem agrees_modify (f : σ → σ) (s : σ) : Agrees (modify f) (modify f) s := rfl

theorem agrees_change {f : σ → Except Breach (α × σ)} {a : α} {t : σ} (hf : f s = .ok (a, t))
    (hact : act s = .ok a t) : Agrees (change f) act s := by
  change (f s).map _ = _
  rw [hf, hact]
  rfl

theorem exec_bind (x : Checked σ β) (f : β → Checked σ α) (s : σ) :
    (x >>= f).exec s = match x.exec s with
      | .ok (.ok b, t) => (f b).exec t
      | .ok (.error e, t) => .ok (.error e, t)
      | .error b => .error b := by
  change Except.bind (x.exec s) _ = _
  rcases x.exec s with b | ⟨e | b, t⟩ <;> rfl

/-- The second part has to agree where the first part leads to. -/
theorem Agrees.bind {x : Checked σ β} {y : EStateM EngineError σ β} {f : β → Checked σ α}
    {g : β → EStateM EngineError σ α} (hx : Agrees x y s)
    (hf : ∀ b t, y s = .ok b t → Agrees (f b) (g b) t) : Agrees (x >>= f) (y >>= g) s := by
  rw [Agrees, exec_bind, bind_apply, hx]
  cases hy : y s with
  | ok b t => exact hf b t hy
  | error e t => rfl

/-- A checked call that starts by reading the state. -/
theorem Agrees.get_bind {f : σ → Checked σ α} (h : Agrees (f s) act s) :
    Agrees (get >>= f) act s := h

theorem agrees_bind_get {f : σ → Checked σ α} {g : σ → EStateM EngineError σ α}
    (h : Agrees (f s) (g s) s) : Agrees (get >>= f) (get >>= g) s := h

theorem Agrees.map {x : Checked σ β} {y : EStateM EngineError σ β} (hx : Agrees x y s)
    (f : β → α) : Agrees (f <$> x) (f <$> y) s := by
  rw [← bind_pure_comp, ← bind_pure_comp]
  exact hx.bind fun b t _ => agrees_pure (f b) t

/-- What follows a call that agrees may rely on a condition that the call keeps. -/
theorem Agrees.bind_keeps {P : σ → Prop} {x : Checked σ β} {y : EStateM EngineError σ β}
    {f : β → Checked σ α} {g : β → EStateM EngineError σ α} (hx : Agrees x y s) (hy : Keeps P y)
    (hs : P s) (hf : ∀ b t, P t → Agrees (f b) (g b) t) : Agrees (x >>= f) (y >>= g) s :=
  hx.bind fun b t ht => hf b t ((hy s hs).accepted ht)

theorem Agrees.tryCatch {handle : EngineError → Checked σ α}
    {handle' : EngineError → EStateM EngineError σ α} (h : Agrees checked act s)
    (hhandle : ∀ e t, Agrees (handle e) (handle' e) t) :
    Agrees (tryCatch checked handle) (tryCatch act handle') s := by
  have hexec : (MonadExcept.tryCatch checked handle).exec s = match checked.exec s with
      | .ok (.ok a, t) => .ok (.ok a, t)
      | .ok (.error e, t) => (handle e).exec t
      | .error b => .error b := by
    change Except.bind (checked.exec s) _ = _
    rcases checked.exec s with b | ⟨e | a, t⟩ <;> rfl
  rw [Agrees, hexec, tryCatch_apply, h]
  cases act s with
  | ok a t => rfl
  | error e t => exact hhandle e t

/-- The rule for loops, as `ends_forM`. -/
theorem agrees_forM {f : α → Checked σ PUnit} {g : α → EStateM EngineError σ PUnit}
    {I : List α → σ → Prop} {xs : List α}
    (hstep : ∀ done x rest, xs = done ++ x :: rest → ∀ s, I done s →
      Agrees (f x) (g x) s ∧ ∀ t, g x s = .ok ⟨⟩ t → I (done ++ [x]) t)
    (hstart : I [] s) : Agrees (xs.forM f) (xs.forM g) s := by
  suffices h : ∀ rest done s, xs = done ++ rest → I done s →
      Agrees (rest.forM f) (rest.forM g) s from h xs [] s rfl hstart
  intro rest
  induction rest with
  | nil => exact fun _ _ _ _ => rfl
  | cons x rest ih =>
      intro done s hxs hdone
      obtain ⟨hagrees, hnext⟩ := hstep done x rest hxs s hdone
      rw [List.forM_eq_forM, List.forM_eq_forM, List.forM_cons, List.forM_cons]
      refine hagrees.bind fun _ t ht => ?_
      exact ih (done ++ [x]) t (by rw [hxs, List.append_assoc]; rfl) (hnext t ht)

/-- A loop whose steps keep a condition under which they agree. -/
theorem agrees_forM_keeps {P : σ → Prop} {f : α → Checked σ PUnit}
    {g : α → EStateM EngineError σ PUnit} {xs : List α} (hf : ∀ x s, P s → Agrees (f x) (g x) s)
    (hg : ∀ x, Keeps P (g x)) (hs : P s) : Agrees (xs.forM f) (xs.forM g) s :=
  agrees_forM (I := fun _ => P)
    (fun _ x _ _ s hs => ⟨hf x s hs, fun _ ht => (hg x s hs).accepted ht⟩) hs

end Checked

/-! ## Tables -/

namespace HandleTable

variable {α : Type} {t : HandleTable α}

/-- Stores an entry.  The number that was freed last has to belong to the table. -/
def insertChecked (t : HandleTable α) (entry : α) : Except Breach (Nat × HandleTable α) :=
  match t.free with
  | i :: rest =>
    if h : i < t.slots.size then .ok (i, ⟨t.slots.set i (some entry) h, rest⟩)
    else .error .outOfRange
  | [] => .ok (t.slots.size, ⟨t.slots.push (some entry), []⟩)

/-- Frees a number, which has to belong to the table. -/
def removeChecked (t : HandleTable α) (i : Nat) : Except Breach (HandleTable α) :=
  if h : i < t.slots.size then .ok ⟨t.slots.set i none h, i :: t.free⟩ else .error .outOfRange

theorem Sound.insertChecked (h : t.Sound) (entry : α) :
    t.insertChecked entry = .ok (t.insert entry) := by
  unfold HandleTable.insertChecked HandleTable.insert
  cases hfree : t.free with
  | nil => rfl
  | cons i rest =>
      have hi : i < t.slots.size := h.lt_size (by simp [hfree])
      simp only [dif_pos hi, Array.setIfInBounds]

theorem lt_size_of_live {i : Nat} {entry : α} (h : t.get? i = some entry) : i < t.slots.size := by
  rw [get?, Option.join_eq_some_iff] at h
  exact (Array.getElem?_eq_some_iff.mp h).1

theorem removeChecked_of_lt {i : Nat} (h : i < t.slots.size) :
    t.removeChecked i = .ok (t.remove i) := by
  simp only [removeChecked, remove, dif_pos h, Array.setIfInBounds]

theorem size_slots_remove (t : HandleTable α) (i : Nat) :
    (t.remove i).slots.size = t.slots.size := Array.size_setIfInBounds

end HandleTable

end JointModel
