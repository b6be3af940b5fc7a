import JointModel.Effect

/-!
# Reasoning about calls with a state

`Ends act s accepted rejected` says how a call ends in a state: `accepted` holds
of its answer and of the state it leaves, or `rejected` holds of its error and
of that state.  As a rejected call keeps what it did before the rejection, both
sides speak about a state.

`ends_bind` and its companions take a composed call apart, one step at a time,
and `ends_forM` is the rule for loops: its invariant is indexed by the elements
that the loop is through with.  `Keeps P act` is the case of a condition that a
call preserves however it ends.
-/

namespace JointModel.Effect

variable {ε ε' σ τ α β : Type}

/-- The state that a call leaves, accepted or not. -/
def after (act : EStateM ε σ α) (s : σ) : σ :=
  match act s with
  | .ok _ t => t
  | .error _ t => t

/-- Whether a call is accepted. -/
def accepts (act : EStateM ε σ α) (s : σ) : Bool :=
  match act s with
  | .ok _ _ => true
  | .error _ _ => false

/-- How a call ends in the state `s`. -/
def Ends (act : EStateM ε σ α) (s : σ) (accepted : α → σ → Prop) (rejected : ε → σ → Prop) :
    Prop :=
  match act s with
  | .ok a t => accepted a t
  | .error e t => rejected e t

variable {act : EStateM ε σ α} {s t : σ} {Q Q' : α → σ → Prop} {E E' : ε → σ → Prop}

theorem Ends.mono (h : Ends act s Q E) (hok : ∀ a t, Q a t → Q' a t)
    (herror : ∀ e t, E e t → E' e t) : Ends act s Q' E' := by
  unfold Ends at h ⊢
  cases hrun : act s with
  | ok a t =>
      rw [hrun] at h
      exact hok a t h
  | error e t =>
      rw [hrun] at h
      exact herror e t h

theorem Ends.accepted (h : Ends act s Q E) {a : α} (hrun : act s = .ok a t) : Q a t := by
  simpa [Ends, hrun] using h

theorem Ends.rejected (h : Ends act s Q E) {e : ε} (hrun : act s = .error e t) : E e t := by
  simpa [Ends, hrun] using h

theorem Ends.after {P : σ → Prop} (h : Ends act s (fun _ t => P t) fun _ t => P t) :
    P (Effect.after act s) := by
  unfold Effect.after
  unfold Ends at h
  cases hrun : act s <;> simpa [hrun] using h

theorem Ends.and (h : Ends act s Q E) (h' : Ends act s Q' E') :
    Ends act s (fun a t => Q a t ∧ Q' a t) fun e t => E e t ∧ E' e t := by
  unfold Ends at h h' ⊢
  cases hrun : act s with
  | ok a t =>
      rw [hrun] at h h'
      exact ⟨h, h'⟩
  | error e t =>
      rw [hrun] at h h'
      exact ⟨h, h'⟩

theorem exists_of_accepts (h : accepts act s = true) : ∃ a t, act s = .ok a t := by
  unfold accepts at h
  cases hrun : act s with
  | ok a t => exact ⟨a, t, rfl⟩
  | error e t => simp [hrun] at h

theorem exists_of_not_accepts (h : accepts act s = false) :
    ∃ e, act s = .error e (Effect.after act s) := by
  unfold accepts at h
  cases hrun : act s with
  | ok a t => simp [hrun] at h
  | error e t => exact ⟨e, by rw [Effect.after, hrun]⟩

theorem ends_of_accepted {a : α} (hrun : act s = .ok a t) (h : Q a t) : Ends act s Q E := by
  simpa [Ends, hrun] using h

theorem ends_of_rejected {e : ε} (hrun : act s = .error e t) (h : E e t) : Ends act s Q E := by
  simpa [Ends, hrun] using h

theorem ends_of_forall (hok : ∀ a t, Q a t) (herror : ∀ e t, E e t) : Ends act s Q E := by
  unfold Ends
  cases act s with
  | ok a t => exact hok a t
  | error e t => exact herror e t

/-- A call that is never rejected is accepted. -/
theorem Ends.exists_accepted (h : Ends act s Q fun _ _ => False) :
    ∃ a t, act s = .ok a t ∧ Q a t := by
  unfold Ends at h
  cases hrun : act s with
  | ok a t => exact ⟨a, t, rfl, by simpa [hrun] using h⟩
  | error e t => simp [hrun] at h

/-! ## Taking a call apart -/

theorem ends_pure (a : α) : Ends (pure a) s Q E ↔ Q a s := Iff.rfl

theorem ends_get {Q : σ → σ → Prop} : Ends get s Q E ↔ Q s s := Iff.rfl

theorem ends_modify {Q : PUnit → σ → Prop} (f : σ → σ) : Ends (modify f) s Q E ↔ Q ⟨⟩ (f s) :=
  Iff.rfl

theorem ends_bind {x : EStateM ε σ β} {f : β → EStateM ε σ α} :
    Ends (x >>= f) s Q E ↔ Ends x s (fun b t => Ends (f b) t Q E) E := by
  unfold Ends
  rw [bind_apply]
  cases x s <;> rfl

theorem ends_map {x : EStateM ε σ β} {f : β → α} :
    Ends (f <$> x) s Q E ↔ Ends x s (fun b t => Q (f b) t) E := by
  unfold Ends
  rw [map_apply]
  cases x s <;> rfl

theorem ends_tryCatch {handle : ε → EStateM ε σ α} :
    Ends (tryCatch act handle) s Q E ↔ Ends act s Q fun e t => Ends (handle e) t Q E := by
  unfold Ends
  rw [tryCatch_apply]
  cases act s <;> rfl

theorem ends_onPart {get : σ → τ} {put : σ → τ → σ} {wrap : ε' → ε} {act : EStateM ε' τ α} :
    Ends (onPart get put wrap act) s Q E ↔
      Ends act (get s) (fun a t => Q a (put s t)) fun e t => E (wrap e) (put s t) := by
  unfold Ends onPart
  cases act (get s) <;> rfl

/-- The rule for loops.  `I done` holds once the loop is through with the
elements `done`; a rejection may depend on the elements before it. -/
theorem ends_forM {f : α → EStateM ε σ PUnit} {I : List α → σ → Prop} {xs : List α}
    (hstep : ∀ done x rest, xs = done ++ x :: rest → ∀ s, I done s →
      Ends (f x) s (fun _ t => I (done ++ [x]) t) E)
    (hstart : I [] s) : Ends (xs.forM f) s (fun _ t => I xs t) E := by
  suffices h : ∀ rest done s, xs = done ++ rest → I done s →
      Ends (rest.forM f) s (fun _ t => I xs t) E from h xs [] s rfl hstart
  intro rest
  induction rest with
  | nil =>
      intro done s hxs hdone
      rw [List.append_nil] at hxs
      exact hxs ▸ hdone
  | cons x rest ih =>
      intro done s hxs hdone
      rw [List.forM_eq_forM, List.forM_cons, ends_bind]
      refine (hstep done x rest hxs s hdone).mono (fun _ t ht => ?_) fun _ _ he => he
      exact ih (done ++ [x]) t (by rw [hxs, List.append_assoc]; rfl) ht

/-- The rule for loops of which no step is rejected. -/
theorem forM_accepted {f : α → EStateM ε σ PUnit} {I : List α → σ → Prop} {xs : List α}
    (hstep : ∀ done x rest, xs = done ++ x :: rest → ∀ s, I done s →
      ∃ t, f x s = .ok ⟨⟩ t ∧ I (done ++ [x]) t)
    (hstart : I [] s) : ∃ t, xs.forM f s = .ok ⟨⟩ t ∧ I xs t := by
  have hends : Ends (xs.forM f) s (fun _ t => I xs t) fun _ _ => False := by
    refine ends_forM (fun done x rest hxs s hdone => ?_) hstart
    obtain ⟨t, hrun, ht⟩ := hstep done x rest hxs s hdone
    exact ends_of_accepted hrun ht
  obtain ⟨_, t, hrun, ht⟩ := hends.exists_accepted
  exact ⟨t, hrun, ht⟩

theorem accepted_of_forM_singleton {f : α → EStateM ε σ PUnit} {x : α}
    (h : [x].forM f s = .ok ⟨⟩ t) : f x s = .ok ⟨⟩ t := by
  rw [List.forM_eq_forM, List.forM_cons, bind_apply] at h
  cases hrun : f x s with
  | ok a u =>
      rw [hrun] at h
      exact h
  | error e u =>
      rw [hrun] at h
      cases h

/-! ## Conditions that a call keeps -/

/-- The condition holds after the call if it held before, accepted or not. -/
def Keeps (P : σ → Prop) (act : EStateM ε σ α) : Prop :=
  ∀ s, P s → Ends act s (fun _ t => P t) fun _ t => P t

variable {P : σ → Prop}

theorem Keeps.after (h : Keeps P act) (hs : P s) : P (Effect.after act s) := (h s hs).after

theorem keeps_pure (a : α) : Keeps P (pure a : EStateM ε σ α) := fun _ hs => hs

theorem keeps_throw (e : ε) : Keeps P (throw e : EStateM ε σ α) := fun _ hs => hs

theorem keeps_get : Keeps P (get : EStateM ε σ σ) := fun _ hs => hs

theorem Keeps.bind {x : EStateM ε σ β} {f : β → EStateM ε σ α} (hx : Keeps P x)
    (hf : ∀ b, Keeps P (f b)) : Keeps P (x >>= f) := fun s hs =>
  ends_bind.mpr ((hx s hs).mono (fun b t ht => hf b t ht) fun _ _ ht => ht)

theorem Keeps.and {P' : σ → Prop} (h : Keeps P act) (h' : Keeps P' act) :
    Keeps (fun s => P s ∧ P' s) act := fun s hs => (h s hs.1).and (h' s hs.2)

theorem Keeps.map {x : EStateM ε σ β} {f : β → α} (hx : Keeps P x) : Keeps P (f <$> x) :=
  fun s hs => ends_map.mpr (hx s hs)

theorem Keeps.tryCatch {handle : ε → EStateM ε σ α} (hact : Keeps P act)
    (hhandle : ∀ e, Keeps P (handle e)) : Keeps P (tryCatch act handle) := fun s hs =>
  ends_tryCatch.mpr ((hact s hs).mono (fun _ _ ht => ht) fun e t ht => hhandle e t ht)

theorem Keeps.forM {f : α → EStateM ε σ PUnit} {xs : List α} (hf : ∀ x, Keeps P (f x)) :
    Keeps P (xs.forM f) := fun _ hs =>
  ends_forM (I := fun _ => P) (fun _ x _ _ s hs => hf x s hs) hs

theorem Keeps.onPart {get : σ → τ} {put : σ → τ → σ} {wrap : ε' → ε} {act : EStateM ε' τ α}
    {P : τ → Prop} (hact : Keeps P act) (hput : ∀ s t, get (put s t) = t) :
    Keeps (fun s => P (get s)) (onPart get put wrap act) := fun s hs => by
  rw [ends_onPart]
  simpa only [hput] using hact (get s) hs

/-- A call on a part keeps what the part does not matter for. -/
theorem keeps_onPart {get : σ → τ} {put : σ → τ → σ} {wrap : ε' → ε} (act : EStateM ε' τ α)
    (hput : ∀ s t, P s → P (put s t)) : Keeps P (onPart get put wrap act) := fun s hs =>
  ends_onPart.mpr (ends_of_forall (fun _ t => hput s t hs) fun _ t => hput s t hs)

/-! ## Two runs of a call -/

/-- The call goes the same way in two states: it is accepted in both with the same answer, or
rejected in both for the same cause. -/
def Lockstep (act : EStateM ε σ α) (s s' : σ) (accepted : α → σ → σ → Prop)
    (rejected : σ → σ → Prop) : Prop :=
  (∃ a t t', act s = .ok a t ∧ act s' = .ok a t' ∧ accepted a t t') ∨
    ∃ e t t', act s = .error e t ∧ act s' = .error e t' ∧ rejected t t'

section Lockstep

variable {s' t' : σ} {Q Q' : α → σ → σ → Prop} {E E' : σ → σ → Prop}

theorem lockstep_of_accepted {a : α} (hrun : act s = .ok a t) (hrun' : act s' = .ok a t')
    (h : Q a t t') : Lockstep act s s' Q E :=
  .inl ⟨a, t, t', hrun, hrun', h⟩

theorem lockstep_of_rejected {e : ε} (hrun : act s = .error e t) (hrun' : act s' = .error e t')
    (h : E t t') : Lockstep act s s' Q E :=
  .inr ⟨e, t, t', hrun, hrun', h⟩

theorem Lockstep.mono (h : Lockstep act s s' Q E) (hok : ∀ a t t', Q a t t' → Q' a t t')
    (herror : ∀ t t', E t t' → E' t t') : Lockstep act s s' Q' E' := by
  obtain ⟨a, t, t', hrun, hrun', hQ⟩ | ⟨e, t, t', hrun, hrun', hE⟩ := h
  · exact lockstep_of_accepted hrun hrun' (hok a t t' hQ)
  · exact lockstep_of_rejected hrun hrun' (herror t t' hE)

/-- Only how the call ends in the two states matters. -/
theorem Lockstep.congr {other : EStateM ε σ α} {u u' : σ} (h : Lockstep other u u' Q E)
    (hs : act s = other u) (hs' : act s' = other u') : Lockstep act s s' Q E := by
  unfold Lockstep at h ⊢
  rwa [hs, hs']

theorem lockstep_bind {x : EStateM ε σ β} {f : β → EStateM ε σ α}
    (h : Lockstep x s s' (fun b t t' => Lockstep (f b) t t' Q E) E) :
    Lockstep (x >>= f) s s' Q E := by
  obtain ⟨b, t, t', hrun, hrun', hrest⟩ | ⟨e, t, t', hrun, hrun', hE⟩ := h
  · refine hrest.congr ?_ ?_
    · rw [bind_apply, hrun]
    · rw [bind_apply, hrun']
  · refine lockstep_of_rejected (e := e) ?_ ?_ hE
    · rw [bind_apply, hrun]
    · rw [bind_apply, hrun']

theorem lockstep_map {x : EStateM ε σ β} {f : β → α}
    (h : Lockstep x s s' (fun b t t' => Q (f b) t t') E) : Lockstep (f <$> x) s s' Q E := by
  obtain ⟨b, t, t', hrun, hrun', hQ⟩ | ⟨e, t, t', hrun, hrun', hE⟩ := h
  · refine lockstep_of_accepted ?_ ?_ hQ
    · rw [map_apply, hrun]
    · rw [map_apply, hrun']
  · refine lockstep_of_rejected (e := e) ?_ ?_ hE
    · rw [map_apply, hrun]
    · rw [map_apply, hrun']

theorem lockstep_onPart {get : σ → τ} {put : σ → τ → σ} {wrap : ε' → ε} {part : EStateM ε' τ α}
    (h : Lockstep part (get s) (get s') (fun a t t' => Q a (put s t) (put s' t'))
      fun t t' => E (put s t) (put s' t')) : Lockstep (onPart get put wrap part) s s' Q E := by
  obtain ⟨a, t, t', hrun, hrun', hQ⟩ | ⟨e, t, t', hrun, hrun', hE⟩ := h
  · refine lockstep_of_accepted ?_ ?_ hQ
    · rw [onPart, hrun]
    · rw [onPart, hrun']
  · refine lockstep_of_rejected (e := wrap e) ?_ ?_ hE
    · rw [onPart, hrun]
    · rw [onPart, hrun']

end Lockstep

end JointModel.Effect
