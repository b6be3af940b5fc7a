import JointModel.Engine
import JointModel.Proofs.Effect

/-!
# Calls in the reach of faults

A call through the engine ends as the call on the session does, or it is struck
and leaves the session as it was (`call_ends`).  Calls only ever use up faults:
none is armed afterwards that was not armed before (`Faults.Within`), so an
operation that is out of reach of all faults stays so.

`Faults.passing` follows the faults through a sequence of calls, as long as none is
struck.  With a single fault it comes down to counting the calls of its operation
(`passing_singleton`).
-/

namespace JointModel

open Effect

namespace Faults

/-- Every operation that `old` spares is spared by `new` too. -/
def Within (new old : Faults) : Prop := ∀ op, old.lookup op = none → new.lookup op = none

theorem Within.refl (faults : Faults) : Within faults faults := fun _ h => h

theorem Within.trans {first second third : Faults} (h : Within second first)
    (h' : Within third second) : Within third first := fun op hop => h' op (h op hop)

theorem lookup_filter_ne (faults : Faults) (op other : Operation)
    (h : faults.lookup other = none) : (faults.filter (·.1 != op)).lookup other = none := by
  rw [List.lookup_eq_none_iff] at h ⊢
  exact fun fault hfault => h fault (List.mem_filter.mp hfault).1

theorem count_of_spared {faults : Faults} {op : Operation} (h : faults.lookup op = none) :
    faults.count op = (false, faults) := by
  simp [count, h]

theorem count_within (faults : Faults) (op : Operation) : Within (faults.count op).2 faults := by
  intro other hother
  unfold count
  cases hop : faults.lookup op with
  | none => exact hother
  | some after =>
      cases after with
      | zero => exact lookup_filter_ne faults op other hother
      | succ after =>
          have hne : other ≠ op := by
            rintro rfl
            rw [hother] at hop
            cases hop
          simp only [arm, List.lookup_cons, beq_false_of_ne hne]
          exact lookup_filter_ne faults op other hother

theorem lookup_of_struck {faults : Faults} {op : Operation} (h : (faults.count op).1 = true) :
    faults.lookup op = some 0 := by
  unfold count at h
  cases hop : faults.lookup op with
  | none => simp [hop] at h
  | some after => cases after <;> simp_all

/-- Releases and the teardown are out of reach of the faults. -/
structure Spared (faults : Faults) : Prop where
  releaseVar : faults.lookup .releaseVar = none
  releaseCons : faults.lookup .releaseCons = none
  close : faults.lookup .close = none

theorem spared_nil : Spared [] := ⟨rfl, rfl, rfl⟩

theorem Within.spared {new old : Faults} (h : Within new old) (hspared : old.Spared) : new.Spared :=
  ⟨h _ hspared.releaseVar, h _ hspared.releaseCons, h _ hspared.close⟩

/-! ## Sequences of calls -/

/-- The faults that are left after calls of these operations, if none of the calls is
struck. -/
def passing (faults : Faults) : List Operation → Option Faults
  | [] => some faults
  | op :: ops =>
    match faults.count op with
    | (true, _) => none
    | (false, rest) => passing rest ops

theorem passing_append (faults : Faults) (ops more : List Operation) :
    faults.passing (ops ++ more) = (faults.passing ops).bind fun rest => passing rest more := by
  induction ops generalizing faults with
  | nil => rfl
  | cons op ops ih =>
      rw [List.cons_append, passing, passing]
      cases faults.count op with
      | mk struck rest =>
          cases struck with
          | true => rfl
          | false => exact ih rest

theorem passing_within {faults rest : Faults} {ops : List Operation}
    (h : faults.passing ops = some rest) : rest.Within faults := by
  induction ops generalizing faults with
  | nil =>
      cases h
      exact .refl _
  | cons op ops ih =>
      have hfirst := count_within faults op
      rw [passing] at h
      cases hcount : faults.count op with
      | mk struck mid =>
          rw [hcount] at h hfirst
          cases struck with
          | true => cases h
          | false => exact hfirst.trans (ih h)

/-- The only fault strikes once its operation is called too often. -/
theorem passing_singleton (op : Operation) (after : Nat) (ops : List Operation) :
    passing [(op, after)] ops =
      if ops.count op ≤ after then some [(op, after - ops.count op)] else none := by
  induction ops generalizing after with
  | nil => simp [passing]
  | cons first ops ih =>
      by_cases hfirst : first = op
      · subst hfirst
        rw [List.count_cons_self]
        cases after with
        | zero => simp [passing, count]
        | succ after =>
            have hcount : count [(first, after + 1)] first = (false, [(first, after)]) := by
              simp [count, arm]
            simp only [passing, hcount, ih, Nat.add_le_add_iff_right, Nat.add_sub_add_right]
      · have hcount : count [(op, after)] first = (false, [(op, after)]) := by
          simp [count, List.lookup_cons, beq_false_of_ne hfirst]
        simp only [passing, hcount, ih, List.count_cons_of_ne hfirst]

end Faults

namespace Engine

variable {α : Type} {op : Operation} {act : Session.Run α} {e : Engine}

/-- A call ends as on the session and leaves the faults that it passed, or its fault
strikes. -/
theorem call_ends_passing {Q : α → Session → Prop} {E : EngineError → Session → Prop}
    (h : Ends act e.session Q E) :
    Ends (call op act) e (fun a e' => Q a e'.session ∧ e.faults.passing [op] = some e'.faults)
      fun cause e' =>
        (E cause e'.session ∨
          cause = injected op ∧ e'.session = e.session ∧ e.faults.lookup op = some 0 ∧
            e.faults.passing [op] = none) ∧
        e'.faults.Within e.faults := by
  have hwithin := Faults.count_within e.faults op
  cases hcount : e.faults.count op with
  | mk struck faults =>
      rw [hcount] at hwithin
      cases struck with
      | true =>
          have hlookup : e.faults.lookup op = some 0 := Faults.lookup_of_struck (by rw [hcount])
          have hpassing : e.faults.passing [op] = none := by simp only [Faults.passing, hcount]
          exact ends_of_rejected (e := injected op) (t := { e with faults })
            (by simp only [call, hcount]) ⟨.inr ⟨rfl, rfl, hlookup, hpassing⟩, hwithin⟩
      | false =>
          have hpassing : e.faults.passing [op] = some faults := by
            simp only [Faults.passing, hcount]
          cases hrun : act e.session with
          | ok a s =>
              exact ends_of_accepted (a := a) (t := { session := s, faults })
                (by simp only [call, hcount, hrun]) ⟨h.accepted hrun, hpassing⟩
          | error cause s =>
              exact ends_of_rejected (e := cause) (t := { session := s, faults })
                (by simp only [call, hcount, hrun]) ⟨.inl (h.rejected hrun), hwithin⟩

/-- The same without following the faults. -/
theorem call_ends {Q : α → Session → Prop} {E : EngineError → Session → Prop}
    (h : Ends act e.session Q E) :
    Ends (call op act) e (fun a e' => Q a e'.session ∧ e'.faults.Within e.faults)
      fun cause e' =>
        (E cause e'.session ∨
          cause = injected op ∧ e'.session = e.session ∧ e.faults.lookup op = some 0) ∧
        e'.faults.Within e.faults := by
  refine (call_ends_passing h).mono (fun a e' he' => ?_) fun cause e' he' => ?_
  · exact ⟨he'.1, Faults.passing_within he'.2⟩
  · obtain ⟨hend | ⟨hcause, hsame, hstruck, -⟩, hwithin⟩ := he'
    · exact ⟨.inl hend, hwithin⟩
    · exact ⟨.inr ⟨hcause, hsame, hstruck⟩, hwithin⟩

/-- A call that faults spare is the call on the session. -/
theorem call_of_spared (h : e.faults.lookup op = none) :
    call op act e = match act e.session with
      | .ok a session => .ok a { e with session }
      | .error cause session => .error cause { e with session } := by
  have hcount := Faults.count_of_spared h
  cases hrun : act e.session <;> simp only [call, hcount, hrun]

/-- Without faults, a call ends as on the session. -/
theorem ends_call {Q : α → Engine → Prop} {E : EngineError → Engine → Prop}
    (hfaults : e.faults = []) : Ends (call op act) e Q E ↔
      Ends act e.session (fun a s => Q a { session := s }) fun cause s => E cause { session := s } := by
  obtain ⟨session, faults⟩ := e
  cases hfaults
  unfold Ends
  rw [call_of_unarmed]
  cases act session <;> rfl

theorem keeps_call {P : Session → Prop} (h : Keeps P act) :
    Keeps (fun e : Engine => P e.session) (call op act) := by
  intro e he
  refine (call_ends (h e.session he)).mono (fun _ _ ht => ht.1) fun _ _ ht => ?_
  rcases ht.1 with hkept | ⟨-, hsame, -⟩
  · exact hkept
  · exact hsame ▸ he

/-- Calls arm no faults. -/
theorem keeps_unarmed_call : Keeps (fun e : Engine => e.faults = []) (call op act) := by
  intro e he
  rw [ends_call he]
  exact ends_of_forall (fun _ _ => rfl) fun _ _ => rfl

theorem keeps_onSession {P : Session → Prop} {act : Run α}
    (h : Keeps (fun e : Engine => P e.session) act) : Keeps P (onSession act) := by
  intro s hs
  rw [onSession, ends_onPart]
  exact h { session := s } hs

/-! ## Calls on a session by itself -/

theorem exists_of_onSession {act : Run α} {s t : Session} {x : α} (h : onSession act s = .ok x t) :
    ∃ e, act { session := s } = .ok x e ∧ e.session = t := by
  simp only [onSession, onPart] at h
  cases hrun : act { session := s } with
  | ok x e =>
      rw [hrun] at h
      cases h
      exact ⟨e, rfl, rfl⟩
  | error cause e =>
      rw [hrun] at h
      cases h

theorem onSession_bind {β : Type} {x : Run β} (hx : Keeps (fun e : Engine => e.faults = []) x)
    (f : β → Run α) : onSession (x >>= f) = onSession x >>= fun b => onSession (f b) := by
  funext s
  have hends := hx { session := s } rfl
  simp only [onSession, onPart, bind_apply]
  cases hrun : x { session := s } with
  | error cause e => rfl
  | ok b e =>
      obtain ⟨t, faults⟩ := e
      have hfaults : faults = [] := hends.accepted hrun
      rw [hfaults]

theorem onSession_forM {β : Type} {f : β → Run PUnit}
    (hf : ∀ x, Keeps (fun e : Engine => e.faults = []) (f x)) (xs : List β) :
    onSession (xs.forM f) = xs.forM fun x => onSession (f x) := by
  induction xs with
  | nil => rfl
  | cons x xs ih =>
      rw [List.forM_eq_forM, List.forM_eq_forM, List.forM_cons, List.forM_cons,
        onSession_bind (hf x)]
      exact congrArg (onSession (f x) >>= ·) (funext fun _ => ih)

theorem onSession_tryCatch {x : Run α} (hx : Keeps (fun e : Engine => e.faults = []) x)
    (handle : EngineError → Run α) :
    onSession (tryCatch x handle) = tryCatch (onSession x) fun e => onSession (handle e) := by
  funext s
  have hends := hx { session := s } rfl
  rw [tryCatch_apply]
  simp only [onSession, onPart, tryCatch_apply]
  cases hrun : x { session := s } with
  | ok a e => rfl
  | error cause e =>
      obtain ⟨t, faults⟩ := e
      have hfaults : faults = [] := hends.rejected hrun
      rw [hfaults]
      rfl

end Engine

end JointModel
