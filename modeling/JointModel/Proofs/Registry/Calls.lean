import JointModel.Proofs.Registry.Growth

/-!
# What a call can make of a draft

A call on a draft asks the solvers first and appends a slot if they agree.  So it leaves at
most one more slot, and what it did in the store before stays done (`Draft.Grows`).  This
holds whatever the engine does, so nothing is assumed about it.

`perform_grows` is all that has to be known about the calls for properties of the registry
and the store alone.
-/

namespace JointModel

open Effect

namespace Registry

/-- A registry with a new slot for `x = value`, which is noted in the table of `x`. -/
def withIndicatorSlot (r : Registry) (x : IntId) (slot : IntSlot) (value : Int) (handle : VarId)
    (literal : Literal) : Registry :=
  let new : BoolSlot :=
    ⟨handle, literal, .positive none, "[" ++ slot.name ++ " == " ++ toString value ++ "]"⟩
  (r.withBool new).withIndicator x slot value ⟨r.bools.size⟩

end Registry

namespace Draft

variable {α : Type} {d d' : Draft} {x : IntId} {value : Int}

/-- The draft `d'` is what a call can make of `d`, accepted or not. -/
inductive Grows (d : Draft) : Draft → Prop
  | store (e : Engine) {s : Domains} : d.solvers.domains.Grows s →
      Grows d { d with solvers := ⟨e, s⟩ }
  | bool (e : Engine) (handle : VarId) (name : String) : Grows d
      { registry := d.registry.withBool
          ⟨handle, d.solvers.domains.freshLiteral, .positive none, name⟩
        solvers := ⟨e, { d.solvers.domains with bools := d.solvers.domains.bools + 1 }⟩ }
  | negation (e : Engine) (handle : VarId) {v : BoolId} {slot : BoolSlot} :
      d.registry.bool? v = some slot → slot.polarity = .positive none → Grows d
        { registry := d.registry.withNegation v
            ⟨handle, slot.literal.negate, .negated v, "~" ++ slot.name⟩
          solvers := ⟨e, d.solvers.domains⟩ }
  | int (e : Engine) (handle : Option VarId) {lb ub : Int} (name : String) : lb ≤ ub → Grows d
      { registry := d.registry.withInt
          { handle, domain := ⟨d.solvers.domains.bounds.size⟩, lb, ub, name, table := none }
        solvers := ⟨e, (d.withDomain lb ub).solvers.domains⟩ }
  | indicator (e : Engine) (handle : VarId) {x : IntId} {slot : IntSlot} {value : Int}
      {literal : Literal} {s : Domains} : d.registry.int? x = some slot → slot.lb ≤ value →
      value ≤ slot.ub → slot.lb ≠ slot.ub → d.registry.indicator? x value = none →
      Domains.equal slot.domain value d.solvers.domains = .ok literal s → Grows d
        { registry := d.registry.withIndicatorSlot x slot value handle literal, solvers := ⟨e, s⟩ }

theorem Grows.refl (d : Draft) : d.Grows d := .store _ .refl

/-! ## Calls on whatever engine there is -/

theorem onEngine_leaves (act : Engine.Run α) (d : Draft) :
    Ends (onEngine act) d (fun _ d' => ∃ e, d' = d.withEngine e)
      fun _ d' => ∃ e, d' = d.withEngine e := by
  unfold onEngine onSolvers Solvers.onEngine
  rw [ends_onPart, ends_onPart]
  exact ends_of_forall (fun _ e => ⟨e, rfl⟩) fun _ e => ⟨e, rfl⟩

/-- A new variable is made a member of the problem, and then something is done with it. -/
theorem newMember_leaves {name : String} {lb ub obj : Float} {kind : VarKind}
    {next : VarId → Run α} {Q : α → Draft → Prop} {E : ModelError → Draft → Prop}
    (hnext : ∀ v e, Ends (next v) (d.withEngine e) Q E)
    (hrejected : ∀ cause e, E cause (d.withEngine e)) :
    Ends (onEngine (Engine.newVar name lb ub obj kind) >>= fun v =>
      onEngine (Engine.enrolOrRelease v) >>= fun _ => next v) d Q E := by
  rw [ends_bind]
  refine (onEngine_leaves _ d).mono (fun v d₁ hd₁ => ?_) fun cause d₁ hd₁ => ?_
  · obtain ⟨e, rfl⟩ := hd₁
    rw [ends_bind]
    refine (onEngine_leaves _ _).mono (fun _ d₂ hd₂ => ?_) fun cause d₂ hd₂ => ?_
    · obtain ⟨e, rfl⟩ := hd₂
      exact hnext v e
    · obtain ⟨e, rfl⟩ := hd₂
      exact hrejected cause e
  · obtain ⟨e, rfl⟩ := hd₁
    exact hrejected cause e

theorem addLiteral_leaves (name : String) (ub : Float) (literal : Literal) (d : Draft) :
    Ends (addLiteral name ub literal) d
      (fun i d' => i = ⟨d.registry.bools.size⟩ ∧ ∃ v e, d' = { d.withEngine e with
        registry := d.registry.withBool ⟨v, literal, .positive none, name⟩ })
      fun _ d' => ∃ e, d' = d.withEngine e :=
  newMember_leaves (fun v e => ⟨rfl, v, e, rfl⟩) fun _ e => ⟨e, rfl⟩

/-- The literal of a new boolean variable stays made if the slot for it cannot be made. -/
theorem addBool_leaves (name : String) (d : Draft) :
    Ends (addBool name) d
      (fun i d' => i = ⟨d.registry.bools.size⟩ ∧ ∃ v e, d' =
        { registry := d.registry.withBool ⟨v, d.solvers.domains.freshLiteral, .positive none, name⟩
          solvers := ⟨e, { d.solvers.domains with bools := d.solvers.domains.bools + 1 }⟩ })
      fun _ d' => ∃ e, d' = { d with
        solvers := ⟨e, { d.solvers.domains with bools := d.solvers.domains.bools + 1 }⟩ } := by
  have hnew : onDomains Domains.newBool d = .ok d.solvers.domains.freshLiteral
      { d with solvers.domains.bools := d.solvers.domains.bools + 1 } := rfl
  unfold addBool
  rw [ends_bind]
  exact ends_of_accepted hnew (addLiteral_leaves _ _ _ _)

theorem negate_leaves {v : BoolId} {slot : BoolSlot} (hv : d.registry.bool? v = some slot)
    (hpolarity : slot.polarity = .positive none) :
    Ends (negate v) d (fun i d' => i = ⟨d.registry.bools.size⟩ ∧ ∃ n e, d' = { d.withEngine e with
        registry := d.registry.withNegation v
          ⟨n, slot.literal.negate, .negated v, "~" ++ slot.name⟩ })
      fun _ d' => ∃ e, d' = d.withEngine e := by
  have hget : getBool v d = .ok slot d := by simp only [getBool, hv]
  unfold negate
  rw [ends_bind]
  refine ends_of_accepted hget ?_
  simp only [hpolarity]
  rw [ends_bind]
  refine (onEngine_leaves _ d).mono (fun n d' hd' => ?_) fun _ _ hd' => hd'
  obtain ⟨e, rfl⟩ := hd'
  exact ⟨rfl, n, e, rfl⟩

/-- The literal of the store stays made if the slot for it cannot be made. -/
theorem addIndicator_leaves (x : IntId) (slot : IntSlot) (value : Int) (d : Draft) :
    Ends (addIndicator x slot value) d
      (fun b d' => b = ⟨d.registry.bools.size⟩ ∧ ∃ literal s handle e,
        Domains.equal slot.domain value d.solvers.domains = .ok literal s ∧
        d' = ⟨d.registry.withIndicatorSlot x slot value handle literal, ⟨e, s⟩⟩)
      fun _ d' => ∃ e s, d.solvers.domains.Grows s ∧ d' = { d with solvers := ⟨e, s⟩ } := by
  unfold addIndicator
  rw [ends_bind]
  have hequal := Domains.equal_ends d.solvers.domains slot.domain value
  cases hrun : Domains.equal slot.domain value d.solvers.domains with
  | error cause s =>
      have hreject : onDomains (Domains.equal slot.domain value) d =
          .error (.engine cause) { d with solvers.domains := s } := by
        simp only [onDomains, onSolvers, Solvers.onDomains, onPart, hrun, id]
      exact ends_of_rejected hreject ⟨_, s, hequal.rejected hrun, rfl⟩
  | ok literal s =>
      have hgrows : d.solvers.domains.Grows s := hequal.accepted hrun
      have hanswer : onDomains (Domains.equal slot.domain value) d =
          .ok literal { d with solvers.domains := s } := by
        simp only [onDomains, onSolvers, Solvers.onDomains, onPart, hrun]
      refine ends_of_accepted hanswer ?_
      rw [ends_bind]
      refine (addLiteral_leaves _ _ _ _).mono (fun b d₁ hd₁ => ?_) fun _ d₁ hd₁ => ?_
      · obtain ⟨rfl, v, e, rfl⟩ := hd₁
        exact ends_of_accepted (noteIndicator x slot value _ _) ⟨rfl, literal, s, v, e, rfl, rfl⟩
      · obtain ⟨e, rfl⟩ := hd₁
        exact ⟨e, s, hgrows, rfl⟩

/-! ## Every call -/

theorem addBool_grows (name : String) (d : Draft) :
    Ends (addBool name) d (fun _ d' => d.Grows d') fun _ d' => d.Grows d' := by
  refine (addBool_leaves name d).mono (fun _ d' hd' => ?_) fun _ d' hd' => ?_
  · obtain ⟨-, v, e, rfl⟩ := hd'
    exact .bool e v name
  · obtain ⟨e, rfl⟩ := hd'
    exact .store e .bool

theorem negate_grows (v : BoolId) (d : Draft) :
    Ends (negate v) d (fun _ d' => d.Grows d') fun _ d' => d.Grows d' := by
  refine ends_negate (.refl d) (fun _ => .refl d) fun slot hv hpolarity => ?_
  refine (negate_leaves hv hpolarity).mono (fun _ d' hd' => ?_) fun _ d' hd' => ?_
  · obtain ⟨-, n, e, rfl⟩ := hd'
    exact .negation e n hv hpolarity
  · obtain ⟨e, rfl⟩ := hd'
    exact .store e .refl

theorem addInt_grows (lb ub : Int) (name : String) (d : Draft) :
    Ends (addInt lb ub name) d (fun _ d' => d.Grows d') fun _ d' => d.Grows d' := by
  unfold addInt
  rw [ends_bind]
  refine (requireBounds_ends d lb ub).mono (fun _ d' hd' => ?_) fun _ d' hd' => hd'.1 ▸ .refl d
  obtain ⟨rfl, hle⟩ := hd'
  rw [ends_bind]
  exact ends_of_accepted (onDomains_newInt hle d')
    (newMember_leaves (fun v e => .int e (some v) name hle) fun _ e => .store e (.int lb ub))

theorem addVirtualInt_grows (lb ub : Int) (name : String) (d : Draft) :
    Ends (addVirtualInt lb ub name) d (fun _ d' => d.Grows d') fun _ d' => d.Grows d' := by
  unfold addVirtualInt
  rw [ends_bind]
  refine (requireBounds_ends d lb ub).mono (fun _ d' hd' => ?_) fun _ d' hd' => hd'.1 ▸ .refl d
  obtain ⟨rfl, hle⟩ := hd'
  rw [ends_bind]
  exact ends_of_accepted (onDomains_newInt hle d') (.int _ none name hle)

theorem indicator_grows (x : IntId) (value : Int) (d : Draft) :
    Ends (indicator x value) d (fun _ d' => d.Grows d') fun _ d' => d.Grows d' := by
  refine ends_indicator (.refl d) (fun _ _ _ => .refl d) (fun _ _ _ _ => .refl d)
    (fun _ _ _ _ _ _ _ => .refl d) fun slot hx hlower hupper hfree hnone => ?_
  refine (addIndicator_leaves x slot value d).mono (fun b d' hd' => ?_) fun _ d' hd' => ?_
  · obtain ⟨-, literal, s, handle, e, hequal, rfl⟩ := hd'
    exact .indicator e handle hx hlower hupper hfree hnone hequal
  · obtain ⟨e, s, hgrows, rfl⟩ := hd'
    exact .store e hgrows

theorem perform_grows (c : Call) (d : Draft) :
    Ends (perform c) d (fun _ d' => d.Grows d') fun _ d' => d.Grows d' := by
  cases c with
  | bool name => exact ends_map.mpr (addBool_grows name d)
  | negate v => exact ends_map.mpr (negate_grows v d)
  | int lb ub name => exact ends_map.mpr (addInt_grows lb ub name d)
  | virtualInt lb ub name => exact ends_map.mpr (addVirtualInt_grows lb ub name d)
  | indicator v value => exact ends_map.mpr (indicator_grows v value d)

end Draft

end JointModel
