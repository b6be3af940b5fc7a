import JointModel.Proofs.Model.Reports
import JointModel.Proofs.Registry.Advances

/-!
# Values of slots

The outcome keeps the best solution as a strategy recorded it.  Nothing compares it with the
slots: it has as many values as the strategy pleased, it may contradict the constants, and
slots may be added after it was stored.

What is read from it is lawful for boolean slots all the same (`Live.boolValue_lawful`): a
negation has the opposite value, and the constants have their own.  Integers are read by their
index alone, so for them this takes a solution that is in order (`Live.intValue_lawful_iff`).

## Strategy

* Setting a model up pairs the slots and puts the constants in place, on whatever solvers, and
  the steps of a run only add slots (`Registry.Grounded`).
* A boolean value is looked up at positive slots only.  So the laws determine the value of
  every slot (`Registry.LawfulBools.agree`), and what is stored elsewhere does not matter.
-/

namespace JointModel

open Effect

/-- The partner of a slot, if it has one. -/
def BoolSlot.partner? (slot : BoolSlot) : Option BoolId :=
  match slot.polarity with
  | .positive negation => negation
  | .negated positive => some positive

/-! ## Slots that are paired and grounded -/

namespace Registry

variable {r r' : Registry} {v w : BoolId} {slot : BoolSlot}

/-- The slots are paired, and the three constants are in place. -/
structure Grounded (r : Registry) : Prop where
  paired : r.Paired
  seeded : r.Seeded
  zero : ∃ slot, r.int? .zero = some slot ∧ slot.lb = 0 ∧ slot.ub = 0

theorem Grounded.persists (h : r.Grounded) (hpaired : r'.Paired) (hpersists : r.Persists r') :
    r'.Grounded := by
  obtain ⟨slot, hzero, hlb, hub⟩ := h.zero
  obtain ⟨slot', hzero', -, hlb', hub', -⟩ := hpersists.ints hzero
  exact ⟨hpaired, h.seeded.persists hpersists, slot', hzero', hlb'.trans hlb, hub'.trans hub⟩

/-- Partners name each other, and one of them is positive. -/
theorem Paired.partner (h : r.Paired) (hv : r.bool? v = some slot) (hw : slot.partner? = some w) :
    ∃ partner, r.bool? w = some partner ∧ partner.partner? = some v ∧
      partner.isPositive = !slot.isPositive := by
  cases hpolarity : slot.polarity with
  | positive n =>
      simp only [BoolSlot.partner?, hpolarity] at hw
      subst hw
      obtain ⟨negated, hn, hback⟩ := h.positive hv hpolarity
      refine ⟨negated, hn, by simp only [BoolSlot.partner?, hback], ?_⟩
      rw [BoolSlot.isPositive_of_negated hback, BoolSlot.isPositive_of_positive hpolarity]
      rfl
  | negated p =>
      simp only [BoolSlot.partner?, hpolarity, Option.some.injEq] at hw
      subst hw
      obtain ⟨-, partner, hp, hback⟩ := h.negated hv hpolarity
      refine ⟨partner, hp, by simp only [BoolSlot.partner?, hback], ?_⟩
      rw [BoolSlot.isPositive_of_positive hback, BoolSlot.isPositive_of_negated hpolarity]
      rfl

end Registry

namespace Draft

/-- A new integer slot has the bounds that were asked for. -/
theorem addInt_leaves (lb ub : Int) (name : String) (d : Draft) :
    Ends (addInt lb ub name) d
      (fun _ d' => ∃ slot, d'.registry = d.registry.withInt slot ∧ slot.lb = lb ∧ slot.ub = ub)
      fun _ _ => True := by
  unfold addInt
  rw [ends_bind]
  refine (requireBounds_ends d lb ub).mono (fun _ d' hd' => ?_) fun _ _ _ => trivial
  obtain ⟨rfl, hle⟩ := hd'
  rw [ends_bind]
  exact ends_of_accepted (onDomains_newInt hle d')
    (newMember_leaves (fun v e => ⟨_, rfl, rfl, rfl⟩) fun _ _ => trivial)

/-- Whatever the solvers are, the constants are grounded once they are made. -/
theorem addConstants_grounded (solvers : Solvers) :
    Ends addConstants ⟨{}, solvers⟩ (fun _ d => d.registry.Grounded) fun _ _ => True := by
  have hzero : Ends addConstants ⟨{}, solvers⟩
      (fun _ d => ∃ slot, d.registry.int? .zero = some slot ∧ slot.lb = 0 ∧ slot.ub = 0)
      fun _ _ => True := by
    unfold addConstants
    rw [ends_bind]
    refine (addLiteral_leaves "false" 0.0 Domains.falseLiteral _).mono (fun i d₁ hd₁ => ?_)
      fun _ _ _ => trivial
    obtain ⟨rfl, v, e, rfl⟩ := hd₁
    rw [ends_bind]
    refine (negate_leaves (v := .falsity) rfl rfl).mono (fun _ d₂ hd₂ => ?_) fun _ _ _ => trivial
    obtain ⟨-, n, e', rfl⟩ := hd₂
    rw [ends_bind]
    refine (addInt_leaves 0 0 "zero" _).mono (fun _ d₃ hd₃ => ?_) fun _ _ _ => trivial
    obtain ⟨slot, hregistry, hlb, hub⟩ := hd₃
    have hslot : d₃.registry.int? .zero = some slot := by
      rw [hregistry]
      rfl
    exact ⟨slot, hslot, hlb, hub⟩
  have hends := (keeps_paired_addConstants ⟨{}, solvers⟩ Registry.paired_empty).and
    ((addConstants_agreeing solvers).and hzero)
  exact hends.mono (fun _ _ h => ⟨h.1, h.2.1.2, h.2.2⟩) fun _ _ _ => trivial

theorem grounded_perform (c : Call) : Keeps (fun d => d.registry.Grounded) (perform c) := by
  intro d hd
  have hends := (keeps_paired_perform c d hd.paired).and (perform_grows c d)
  exact hends.mono (fun _ _ h => hd.persists h.1 h.2.continues.persists)
    fun _ _ h => hd.persists h.1 h.2.continues.persists

end Draft

/-! ## Models that were created -/

namespace Model

variable {config : Config} {solvers t : Solvers} {m : Model}

/-- A model starts with slots that are grounded. -/
theorem create_grounded (hcreate : create config solvers = .ok m t) :
    m.formulation.registry.Grounded := by
  refine create_of_phases (P := fun s => s.model.formulation.registry = {})
    (Q := fun s => s.model.formulation.registry.Grounded) rfl (fun _ => keeps_onPart _ fun _ _ hs => hs)
    (fun s hs => ?_) ?_ (fun _ => keeps_onPart _ fun _ _ hs => hs) hcreate
  · rw [Live.onRegistry, ends_onPart, hs]
    exact Draft.addConstants_grounded s.solvers
  · have hbridge : Keeps (fun a : Formulation.Assembly => a.formulation.registry.Grounded)
        Formulation.Assembly.addBridge :=
      Keeps.bind (keeps_onPart _ fun _ _ ha => ha) fun _ =>
        Keeps.bind (keeps_onPart _ fun _ _ ha => ha) fun _ =>
          Keeps.bind (fun _ ha => ha) fun _ => keeps_onPart _ fun _ _ ha => ha
    exact fun s hs => ends_onPart.mpr (hbridge ⟨s.solvers.engine, s.model.formulation⟩ hs)

end Model

namespace Live

variable {config : Config} {solvers t : Solvers} {m : Model} {start s : Live}
  {forked : List Formulation}

theorem LeadsTo.grounded (h : LeadsTo start s forked)
    (hstart : start.model.formulation.registry.Grounded) :
    s.model.formulation.registry.Grounded := by
  induction h with
  | start => exact hstart
  | @add s forked c _ ih =>
      have hkeeps : Keeps (fun s : Live => s.model.formulation.registry.Grounded)
          (onRegistry (Draft.perform c)) := fun s hs =>
        ends_onPart.mpr (Draft.grounded_perform c ⟨s.model.formulation.registry, s.solvers⟩ hs)
      exact hkeeps.after ih
  | register | setLimit | solve => assumption

end Live

/-! ## Booleans -/

namespace Registry

variable {r : Registry} {bools bools' : Array Bool} {value value' : BoolId → Option Bool}

/-- What the values of boolean slots obey while `bools` is stored. -/
structure LawfulBools (r : Registry) (bools : Array Bool) (value : BoolId → Option Bool) :
    Prop where
  /-- Partners have opposite values, or neither has one. -/
  partner : ∀ {v slot w}, r.bool? v = some slot → slot.partner? = some w →
    value w = (value v).map (!·)
  falsity : value .falsity = if bools.isEmpty then none else some false
  truth : value .truth = if bools.isEmpty then none else some true
  positive : ∀ {v slot}, r.bool? v = some slot → slot.isPositive → v ≠ .falsity →
    value v = bools[v.index]?
  unknown : ∀ {v}, r.bool? v = none → value v = none

/-- As many values are stored, and those of the positive slots but the constant are the same. -/
structure Coincide (r : Registry) (bools bools' : Array Bool) : Prop where
  size : bools'.size = bools.size
  positive : ∀ {v slot}, r.bool? v = some slot → slot.isPositive → v ≠ .falsity →
    bools'[v.index]? = bools[v.index]?

/-- The laws leave no choice. -/
theorem LawfulBools.agree (h : r.LawfulBools bools value) (h' : r.LawfulBools bools' value')
    (hpaired : r.Paired) (hsame : r.Coincide bools bools') : value' = value := by
  have hempty : bools'.isEmpty = bools.isEmpty := by
    simp only [Array.isEmpty, hsame.size]
  have hpositive : ∀ {v slot}, r.bool? v = some slot → slot.isPositive → value' v = value v := by
    intro v slot hv hslot
    by_cases hfalsity : v = .falsity
    · rw [hfalsity, h.falsity, h'.falsity, hempty]
    · rw [h.positive hv hslot hfalsity, h'.positive hv hslot hfalsity,
        hsame.positive hv hslot hfalsity]
  funext v
  cases hv : r.bool? v with
  | none => rw [h.unknown hv, h'.unknown hv]
  | some slot =>
      cases hpolarity : slot.polarity with
      | positive n => exact hpositive hv (BoolSlot.isPositive_of_positive hpolarity)
      | negated p =>
          have hname : slot.partner? = some p := by simp only [BoolSlot.partner?, hpolarity]
          obtain ⟨partner, hp, hback, hopposite⟩ := hpaired.partner hv hname
          rw [BoolSlot.isPositive_of_negated hpolarity] at hopposite
          rw [h.partner hp hback, h'.partner hp hback, hpositive hp hopposite]

end Registry

namespace Model

variable {m : Model} {v p : BoolId} {slot : BoolSlot}

/-- The model with another solution in its outcome. -/
def storing (m : Model) (solution : Solution) : Model :=
  { m with outcome.solution := solution }

theorem storing_self (m : Model) : m.storing m.outcome.solution = m := rfl

/-- The value that counts for a positive slot. -/
def stored? (m : Model) (v : BoolId) : Option Bool :=
  if v = .falsity then m.outcome.solution.bools[0]?.map fun _ => false
  else m.outcome.solution.bools[v.index]?

theorem boolValue_of_slot (hv : m.formulation.registry.bool? v = some slot) :
    m.boolValue v = (m.stored? (slot.negates?.getD v)).map (· != slot.negates?.isSome) := by
  simp only [boolValue, hv, stored?, Option.bind_eq_bind, Option.bind_some]
  split <;> exact (Option.map_eq_bind ..).symm

theorem boolValue_of_positive (hv : m.formulation.registry.bool? v = some slot)
    (hpositive : slot.isPositive) : m.boolValue v = m.stored? v := by
  have hnone : slot.negates? = none := Option.isNone_iff_eq_none.mp hpositive
  simp [boolValue_of_slot hv, hnone]

theorem boolValue_of_negated (hv : m.formulation.registry.bool? v = some slot)
    (hpolarity : slot.polarity = .negated p) : m.boolValue v = (m.stored? p).map (!·) := by
  have hsome : slot.negates? = some p := by simp only [BoolSlot.negates?, hpolarity]
  simp [boolValue_of_slot hv, hsome]

/-- Partners have opposite values, whichever of them is positive. -/
theorem boolValue_partner (hpaired : m.formulation.registry.Paired)
    (hv : m.formulation.registry.bool? v = some slot) {w : BoolId} (hw : slot.partner? = some w) :
    m.boolValue w = (m.boolValue v).map (!·) := by
  cases hpolarity : slot.polarity with
  | positive n =>
      simp only [BoolSlot.partner?, hpolarity] at hw
      subst hw
      obtain ⟨negated, hw, hback⟩ := hpaired.positive hv hpolarity
      rw [boolValue_of_negated hw hback,
        boolValue_of_positive hv (BoolSlot.isPositive_of_positive hpolarity)]
  | negated p =>
      simp only [BoolSlot.partner?, hpolarity, Option.some.injEq] at hw
      subst hw
      obtain ⟨-, positive, hw, hback⟩ := hpaired.negated hv hpolarity
      rw [boolValue_of_negated hv hpolarity,
        boolValue_of_positive hw (BoolSlot.isPositive_of_positive hback)]
      simp [Function.comp_def]

/-- In a model whose slots are grounded, whatever is stored, the values obey the laws. -/
theorem lawfulBools (hgrounded : m.formulation.registry.Grounded) :
    m.formulation.registry.LawfulBools m.outcome.solution.bools m.boolValue := by
  obtain ⟨f, hfalsity⟩ := hgrounded.seeded.falsity
  have hvalue : m.boolValue .falsity =
      if m.outcome.solution.bools.isEmpty then none else some false := by
    rw [boolValue_of_positive hfalsity rfl, stored?, if_pos rfl]
    cases hsize : m.outcome.solution.bools[0]? with
    | none =>
        have hempty : m.outcome.solution.bools = #[] := by simpa using hsize
        simp [hempty]
    | some b =>
        have hne : m.outcome.solution.bools ≠ #[] := by
          intro hempty
          simp [hempty] at hsize
        simp [hne]
  have hpartner : ∀ {v slot w}, m.formulation.registry.bool? v = some slot →
      slot.partner? = some w → m.boolValue w = (m.boolValue v).map (!·) :=
    fun hv hw => boolValue_partner hgrounded.paired hv hw
  constructor
  case partner => exact hpartner
  case falsity => exact hvalue
  case truth =>
    rw [hpartner hfalsity rfl, hvalue]
    split <;> rfl
  case positive =>
    intro v slot hv hpositive hne
    rw [boolValue_of_positive hv hpositive, stored?, if_neg hne]
  case unknown =>
    intro v hv
    simp [boolValue, hv]

end Model

/-! ## An example -/

/-- A strategy that contradicts the constants and records more values than there are slots. -/
def carelessScript : Script := [.record 1.0 ⟨#[true, false, true, true, true], #[5, 7]⟩]

/-- A boolean variable is added and the strategy is registered. -/
def carelessStart (s : Live) : Live :=
  let s := after (Live.onRegistry (Draft.perform (.bool "x"))) s
  { s with model.strategies := s.model.strategies.set .mip carelessScript }

/-- The variable is negated after the strategy has recorded its values. -/
def carelessRun (s : Live) : Live :=
  after (Live.onRegistry (Draft.perform (.negate ⟨2⟩)))
    ((carelessStart s).solve carelessScript .zero 1.0 0).2

/-- After such a run the solution contradicts the constants, it is longer than the registry, and
a slot is there that was not when the solution was stored. -/
theorem exists_careless : ∃ m t s forked, Model.create { method := .mip } {} = .ok m t ∧
    Live.LeadsTo ⟨m, t⟩ s forked ∧
    s.model.outcome.solution = ⟨#[true, false, true, true, true], #[5, 7]⟩ ∧
    (∃ slot, s.model.formulation.registry.bool? ⟨2⟩ = some slot ∧ slot.partner? = some ⟨3⟩ ∧
      slot.isPositive = true) ∧
    s.model.formulation.registry.ints.size = 1 := by
  have hrun : (match Model.create { method := .mip } {} with
      | .ok m t =>
        let s := carelessStart ⟨m, t⟩
        let u := (carelessRun ⟨m, t⟩).model
        decide (s.model.config.method = .mip) &&
          (s.model.formulation.registry.int? .zero).isSome &&
          decide (u.outcome.solution = ⟨#[true, false, true, true, true], #[5, 7]⟩) &&
          (u.formulation.registry.bool? ⟨2⟩).any (fun slot =>
            decide (slot.partner? = some ⟨3⟩) && slot.isPositive) &&
          decide (u.formulation.registry.ints.size = 1)
      | .error _ _ => false) = true := by decide +kernel
  cases hcreate : Model.create { method := .mip } {} with
  | error failure t => simp [hcreate] at hrun
  | ok m t =>
      simp only [hcreate, Bool.and_eq_true, decide_eq_true_eq, Option.any_eq_true] at hrun
      obtain ⟨⟨⟨⟨hmethod, hint⟩, hsolution⟩, slot, hslot, hpartner, hpositive⟩, hints⟩ := hrun
      have hlimit : (1.0 : Float) > 0.0 := by decide
      have hdispatch : (carelessStart ⟨m, t⟩).model.dispatch .zero 1.0 = .ok carelessScript :=
        Live.dispatch_of_slot hlimit hint (by rw [hmethod]; rfl)
      have hstart : Live.LeadsTo ⟨m, t⟩ ⟨m, t⟩ [] := .start
      have hregister := (hstart.add (.bool "x")).register .mip carelessScript
      have hsolve := hregister.solve 0 hdispatch (List.prefix_refl _)
      exact ⟨m, t, _, _, rfl, hsolve.add (.negate ⟨2⟩), hsolution, ⟨slot, hslot, hpartner, hpositive⟩,
        hints⟩

namespace Live

variable {config : Config} {solvers t : Solvers} {m : Model} {s : Live} {forked : List Formulation}

/-- In every state of a run, whatever solution is stored, the values of boolean slots obey the
laws.  So they do not depend on what is stored for negated slots and for the constants. -/
theorem boolValue_lawful (hcreate : Model.create config solvers = .ok m t)
    (hrun : LeadsTo ⟨m, t⟩ s forked) (solution : Solution) :
    s.model.formulation.registry.LawfulBools solution.bools
        (s.model.storing solution).boolValue ∧
      ∀ {solution'}, s.model.formulation.registry.Coincide solution.bools solution'.bools →
        (s.model.storing solution').boolValue = (s.model.storing solution).boolValue := by
  have hgrounded := hrun.grounded (Model.create_grounded hcreate)
  have hlawful : ∀ solution, s.model.formulation.registry.LawfulBools solution.bools
      (s.model.storing solution).boolValue := fun solution =>
    Model.lawfulBools (m := s.model.storing solution) hgrounded
  exact ⟨hlawful solution, fun {solution'} hsame =>
    (hlawful solution).agree (hlawful solution') hgrounded.paired hsame⟩

theorem boolValue_lawful_careless : ∃ m t s forked,
    Model.create { method := .mip } {} = .ok m t ∧ LeadsTo ⟨m, t⟩ s forked ∧
    s.model.outcome.solution.bools = #[true, false, true, true, true] ∧
    s.model.boolValue .falsity = some false ∧ s.model.boolValue .truth = some true ∧
    s.model.boolValue ⟨2⟩ = some true ∧ s.model.boolValue ⟨3⟩ = some false := by
  obtain ⟨m, t, s, forked, hcreate, hrun, hsolution, ⟨slot, hslot, hpartner, hpositive⟩, -⟩ :=
    exists_careless
  obtain ⟨hlawful, -⟩ := boolValue_lawful hcreate hrun s.model.outcome.solution
  rw [Model.storing_self, hsolution] at hlawful
  have hvalue : s.model.boolValue ⟨2⟩ = some true := hlawful.positive hslot hpositive (by decide)
  have hnegation := hlawful.partner hslot hpartner
  rw [hvalue] at hnegation
  exact ⟨m, t, s, forked, hcreate, hrun, by rw [hsolution], hlawful.falsity, hlawful.truth, hvalue,
    hnegation⟩

end Live

/-! ## Integers -/

/-- The discipline of booleans, for integers: only slots have values, and the constant has its
own in every solution that has any. -/
structure Registry.LawfulInts (r : Registry) (ints : Array Int) (value : IntId → Option Int) :
    Prop where
  unknown : ∀ {x}, r.int? x = none → value x = none
  zero : ints.isEmpty = false → value .zero = some 0

theorem Registry.int?_eq_none_iff {r : Registry} {x : IntId} :
    r.int? x = none ↔ r.ints.size ≤ x.index := Array.getElem?_eq_none_iff

namespace Live

variable {config : Config} {solvers t : Solvers} {m : Model} {s : Live} {forked : List Formulation}

/-- In every state of a run the integers obey the discipline if and only if the solution stores
no more integers than there are slots, and zero for the constant if anything.  Else an index
without a slot has a value, or the constant has one that its bounds exclude. -/
theorem intValue_lawful_iff (hcreate : Model.create config solvers = .ok m t)
    (hrun : LeadsTo ⟨m, t⟩ s forked) (solution : Solution) :
    (∃ slot, s.model.formulation.registry.int? .zero = some slot ∧ slot.lb = 0 ∧ slot.ub = 0) ∧
    (s.model.formulation.registry.LawfulInts solution.ints
        (s.model.storing solution).intValue ↔
      solution.ints.size ≤ s.model.formulation.registry.ints.size ∧
        ∀ value, solution.ints[0]? = some value → value = 0) ∧
    (∀ x, s.model.formulation.registry.int? x = none →
      ((s.model.storing solution).intValue x ≠ none ↔ x.index < solution.ints.size)) ∧
    (s.model.storing solution).intValue .zero = solution.ints[0]? := by
  have hgrounded := hrun.grounded (Model.create_grounded hcreate)
  refine ⟨hgrounded.zero, ⟨fun hlawful => ⟨?_, fun value hvalue => ?_⟩, fun ⟨hsize, hzero⟩ => ?_⟩,
    fun x _ => ?_, rfl⟩
  · -- the first index without a slot must have no value
    have hnone := hlawful.unknown (x := ⟨s.model.formulation.registry.ints.size⟩)
      (Registry.int?_eq_none_iff.mpr (Nat.le_refl _))
    exact Array.getElem?_eq_none_iff.mp hnone
  · have hne : solution.ints.isEmpty = false := by
      by_contra hempty
      simp_all
    exact Option.some.inj (hvalue.symm.trans (hlawful.zero hne))
  · refine ⟨fun {x} hx => ?_, fun hne => ?_⟩
    · exact Array.getElem?_eq_none (Nat.le_trans hsize (Registry.int?_eq_none_iff.mp hx))
    · have hlt : 0 < solution.ints.size := by
        simpa [Nat.pos_iff_ne_zero] using hne
      show solution.ints[0]? = some 0
      rw [Array.getElem?_eq_getElem hlt, hzero _ (Array.getElem?_eq_getElem hlt)]
  · show solution.ints[x.index]? ≠ none ↔ _
    rw [Ne, Array.getElem?_eq_none_iff, Nat.not_le]

theorem intValue_lawful_iff_careless : ∃ m t s forked,
    Model.create { method := .mip } {} = .ok m t ∧ LeadsTo ⟨m, t⟩ s forked ∧
    s.model.formulation.registry.int? ⟨1⟩ = none ∧ s.model.intValue ⟨1⟩ = some 7 ∧
    s.model.intValue .zero = some 5 ∧
    ¬ s.model.formulation.registry.LawfulInts s.model.outcome.solution.ints s.model.intValue := by
  obtain ⟨m, t, s, forked, hcreate, hrun, hsolution, -, hints⟩ := exists_careless
  obtain ⟨-, hiff, hvalue, hzero⟩ := intValue_lawful_iff hcreate hrun s.model.outcome.solution
  rw [Model.storing_self, hsolution] at hzero
  have hnone : s.model.formulation.registry.int? ⟨1⟩ = none :=
    Registry.int?_eq_none_iff.mpr (Nat.le_of_eq hints)
  refine ⟨m, t, s, forked, hcreate, hrun, hnone, ?_, hzero, fun hlawful => ?_⟩
  · rw [Model.intValue, hsolution]
    rfl
  · have hsize := (hiff.mp hlawful).1
    rw [hsolution, hints] at hsize
    exact absurd hsize (by decide)

end Live

end JointModel
