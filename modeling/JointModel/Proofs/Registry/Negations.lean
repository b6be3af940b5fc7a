import JointModel.Proofs.Registry.Advances
import JointModel.Proofs.Registry.Materialization

/-!
# Negation is a stable involution

The negation of a positive slot is made when it is asked for first, arbitrarily far behind
the slot itself, and the link is kept on both sides (`Registry.Linked`).  From then on either
slot is answered for the other, without a word to the solvers, and neither is ever answered
for a third one (`Draft.negate_involution`).

## Strategy

A link that is there stays, since a slot that has a partner keeps its polarity in all that a
registry can turn into (`Registry.Linked.persists`).  So it is enough that the answer of a
call is linked right after the call: either it was before, because slots are paired, or the
call has just made it.
-/

namespace JointModel

open Effect

namespace Registry

variable {r r' : Registry} {v w u p n : BoolId}

/-- The slot `n` is the negation of the positive slot `p`, and both know. -/
structure Linked (r : Registry) (p n : BoolId) : Prop where
  positive : ∃ slot, r.bool? p = some slot ∧ slot.polarity = .positive (some n)
  negated : ∃ slot, r.bool? n = some slot ∧ slot.polarity = .negated p

/-- The slots are linked, in one direction or the other. -/
def Partners (r : Registry) (v w : BoolId) : Prop := r.Linked v w ∨ r.Linked w v

theorem Partners.symm (h : r.Partners v w) : r.Partners w v := Or.symm h

theorem Linked.persists (h : r.Linked p n) (hpersists : r.Persists r') : r'.Linked p n := by
  obtain ⟨⟨slot, hp, hpositive⟩, negated, hn, hnegated⟩ := h
  obtain ⟨slot', hp', -, -, hsame⟩ := hpersists.polarity hp (by simp [hpositive])
  obtain ⟨negated', hn', -, -, hsame'⟩ := hpersists.polarity hn (by simp [hnegated])
  exact ⟨⟨slot', hp', hsame.trans hpositive⟩, negated', hn', hsame'.trans hnegated⟩

theorem Partners.persists (h : r.Partners v w) (hpersists : r.Persists r') : r'.Partners v w :=
  h.imp (fun h => h.persists hpersists) fun h => h.persists hpersists

/-- One of two linked slots is positive and the other is not. -/
theorem Linked.opposite (h : r.Linked p n) : ∃ slot negated, r.bool? p = some slot ∧
    r.bool? n = some negated ∧ slot.isPositive = true ∧ negated.isPositive = false := by
  obtain ⟨⟨slot, hp, hpositive⟩, negated, hn, hnegated⟩ := h
  exact ⟨slot, negated, hp, hn, BoolSlot.isPositive_of_positive hpositive,
    BoolSlot.isPositive_of_negated hnegated⟩

theorem Partners.opposite (h : r.Partners v w) : ∃ slot other, r.bool? v = some slot ∧
    r.bool? w = some other ∧ slot.isPositive = !other.isPositive := by
  rcases h with hlinked | hlinked
  · obtain ⟨slot, negated, hv, hw, hpositive, hnegated⟩ := hlinked.opposite
    exact ⟨slot, negated, hv, hw, by rw [hpositive, hnegated]; rfl⟩
  · obtain ⟨slot, negated, hw, hv, hpositive, hnegated⟩ := hlinked.opposite
    exact ⟨negated, slot, hv, hw, by rw [hpositive, hnegated]; rfl⟩

theorem Partners.ne (h : r.Partners v w) : w ≠ v := by
  rintro rfl
  obtain ⟨slot, other, hv, hw, hopposite⟩ := h.opposite
  cases hv.symm.trans hw
  cases hslot : slot.isPositive <;> simp [hslot] at hopposite

/-- A slot has one partner. -/
theorem Partners.unique (h : r.Partners v w) (h' : r.Partners u w) : u = v := by
  -- the polarity of `w` names its partner
  have named : ∀ {x}, r.Partners x w → ∃ slot, r.bool? w = some slot ∧
      (slot.polarity = .negated x ∨ slot.polarity = .positive (some x)) := by
    rintro x (hlinked | hlinked)
    · obtain ⟨slot, hw, hnegated⟩ := hlinked.negated
      exact ⟨slot, hw, .inl hnegated⟩
    · obtain ⟨slot, hw, hpositive⟩ := hlinked.positive
      exact ⟨slot, hw, .inr hpositive⟩
  obtain ⟨slot, hw, hv⟩ := named h
  obtain ⟨slot', hw', hu⟩ := named h'
  cases hw.symm.trans hw'
  rcases hv with hv | hv <;> rcases hu with hu | hu <;> cases hu.symm.trans hv <;> rfl

theorem Seeded.partners (h : r.Seeded) : r.Partners .falsity .truth := by
  obtain ⟨⟨f, hf⟩, t, ht⟩ := h
  exact .inl ⟨⟨_, hf, rfl⟩, _, ht, rfl⟩

end Registry

namespace Draft

variable {d d' d₀ : Draft} {v w : BoolId} {slot : BoolSlot}

/-! ## One call -/

theorem negate_of_positive (hv : d.registry.bool? v = some slot)
    (hpolarity : slot.polarity = .positive (some w)) : negate v d = .ok w d := by
  simp only [negate, bind_apply, getBool, hv, hpolarity, pure_apply]

theorem negate_of_negated (hv : d.registry.bool? v = some slot)
    (hpolarity : slot.polarity = .negated w) : negate v d = .ok w d := by
  simp only [negate, bind_apply, getBool, hv, hpolarity, pure_apply]

/-- A slot that has a partner is negated without any change. -/
theorem negate_of_partners (h : d.registry.Partners v w) : negate v d = .ok w d := by
  rcases h with hlinked | hlinked
  · obtain ⟨slot, hv, hpositive⟩ := hlinked.positive
    exact negate_of_positive hv hpositive
  · obtain ⟨slot, hv, hnegated⟩ := hlinked.negated
    exact negate_of_negated hv hnegated

/-- A new negation is linked to its slot. -/
theorem linked_withNegation {r : Registry} {new : BoolSlot} (hv : r.bool? v = some slot)
    (hnew : new.polarity = .negated v) :
    (r.withNegation v new).Linked v ⟨r.bools.size⟩ := by
  have hne : v.index ≠ r.bools.size := Nat.ne_of_lt (Registry.lt_size_of_bool? hv)
  constructor
  · refine ⟨{ slot with polarity := .positive (some ⟨r.bools.size⟩) }, ?_, rfl⟩
    rw [Registry.bool?_withNegation hv, if_neg hne, if_pos rfl]
  · refine ⟨new, ?_, hnew⟩
    rw [Registry.bool?_withNegation hv, if_pos rfl]

/-- The answer of a call is linked to the slot afterwards. -/
theorem partners_of_negate (hpaired : d.registry.Paired) (hrun : negate v d = .ok w d') :
    d'.registry.Partners v w := by
  cases hv : d.registry.bool? v with
  | none =>
      have hunknown : negate v d = .error (.unknownBool v) d := by
        simp only [negate, bind_apply, getBool, hv]
      cases hunknown.symm.trans hrun
  | some slot =>
      cases hpolarity : slot.polarity with
      | negated p =>
          cases (negate_of_negated hv hpolarity).symm.trans hrun
          obtain ⟨-, partner, hpartner, hback⟩ := hpaired.negated hv hpolarity
          exact .inr ⟨⟨partner, hpartner, hback⟩, slot, hv, hpolarity⟩
      | positive m =>
          cases m with
          | some m =>
              cases (negate_of_positive hv hpolarity).symm.trans hrun
              obtain ⟨negated, hnegated, hback⟩ := hpaired.positive hv hpolarity
              exact .inl ⟨⟨slot, hv, hpolarity⟩, negated, hnegated, hback⟩
          | none =>
              obtain ⟨rfl, n, e, rfl⟩ := (negate_leaves hv hpolarity).accepted hrun
              exact .inl (linked_withNegation hv rfl)

/-! ## Ever after -/

/-- What a call answers is the partner of its slot for good: in all that the registry can turn
into, on whatever engine, either slot is answered for the other without any change, one of
them is positive and the other is not, and no third slot has either of them as its negation.
The constants are partners from the start. -/
theorem negate_involution {solvers : Solvers} (hconstants : addConstants ⟨{}, solvers⟩ = .ok () d₀)
    (hreach : Advances d₀ d) :
    negate .falsity d = .ok .truth d ∧ negate .truth d = .ok .falsity d ∧
    ∀ {v w d₁}, negate v d = .ok w d₁ → w ≠ v ∧ ∀ {d₂}, Advances d₁ d₂ →
      (∃ slot other, d₂.registry.bool? v = some slot ∧ d₂.registry.bool? w = some other ∧
        slot.isPositive = !other.isPositive) ∧
      negate v d₂ = .ok w d₂ ∧ negate w d₂ = .ok v d₂ ∧
      ∀ {u d₃}, negate u d₂ = .ok w d₃ → u = v := by
  obtain ⟨hpaired₀, hseeded₀⟩ := addConstants_seeded hconstants
  have hpaired := hreach.paired hpaired₀
  have hconstant := (hreach.seeded hseeded₀).partners
  refine ⟨negate_of_partners hconstant, negate_of_partners hconstant.symm, fun {v w d₁} hrun => ?_⟩
  have hpartners := partners_of_negate hpaired hrun
  have hpaired₁ := (keeps_paired_negate v d hpaired).accepted hrun
  refine ⟨hpartners.ne, fun {d₂} hlater => ?_⟩
  have hpartners₂ := hpartners.persists hlater.persists
  refine ⟨hpartners₂.opposite, negate_of_partners hpartners₂,
    negate_of_partners hpartners₂.symm, fun {u d₃} hrun' => ?_⟩
  have hanswer := partners_of_negate (hlater.paired hpaired₁) hrun'
  have hgrows := (negate_grows u d₂).accepted hrun'
  exact (hpartners₂.persists hgrows.continues.persists).unique hanswer

/-- A boolean variable with its negation, and one without. -/
def linkedDraft : Draft :=
  let d₁ := after (perform (.bool "x")) constantsDraft
  after (negate ⟨2⟩) (after (perform (.bool "y")) d₁)

/-- One goes on with a working copy, and no block is left for it. -/
def spentDraft : Draft :=
  let d := linkedDraft.onCopy
  d.withEngine { d.solvers.engine with session := d.solvers.session.setLimit (some 0) }

theorem advances_spentDraft : Advances linkedDraft spentDraft :=
  (advances_onCopy linkedDraft).tail (.step (.engine _ _))

theorem negate_involution_spent :
    (addConstants ⟨{}, plainSolvers⟩ = .ok () constantsDraft ∧
      spentDraft.registry.handle? ⟨2⟩ ≠ linkedDraft.registry.handle? ⟨2⟩ ∧
      spentDraft.solvers.session.limit = some spentDraft.solvers.session.allocations) ∧
    negate ⟨2⟩ spentDraft = .ok ⟨4⟩ spentDraft ∧ negate ⟨4⟩ spentDraft = .ok ⟨2⟩ spentDraft := by
  have hconstants : addConstants ⟨{}, plainSolvers⟩ = .ok () constantsDraft := by rfl
  have hreach : Advances constantsDraft
      (after (perform (.bool "y")) (after (perform (.bool "x")) constantsDraft)) :=
    .tail (.single (.step (.add _ (.bool "x")))) (.step (.add _ (.bool "y")))
  have hrun : negate ⟨2⟩ (after (perform (.bool "y")) (after (perform (.bool "x")) constantsDraft))
      = .ok ⟨4⟩ linkedDraft := by rfl
  obtain ⟨-, -, hstable⟩ := negate_involution hconstants hreach
  obtain ⟨-, hlater⟩ := hstable hrun
  obtain ⟨-, hforth, hback, -⟩ := hlater advances_spentDraft
  exact ⟨⟨hconstants, by decide +kernel, by decide +kernel⟩, hforth, hback⟩

end Draft

end JointModel
