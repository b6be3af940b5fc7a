import JointModel.Proofs.Formulation.Rehandling
import JointModel.Proofs.Registry.Agreement
import JointModel.Proofs.Registry.Continuity

/-!
# Registries that advance

A registry advances by calls that add slots, by whatever happens in its solvers, and by forks:
one may go on with the registry of a working copy instead (`Draft.Advance`).  The copy has
other handles, so what was true of a handle is lost.  All that a slot says about the model
persists (`Registry.Persists`): its literal, its name, its partner once it has one, the bounds
of an integer slot and every indicator that was noted.

## Strategy

* A copy has the slots of its source up to handles (`Formulation.fork_rehandled`), and slots
  added later leave the old ones alone (`Draft.Grows.continues`).  Nothing else touches a
  registry (`Draft.Advance.cases_registry`).
* These together give one lemma for a step (`Draft.Advance.persists`) and, by induction, one for
  a run (`Draft.Advances.persists`).
-/

namespace JointModel

open Effect

namespace Registry

variable {r r' r'' : Registry} {v : BoolId} {slot : BoolSlot}

/-! ## What persists -/

/-- What the slots of `r` say about the model, those of `r'` say. -/
structure Persists (r r' : Registry) : Prop where
  bools : ∀ {v slot}, r.bool? v = some slot → ∃ slot', r'.bool? v = some slot' ∧
    slot'.literal = slot.literal ∧ slot'.name = slot.name ∧
    (slot'.polarity = slot.polarity ∨
      slot.polarity = .positive none ∧ ∃ n, slot'.polarity = .positive (some n))
  ints : ∀ {x slot}, r.int? x = some slot → ∃ slot', r'.int? x = some slot' ∧
    slot'.domain = slot.domain ∧ slot'.lb = slot.lb ∧ slot'.ub = slot.ub ∧ slot'.name = slot.name
  indicators : ∀ {x value b}, r.indicator? x value = some b → r'.indicator? x value = some b

theorem Persists.refl (r : Registry) : r.Persists r where
  bools hv := ⟨_, hv, rfl, rfl, .inl rfl⟩
  ints hx := ⟨_, hx, rfl, rfl, rfl, rfl⟩
  indicators := id

theorem Persists.trans (h : r.Persists r') (h' : r'.Persists r'') : r.Persists r'' where
  bools hv := by
    obtain ⟨slot', hv', hliteral, hname, hpolarity⟩ := h.bools hv
    obtain ⟨slot'', hv'', hliteral', hname', hpolarity'⟩ := h'.bools hv'
    refine ⟨slot'', hv'', hliteral'.trans hliteral, hname'.trans hname, ?_⟩
    rcases hpolarity with hsame | ⟨hnone, n, hsome⟩
    · rw [← hsame]
      exact hpolarity'
    · rcases hpolarity' with hsame' | ⟨hnone', -⟩
      · exact .inr ⟨hnone, n, hsame'.trans hsome⟩
      · cases hsome.symm.trans hnone'
  ints hx := by
    obtain ⟨slot', hx', hdomain, hlb, hub, hname⟩ := h.ints hx
    obtain ⟨slot'', hx'', hdomain', hlb', hub', hname'⟩ := h'.ints hx'
    exact ⟨slot'', hx'', hdomain'.trans hdomain, hlb'.trans hlb, hub'.trans hub,
      hname'.trans hname⟩
  indicators hb := h'.indicators (h.indicators hb)

theorem Continues.persists (h : r.Continues r') : r.Persists r' where
  bools hv := by
    obtain ⟨slot', hv', -, hliteral, hname, hsame | ⟨hnone, n, hsome, -⟩⟩ := h.bools hv
    · exact ⟨slot', hv', hliteral, hname, .inl hsame⟩
    · exact ⟨slot', hv', hliteral, hname, .inr ⟨hnone, n, hsome⟩⟩
  ints hx := by
    obtain ⟨slot', hx', -, hdomain, hlb, hub, hname, -⟩ := h.ints hx
    exact ⟨slot', hx', hdomain, hlb, hub, hname⟩
  indicators := h.indicator?

theorem Rehandled.persists (h : r.Rehandled r') : r.Persists r' where
  bools hv := by
    obtain ⟨handle, hv'⟩ := h.bool? hv
    exact ⟨_, hv', rfl, rfl, .inl rfl⟩
  ints hx := by
    obtain ⟨handle, hx'⟩ := h.int? hx
    exact ⟨_, hx', rfl, rfl, rfl, rfl⟩
  indicators {x value b} hb := (h.indicator? x value).trans hb

/-- A slot that has its partner or is one keeps its polarity. -/
theorem Persists.polarity (h : r.Persists r') (hv : r.bool? v = some slot)
    (hpolarity : slot.polarity ≠ .positive none) :
    ∃ slot', r'.bool? v = some slot' ∧ slot'.literal = slot.literal ∧ slot'.name = slot.name ∧
      slot'.polarity = slot.polarity := by
  obtain ⟨slot', hv', hliteral, hname, hsame | ⟨hnone, -⟩⟩ := h.bools hv
  · exact ⟨slot', hv', hliteral, hname, hsame⟩
  · exact absurd hnone hpolarity

theorem Persists.positive (h : r.Persists r') (hv : r.bool? v = some slot)
    (hpositive : slot.isPositive) : ∃ slot', r'.bool? v = some slot' ∧ slot'.isPositive ∧
      slot'.name = slot.name := by
  obtain ⟨slot', hv', -, hname, hsame | ⟨-, n, hsome⟩⟩ := h.bools hv
  · refine ⟨slot', hv', ?_, hname⟩
    rw [BoolSlot.isPositive, BoolSlot.negates?, hsame]
    exact hpositive
  · exact ⟨slot', hv', BoolSlot.isPositive_of_positive hsome, hname⟩

theorem Seeded.persists (h : r.Seeded) (hpersists : r.Persists r') : r'.Seeded := by
  obtain ⟨⟨f, hf⟩, t, ht⟩ := h
  obtain ⟨⟨f', literal, polarity, name⟩, hf', hliteral, hname, hpolarity⟩ :=
    hpersists.polarity hf (by simp)
  obtain ⟨⟨t', literal', polarity', name'⟩, ht', hliteral', hname', hpolarity'⟩ :=
    hpersists.polarity ht (by simp)
  dsimp only at hliteral hname hpolarity hliteral' hname' hpolarity'
  subst hliteral hname hpolarity hliteral' hname' hpolarity'
  exact ⟨⟨f', hf'⟩, t', ht'⟩

end Registry

/-! ## Steps and runs -/

namespace Draft

variable {d d' d'' : Draft}

/-- What can happen to a registry and its solvers: a step in place, or a fork after which one
goes on with the copy. -/
inductive Advance : Draft → Draft → Prop
  | step {d d' : Draft} : Step d d' → Advance d d'
  | fork {d : Draft} {bridge : Option ConsId} {objective : IntId} {copy : Formulation}
      {e : Engine} : Formulation.fork ⟨d.registry, bridge, objective⟩ d.solvers.engine = .ok copy e →
      Advance d ⟨copy.registry, ⟨e, d.solvers.domains⟩⟩

/-- The drafts that a draft can turn into. -/
def Advances : Draft → Draft → Prop := Relation.ReflTransGen Advance

/-- Only calls add slots. -/
theorem Advance.cases_registry (h : Advance d d') :
    (∃ c, d' = after (perform c) d) ∨ d.registry.Rehandled d'.registry := by
  cases h with
  | step hstep =>
      cases hstep with
      | add c => exact .inl ⟨c, rfl⟩
      | store c => exact .inr ⟨fun _ => rfl, fun _ => rfl, rfl⟩
      | engine e => exact .inr ⟨fun _ => rfl, fun _ => rfl, rfl⟩
  | fork hfork => exact .inr (Formulation.fork_rehandled hfork)

theorem Advance.persists (h : Advance d d') : d.registry.Persists d'.registry := by
  obtain ⟨c, rfl⟩ | hrehandled := h.cases_registry
  · exact (perform_grows c d).after.continues.persists
  · exact hrehandled.persists

theorem Advances.persists (h : Advances d d') : d.registry.Persists d'.registry := by
  induction h with
  | refl => exact .refl _
  | tail _ hstep ih => exact ih.trans hstep.persists

theorem Advance.paired (h : Advance d d') (hd : d.registry.Paired) : d'.registry.Paired := by
  obtain ⟨c, rfl⟩ | hrehandled := h.cases_registry
  · exact (keeps_paired_perform c).after hd
  · exact hd.rehandled hrehandled

theorem Advances.paired (h : Advances d d') (hd : d.registry.Paired) : d'.registry.Paired := by
  induction h with
  | refl => exact hd
  | tail _ hstep ih => exact hstep.paired ih

theorem Advances.seeded (h : Advances d d') (hd : d.registry.Seeded) : d'.registry.Seeded :=
  hd.persists h.persists

/-- The draft on a working copy of its registry, if that can be forked. -/
def onCopy (d : Draft) : Draft :=
  match Formulation.fork { registry := d.registry } d.solvers.engine with
  | .ok copy e => ⟨copy.registry, ⟨e, d.solvers.domains⟩⟩
  | .error _ e => d.withEngine e

theorem advances_onCopy (d : Draft) : Advances d d.onCopy := by
  unfold onCopy
  cases hfork : Formulation.fork { registry := d.registry } d.solvers.engine with
  | ok copy e => exact .single (.fork hfork)
  | error cause e => exact .single (.step (.engine d e))

/-- Once the constants are made, the slots are paired and the constants are in place. -/
theorem addConstants_seeded {solvers : Solvers} (hconstants : addConstants ⟨{}, solvers⟩ = .ok () d) :
    d.registry.Paired ∧ d.registry.Seeded :=
  ⟨(keeps_paired_addConstants _ Registry.paired_empty).accepted hconstants,
    ((addConstants_agreeing solvers).accepted hconstants).2⟩

end Draft

end JointModel
