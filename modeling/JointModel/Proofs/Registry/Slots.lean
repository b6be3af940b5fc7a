import JointModel.Proofs.Formulation.Settling
import JointModel.Proofs.Domains
import JointModel.Proofs.Registry.Tables

/-!
# What slots say about the solvers

A slot is one variable in two solvers, so what it says has to agree with both.

* The literals of partners are opposite (`Opposed`).
* An integer slot has the bounds of its domain in the CP store, and no two slots share a
  domain (`Bounded`).
* The session keeps an entry with the name, the kind and the bounds of the slot
  (`Described`).

Slots are never changed afterwards, but for a negation that a positive slot gets
(`Extends`).  So the constants stay where they are (`Seeded`).
-/

namespace JointModel

/-- What an entry says about the variable. -/
structure VarInfo.Describes (entry : VarInfo) (name : String) (lb ub : Float) (kind : VarKind) :
    Prop where
  name : entry.name = name
  lb : entry.lb = lb
  ub : entry.ub = ub
  kind : entry.kind = kind

namespace Registry

variable {r r' r'' : Registry} {v : BoolId} {slot new : BoolSlot} {int : IntSlot} {x y : IntId}
  {s t : Domains} {session session' : Session}

/-! ## Slots stay -/

/-- Every boolean slot stays, but for a negation that it gets. -/
structure Extends (r r' : Registry) : Prop where
  slot : ∀ {v slot}, r.bool? v = some slot → ∃ polarity,
    r'.bool? v = some { slot with polarity } ∧
      (slot.polarity ≠ .positive none → polarity = slot.polarity)

theorem Extends.refl (r : Registry) : r.Extends r := ⟨fun hv => ⟨_, hv, fun _ => rfl⟩⟩

theorem Extends.trans (h : r.Extends r') (h' : r'.Extends r'') : r.Extends r'' := by
  refine ⟨fun {v slot} hv => ?_⟩
  obtain ⟨polarity, hv', hsame⟩ := h.slot hv
  obtain ⟨polarity', hv'', hsame'⟩ := h'.slot hv'
  refine ⟨polarity', hv'', fun hpolarity => ?_⟩
  have hfirst := hsame hpolarity
  exact (hsame' (by rwa [hfirst])).trans hfirst

theorem Extends.of_bools (hbools : r'.bools = r.bools) : r.Extends r' := by
  refine ⟨fun {v slot} hv => ⟨slot.polarity, ?_, fun _ => rfl⟩⟩
  rw [bool?, hbools]
  exact hv

theorem extends_withBool (r : Registry) (new : BoolSlot) : r.Extends (r.withBool new) :=
  ⟨fun hv => ⟨_, bool?_withBool_of_some hv new, fun _ => rfl⟩⟩

theorem extends_withNegation (hv : r.bool? v = some slot) (hslot : slot.polarity = .positive none)
    (new : BoolSlot) : r.Extends (r.withNegation v new) := by
  refine ⟨fun {w old} hw => ?_⟩
  have hne : w.index ≠ r.bools.size := Nat.ne_of_lt (lt_size_of_bool? hw)
  by_cases hwv : w = v
  · subst hwv
    rw [hv] at hw
    cases hw
    refine ⟨.positive (some ⟨r.bools.size⟩), ?_, fun hpolarity => absurd hslot hpolarity⟩
    rw [bool?_withNegation hv, if_neg hne, if_pos rfl]
  · refine ⟨old.polarity, ?_, fun _ => rfl⟩
    rw [bool?_withNegation hv, if_neg hne, if_neg hwv, hw]

/-- The constants have the first two slots. -/
structure Seeded (r : Registry) : Prop where
  falsity : ∃ handle, r.bool? .falsity =
    some ⟨handle, Domains.falseLiteral, .positive (some .truth), "false"⟩
  truth : ∃ handle, r.bool? .truth =
    some ⟨handle, Domains.trueLiteral, .negated .falsity, "~false"⟩

theorem Seeded.extends (h : r.Seeded) (hextends : r.Extends r') : r'.Seeded := by
  obtain ⟨⟨f, hf⟩, t, ht⟩ := h
  obtain ⟨polarity, hf', hsame⟩ := hextends.slot hf
  obtain ⟨polarity', ht', hsame'⟩ := hextends.slot ht
  rw [hsame (by simp)] at hf'
  rw [hsame' (by simp)] at ht'
  exact ⟨⟨f, hf'⟩, t, ht'⟩

theorem Seeded.size_ne (h : r.Seeded) : (⟨r.bools.size⟩ : BoolId) ≠ .falsity := by
  obtain ⟨handle, hf⟩ := h.falsity
  intro hsize
  have hlt := lt_size_of_bool? hf
  rw [← hsize] at hlt
  exact Nat.lt_irrefl _ hlt

/-! ## Literals of partners -/

/-- The literals of partners are opposite. -/
structure Opposed (r : Registry) : Prop where
  literal : ∀ {v slot p partner}, r.bool? v = some slot → slot.polarity = .negated p →
    r.bool? p = some partner → slot.literal = partner.literal.negate

theorem opposed_empty : Opposed {} := ⟨fun hv => by simp [bool?] at hv⟩

theorem Opposed.of_bools (h : r.Opposed) (hbools : r'.bools = r.bools) : r'.Opposed := by
  have hbool? : r'.bool? = r.bool? := by
    funext v
    rw [bool?, bool?, hbools]
  exact ⟨fun hv hp hpartner => h.literal (hbool? ▸ hv) hp (hbool? ▸ hpartner)⟩

theorem Opposed.withBool (h : r.Opposed) (hpaired : r.Paired)
    (hnew : new.polarity = .positive none) : (r.withBool new).Opposed := by
  refine ⟨fun {v slot p partner} hv hp hpartner => ?_⟩
  rw [bool?_withBool] at hv
  split at hv
  · cases hv
    rw [hnew] at hp
    cases hp
  · obtain ⟨-, old, hold, -⟩ := hpaired.negated hv hp
    rw [bool?_withBool_of_some hold] at hpartner
    cases hpartner
    exact h.literal hv hp hold

theorem Opposed.withNegation (h : r.Opposed) (hpaired : r.Paired) (hv : r.bool? v = some slot)
    (hslot : slot.polarity = .positive none) (hnew : new.polarity = .negated v)
    (hliteral : new.literal = slot.literal.negate) : (r.withNegation v new).Opposed := by
  have hextends := extends_withNegation hv hslot new
  refine ⟨fun {w other p partner} hw hp hpartner => ?_⟩
  rw [bool?_withNegation hv] at hw
  split at hw
  · cases hw
    rw [hnew] at hp
    cases hp
    obtain ⟨polarity, hv', -⟩ := hextends.slot hv
    rw [hv'] at hpartner
    cases hpartner
    exact hliteral
  · split at hw
    · cases hw
      cases hp
    · obtain ⟨-, old, hold, -⟩ := hpaired.negated hw hp
      obtain ⟨polarity, hold', -⟩ := hextends.slot hold
      rw [hold'] at hpartner
      cases hpartner
      have hliteral := h.literal hw hp hold
      exact hliteral

/-! ## Domains of integer slots -/

/-- Every integer slot has a domain of its own, with its bounds. -/
structure Bounded (r : Registry) (s : Domains) : Prop where
  bounds : ∀ {x slot}, r.int? x = some slot →
    s.bounds? slot.domain = some (slot.lb, slot.ub) ∧ slot.lb ≤ slot.ub
  domains : ∀ {x y slot other}, r.int? x = some slot → r.int? y = some other →
    slot.domain = other.domain → x = y

theorem bounded_empty (s : Domains) : Bounded {} s :=
  ⟨fun hx => by simp [int?] at hx, fun hx => by simp [int?] at hx⟩

/-- Tables do not matter, and the store may grow. -/
theorem Bounded.mono (h : r.Bounded s) (hgrows : s.Grows t)
    (hints : ∀ y, ∃ change : IntSlot → Option Nat,
      r'.int? y = (r.int? y).map fun slot => { slot with table := change slot }) :
    r'.Bounded t := by
  have old : ∀ {y new}, r'.int? y = some new → ∃ slot, r.int? y = some slot ∧
      new.domain = slot.domain ∧ new.lb = slot.lb ∧ new.ub = slot.ub := by
    intro y new hy
    obtain ⟨change, hchange⟩ := hints y
    rw [hchange] at hy
    obtain ⟨slot, hslot, rfl⟩ := Option.map_eq_some_iff.mp hy
    exact ⟨slot, hslot, rfl, rfl, rfl⟩
  constructor
  · intro x new hx
    obtain ⟨slot, hslot, hdomain, hlb, hub⟩ := old hx
    obtain ⟨hbounds, hle⟩ := h.bounds hslot
    rw [hdomain, hlb, hub]
    exact ⟨hgrows.bounds? hbounds, hle⟩
  · intro x y new new' hx hy hsame
    obtain ⟨slot, hslot, hdomain, -⟩ := old hx
    obtain ⟨other, hother, hdomain', -⟩ := old hy
    exact h.domains hslot hother (hdomain.symm.trans (hsame.trans hdomain'))

theorem int?_of_ints (hints : r'.ints = r.ints) (y : IntId) : ∃ change : IntSlot → Option Nat,
    r'.int? y = (r.int? y).map fun slot => { slot with table := change slot } := by
  refine ⟨IntSlot.table, ?_⟩
  rw [int?, int?, hints]
  cases r.ints[y.index]? <;> rfl

/-- A new integer slot with a new domain. -/
theorem Bounded.withInt (h : r.Bounded s) (hbounds : int.lb ≤ int.ub)
    (hdomain : int.domain = ⟨s.bounds.size⟩) :
    (r.withInt int).Bounded { s with bounds := s.bounds.push (int.lb, int.ub) } := by
  have hgrows : s.Grows { s with bounds := s.bounds.push (int.lb, int.ub) } := .int _ _
  have hold : ∀ {y slot}, r.int? y = some slot → slot.domain ≠ int.domain := by
    intro y slot hy hsame
    have hlt : slot.domain.index < s.bounds.size :=
      (Array.getElem?_eq_some_iff.mp (h.bounds hy).1).1
    rw [hsame, hdomain] at hlt
    exact Nat.lt_irrefl _ hlt
  constructor
  · intro x slot hx
    rw [int?_withInt] at hx
    split at hx
    · cases hx
      rw [hdomain]
      exact ⟨Array.getElem?_push_size, hbounds⟩
    · exact ⟨hgrows.bounds? (h.bounds hx).1, (h.bounds hx).2⟩
  · intro x y slot other hx hy hsame
    rw [int?_withInt] at hx hy
    split at hx <;> split at hy
    · next hx' hy' => exact IntId.index_inj.mp (hx'.trans hy'.symm)
    · cases hx
      exact absurd hsame.symm (hold hy)
    · cases hy
      exact absurd hsame (hold hx)
    · exact h.domains hx hy hsame

/-! ## Entries of the session -/

/-- The session keeps an entry that describes the slot behind every handle that is owned. -/
structure Described (r : Registry) (s : Session) : Prop where
  bools : ∀ {v slot}, r.bool? v = some slot → slot.isPositive → ∃ entry,
    s.var? slot.handle = some entry ∧
      entry.Describes slot.name 0.0 (if v = .falsity then 0.0 else 1.0) .binary
  ints : ∀ {x slot w}, r.int? x = some slot → slot.handle = some w → ∃ entry,
    s.var? w = some entry ∧
      entry.Describes slot.name (Float.ofInt slot.lb) (Float.ofInt slot.ub) .integer

theorem described_empty (s : Session) : Described {} s :=
  ⟨fun hv => by simp [bool?] at hv, fun hx => by simp [int?] at hx⟩

theorem mem_ownedVars_of_bool? (hv : r.bool? v = some slot) (hpositive : slot.isPositive) :
    slot.handle ∈ r.ownedVars :=
  mem_ownedVars.mpr (.inl ⟨slot, mem_of_bool? hv, hpositive, rfl⟩)

theorem mem_ownedVars_of_int? (hx : r.int? x = some int) {w : VarId} (hw : int.handle = some w) :
    w ∈ r.ownedVars := by
  refine mem_ownedVars.mpr (.inr (List.mem_filterMap.mpr ⟨int, ?_, hw⟩))
  rw [int?] at hx
  exact Array.mem_toList_iff.mpr (Array.mem_of_getElem? hx)

/-- Entries may be tied to aliases. -/
theorem Described.of_carries (h : r.Described session)
    (hcarries : ∀ {w entry}, w ∈ r.ownedVars → session.var? w = some entry →
      ∃ link, session'.var? w = some { entry with link }) : r.Described session' := by
  constructor
  · intro v slot hv hpositive
    obtain ⟨entry, hentry, hdescribes⟩ := h.bools hv hpositive
    obtain ⟨link, hlink⟩ := hcarries (mem_ownedVars_of_bool? hv hpositive) hentry
    exact ⟨_, hlink, hdescribes.name, hdescribes.lb, hdescribes.ub, hdescribes.kind⟩
  · intro x slot w hx hw
    obtain ⟨entry, hentry, hdescribes⟩ := h.ints hx hw
    obtain ⟨link, hlink⟩ := hcarries (mem_ownedVars_of_int? hx hw) hentry
    exact ⟨_, hlink, hdescribes.name, hdescribes.lb, hdescribes.ub, hdescribes.kind⟩

/-- Slots that say what older slots said. -/
theorem Described.of_slots (h : r.Described session)
    (hbools : ∀ {v new}, r'.bool? v = some new → new.isPositive → ∃ slot, r.bool? v = some slot ∧
      slot.isPositive ∧ new.handle = slot.handle ∧ new.name = slot.name)
    (hints : ∀ y, ∃ change : IntSlot → Option Nat,
      r'.int? y = (r.int? y).map fun slot => { slot with table := change slot }) :
    r'.Described session := by
  constructor
  · intro v new hv hpositive
    obtain ⟨slot, hslot, hpositive, hhandle, hname⟩ := hbools hv hpositive
    rw [hhandle, hname]
    exact h.bools hslot hpositive
  · intro x new w hx hw
    obtain ⟨change, hchange⟩ := hints x
    rw [hchange] at hx
    obtain ⟨slot, hslot, rfl⟩ := Option.map_eq_some_iff.mp hx
    have hentry := h.ints hslot hw
    exact hentry

/-- A slot and its entry are new. -/
theorem Described.withBool (h : r.Described session) {entry : VarInfo}
    (hnew : session.var? new.handle = some entry) (hdescribes : entry.Describes new.name 0.0
      (if (⟨r.bools.size⟩ : BoolId) = .falsity then 0.0 else 1.0) .binary) :
    (r.withBool new).Described session := by
  refine ⟨fun {v slot} hv hpositive => ?_, h.ints⟩
  rw [bool?_withBool] at hv
  split at hv
  · next hsize =>
      cases hv
      rw [show v = ⟨r.bools.size⟩ from BoolId.index_inj.mp hsize]
      exact ⟨entry, hnew, hdescribes⟩
  · exact h.bools hv hpositive

theorem Described.withInt (h : r.Described session)
    (hnew : ∀ w, int.handle = some w → ∃ entry, session.var? w = some entry ∧
      entry.Describes int.name (Float.ofInt int.lb) (Float.ofInt int.ub) .integer) :
    (r.withInt int).Described session := by
  refine ⟨h.bools, fun {x slot w} hx hw => ?_⟩
  rw [int?_withInt] at hx
  split at hx
  · cases hx
    exact hnew w hw
  · exact h.ints hx hw

/-- Only positive slots count. -/
theorem bool?_withNegation_positive (hv : r.bool? v = some slot)
    (hslot : slot.polarity = .positive none) (hnew : new.polarity = .negated v) {w : BoolId}
    {other : BoolSlot} (hw : (r.withNegation v new).bool? w = some other)
    (hpositive : other.isPositive) : ∃ old, r.bool? w = some old ∧ old.isPositive ∧
      other.handle = old.handle ∧ other.literal = old.literal ∧ other.name = old.name := by
  rw [bool?_withNegation hv] at hw
  split at hw
  · cases hw
    rw [BoolSlot.isPositive_of_negated hnew] at hpositive
    cases hpositive
  · split at hw
    · next hwv =>
        cases hw
        rw [hwv]
        exact ⟨slot, hv, BoolSlot.isPositive_of_positive hslot, rfl, rfl, rfl⟩
    · exact ⟨other, hw, hpositive, rfl, rfl, rfl⟩

end Registry

end JointModel
