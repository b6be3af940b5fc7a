import JointModel.Proofs.Registry.Pairing
import JointModel.Session.Basic

/-!
# What a registry holds in a session

Behind every handle of a registry a session keeps an entry.  How often that entry
is used and how it is tied to its negation can be read off the registry: these are
its `holdings`, if every handle that it owns is used `uses` times.

They are stated for the registries that occur while a copy is put together
(`Aligned`): slots are copied in the order of their indices, so a positive slot can
know a negation that is not there yet.
-/

namespace JointModel

/-- What the holder of a handle knows about the entry behind it. -/
structure Stake where
  uses : Nat
  link : Link
deriving DecidableEq

/-- The stake that an entry grants. -/
def VarInfo.stake (entry : VarInfo) : Stake := ⟨entry.uses, entry.link⟩

/-- The entry is one of its own, not an alias. -/
def Link.isPositive : Link → Bool
  | .positive _ => true
  | .negation _ => false

theorem BoolSlot.isPositive_of_positive {slot : BoolSlot} {m : Option BoolId}
    (h : slot.polarity = .positive m) : slot.isPositive = true := by
  simp [isPositive, negates?, h]

theorem BoolSlot.isPositive_of_negated {slot : BoolSlot} {p : BoolId}
    (h : slot.polarity = .negated p) : slot.isPositive = false := by
  simp [isPositive, negates?, h]

namespace Registry

variable {r r' : Registry} {v n p : VarId} {slot new partner : BoolSlot} {stake : Stake}
  {uses other : Nat}

/-! ## Parts of paired registries -/

/-- Every negated slot has its partner before it, and every slot that a positive
slot knows as its negation is one, as far as it is there. -/
structure Aligned (r : Registry) : Prop where
  negated : ∀ {v slot p}, r.bool? v = some slot → slot.polarity = .negated p →
    p.index < v.index ∧ ∃ partner, r.bool? p = some partner ∧
      partner.polarity = .positive (some v)
  positive : ∀ {v slot n}, r.bool? v = some slot → slot.polarity = .positive (some n) →
    v.index < n.index ∧ ∀ {other}, r.bool? n = some other → other.polarity = .negated v
  unique : ∀ {v w slot other n}, r.bool? v = some slot → r.bool? w = some other →
    slot.polarity = .positive (some n) → other.polarity = .positive (some n) → v = w

theorem Paired.aligned (h : r.Paired) : r.Aligned where
  negated := h.negated
  positive hv hn := by
    obtain ⟨negated, hnegated, hback⟩ := h.positive hv hn
    refine ⟨(h.negated hnegated hback).1, fun hother => ?_⟩
    rw [hnegated] at hother
    cases hother
    exact hback
  unique hv hw hn hn' := by
    obtain ⟨negated, hnegated, hback⟩ := h.positive hv hn
    obtain ⟨negated', hnegated', hback'⟩ := h.positive hw hn'
    rw [hnegated] at hnegated'
    cases hnegated'
    rw [hback] at hback'
    cases hback'
    rfl

/-- The first slots of an aligned registry are aligned, whatever their handles
are. -/
theorem Aligned.of_prefix (h : r.Aligned) (hfirst : ∀ v : BoolId, v.index < r'.bools.size →
    (r'.bool? v).map BoolSlot.polarity = (r.bool? v).map BoolSlot.polarity) : r'.Aligned := by
  have original : ∀ {v slot}, r'.bool? v = some slot →
      ∃ source, r.bool? v = some source ∧ source.polarity = slot.polarity := by
    intro v slot hv
    have hmap := hfirst v (lt_size_of_bool? hv)
    rw [hv, Option.map_some] at hmap
    exact Option.map_eq_some_iff.mp hmap.symm
  have copied : ∀ {v source}, r.bool? v = some source → v.index < r'.bools.size →
      ∃ slot, r'.bool? v = some slot ∧ slot.polarity = source.polarity := by
    intro v source hv hlt
    have hmap := hfirst v hlt
    rw [hv, Option.map_some] at hmap
    exact Option.map_eq_some_iff.mp hmap
  constructor
  · intro v slot p hv hp
    obtain ⟨source, hsource, hsame⟩ := original hv
    obtain ⟨hlower, partner, hpartner, hback⟩ := h.negated hsource (hsame.trans hp)
    obtain ⟨slot', hslot', hsame'⟩ := copied hpartner (Nat.lt_trans hlower (lt_size_of_bool? hv))
    exact ⟨hlower, slot', hslot', hsame'.trans hback⟩
  · intro v slot n hv hn
    obtain ⟨source, hsource, hsame⟩ := original hv
    obtain ⟨hlater, hback⟩ := h.positive hsource (hsame.trans hn)
    refine ⟨hlater, fun {other} hother => ?_⟩
    obtain ⟨source', hsource', hsame'⟩ := original hother
    exact hsame'.symm.trans (hback hsource')
  · intro v w slot other n hv hw hn hn'
    obtain ⟨source, hsource, hsame⟩ := original hv
    obtain ⟨source', hsource', hsame'⟩ := original hw
    exact h.unique hsource hsource' (hsame.trans hn) (hsame'.trans hn')

/-! ## Holdings -/

/-- The handles of the integer slots that are not virtual. -/
def intVars (r : Registry) : List VarId := r.ints.toList.filterMap IntSlot.handle

/-- All handles of a registry, the aliases included. -/
def vars (r : Registry) : List VarId := r.bools.toList.map BoolSlot.handle ++ r.intVars

/-- The stake of a boolean slot, if handles that are owned are used `uses`
times. -/
def boolStake (r : Registry) (uses : Nat) (slot : BoolSlot) : Stake :=
  ⟨if slot.isPositive then uses else 0, r.link slot⟩

/-- Every handle of a registry with its stake. -/
def holdings (r : Registry) (uses : Nat) : List (VarId × Stake) :=
  r.bools.toList.map (fun slot => (slot.handle, r.boolStake uses slot)) ++
    r.intVars.map fun v => (v, ⟨uses, .positive none⟩)

theorem map_fst_holdings (r : Registry) (uses : Nat) : (r.holdings uses).map Prod.fst = r.vars := by
  simp [holdings, vars, Function.comp_def]

theorem mem_holdings : (v, stake) ∈ r.holdings uses ↔
    (∃ slot ∈ r.bools.toList, slot.handle = v ∧ r.boolStake uses slot = stake) ∨
      v ∈ r.intVars ∧ stake = ⟨uses, .positive none⟩ := by
  simp only [holdings, List.mem_append, List.mem_map, Prod.mk.injEq]
  constructor
  · rintro (h | ⟨w, hw, rfl, rfl⟩)
    · exact .inl h
    · exact .inr ⟨hw, rfl⟩
  · rintro (h | ⟨hv, rfl⟩)
    · exact .inl h
    · exact .inr ⟨v, hv, rfl, rfl⟩

theorem exists_holding (h : v ∈ r.vars) (uses : Nat) : ∃ stake, (v, stake) ∈ r.holdings uses := by
  rw [← map_fst_holdings r uses] at h
  obtain ⟨⟨w, stake⟩, hmem, rfl⟩ := List.mem_map.mp h
  exact ⟨stake, hmem⟩

theorem ownedVars_sublist (r : Registry) : r.ownedVars.Sublist r.vars :=
  (List.filter_sublist.map BoolSlot.handle).append (List.Sublist.refl _)

theorem mem_ownedVars : v ∈ r.ownedVars ↔
    (∃ slot ∈ r.bools.toList, slot.isPositive ∧ slot.handle = v) ∨ v ∈ r.intVars := by
  simp [ownedVars, positives, intVars, and_assoc]

theorem isPositive_of_link {m : Option VarId} (h : r.link slot = .positive m) :
    slot.isPositive = true := by
  cases hpolarity : slot.polarity with
  | positive n => exact BoolSlot.isPositive_of_positive hpolarity
  | negated q => simp [link, hpolarity] at h

theorem not_isPositive_of_link (h : r.link slot = .negation p) : slot.isPositive = false := by
  cases hpolarity : slot.polarity with
  | positive n => simp [link, hpolarity] at h
  | negated q => exact BoolSlot.isPositive_of_negated hpolarity

theorem mem_of_bool? {i : BoolId} (h : r.bool? i = some slot) : slot ∈ r.bools.toList := by
  rw [bool?] at h
  exact Array.mem_toList_iff.mpr (Array.mem_of_getElem? h)

theorem exists_bool?_of_mem (h : slot ∈ r.bools.toList) : ∃ i, r.bool? i = some slot := by
  obtain ⟨i, hi⟩ := List.mem_iff_getElem?.mp h
  exact ⟨⟨i⟩, by rw [bool?, ← hi, Array.getElem?_toList]⟩

/-- What is tied as a positive entry is owned. -/
theorem owned_of_holding {m : Option VarId} (h : (v, stake) ∈ r.holdings uses)
    (hlink : stake.link = .positive m) : v ∈ r.ownedVars ∧ stake.uses = uses := by
  rcases mem_holdings.mp h with ⟨slot, hslot, rfl, rfl⟩ | ⟨hv, rfl⟩
  · have hpositive : slot.isPositive = true := isPositive_of_link hlink
    exact ⟨mem_ownedVars.mpr (.inl ⟨slot, hslot, hpositive, rfl⟩), if_pos hpositive⟩
  · exact ⟨mem_ownedVars.mpr (.inr hv), rfl⟩

/-- The partner of what is tied as an alias is owned. -/
theorem alias_of_holding (hr : r.Aligned) (h : (n, stake) ∈ r.holdings uses)
    (hlink : stake.link = .negation p) : stake.uses = 0 ∧ p ∈ r.ownedVars := by
  rcases mem_holdings.mp h with ⟨slot, hslot, rfl, rfl⟩ | ⟨hn, rfl⟩
  · refine ⟨if_neg (by simp [not_isPositive_of_link hlink]), ?_⟩
    cases hpolarity : slot.polarity with
    | positive n => simp [boolStake, link, hpolarity] at hlink
    | negated q =>
        obtain ⟨i, hi⟩ := exists_bool?_of_mem hslot
        obtain ⟨-, partner, hpartner, hback⟩ := hr.negated hi hpolarity
        have hp : partner.handle = p := by
          simpa [boolStake, link, hpolarity, handle?, hpartner] using hlink
        exact mem_ownedVars.mpr (.inl ⟨partner, mem_of_bool? hpartner,
          BoolSlot.isPositive_of_positive hback, hp⟩)
  · cases hlink

/-- The alias of a handle of a registry is one of its handles. -/
theorem mem_vars_of_link (h : (v, stake) ∈ r.holdings uses)
    (hlink : stake.link = .positive (some n)) : n ∈ r.vars := by
  rcases mem_holdings.mp h with ⟨slot, hslot, rfl, rfl⟩ | ⟨hv, rfl⟩
  · cases hpolarity : slot.polarity with
    | negated q => simp [boolStake, link, hpolarity] at hlink
    | positive m =>
        cases m with
        | none => simp [boolStake, link, hpolarity] at hlink
        | some m =>
            have hn : r.handle? m = some n := by simpa [boolStake, link, hpolarity] using hlink
            obtain ⟨negated, hm, rfl⟩ := Option.map_eq_some_iff.mp hn
            exact List.mem_append_left _ (List.mem_map_of_mem (mem_of_bool? hm))
  · cases hlink

theorem exists_holding_of_owned (h : v ∈ r.ownedVars) (uses : Nat) :
    ∃ m, (v, ⟨uses, .positive m⟩) ∈ r.holdings uses := by
  rcases mem_ownedVars.mp h with ⟨slot, hslot, hpositive, rfl⟩ | hv
  · cases hpolarity : slot.polarity with
    | negated q => simp [BoolSlot.isPositive_of_negated hpolarity] at hpositive
    | positive m =>
        refine ⟨m.bind r.handle?, mem_holdings.mpr (.inl ⟨slot, hslot, rfl, ?_⟩)⟩
        simp [boolStake, hpositive, link, hpolarity]
  · exact ⟨none, mem_holdings.mpr (.inr ⟨hv, rfl⟩)⟩

/-- Owned handles can be used more or less often. -/
theorem holding_of_owned {m : Option VarId} (h : (v, stake) ∈ r.holdings uses)
    (hlink : stake.link = .positive m) (other : Nat) :
    (v, ⟨other, .positive m⟩) ∈ r.holdings other := by
  rcases mem_holdings.mp h with ⟨slot, hslot, rfl, rfl⟩ | ⟨hv, rfl⟩
  · refine mem_holdings.mpr (.inl ⟨slot, hslot, rfl, ?_⟩)
    have hlink : r.link slot = .positive m := hlink
    simp [boolStake, isPositive_of_link hlink, hlink]
  · cases hlink
    exact mem_holdings.mpr (.inr ⟨hv, rfl⟩)

theorem holding_of_alias (h : (n, stake) ∈ r.holdings uses) (hlink : stake.link = .negation p)
    (other : Nat) : (n, ⟨0, .negation p⟩) ∈ r.holdings other := by
  rcases mem_holdings.mp h with ⟨slot, hslot, rfl, rfl⟩ | ⟨hv, rfl⟩
  · refine mem_holdings.mpr (.inl ⟨slot, hslot, rfl, ?_⟩)
    have hlink : r.link slot = .negation p := hlink
    simp [boolStake, not_isPositive_of_link hlink, hlink]
  · cases hlink

theorem isPositive_link (r : Registry) (slot : BoolSlot) :
    (r.link slot).isPositive = slot.isPositive := by
  cases hlink : r.link slot with
  | positive m => rw [isPositive_of_link hlink, Link.isPositive]
  | negation q => rw [not_isPositive_of_link hlink, Link.isPositive]

/-- What is owned can be read off the holdings. -/
theorem ownedVars_eq (r : Registry) (uses : Nat) : r.ownedVars =
    ((r.holdings uses).filter fun holding => holding.2.link.isPositive).map Prod.fst := by
  have hbools : ((r.bools.toList.map fun slot => (slot.handle, r.boolStake uses slot)).filter
      fun holding => holding.2.link.isPositive).map Prod.fst =
      r.positives.map BoolSlot.handle := by
    rw [List.filter_map, List.map_map, positives]
    congr 1
    refine List.filter_congr fun slot _ => ?_
    exact isPositive_link r slot
  have hints : ((r.intVars.map fun v => (v, (⟨uses, .positive none⟩ : Stake))).filter
      fun holding => holding.2.link.isPositive).map Prod.fst = r.intVars := by
    rw [List.filter_map, List.map_map]
    simp [Function.comp_def, Link.isPositive]
  rw [holdings, List.filter_append, List.map_append, hbools, hints, ownedVars, intVars]

end Registry

end JointModel
