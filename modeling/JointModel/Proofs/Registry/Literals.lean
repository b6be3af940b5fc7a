import JointModel.Proofs.Registry.Slots

/-!
# The literals of a registry

Every positive slot has a literal of the CP store, and no two of them are about the same
boolean variable (`Registry.Literals`).  A boolean slot gets a literal that was never handed
out, so only indicators need an argument: the store hands the literal of an equality out
again if the call before failed later on.  What saves the indicators is that a slot with
the literal of an equality always is the indicator of it.

Variables are told apart by the numbers under which the store made them.  A literal keeps
thirty-one bits of the number only, so the literals themselves tell the slots apart
(`Registry.LiteralsApart`) exactly if these bits do (`Literals.apart_iff`), and always as
long as all numbers fit (`Literals.apart`).
-/

namespace JointModel

/-- The numbers of the boolean variables behind positive slots and behind equalities. -/
structure Numbering where
  slot : BoolId → Nat
  equality : DomainId × Int → Nat

namespace Registry

variable {n : Numbering} {r r' : Registry} {s t : Domains} {v : BoolId} {slot new : BoolSlot}
  {key : DomainId × Int} {k : Nat}

/-- The boolean slot `v` is the indicator of an equality. -/
def Indicates (r : Registry) (v : BoolId) (key : DomainId × Int) : Prop :=
  ∃ x slot, r.int? x = some slot ∧ slot.domain = key.1 ∧ r.indicator? x key.2 = some v

/-- The literals of positive slots are about different boolean variables, and every
indicator has the literal of its equality. -/
structure Literals (n : Numbering) (r : Registry) (s : Domains) : Prop where
  store : s.Numbered n.equality
  numbered : ∀ {v slot}, r.bool? v = some slot → slot.isPositive →
    slot.literal = .ofVar (UInt32.ofNat (n.slot v)) (v ≠ .falsity) ∧ n.slot v < s.bools ∧
      (n.slot v = 0 → v = .falsity)
  distinct : ∀ {v w slot other}, r.bool? v = some slot → slot.isPositive →
    r.bool? w = some other → other.isPositive → n.slot v = n.slot w → v = w
  shared : ∀ {v slot key l}, r.bool? v = some slot → slot.isPositive →
    s.equalities.lookup key = some l → n.slot v = n.equality key → r.Indicates v key
  indicators : ∀ {v key}, r.Indicates v key → ∃ slot, r.bool? v = some slot ∧ slot.isPositive ∧
    s.equalities.lookup key = some slot.literal

theorem literals_empty {number : DomainId × Int → Nat} (h : s.Numbered number) :
    Literals ⟨fun _ => 0, number⟩ {} s where
  store := h
  numbered hv := by simp [bool?] at hv
  distinct hv := by simp [bool?] at hv
  shared hv := by simp [bool?] at hv
  indicators hv := by
    obtain ⟨x, slot, hx, -⟩ := hv
    simp [int?] at hx

/-! ## Changes of the store -/

/-- The old numbers stay, and new ones are above those of the slots. -/
theorem Literals.of_store (h : r.Literals n s) {number : DomainId × Int → Nat}
    (hstore : t.Numbered number) (hbools : s.bools ≤ t.bools)
    (hkept : ∀ {key l}, s.equalities.lookup key = some l → t.equalities.lookup key = some l)
    (hnew : ∀ {key l}, t.equalities.lookup key = some l →
      s.equalities.lookup key = some l ∧ number key = n.equality key ∨ s.bools ≤ number key) :
    r.Literals { n with equality := number } t where
  store := hstore
  numbered hv hpositive := by
    obtain ⟨hliteral, hlt, hzero⟩ := h.numbered hv hpositive
    exact ⟨hliteral, Nat.lt_of_lt_of_le hlt hbools, hzero⟩
  distinct hv hpositive hw hpositive' := h.distinct hv hpositive hw hpositive'
  shared hv hpositive hlookup hsame := by
    rcases hnew hlookup with ⟨hold, hnumber⟩ | hle
    · exact h.shared hv hpositive hold (hsame.trans hnumber)
    · have hlt := (h.numbered hv hpositive).2.1
      exact absurd (hsame ▸ hle) (Nat.not_le.mpr hlt)
  indicators hv := by
    obtain ⟨slot, hslot, hpositive, hlookup⟩ := h.indicators hv
    exact ⟨slot, hslot, hpositive, hkept hlookup⟩

theorem Literals.grow (h : r.Literals n s) (hgrows : s.Grows t) : ∃ n', r.Literals n' t := by
  obtain ⟨number, hstore, hnew⟩ := hgrows.numbered h.store
  exact ⟨_, h.of_store hstore hgrows.bools_le hgrows.lookup hnew⟩

/-- A number that was given out and is not used yet. -/
structure Unused (n : Numbering) (r : Registry) (s : Domains) (k : Nat) : Prop where
  below : k < s.bools
  slots : ∀ {v slot}, r.bool? v = some slot → slot.isPositive → n.slot v ≠ k
  equalities : ∀ {key l}, s.equalities.lookup key = some l → n.equality key ≠ k

/-- One more boolean variable, which nobody uses yet. -/
theorem Literals.bool (h : r.Literals n s) :
    r.Literals n { s with bools := s.bools + 1 } ∧
      r.Unused n { s with bools := s.bools + 1 } s.bools := by
  refine ⟨h.of_store (h.store.of_equalities (Nat.le_succ _) rfl) (Nat.le_succ _) (fun h => h)
    fun hlookup => .inl ⟨hlookup, rfl⟩, Nat.lt_succ_self _, ?_, ?_⟩
  · intro v slot hv hpositive
    exact Nat.ne_of_lt (h.numbered hv hpositive).2.1
  · intro key l hlookup
    exact Nat.ne_of_lt (h.store.made hlookup).2.2

/-! ## Changes of the registry -/

/-- Positive slots with the literals that they had, and the same indicators. -/
theorem Literals.of_slots (h : r.Literals n s)
    (hslots : ∀ {v new}, r'.bool? v = some new → new.isPositive →
      ∃ slot, r.bool? v = some slot ∧ slot.isPositive ∧ slot.literal = new.literal)
    (hkept : ∀ {v slot}, r.bool? v = some slot → slot.isPositive →
      ∃ new, r'.bool? v = some new ∧ new.isPositive ∧ new.literal = slot.literal)
    (hindicates : ∀ {v key}, r'.Indicates v key ↔ r.Indicates v key) : r'.Literals n s where
  store := h.store
  numbered hv hpositive := by
    obtain ⟨slot, hslot, hpositive, hliteral⟩ := hslots hv hpositive
    exact hliteral ▸ h.numbered hslot hpositive
  distinct hv hpositive hw hpositive' := by
    obtain ⟨slot, hslot, hpositive, -⟩ := hslots hv hpositive
    obtain ⟨other, hother, hpositive', -⟩ := hslots hw hpositive'
    exact h.distinct hslot hpositive hother hpositive'
  shared hv hpositive hlookup hsame := by
    obtain ⟨slot, hslot, hpositive, -⟩ := hslots hv hpositive
    exact hindicates.mpr (h.shared hslot hpositive hlookup hsame)
  indicators hv := by
    obtain ⟨slot, hslot, hpositive, hlookup⟩ := h.indicators (hindicates.mp hv)
    obtain ⟨new, hnew, hpositive', hliteral⟩ := hkept hslot hpositive
    exact ⟨new, hnew, hpositive', hliteral ▸ hlookup⟩

/-- One more positive slot, whose number no slot has yet.  If an equality has it, then the
slot is the indicator of that equality. -/
theorem Literals.push (h : r.Literals n s) (hbools : r'.bools = r.bools.push new)
    (hnew : new.isPositive) (hliteral : new.literal =
      .ofVar (UInt32.ofNat k) ((⟨r.bools.size⟩ : BoolId) ≠ .falsity))
    (hbelow : k < s.bools) (hzero : k = 0 → (⟨r.bools.size⟩ : BoolId) = .falsity)
    (hslots : ∀ {v slot}, r.bool? v = some slot → slot.isPositive → n.slot v ≠ k)
    (hkept : ∀ {v key}, r.Indicates v key → r'.Indicates v key)
    (hindicates : ∀ {v key}, r'.Indicates v key → r.Indicates v key ∨
      v = ⟨r.bools.size⟩ ∧ s.equalities.lookup key = some new.literal)
    (hshared : ∀ {key l}, s.equalities.lookup key = some l → n.equality key = k →
      r'.Indicates ⟨r.bools.size⟩ key) :
    r'.Literals { n with slot := Function.update n.slot ⟨r.bools.size⟩ k } s := by
  have hbool? : ∀ v, r'.bool? v = if v.index = r.bools.size then some new else r.bool? v := by
    intro v
    rw [bool?, hbools, Array.getElem?_push]
    rfl
  -- a slot is the new one, or it was there before and has another number
  have cases : ∀ {v slot}, r'.bool? v = some slot → slot.isPositive →
      (v = ⟨r.bools.size⟩ ∧ slot = new ∧ Function.update n.slot ⟨r.bools.size⟩ k v = k) ∨
      (r.bool? v = some slot ∧ Function.update n.slot ⟨r.bools.size⟩ k v = n.slot v) := by
    intro v slot hv _
    rw [hbool?] at hv
    split at hv
    · next hsize =>
        have hv' : v = ⟨r.bools.size⟩ := BoolId.index_inj.mp hsize
        exact .inl ⟨hv', (Option.some.inj hv).symm, by rw [hv', Function.update_self]⟩
    · next hsize =>
        exact .inr ⟨hv, Function.update_of_ne (fun hv' => hsize (by rw [hv'])) _ _⟩
  constructor
  · exact h.store
  · intro v slot hv hpositive
    dsimp only
    rcases cases hv hpositive with ⟨rfl, rfl, hnumber⟩ | ⟨hold, hnumber⟩
    · rw [hnumber]
      exact ⟨hliteral, hbelow, hzero⟩
    · rw [hnumber]
      exact h.numbered hold hpositive
  · intro v w slot other hv hpositive hw hpositive' hsame
    dsimp only at hsame
    rcases cases hv hpositive with ⟨rfl, rfl, hnumber⟩ | ⟨hold, hnumber⟩ <;>
      rcases cases hw hpositive' with ⟨hw', -, hnumber'⟩ | ⟨hold', hnumber'⟩ <;>
      rw [hnumber, hnumber'] at hsame
    · exact hw'.symm
    · exact absurd hsame.symm (hslots hold' hpositive')
    · exact absurd hsame (hslots hold hpositive)
    · exact h.distinct hold hpositive hold' hpositive' hsame
  · intro v slot key l hv hpositive hlookup hsame
    dsimp only at hsame
    rcases cases hv hpositive with ⟨rfl, rfl, hnumber⟩ | ⟨hold, hnumber⟩
    · exact hshared hlookup (hsame.symm.trans hnumber)
    · exact hkept (h.shared hold hpositive hlookup (hnumber.symm.trans hsame))
  · intro v key hv
    rcases hindicates hv with hold | ⟨rfl, hlookup⟩
    · obtain ⟨slot, hslot, hpositive, hlookup⟩ := h.indicators hold
      have hlt : v.index < r.bools.size := lt_size_of_bool? hslot
      exact ⟨slot, by rw [hbool?, if_neg (Nat.ne_of_lt hlt), hslot], hpositive, hlookup⟩
    · exact ⟨new, by rw [hbool?, if_pos rfl], hnew, hlookup⟩

/-! ## The slots of calls -/

theorem indicates_congr (hints : r'.ints = r.ints) (htables : r'.tables = r.tables) :
    r'.Indicates v key ↔ r.Indicates v key := by
  have hint? : r'.int? = r.int? := by
    funext x
    rw [int?, int?, hints]
  rw [Indicates, Indicates, hint?, indicator?_congr hints htables]

theorem indicates_withInt {int : IntSlot} (hnone : int.table = none) :
    (r.withInt int).Indicates v key ↔ r.Indicates v key := by
  constructor
  · rintro ⟨x, slot, hx, hdomain, hindicator⟩
    rw [indicator?_withInt hnone] at hindicator
    rw [int?_withInt] at hx
    split at hx
    · next hsize =>
        -- the new slot has no indicators
        rw [show x = ⟨r.ints.size⟩ from IntId.index_inj.mp hsize,
          indicator?_of_unknown r.int?_size] at hindicator
        cases hindicator
    · exact ⟨x, slot, hx, hdomain, hindicator⟩
  · rintro ⟨x, slot, hx, hdomain, hindicator⟩
    have hlt : x.index < r.ints.size := (Array.getElem?_eq_some_iff.mp hx).1
    refine ⟨x, slot, ?_, hdomain, by rw [indicator?_withInt hnone, hindicator]⟩
    rw [int?_withInt, if_neg (Nat.ne_of_lt hlt), hx]

/-- Noting an indicator adds it to those that there were. -/
theorem Tabled.indicates_withIndicator (htabled : r.Tabled) {x : IntId} {int : IntSlot}
    {value : Int} (hx : r.int? x = some int) (hnone : r.indicator? x value = none)
    (new : BoolId) :
    (r.withIndicator x int value new).Indicates v key ↔
      r.Indicates v key ∨ v = new ∧ key = (int.domain, value) := by
  have hindicator := htabled.indicator?_withIndicator hx value new
  constructor
  · rintro ⟨y, slot', hy, hdomain, hindicates⟩
    obtain ⟨change, hchange⟩ := int?_withIndicator r x int value new y
    rw [hchange] at hy
    obtain ⟨slot, hslot, rfl⟩ := Option.map_eq_some_iff.mp hy
    rw [hindicator] at hindicates
    split at hindicates
    · next hboth =>
        obtain ⟨rfl, hvalue⟩ := hboth
        rw [hx] at hslot
        cases hslot
        exact .inr ⟨(Option.some.inj hindicates).symm, Prod.ext hdomain.symm hvalue⟩
    · exact .inl ⟨y, slot, hslot, hdomain, hindicates⟩
  · have hint? : ∀ {y slot}, r.int? y = some slot → ∃ slot',
        (r.withIndicator x int value new).int? y = some slot' ∧ slot'.domain = slot.domain := by
      intro y slot hy
      obtain ⟨change, hchange⟩ := int?_withIndicator r x int value new y
      rw [hy, Option.map_some] at hchange
      exact ⟨_, hchange, rfl⟩
    rintro (⟨y, slot, hy, hdomain, hindicates⟩ | ⟨rfl, rfl⟩)
    · obtain ⟨slot', hslot', hdomain'⟩ := hint? hy
      refine ⟨y, slot', hslot', hdomain'.trans hdomain, ?_⟩
      rw [hindicator, if_neg, hindicates]
      rintro ⟨rfl, hvalue⟩
      rw [hvalue, hnone] at hindicates
      cases hindicates
    · obtain ⟨slot', hslot', hdomain⟩ := hint? hx
      exact ⟨x, slot', hslot', hdomain, by rw [hindicator, if_pos ⟨rfl, rfl⟩]⟩

/-- Of a new slot the partner and all older slots keep their literals. -/
theorem Literals.withNegation (h : r.Literals n s) (hv : r.bool? v = some slot)
    (hslot : slot.polarity = .positive none) (hnew : new.polarity = .negated v) :
    (r.withNegation v new).Literals n s := by
  refine h.of_slots (fun {w other} hw hpositive => ?_) (fun {w other} hw hpositive => ?_)
    (indicates_congr rfl rfl)
  · obtain ⟨old, hold, hpositive, -, hliteral, -⟩ :=
      bool?_withNegation_positive hv hslot hnew hw hpositive
    exact ⟨old, hold, hpositive, hliteral.symm⟩
  · obtain ⟨polarity, hw', hsame⟩ := (extends_withNegation hv hslot new).slot hw
    refine ⟨_, hw', ?_, rfl⟩
    by_cases hpolarity : other.polarity = .positive none
    · -- only `v` can have got a negation
      rw [bool?_withNegation hv, if_neg (Nat.ne_of_lt (lt_size_of_bool? hw))] at hw'
      split at hw'
      · have hlinked := congrArg BoolSlot.polarity (Option.some.inj hw')
        exact BoolSlot.isPositive_of_positive hlinked.symm
      · rw [hw] at hw'
        rw [← Option.some.inj hw']
        exact hpositive
    · rw [hsame hpolarity]
      exact hpositive

theorem Literals.withInt (h : r.Literals n s) {int : IntSlot} (hnone : int.table = none) :
    (r.withInt int).Literals n s :=
  h.of_slots (fun {_ slot} hv hpositive => ⟨slot, hv, hpositive, rfl⟩)
    (fun {_ slot} hv hpositive => ⟨slot, hv, hpositive, rfl⟩) (indicates_withInt hnone)

/-- A new slot with a number that nobody uses. -/
theorem Literals.withBool (h : r.Literals n s) (hnew : new.isPositive) (hliteral : new.literal =
      .ofVar (UInt32.ofNat k) ((⟨r.bools.size⟩ : BoolId) ≠ .falsity))
    (hunused : r.Unused n s k) (hzero : k = 0 → (⟨r.bools.size⟩ : BoolId) = .falsity) :
    ∃ n', (r.withBool new).Literals n' s :=
  ⟨_, h.push rfl hnew hliteral hunused.below hzero hunused.slots (indicates_congr rfl rfl).mpr
    (fun hv => .inl ((indicates_congr rfl rfl).mp hv))
    fun hlookup hsame => absurd hsame (hunused.equalities hlookup)⟩

/-- A new indicator with the literal of its equality. -/
theorem Literals.withIndicator (h : r.Literals n s) (htabled : r.Tabled) (hbounded : r.Bounded s)
    {x : IntId} {int : IntSlot} {value : Int} (hx : r.int? x = some int)
    (hnone : r.indicator? x value = none) (hnew : new.isPositive)
    (hlookup : s.equalities.lookup (int.domain, value) = some new.literal)
    (hsize : (⟨r.bools.size⟩ : BoolId) ≠ .falsity) :
    ∃ n', ((r.withBool new).withIndicator x int value ⟨r.bools.size⟩).Literals n' s := by
  obtain ⟨hliteral, hpos, hbelow⟩ := h.store.made hlookup
  have htabled' : (r.withBool new).Tabled := htabled.congr rfl rfl
  have hsame : ∀ {w key}, (r.withBool new).Indicates w key ↔ r.Indicates w key :=
    indicates_congr rfl rfl
  have hindicates : ∀ {w key}, ((r.withBool new).withIndicator x int value
      ⟨r.bools.size⟩).Indicates w key ↔
      r.Indicates w key ∨ w = ⟨r.bools.size⟩ ∧ key = (int.domain, value) := by
    intro w key
    rw [htabled'.indicates_withIndicator hx hnone, hsame]
  refine ⟨_, h.push (bools_withIndicator _ _ _ _ _) hnew ?_ hbelow
    (fun hzero => absurd hzero (Nat.ne_of_gt hpos)) ?_ (fun hv => hindicates.mpr (.inl hv)) ?_ ?_⟩
  · rw [hliteral, Literal.numbered, decide_eq_true hsize]
  · -- a slot with this number would be the indicator already
    intro v slot hv hpositive hsame
    obtain ⟨y, slot', hy, hdomain, hindicates⟩ := h.shared hv hpositive hlookup hsame
    rw [hbounded.domains hy hx hdomain, hnone] at hindicates
    cases hindicates
  · intro w key hw
    refine (hindicates.mp hw).imp_right fun hnoted => ⟨hnoted.1, ?_⟩
    rw [hnoted.2]
    exact hlookup
  · intro key l hkey hsame
    exact hindicates.mpr (.inr ⟨rfl, h.store.distinct hkey hlookup hsame⟩)

/-! ## What the literals tell -/

/-- The literals of different positive slots are over different variables of the store. -/
def LiteralsApart (r : Registry) : Prop :=
  ∀ ⦃v w slot other⦄, r.bool? v = some slot → slot.isPositive → r.bool? w = some other →
    other.isPositive → slot.literal.var = other.literal.var → v = w

theorem Literals.toNat_var (h : r.Literals n s) (hv : r.bool? v = some slot)
    (hpositive : slot.isPositive) : slot.literal.var.toNat = n.slot v % 2 ^ 31 := by
  rw [(h.numbered hv hpositive).1, Literal.toNat_var_ofVar]

/-- The literals are apart exactly if the bits that they keep of the numbers are. -/
theorem Literals.apart_iff (h : r.Literals n s) : r.LiteralsApart ↔
    ∀ ⦃v w slot other⦄, r.bool? v = some slot → slot.isPositive → r.bool? w = some other →
      other.isPositive → n.slot v % 2 ^ 31 = n.slot w % 2 ^ 31 → v = w := by
  have hsame : ∀ {v w slot other}, r.bool? v = some slot → slot.isPositive →
      r.bool? w = some other → other.isPositive →
      (slot.literal.var = other.literal.var ↔ n.slot v % 2 ^ 31 = n.slot w % 2 ^ 31) := by
    intro v w slot other hv hpositive hw hpositive'
    rw [← UInt32.toNat_inj, h.toNat_var hv hpositive, h.toNat_var hw hpositive']
  constructor
  · intro hapart v w slot other hv hpositive hw hpositive' hbits
    exact hapart hv hpositive hw hpositive' ((hsame hv hpositive hw hpositive').mpr hbits)
  · intro hbits v w slot other hv hpositive hw hpositive' hvar
    exact hbits hv hpositive hw hpositive' ((hsame hv hpositive hw hpositive').mp hvar)

/-- As long as all numbers fit into a literal, the literals are apart. -/
theorem Literals.apart (h : r.Literals n s) (hfits : s.bools ≤ 2 ^ 31) : r.LiteralsApart := by
  refine h.apart_iff.mpr fun v w slot other hv hpositive hw hpositive' hbits => ?_
  have hlt : n.slot v < 2 ^ 31 := Nat.lt_of_lt_of_le (h.numbered hv hpositive).2.1 hfits
  have hlt' : n.slot w < 2 ^ 31 := Nat.lt_of_lt_of_le (h.numbered hw hpositive').2.1 hfits
  rw [Nat.mod_eq_of_lt hlt, Nat.mod_eq_of_lt hlt'] at hbits
  exact h.distinct hv hpositive hw hpositive' hbits

/-- One more positive slot keeps the literals apart exactly if its variable is new. -/
theorem literalsApart_withBool (hnew : new.isPositive) : (r.withBool new).LiteralsApart ↔
    r.LiteralsApart ∧ ∀ v slot, r.bool? v = some slot → slot.isPositive →
      slot.literal.var ≠ new.literal.var := by
  have hold : ∀ {v slot}, r.bool? v = some slot → (r.withBool new).bool? v = some slot :=
    fun hv => bool?_withBool_of_some hv new
  constructor
  · intro hapart
    refine ⟨fun v w slot other hv hpositive hw hpositive' hvar =>
      hapart (hold hv) hpositive (hold hw) hpositive' hvar, fun v slot hv hpositive hvar => ?_⟩
    have hsize := hapart (hold hv) hpositive (r.bool?_withBool_size new) hnew hvar
    exact Nat.ne_of_lt (lt_size_of_bool? hv) (congrArg BoolId.index hsize)
  · rintro ⟨hapart, hfresh⟩ v w slot other hv hpositive hw hpositive' hvar
    rw [bool?_withBool] at hv hw
    split at hv <;> split at hw
    · next hv' hw' => exact BoolId.index_inj.mp (hv'.trans hw'.symm)
    · cases hv
      exact absurd hvar.symm (hfresh w other hw hpositive')
    · cases hw
      exact absurd hvar (hfresh v slot hv hpositive)
    · exact hapart hv hpositive hw hpositive' hvar

end Registry

end JointModel
