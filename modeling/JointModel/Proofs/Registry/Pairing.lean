import JointModel.Proofs.Effect
import JointModel.Registry.Draft

/-!
# Pairs of slots

In a registry every negated slot has a positive partner at a lower index, the two
know each other, and no slot has two partners (`Paired`).  Slots are appended by
`withBool` and `withNegation` only, and both keep the pairs in order, so all calls
that add slots do (`keeps_paired_perform`), rejected or not.

`link` says how the entry that a session keeps for a slot should be tied to its
negation: it is read off the registry alone.
-/

namespace JointModel

theorem BoolId.index_inj {v w : BoolId} : v.index = w.index ↔ v = w := by
  cases v
  cases w
  simp

namespace Registry

variable {r : Registry} {v w : BoolId} {slot negated : BoolSlot}

/-- The handle of a boolean slot. -/
def handle? (r : Registry) (v : BoolId) : Option VarId := (r.bool? v).map BoolSlot.handle

/-- How the entry of a slot is tied to its negation. -/
def link (r : Registry) (slot : BoolSlot) : Link :=
  match slot.polarity with
  | .positive n => .positive (n.bind r.handle?)
  | .negated p => .negation ((r.handle? p).getD slot.handle)

/-- Every negated slot has a positive partner before it, and partners know each
other. -/
structure Paired (r : Registry) : Prop where
  negated : ∀ {v slot p}, r.bool? v = some slot → slot.polarity = .negated p →
    p.index < v.index ∧ ∃ partner, r.bool? p = some partner ∧
      partner.polarity = .positive (some v)
  positive : ∀ {v slot n}, r.bool? v = some slot → slot.polarity = .positive (some n) →
    ∃ negated, r.bool? n = some negated ∧ negated.polarity = .negated v

/-- A registry with one more boolean slot. -/
def withBool (r : Registry) (slot : BoolSlot) : Registry := { r with bools := r.bools.push slot }

/-- A registry in which a new slot is the negation of `v`. -/
def withNegation (r : Registry) (v : BoolId) (negated : BoolSlot) : Registry :=
  { r with
    bools := (r.bools.push negated).modify v.index fun slot =>
      { slot with polarity := .positive (some ⟨r.bools.size⟩) } }

theorem lt_size_of_bool? (h : r.bool? v = some slot) : v.index < r.bools.size :=
  (Array.getElem?_eq_some_iff.mp h).1

theorem bool?_withBool (r : Registry) (slot : BoolSlot) (w : BoolId) :
    (r.withBool slot).bool? w = if w.index = r.bools.size then some slot else r.bool? w :=
  Array.getElem?_push

theorem bool?_withNegation (hv : r.bool? v = some slot) (negated : BoolSlot) (w : BoolId) :
    (r.withNegation v negated).bool? w =
      if w.index = r.bools.size then some negated
      else if w = v then some { slot with polarity := .positive (some ⟨r.bools.size⟩) }
      else r.bool? w := by
  have hlt : v.index < r.bools.size := lt_size_of_bool? hv
  simp only [bool?, withNegation, Array.getElem?_modify, Array.getElem?_push]
  by_cases hwv : w = v
  · subst hwv
    have hne : w.index ≠ r.bools.size := Nat.ne_of_lt hlt
    simp only [bool?] at hv
    simp [hne, hv]
  · have hne : ¬ v.index = w.index := fun h => hwv (BoolId.index_inj.mp h.symm)
    simp [hne, hwv]

theorem paired_empty : Paired {} :=
  ⟨fun hv => by simp [bool?] at hv, fun hv => by simp [bool?] at hv⟩

theorem Paired.of_bools {r' : Registry} (h : r.Paired) (hbools : r'.bools = r.bools) :
    r'.Paired := by
  have hbool? : r'.bool? = r.bool? := by
    funext v
    rw [bool?, bool?, hbools]
  exact ⟨fun hv => hbool? ▸ h.negated (hbool? ▸ hv), fun hv => hbool? ▸ h.positive (hbool? ▸ hv)⟩

theorem bool?_withBool_of_some (hw : r.bool? w = some slot) (new : BoolSlot) :
    (r.withBool new).bool? w = some slot := by
  rw [bool?_withBool, if_neg (Nat.ne_of_lt (lt_size_of_bool? hw)), hw]

theorem Paired.withBool (h : r.Paired) (hslot : slot.polarity = .positive none) :
    (r.withBool slot).Paired := by
  constructor
  · intro v old p hv hp
    rw [bool?_withBool] at hv
    split at hv
    · cases hv
      rw [hslot] at hp
      cases hp
    · obtain ⟨hlt, partner, hpartner, hback⟩ := h.negated hv hp
      exact ⟨hlt, partner, bool?_withBool_of_some hpartner slot, hback⟩
  · intro v old n hv hn
    rw [bool?_withBool] at hv
    split at hv
    · cases hv
      rw [hslot] at hn
      cases hn
    · obtain ⟨negated, hnegated, hback⟩ := h.positive hv hn
      exact ⟨negated, bool?_withBool_of_some hnegated slot, hback⟩

theorem Paired.withNegation (h : r.Paired) (hv : r.bool? v = some slot)
    (hslot : slot.polarity = .positive none) (hnegated : negated.polarity = .negated v) :
    (r.withNegation v negated).Paired := by
  have hlt : v.index < r.bools.size := lt_size_of_bool? hv
  have hne : v.index ≠ r.bools.size := Nat.ne_of_lt hlt
  have hnew : (r.withNegation v negated).bool? ⟨r.bools.size⟩ = some negated := by
    rw [bool?_withNegation hv, if_pos rfl]
  have hpartner : (r.withNegation v negated).bool? v =
      some { slot with polarity := .positive (some ⟨r.bools.size⟩) } := by
    rw [bool?_withNegation hv, if_neg hne, if_pos rfl]
  have keep : ∀ {w old}, r.bool? w = some old → w ≠ v →
      (r.withNegation v negated).bool? w = some old := by
    intro w old hw hwv
    rw [bool?_withNegation hv, if_neg (Nat.ne_of_lt (lt_size_of_bool? hw)), if_neg hwv, hw]
  constructor
  · intro w old p hw hp
    rw [bool?_withNegation hv] at hw
    split at hw
    · next hsize =>
        cases hw
        rw [hnegated] at hp
        cases hp
        exact ⟨hsize ▸ hlt, _, hpartner, by rw [← hsize]⟩
    · split at hw
      · cases hw
        cases hp
      · obtain ⟨hlower, partner, hold, hback⟩ := h.negated hw hp
        refine ⟨hlower, partner, keep hold ?_, hback⟩
        -- `v` has no negation yet
        rintro rfl
        rw [hv] at hold
        cases hold
        rw [hslot] at hback
        cases hback
  · intro w old n hw hn
    rw [bool?_withNegation hv] at hw
    split at hw
    · cases hw
      rw [hnegated] at hn
      cases hn
    · split at hw
      · next hwv =>
          cases hw
          cases hn
          exact ⟨negated, hnew, by rw [hnegated, hwv]⟩
      · obtain ⟨other, hold, hback⟩ := h.positive hw hn
        refine ⟨other, keep hold ?_, hback⟩
        -- `v` is positive
        rintro rfl
        rw [hv] at hold
        cases hold
        rw [hslot] at hback
        cases hback

end Registry

/-! ## Adding slots keeps the pairs -/

namespace Draft

open Effect Registry

theorem keeps_onSolvers {α : Type} {P : Registry → Prop} (act : EStateM EngineError Solvers α) :
    Keeps (fun d : Draft => P d.registry) (onSolvers act) := by
  intro d hd
  rw [onSolvers, ends_onPart]
  exact ends_of_forall (fun _ _ => hd) fun _ _ => hd

theorem getBool_ends (d : Draft) (v : BoolId) :
    Ends (getBool v) d (fun slot d' => d' = d ∧ d.registry.bool? v = some slot)
      fun cause d' => d' = d ∧ d.registry.bool? v = none ∧ cause = .unknownBool v := by
  unfold Ends getBool
  cases d.registry.bool? v with
  | none => exact ⟨rfl, rfl, rfl⟩
  | some slot => exact ⟨rfl, rfl⟩

theorem keeps_getInt {P : Draft → Prop} (v : IntId) : Keeps P (getInt v) := by
  intro d hd
  unfold Ends getInt
  cases d.registry.int? v <;> exact hd

theorem requireBounds_ends (d : Draft) (lb ub : Int) :
    Ends (requireBounds lb ub) d (fun _ d' => d' = d ∧ lb ≤ ub)
      fun cause d' => d' = d ∧ ub < lb ∧ cause = .invalidDomain lb ub := by
  by_cases h : lb > ub
  · exact ends_of_rejected (by simp only [requireBounds, if_pos h]) ⟨rfl, h, rfl⟩
  · exact ends_of_accepted (a := ()) (by simp only [requireBounds, if_neg h])
      ⟨rfl, Int.not_lt.mp h⟩

theorem keeps_requireBounds {P : Draft → Prop} (lb ub : Int) : Keeps P (requireBounds lb ub) :=
  fun d hd => (requireBounds_ends d lb ub).mono (fun _ _ h => h.1 ▸ hd) fun _ _ h => h.1 ▸ hd

/-- The call keeps the pairs of slots in order. -/
abbrev KeepsPaired {α : Type} (act : Run α) : Prop :=
  Keeps (fun d : Draft => d.registry.Paired) act

theorem keeps_paired_addLiteral (name : String) (ub : Float) (literal : Literal) :
    KeepsPaired (addLiteral name ub literal) :=
  Keeps.bind (keeps_onSolvers _) fun _ => Keeps.bind (keeps_onSolvers _) fun _ _ hd =>
    hd.withBool rfl

theorem keeps_paired_addBool (name : String) : KeepsPaired (addBool name) :=
  Keeps.bind (keeps_onSolvers _) fun literal => keeps_paired_addLiteral name 1.0 literal

theorem keeps_paired_negate (v : BoolId) : KeepsPaired (negate v) := by
  intro d hd
  unfold negate
  rw [ends_bind]
  refine (getBool_ends d v).mono (fun slot d' hd' => ?_) fun _ d' hd' => hd'.1 ▸ hd
  obtain ⟨rfl, hslot⟩ := hd'
  cases hpolarity : slot.polarity with
  | negated p => exact hd
  | positive n =>
      cases n with
      | some n => exact hd
      | none =>
          rw [ends_bind]
          have hsame := keeps_onSolvers (P := (· = d'.registry))
            (Solvers.onEngine (Engine.negateVar slot.handle)) d' rfl
          refine hsame.mono (fun handle d'' hd'' => ?_) fun _ d'' hd'' => ?_
          case refine_2 =>
            dsimp only at hd'' ⊢
            rw [hd'']
            exact hd
          have hnew : (d'.registry.withNegation v
              ⟨handle, slot.literal.negate, .negated v, "~" ++ slot.name⟩).Paired :=
            hd.withNegation hslot hpolarity rfl
          rw [← hd''] at hnew
          exact hnew

theorem keeps_paired_addInt (lb ub : Int) (name : String) : KeepsPaired (addInt lb ub name) :=
  Keeps.bind (keeps_requireBounds lb ub) fun _ => Keeps.bind (keeps_onSolvers _) fun _ =>
    Keeps.bind (keeps_onSolvers _) fun _ => Keeps.bind (keeps_onSolvers _) fun _ _ hd =>
      hd.of_bools rfl

theorem keeps_paired_addVirtualInt (lb ub : Int) (name : String) :
    KeepsPaired (addVirtualInt lb ub name) :=
  Keeps.bind (keeps_requireBounds lb ub) fun _ => Keeps.bind (keeps_onSolvers _) fun _ _ hd =>
    hd.of_bools rfl

theorem keeps_paired_indicatorTable (v : IntId) (slot : IntSlot) :
    KeepsPaired (indicatorTable v slot) := by
  unfold indicatorTable
  cases slot.table with
  | some table => exact keeps_pure table
  | none => exact fun d hd => hd.of_bools rfl

theorem keeps_paired_addIndicator (v : IntId) (slot : IntSlot) (value : Int) :
    KeepsPaired (addIndicator v slot value) :=
  Keeps.bind (keeps_onSolvers _) fun _ => Keeps.bind (keeps_paired_addLiteral _ _ _) fun _ =>
    Keeps.bind (keeps_paired_indicatorTable v slot) fun _ _ hd => hd.of_bools rfl

theorem keeps_paired_indicator (v : IntId) (value : Int) : KeepsPaired (indicator v value) := by
  refine Keeps.bind (keeps_getInt v) fun slot => ?_
  split
  · exact keeps_pure _
  · split
    · exact keeps_pure _
    · refine Keeps.bind keeps_get fun d => ?_
      cases d.registry.indicator? v value with
      | some known => exact keeps_pure known
      | none => exact keeps_paired_addIndicator v slot value

theorem keeps_paired_addConstants : KeepsPaired addConstants :=
  Keeps.bind (keeps_paired_addLiteral _ _ _) fun falsity =>
    Keeps.bind (keeps_paired_negate falsity) fun _ =>
      Keeps.bind (keeps_paired_addInt 0 0 "zero") fun _ => keeps_pure _

/-- Whatever slots a call adds, it keeps the pairs. -/
theorem keeps_paired_perform (c : Call) : KeepsPaired (perform c) := by
  cases c with
  | bool name => exact (keeps_paired_addBool name).map
  | negate v => exact (keeps_paired_negate v).map
  | int lb ub name => exact (keeps_paired_addInt lb ub name).map
  | virtualInt lb ub name => exact (keeps_paired_addVirtualInt lb ub name).map
  | indicator v value => exact (keeps_paired_indicator v value).map

end Draft

end JointModel
