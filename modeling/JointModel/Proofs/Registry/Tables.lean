import JointModel.Proofs.Registry.NewSlots

/-!
# Tables of indicators

An integer slot gets a table when an indicator is asked for the first time.  No two slots
share a table (`Tabled`), so a new indicator of one slot is seen at its own value and
nowhere else (`indicator?_withIndicator`).
-/

namespace JointModel

theorem IntId.index_inj {x y : IntId} : x.index = y.index ↔ x = y := by
  cases x
  cases y
  simp

namespace Registry

variable {r r' : Registry} {x y : IntId} {slot other : IntSlot} {v : BoolId} {value k : Int}
  {table : Nat}

/-- The tables of integer slots are there, and no two slots share one. -/
structure Tabled (r : Registry) : Prop where
  inRange : ∀ {x slot table}, r.int? x = some slot → slot.table = some table →
    table < r.tables.size
  owner : ∀ {x y slot other table}, r.int? x = some slot → r.int? y = some other →
    slot.table = some table → other.table = some table → x = y

/-- A registry in which `v` stands for a value of the slots with a table. -/
def insertAt (r : Registry) (table : Nat) (value : Int) (v : BoolId) : Registry :=
  { r with tables := r.tables.modify table (Indicators.insert value v) }

/-- A registry in which the boolean slot `v` stands for a value of the integer slot `x`,
which gets a table if it has none. -/
def withIndicator (r : Registry) (x : IntId) (slot : IntSlot) (value : Int) (v : BoolId) :
    Registry :=
  match slot.table with
  | some table => r.insertAt table value v
  | none => (r.withTable x).insertAt r.tables.size value v

theorem indicator?_of_int? (hx : r.int? x = some slot) (value : Int) :
    r.indicator? x value =
      slot.table.bind fun table => r.tables[table]?.bind fun entries => entries.lookup value := by
  simp only [indicator?, indicators?, hx, Option.bind_eq_bind, Option.bind_some, Option.bind_assoc]

theorem indicator?_of_unknown (hx : r.int? x = none) (value : Int) :
    r.indicator? x value = none := by
  simp only [indicator?, indicators?, hx, Option.bind_eq_bind, Option.bind_none]

/-! ## Slots and tables stay -/

theorem Tabled.congr (h : r.Tabled) (hints : r'.ints = r.ints) (htables : r'.tables = r.tables) :
    r'.Tabled := by
  have hint? : r'.int? = r.int? := by
    funext x
    rw [int?, int?, hints]
  exact ⟨fun hx ht => htables ▸ h.inRange (hint? ▸ hx) ht,
    fun hx hy ht ht' => h.owner (hint? ▸ hx) (hint? ▸ hy) ht ht'⟩

theorem indicator?_congr (hints : r'.ints = r.ints) (htables : r'.tables = r.tables) :
    r'.indicator? = r.indicator? := by
  funext x value
  simp only [indicator?, indicators?, int?, hints, htables]

/-! ## One more integer slot -/

theorem int?_withInt (r : Registry) (slot : IntSlot) (y : IntId) :
    (r.withInt slot).int? y = if y.index = r.ints.size then some slot else r.int? y :=
  Array.getElem?_push

theorem int?_size (r : Registry) : r.int? ⟨r.ints.size⟩ = none :=
  Array.getElem?_eq_none (Nat.le_refl _)

theorem indicator?_withInt (hnone : slot.table = none) (y : IntId) (k : Int) :
    (r.withInt slot).indicator? y k = r.indicator? y k := by
  by_cases hy : y.index = r.ints.size
  · have hnew : (r.withInt slot).int? y = some slot := by rw [int?_withInt, if_pos hy]
    have hold : r.int? y = none := by
      rw [show y = ⟨r.ints.size⟩ from IntId.index_inj.mp hy, int?_size]
    rw [indicator?_of_int? hnew, indicator?_of_unknown hold, hnone, Option.bind_none]
  · have hsame : (r.withInt slot).int? y = r.int? y := by rw [int?_withInt, if_neg hy]
    simp only [indicator?, indicators?, hsame]
    rfl

theorem Tabled.withInt (h : r.Tabled) (hnone : slot.table = none) : (r.withInt slot).Tabled := by
  have old : ∀ {y other table}, (r.withInt slot).int? y = some other →
      other.table = some table → r.int? y = some other := by
    intro y other table hy ht
    rw [int?_withInt] at hy
    split at hy
    · cases hy
      rw [hnone] at ht
      cases ht
    · exact hy
  exact ⟨fun hx ht => h.inRange (old hx ht) ht,
    fun hx hy ht ht' => h.owner (old hx ht) (old hy ht') ht ht'⟩

/-! ## A new table -/

theorem int?_withTable (r : Registry) (x y : IntId) :
    (r.withTable x).int? y =
      if x = y then (r.int? y).map fun slot => { slot with table := some r.tables.size }
      else r.int? y := by
  simp only [int?, withTable, Array.getElem?_modify, IntId.index_inj]

theorem tables_withTable (r : Registry) (x : IntId) :
    (r.withTable x).tables = r.tables.push [] := rfl

theorem Tabled.withTable (h : r.Tabled) (x : IntId) : (r.withTable x).Tabled := by
  -- the new table belongs to `x`, and all others are older
  have old : ∀ {y other table}, (r.withTable x).int? y = some other → other.table = some table →
      y = x ∧ table = r.tables.size ∨ y ≠ x ∧ r.int? y = some other := by
    intro y other table hy ht
    rw [int?_withTable] at hy
    split at hy
    · next hxy =>
        obtain ⟨slot, -, rfl⟩ := Option.map_eq_some_iff.mp hy
        exact .inl ⟨hxy.symm, (Option.some.inj ht).symm⟩
    · next hxy => exact .inr ⟨fun hyx => hxy hyx.symm, hy⟩
  constructor
  · intro y other table hy ht
    rw [tables_withTable, Array.size_push]
    rcases old hy ht with ⟨-, rfl⟩ | ⟨-, hy⟩
    · exact Nat.lt_succ_self _
    · exact Nat.lt_succ_of_lt (h.inRange hy ht)
  · intro y z slot other table hy hz ht ht'
    rcases old hy ht with ⟨rfl, rfl⟩ | ⟨hyx, hy⟩ <;> rcases old hz ht' with ⟨hzx, hsize⟩ | ⟨hzx, hz⟩
    · exact hzx.symm
    · exact absurd (h.inRange hz ht') (Nat.lt_irrefl _)
    · exact absurd (h.inRange hy ht) (hsize ▸ Nat.lt_irrefl _)
    · exact h.owner hy hz ht ht'

/-- A new table has no indicators yet. -/
theorem Tabled.indicator?_withTable (h : r.Tabled) (hx : r.int? x = some slot)
    (hnone : slot.table = none) (y : IntId) (k : Int) :
    (r.withTable x).indicator? y k = r.indicator? y k := by
  by_cases hxy : x = y
  · subst hxy
    have hnew : (r.withTable x).int? x = some { slot with table := some r.tables.size } := by
      rw [int?_withTable, if_pos rfl, hx, Option.map_some]
    have hlast : (r.tables.push [])[r.tables.size]? = some [] := by simp
    rw [indicator?_of_int? hnew, indicator?_of_int? hx, hnone, tables_withTable, Option.bind_some,
      Option.bind_none, hlast, Option.bind_some, List.lookup_nil]
  · have hsame : (r.withTable x).int? y = r.int? y := by rw [int?_withTable, if_neg hxy]
    cases hy : r.int? y with
    | none => rw [indicator?_of_unknown hy, indicator?_of_unknown (hsame.trans hy)]
    | some other =>
        rw [indicator?_of_int? hy, indicator?_of_int? (hsame.trans hy), tables_withTable]
        cases ht : other.table with
        | none => rfl
        | some table =>
            have hold : (r.tables.push [])[table]? = r.tables[table]? := by
              rw [Array.getElem?_push, if_neg (Nat.ne_of_lt (h.inRange hy ht))]
            rw [Option.bind_some, Option.bind_some, hold]

/-! ## A new indicator -/

theorem Tabled.indicator?_insertAt (h : r.Tabled) (hx : r.int? x = some slot)
    (ht : slot.table = some table) (value : Int) (v : BoolId) (y : IntId) (k : Int) :
    (r.insertAt table value v).indicator? y k =
      if y = x ∧ k = value then some v else r.indicator? y k := by
  have hsame : (r.insertAt table value v).int? y = r.int? y := rfl
  cases hy : r.int? y with
  | none =>
      have hne : ¬ (y = x ∧ k = value) := by
        rintro ⟨rfl, -⟩
        rw [hy] at hx
        cases hx
      rw [indicator?_of_unknown hy, indicator?_of_unknown (hsame.trans hy), if_neg hne]
  | some other =>
      rw [indicator?_of_int? hy, indicator?_of_int? (hsame.trans hy)]
      by_cases hyx : y = x
      · subst hyx
        rw [hx] at hy
        cases hy
        have hrange := h.inRange hx ht
        simp only [ht, Option.bind_some, insertAt, Array.getElem?_modify, if_true,
          Array.getElem?_eq_getElem hrange, Option.map_some, Indicators.lookup_insert, true_and]
      · have hne : ¬ (y = x ∧ k = value) := fun hboth => hyx hboth.1
        rw [if_neg hne]
        cases ht' : other.table with
        | none => rfl
        | some table' =>
            have hdistinct : table ≠ table' := by
              rintro rfl
              exact hyx (h.owner hy hx ht' ht)
            simp only [Option.bind_some, insertAt, Array.getElem?_modify, if_neg hdistinct]

theorem Tabled.insertAt (h : r.Tabled) (table : Nat) (value : Int) (v : BoolId) :
    (r.insertAt table value v).Tabled := by
  refine ⟨fun hx ht => ?_, fun hx hy => h.owner hx hy⟩
  rw [Registry.insertAt, Array.size_modify]
  exact h.inRange hx ht

theorem Tabled.withIndicator (h : r.Tabled) (x : IntId) (slot : IntSlot) (value : Int)
    (v : BoolId) : (r.withIndicator x slot value v).Tabled := by
  unfold Registry.withIndicator
  cases slot.table with
  | some table => exact h.insertAt _ _ _
  | none => exact (h.withTable x).insertAt _ _ _

/-- An indicator is new at one value of one slot. -/
theorem Tabled.indicator?_withIndicator (h : r.Tabled) (hx : r.int? x = some slot) (value : Int)
    (v : BoolId) (y : IntId) (k : Int) :
    (r.withIndicator x slot value v).indicator? y k =
      if y = x ∧ k = value then some v else r.indicator? y k := by
  unfold Registry.withIndicator
  cases ht : slot.table with
  | some table => exact h.indicator?_insertAt hx ht value v y k
  | none =>
      have hnew : (r.withTable x).int? x = some { slot with table := some r.tables.size } := by
        rw [int?_withTable, if_pos rfl, hx, Option.map_some]
      dsimp only
      rw [(h.withTable x).indicator?_insertAt hnew rfl, h.indicator?_withTable hx ht]

/-- But for its table, an integer slot stays what it is. -/
theorem int?_withIndicator (r : Registry) (x : IntId) (slot : IntSlot) (value : Int) (v : BoolId)
    (y : IntId) : ∃ change : IntSlot → Option Nat,
      (r.withIndicator x slot value v).int? y =
        (r.int? y).map fun other => { other with table := change other } := by
  have hkeep : (r.int? y).map (fun other : IntSlot => { other with table := other.table }) =
      r.int? y := by cases r.int? y <;> rfl
  unfold withIndicator
  cases slot.table with
  | some table => exact ⟨IntSlot.table, hkeep.symm⟩
  | none =>
      have hsame : ((r.withTable x).insertAt r.tables.size value v).int? y =
          (r.withTable x).int? y := rfl
      dsimp only
      rw [hsame, int?_withTable]
      split
      · exact ⟨fun _ => some r.tables.size, rfl⟩
      · exact ⟨IntSlot.table, hkeep.symm⟩

theorem bools_withIndicator (r : Registry) (x : IntId) (slot : IntSlot) (value : Int) (v : BoolId) :
    (r.withIndicator x slot value v).bools = r.bools := by
  unfold withIndicator
  cases slot.table <;> rfl

theorem intVars_withIndicator (r : Registry) (x : IntId) (slot : IntSlot) (value : Int)
    (v : BoolId) : (r.withIndicator x slot value v).intVars = r.intVars := by
  unfold withIndicator
  cases slot.table with
  | some table => rfl
  | none => exact intVars_withTable r x

end Registry

end JointModel
