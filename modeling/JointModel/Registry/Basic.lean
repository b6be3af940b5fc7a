import JointModel.Slot

/-!
# The registry

The registry lists the boolean and integer slots of a model.  Slots are only
ever appended, so an index stays valid.  For every integer variable of which an
indicator was asked for there is a table from values to the boolean slots that
stand for `variable = value`, sorted by value.

The registry holds nothing but handles, so a copy of it is a plain value.
-/

namespace JointModel

/-- The boolean slots that stand for the values of one integer variable, by
ascending value. -/
abbrev Indicators := List (Int × BoolId)

namespace Indicators

/-- Adds the slot of a value, in place of an earlier one. -/
def insert (value : Int) (slot : BoolId) : Indicators → Indicators
  | [] => [(value, slot)]
  | (key, old) :: rest =>
    if value < key then (value, slot) :: (key, old) :: rest
    else if value == key then (value, slot) :: rest
    else (key, old) :: insert value slot rest

theorem lookup_insert (value key : Int) (slot : BoolId) (table : Indicators) :
    (insert value slot table).lookup key = if key = value then some slot else table.lookup key := by
  induction table with
  | nil =>
    by_cases h : key = value
    · simp [insert, h]
    · simp [insert, List.lookup_cons, beq_false_of_ne h, h]
  | cons entry rest ih =>
    obtain ⟨k, old⟩ := entry
    by_cases h : key = value
    · subst h
      simp only [insert]
      split
      · simp
      · split
        · simp
        · next hne =>
          have hne : key ≠ k := by simpa using hne
          simp [List.lookup_cons, beq_false_of_ne hne, ih]
    · simp only [insert]
      split
      · simp [List.lookup_cons, beq_false_of_ne h]
      · split
        · next heq =>
          have heq : value = k := by simpa using heq
          subst heq
          simp [List.lookup_cons, beq_false_of_ne h]
        · simp [List.lookup_cons, ih, h]

end Indicators

/-- The slots of a model. -/
structure Registry where
  bools : Array BoolSlot := #[]
  ints : Array IntSlot := #[]
  tables : Array Indicators := #[]
deriving DecidableEq, Repr

namespace Registry

/-- A boolean slot. -/
def bool? (r : Registry) (v : BoolId) : Option BoolSlot := r.bools[v.index]?

/-- An integer slot. -/
def int? (r : Registry) (v : IntId) : Option IntSlot := r.ints[v.index]?

/-- The indicators of an integer variable, if one was ever asked for. -/
def indicators? (r : Registry) (v : IntId) : Option Indicators := do
  let slot ← r.int? v
  r.tables[← slot.table]?

/-- The slot of an indicator, if it was asked for before. -/
def indicator? (r : Registry) (v : IntId) (value : Int) : Option BoolId := do
  (← r.indicators? v).lookup value

/-- Gives an integer variable a new table without indicators. -/
def withTable (r : Registry) (v : IntId) : Registry :=
  { r with
    tables := r.tables.push []
    ints := r.ints.modify v.index fun slot => { slot with table := some r.tables.size } }

/-- For every boolean slot the one that it negates.  Two registries with the
same list have the same pairs of slots, whatever their handles are. -/
def backReferences (r : Registry) : List (Option BoolId) :=
  r.bools.toList.map BoolSlot.negates?

/-- The boolean slots that own their handles. -/
def positives (r : Registry) : List BoolSlot :=
  r.bools.toList.filter BoolSlot.isPositive

/-- The handles that the registry owns: one for every positive boolean slot,
then one for every integer slot that is not virtual. -/
def ownedVars (r : Registry) : List VarId :=
  r.positives.map BoolSlot.handle ++ r.ints.toList.filterMap IntSlot.handle

/-- The registry has no slot yet. -/
def isEmpty (r : Registry) : Bool := r.bools.isEmpty && r.ints.isEmpty

end Registry

end JointModel
