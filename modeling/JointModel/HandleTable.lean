/-!
# Handle tables

A handle table keeps live entries under small numbers.  A freed number goes on
a stack and the next entry takes the number freed last, so the table grows only
when every number is in use.  `get?` is the view: what a number stands for.

A number stands for a word of 32 bits, so a table is taken to have fewer than
2^32 places.
-/

namespace JointModel

/-- Live entries under numbers, and the numbers that are free again. -/
structure HandleTable (α : Type) where
  slots : Array (Option α) := #[]
  /-- The free numbers, the one freed last in front. -/
  free : List Nat := []
deriving Repr

namespace HandleTable

variable {α : Type}

/-- The entry that a number stands for, if it is live. -/
def get? (t : HandleTable α) (i : Nat) : Option α :=
  t.slots[i]?.join

/-- Stores an entry under the number freed last, or else under a new one. -/
def insert (t : HandleTable α) (entry : α) : Nat × HandleTable α :=
  match t.free with
  | i :: rest => (i, ⟨t.slots.setIfInBounds i (some entry), rest⟩)
  | [] => (t.slots.size, ⟨t.slots.push (some entry), []⟩)

/-- Changes the entry of a number, if it is live. -/
def modify (t : HandleTable α) (i : Nat) (change : α → α) : HandleTable α :=
  { t with slots := t.slots.modify i (Option.map change) }

/-- Removes the entry of a number and frees the number. -/
def remove (t : HandleTable α) (i : Nat) : HandleTable α :=
  ⟨t.slots.setIfInBounds i none, i :: t.free⟩

/-- The number of live entries. -/
def liveCount (t : HandleTable α) : Nat :=
  t.slots.countP Option.isSome

/-- The number of handles ever in use. -/
def size (t : HandleTable α) : Nat := t.slots.size

@[simp] theorem get?_empty (i : Nat) : ({} : HandleTable α).get? i = none := by
  simp [get?]

theorem get?_modify (t : HandleTable α) (i j : Nat) (change : α → α) :
    (t.modify i change).get? j = if i = j then (t.get? j).map change else t.get? j := by
  simp only [get?, modify, Array.getElem?_modify]
  split
  · cases t.slots[j]? <;> rfl
  · rfl

theorem get?_remove (t : HandleTable α) (i j : Nat) :
    (t.remove i).get? j = if i = j then none else t.get? j := by
  simp only [get?, remove, Array.getElem?_setIfInBounds]
  split
  · split <;> rfl
  · rfl

theorem get?_insert (t : HandleTable α) (entry : α) (j : Nat)
    (bounded : ∀ i ∈ t.free, i < t.slots.size) :
    (t.insert entry).2.get? j = if (t.insert entry).1 = j then some entry else t.get? j := by
  cases hfree : t.free with
  | nil =>
    simp only [get?, insert, hfree, Array.getElem?_push, eq_comm]
    split <;> rfl
  | cons i rest =>
    have hi : i < t.slots.size := bounded i (by simp [hfree])
    simp only [get?, insert, hfree, Array.getElem?_setIfInBounds, hi, if_true]
    split <;> rfl

end HandleTable

end JointModel
