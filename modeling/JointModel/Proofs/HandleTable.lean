import JointModel.HandleTable
import Mathlib.Data.Set.Card

/-!
# Sound handle tables

A handle table is sound if its stack of free numbers lists every number without
an entry exactly once.  All operations keep a table sound, provided that only
live entries are removed, and in a sound table an insertion never overwrites an
entry: the number that it picks stands for nothing before (`get?_insert_fst`).

So a table only grows if all its numbers are in use, and then it has as many numbers
as entries (`Step.size_eq`).
-/

namespace JointModel

variable {α : Type}

/-! ## Counting slots -/

theorem finite_filled (slots : List (Option α)) : {i : Nat | slots[i]?.join ≠ none}.Finite := by
  refine (Set.finite_lt_nat slots.length).subset fun i hi => ?_
  refine Decidable.byContradiction fun hlt => hi ?_
  rw [List.getElem?_eq_none (Nat.le_of_not_lt hlt), Option.join_none]

theorem countP_isSome_eq_ncard (slots : List (Option α)) :
    slots.countP Option.isSome = {i : Nat | slots[i]?.join ≠ none}.ncard := by
  induction slots using List.reverseRecOn with
  | nil => simp
  | append_singleton slots o ih =>
      have hold : ∀ i, i ≠ slots.length → (slots ++ [o])[i]? = slots[i]? := by
        intro i hi
        rcases Nat.lt_or_gt_of_ne hi with hlt | hgt
        · exact List.getElem?_append_left hlt
        · rw [List.getElem?_eq_none (by simpa using hgt), List.getElem?_eq_none hgt.le]
      have hlast : (slots ++ [o])[slots.length]? = some o := List.getElem?_concat_length
      have hnone : slots[slots.length]? = none := List.getElem?_eq_none le_rfl
      rw [List.countP_append, ih]
      cases o with
      | none =>
          have hsame : {i : Nat | (slots ++ [none])[i]?.join ≠ none} =
              {i : Nat | slots[i]?.join ≠ none} := by
            ext i
            by_cases hi : i = slots.length
            · simp [hi]
            · simp only [Set.mem_ofPred_eq, hold i hi]
          rw [hsame]
          rfl
      | some entry =>
          have hmore : {i : Nat | (slots ++ [some entry])[i]?.join ≠ none} =
              insert slots.length {i : Nat | slots[i]?.join ≠ none} := by
            ext i
            by_cases hi : i = slots.length
            · simp [hi]
            · simp only [Set.mem_ofPred_eq, hold i hi, Set.mem_insert_iff, hi, false_or]
          rw [hmore, Set.ncard_insert_of_notMem (by simp) (finite_filled slots)]
          rfl

namespace HandleTable

variable {t t' start : HandleTable α}

/-! ## Soundness -/

/-- The free numbers are those without an entry, each listed once. -/
structure Sound (t : HandleTable α) : Prop where
  nodup : t.free.Nodup
  mem_free : ∀ i, i ∈ t.free ↔ t.slots[i]? = some none

theorem sound_empty : Sound ({} : HandleTable α) := ⟨List.nodup_nil, by simp⟩

theorem Sound.lt_size (h : t.Sound) {i : Nat} (hi : i ∈ t.free) : i < t.slots.size := by
  obtain ⟨hlt, -⟩ := Array.getElem?_eq_some_iff.mp ((h.mem_free i).mp hi)
  exact hlt

/-- The number that the next entry gets stands for nothing yet. -/
theorem Sound.get?_insert_fst (h : t.Sound) (entry : α) : t.get? (t.insert entry).1 = none := by
  cases hfree : t.free with
  | nil => simp [insert, hfree, get?]
  | cons i rest =>
      have hi : t.slots[i]? = some none := (h.mem_free i).mp (by simp [hfree])
      simp [insert, hfree, get?, hi]

theorem Sound.get?_insert (h : t.Sound) (entry : α) (j : Nat) :
    (t.insert entry).2.get? j = if (t.insert entry).1 = j then some entry else t.get? j :=
  HandleTable.get?_insert t entry j fun _ hi => h.lt_size hi

theorem Sound.insert (h : t.Sound) (entry : α) : (t.insert entry).2.Sound := by
  cases hfree : t.free with
  | nil =>
      refine ⟨by simp [HandleTable.insert, hfree], fun i => ?_⟩
      have hnone : t.slots[i]? ≠ some none := fun hi => by
        simpa [hfree] using (h.mem_free i).mpr hi
      simp only [HandleTable.insert, hfree, Array.getElem?_push]
      split
      · simp
      · simpa using hnone
  | cons i rest =>
      -- the number `i` leaves the free list as its slot is filled
      have hnodup : (i :: rest).Nodup := hfree ▸ h.nodup
      have hlt : i < t.slots.size := h.lt_size (by simp [hfree])
      refine ⟨by simpa only [HandleTable.insert, hfree] using (List.nodup_cons.mp hnodup).2,
        fun j => ?_⟩
      have hj := h.mem_free j
      simp only [hfree, List.mem_cons] at hj
      simp only [HandleTable.insert, hfree, Array.getElem?_setIfInBounds, hlt, if_true]
      split
      · next heq =>
          subst heq
          simp [(List.nodup_cons.mp hnodup).1]
      · next hne => rw [← hj, or_iff_right (Ne.symm hne)]

theorem Sound.modify (h : t.Sound) (i : Nat) (change : α → α) : (t.modify i change).Sound := by
  refine ⟨h.nodup, fun j => (h.mem_free j).trans ?_⟩
  simp only [HandleTable.modify, Array.getElem?_modify]
  split
  · cases t.slots[j]? with
    | none => simp
    | some o => cases o <;> simp
  · rfl

theorem Sound.remove (h : t.Sound) {i : Nat} (hlive : (t.get? i).isSome) :
    (t.remove i).Sound := by
  obtain ⟨entry, hentry⟩ := Option.isSome_iff_exists.mp hlive
  have hi : t.slots[i]? = some (some entry) := by
    simpa [get?, Option.join_eq_some_iff] using hentry
  have hlt : i < t.slots.size := (Array.getElem?_eq_some_iff.mp hi).1
  refine ⟨List.nodup_cons.mpr ⟨?_, h.nodup⟩, ?_⟩
  · rw [h.mem_free, hi]
    simp
  · intro j
    simp only [HandleTable.remove, List.mem_cons, h.mem_free, Array.getElem?_setIfInBounds, hlt,
      if_true]
    split
    · next heq => simp [heq]
    · next hne => rw [or_iff_right (Ne.symm hne)]

/-- An insertion adds one live entry. -/
theorem Sound.liveCount_insert (h : t.Sound) (entry : α) :
    (t.insert entry).2.liveCount = t.liveCount + 1 := by
  cases hfree : t.free with
  | nil => simp [HandleTable.insert, liveCount, hfree]
  | cons i rest =>
      have hi : t.slots[i]? = some none := (h.mem_free i).mp (by simp [hfree])
      obtain ⟨hlt, hnone⟩ := Array.getElem?_eq_some_iff.mp hi
      simp [HandleTable.insert, liveCount, hfree, Array.setIfInBounds, hlt, Array.countP_set,
        hnone]

/-- No entry is counted if and only if no number stands for one. -/
theorem liveCount_eq_zero_iff : t.liveCount = 0 ↔ ∀ i, t.get? i = none := by
  unfold liveCount get?
  rw [Array.countP_eq_zero]
  constructor
  · intro h i
    cases hi : t.slots[i]? with
    | none => rfl
    | some o => simpa using h o (Array.mem_of_getElem? hi)
  · intro h o ho
    obtain ⟨i, hi⟩ := Array.getElem?_of_mem ho
    have := h i
    rw [hi] at this
    simpa using this

/-! ## Sizes -/

/-- As many entries are live as there are numbers that stand for one. -/
theorem liveCount_eq_ncard (t : HandleTable α) : t.liveCount = {i | t.get? i ≠ none}.ncard := by
  simp only [liveCount, get?, ← Array.countP_toList, countP_isSome_eq_ncard, Array.getElem?_toList]

theorem finite_live (t : HandleTable α) : {i | t.get? i ≠ none}.Finite := by
  simp only [get?, ← Array.getElem?_toList]
  exact finite_filled t.slots.toList

theorem liveCount_modify (t : HandleTable α) (i : Nat) (change : α → α) :
    (t.modify i change).liveCount = t.liveCount := by
  simp only [liveCount_eq_ncard, get?_modify]
  congr 1
  ext j
  by_cases hij : i = j <;> simp [hij]

theorem liveCount_le_size (t : HandleTable α) : t.liveCount ≤ t.size := Array.countP_le_size

/-- If no number is free, all are in use. -/
theorem Sound.liveCount_of_free_nil (h : t.Sound) (hfree : t.free = []) : t.liveCount = t.size := by
  refine Array.countP_eq_size.mpr fun o ho => ?_
  obtain ⟨i, hi⟩ := Array.getElem?_of_mem ho
  cases o with
  | some entry => rfl
  | none => simpa [hfree] using (h.mem_free i).mpr hi

@[simp] theorem size_modify (t : HandleTable α) (i : Nat) (change : α → α) :
    (t.modify i change).size = t.size := Array.size_modify

@[simp] theorem size_remove (t : HandleTable α) (i : Nat) : (t.remove i).size = t.size :=
  Array.size_setIfInBounds

/-- A table grows if all numbers are in use, and then to the number of live entries. -/
theorem Sound.size_insert (h : t.Sound) (entry : α) :
    (t.insert entry).2.size = max t.size (t.liveCount + 1) := by
  have hle := liveCount_le_size (t.insert entry).2
  rw [h.liveCount_insert] at hle
  cases hfree : t.free with
  | nil =>
      have hfull := h.liveCount_of_free_nil hfree
      simp only [size, HandleTable.insert, hfree, Array.size_push] at hfull ⊢
      omega
  | cons i rest =>
      have hsame : (t.insert entry).2.size = t.size := by
        simp only [size, HandleTable.insert, hfree, Array.size_setIfInBounds]
      rw [hsame] at hle ⊢
      exact (max_eq_left hle).symm

/-- What can be done to a table.  Only live entries are removed. -/
inductive Step (t : HandleTable α) : HandleTable α → Prop
  | insert (entry : α) : Step t (t.insert entry).2
  | modify (i : Nat) (change : α → α) : Step t (t.modify i change)
  | remove {i : Nat} : (t.get? i).isSome → Step t (t.remove i)

theorem Step.sound (hstep : t.Step t') (h : t.Sound) : t'.Sound := by
  cases hstep with
  | insert entry => exact h.insert entry
  | modify i change => exact h.modify i change
  | remove hlive => exact h.remove hlive

/-- A table never grows beyond what it has to hold. -/
theorem Step.size_eq (hstep : t.Step t') (h : t.Sound) : t'.size = max t.size t'.liveCount := by
  have hbounded := liveCount_le_size t'
  cases hstep with
  | insert entry => rw [h.liveCount_insert, h.size_insert]
  | modify i change =>
      rw [size_modify] at hbounded ⊢
      exact (max_eq_left hbounded).symm
  | @remove i hlive =>
      rw [size_remove] at hbounded ⊢
      exact (max_eq_left hbounded).symm

/-- Entries were stored in the table `start`, and none was removed. -/
structure Fills (start t : HandleTable α) : Prop where
  sound : t.Sound
  size : t.size = max start.size t.liveCount

theorem fills_refl (h : t.Sound) : Fills t t := ⟨h, (max_eq_left (liveCount_le_size t)).symm⟩

theorem Fills.insert (h : Fills start t) (entry : α) : Fills start (t.insert entry).2 where
  sound := h.sound.insert entry
  size := by
    rw [h.sound.size_insert, h.size, h.sound.liveCount_insert]
    omega

theorem Fills.modify (h : Fills start t) (i : Nat) (change : α → α) :
    Fills start (t.modify i change) :=
  ⟨h.sound.modify i change, by rw [size_modify, h.size, liveCount_modify]⟩

end HandleTable

end JointModel
