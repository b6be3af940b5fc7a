import Mathlib.Data.List.Nodup
import Mathlib.Data.Set.Card

/-!
# Maps that hold a list of keys

A map from keys to entries holds a list over another map if it has one entry more
for every key of the list, and otherwise is that map (`Holds`).  What is known
about an entry behind a key is the grade that the list gives next to it.

Over the map without entries, the list says which entries there are.  Over the map
before a fork, it says which entries are new.
-/

namespace JointModel

variable {κ ι σ : Type}

/-- The entries of `view` are those of `base` and one for each key of the list,
with the grade that the list gives. -/
structure Holds (grade : ι → σ) (base view : κ → Option ι) (list : List (κ × σ)) : Prop where
  distinct : (list.map Prod.fst).Nodup
  fresh : ∀ {k}, k ∈ list.map Prod.fst → base k = none
  graded : ∀ {k x}, (k, x) ∈ list → ∃ entry, view k = some entry ∧ grade entry = x
  others : ∀ {k}, k ∉ list.map Prod.fst → view k = base k

namespace Holds

variable {grade : ι → σ} {base mid view view' : κ → Option ι} {k : κ} {x y : σ} {entry : ι}
  {list list' old new : List (κ × σ)}

theorem nil : Holds grade base base ([] : List (κ × σ)) :=
  ⟨List.nodup_nil, fun hk => by simp at hk, fun hk => by simp at hk, fun _ => rfl⟩

theorem perm (h : Holds grade base view list) (hperm : list'.Perm list) :
    Holds grade base view list' := by
  have hkeys : (list'.map Prod.fst).Perm (list.map Prod.fst) := hperm.map Prod.fst
  exact ⟨hkeys.nodup_iff.mpr h.distinct, fun hk => h.fresh (hkeys.mem_iff.mp hk),
    fun hk => h.graded (hperm.mem_iff.mp hk), fun hk => h.others (mt hkeys.mem_iff.mpr hk)⟩

theorem live (h : Holds grade base view list) (hk : k ∈ list.map Prod.fst) :
    ∃ entry, view k = some entry := by
  obtain ⟨⟨k, x⟩, hmem, rfl⟩ := List.mem_map.mp hk
  obtain ⟨entry, hentry, -⟩ := h.graded hmem
  exact ⟨entry, hentry⟩

/-- An entry of the view that is not in the list was there before. -/
theorem mem_or_base (h : Holds grade base view list) (hk : view k = some entry) :
    (k, grade entry) ∈ list ∨ base k = some entry := by
  by_cases hmem : k ∈ list.map Prod.fst
  · obtain ⟨⟨k, x⟩, hx, rfl⟩ := List.mem_map.mp hmem
    obtain ⟨other, hother, rfl⟩ := h.graded hx
    rw [hk] at hother
    cases hother
    exact .inl hx
  · exact .inr ((h.others hmem).symm.trans hk)

theorem not_mem_of_dead (h : Holds grade base view list) (hk : view k = none) :
    k ∉ list.map Prod.fst := by
  intro hmem
  obtain ⟨entry, hentry⟩ := h.live hmem
  rw [hk] at hentry
  cases hentry

/-- What was there before is there still. -/
theorem kept (h : Holds grade base view list) (hk : base k = some entry) : view k = some entry := by
  rw [h.others, hk]
  intro hmem
  rw [h.fresh hmem] at hk
  cases hk

/-- A list over a map that itself holds a list. -/
theorem trans (h : Holds grade base mid list) (h' : Holds grade mid view new) :
    Holds grade base view (new ++ list) := by
  have hdisjoint : ∀ {k}, k ∈ list.map Prod.fst → k ∉ new.map Prod.fst := by
    intro k hk hnew
    obtain ⟨entry, hentry⟩ := h.live hk
    rw [h'.fresh hnew] at hentry
    cases hentry
  refine ⟨?_, ?_, ?_, ?_⟩
  · rw [List.map_append, List.nodup_append']
    exact ⟨h'.distinct, h.distinct, fun k hnew hk => hdisjoint hk hnew⟩
  · intro k hk
    rw [List.map_append, List.mem_append] at hk
    rcases hk with hk | hk
    · rw [← h.others (h.not_mem_of_dead (h'.fresh hk))]
      exact h'.fresh hk
    · exact h.fresh hk
  · intro k x hk
    rcases List.mem_append.mp hk with hk | hk
    · exact h'.graded hk
    · obtain ⟨entry, hentry, hx⟩ := h.graded hk
      exact ⟨entry, by rw [h'.others (hdisjoint (List.mem_map_of_mem hk)), hentry], hx⟩
  · intro k hk
    rw [List.map_append, List.mem_append, not_or] at hk
    rw [h'.others hk.1, h.others hk.2]

/-- Other grades for the same keys. -/
theorem regrade (h : Holds grade base view (old ++ list))
    (hkeys : new.map Prod.fst = old.map Prod.fst)
    (hgraded : ∀ {k x}, (k, x) ∈ new → ∃ entry, view' k = some entry ∧ grade entry = x)
    (hview : ∀ {k}, k ∉ old.map Prod.fst → view' k = view k) :
    Holds grade base view' (new ++ list) := by
  have hkeys' : (new ++ list).map Prod.fst = (old ++ list).map Prod.fst := by
    rw [List.map_append, List.map_append, hkeys]
  have hdisjoint : ∀ {k}, k ∈ list.map Prod.fst → k ∉ old.map Prod.fst := by
    intro k hk hold
    have hdistinct := h.distinct
    rw [List.map_append, List.nodup_append'] at hdistinct
    exact hdistinct.2.2 hold hk
  refine ⟨hkeys' ▸ h.distinct, fun {k} hk => h.fresh (hkeys' ▸ hk), ?_, ?_⟩
  · intro k x hk
    rcases List.mem_append.mp hk with hk | hk
    · exact hgraded hk
    · rw [hview (hdisjoint (List.mem_map_of_mem hk))]
      exact h.graded (List.mem_append_right old hk)
  · intro k hk
    rw [hkeys'] at hk
    have hold : k ∉ old.map Prod.fst := fun hmem => by simp [hmem] at hk
    rw [hview hold, h.others hk]

/-- The entries behind some of the keys leave. -/
theorem drop (h : Holds grade base view (old ++ list))
    (hgone : ∀ {k}, k ∈ old.map Prod.fst → view' k = none)
    (hview : ∀ {k}, k ∉ old.map Prod.fst → view' k = view k) :
    Holds grade base view' list := by
  have hdistinct := h.distinct
  rw [List.map_append, List.nodup_append'] at hdistinct
  refine ⟨hdistinct.2.1, fun {k} hk => h.fresh (by simp [hk]), ?_, ?_⟩
  · intro k x hk
    rw [hview fun hold => hdistinct.2.2 hold (List.mem_map_of_mem hk)]
    exact h.graded (List.mem_append_right old hk)
  · intro k hk
    by_cases hold : k ∈ old.map Prod.fst
    · rw [hgone hold, h.fresh (by simp [hold])]
    · rw [hview hold, h.others (by simp [hold, hk])]

/-- There are as many entries more as keys in the list. -/
theorem ncard_live [DecidableEq κ] (h : Holds grade base view list)
    (hfinite : {k | base k ≠ none}.Finite) :
    {k | view k ≠ none}.ncard = {k | base k ≠ none}.ncard + list.length := by
  have hunion : {k | view k ≠ none} =
      {k | base k ≠ none} ∪ ((list.map Prod.fst).toFinset : Set κ) := by
    ext k
    rw [Set.mem_union, Finset.mem_coe, List.mem_toFinset]
    constructor
    · intro hk
      by_cases hmem : k ∈ list.map Prod.fst
      · exact .inr hmem
      · exact .inl fun hbase => hk ((h.others hmem).trans hbase)
    · rintro (hk | hk)
      · obtain ⟨entry, hbase⟩ := Option.ne_none_iff_exists'.mp hk
        exact Option.ne_none_iff_exists'.mpr ⟨entry, h.kept hbase⟩
      · exact Option.ne_none_iff_exists'.mpr (h.live hk)
  have hdisjoint : Disjoint {k | base k ≠ none} ((list.map Prod.fst).toFinset : Set κ) := by
    refine Set.disjoint_left.mpr fun k hk hmem => hk (h.fresh ?_)
    rwa [Finset.mem_coe, List.mem_toFinset] at hmem
  rw [hunion, Set.ncard_union_eq hdisjoint hfinite (Finset.finite_toSet _), Set.ncard_coe_finset,
    List.toFinset_card_of_nodup h.distinct, List.length_map]

/-! ## Single entries -/

variable [DecidableEq κ]

/-- One new entry. -/
theorem single (hfresh : base k = none)
    (hview : ∀ l, view l = if l = k then some entry else base l) :
    Holds grade base view [(k, grade entry)] := by
  refine ⟨List.nodup_singleton k, ?_, ?_, ?_⟩
  · intro l hl
    rw [List.mem_singleton.mp hl, hfresh]
  · intro l x hl
    cases List.mem_singleton.mp hl
    exact ⟨entry, (hview k).trans (if_pos rfl), rfl⟩
  · intro l hl
    rw [hview, if_neg (by simpa using hl)]

theorem add (h : Holds grade base view list) (hfresh : view k = none)
    (hview : ∀ l, view' l = if l = k then some entry else view l) :
    Holds grade base view' ((k, grade entry) :: list) :=
  h.trans (single hfresh hview)

/-- One entry changes. -/
theorem change (h : Holds grade base view ((k, x) :: list))
    (hview : ∀ l, view' l = if l = k then some entry else view l) :
    Holds grade base view' ((k, grade entry) :: list) := by
  have h : Holds grade base view ([(k, x)] ++ list) := h
  show Holds grade base view' ([(k, grade entry)] ++ list)
  refine h.regrade rfl (fun {l y} hl => ?_) fun {l} hl => ?_
  · cases List.mem_singleton.mp hl
    exact ⟨entry, (hview k).trans (if_pos rfl), rfl⟩
  · rw [hview, if_neg (by simpa using hl)]

end Holds

end JointModel
