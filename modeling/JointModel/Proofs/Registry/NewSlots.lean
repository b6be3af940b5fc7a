import JointModel.Proofs.Registry.Holdings

/-!
# What one more slot changes

A new positive slot adds a handle and leaves all stakes as they are
(`holdings_withBool_positive`).  A new negated slot adds its handle and changes the
stake of its partner, and nothing else (`holdings_withBool_negated`).  So does the
negation of an older slot, for a slot that mentions a negation that is not there yet
is tied like one without any (`holdings_withNegation`).
-/

namespace JointModel

namespace Registry

variable {r r' : Registry} {slot new partner : BoolSlot} {uses : Nat}

/-! ## One more slot -/

theorem bool?_withBool_size (r : Registry) (new : BoolSlot) :
    (r.withBool new).bool? ⟨r.bools.size⟩ = some new := by
  rw [bool?_withBool, if_pos rfl]

theorem vars_withBool (r : Registry) (new : BoolSlot) :
    (r.withBool new).vars.Perm (new.handle :: r.vars) := by
  simp only [vars, withBool, intVars, Array.toList_push, List.map_append, List.map_cons,
    List.map_nil, List.append_assoc, List.singleton_append]
  exact List.perm_middle

theorem link_congr (h : r'.handle? = r.handle?) (slot : BoolSlot) : r'.link slot = r.link slot := by
  simp only [link, h]

/-- A slot that does not mention the new one is tied as before. -/
theorem link_withBool (hpositive : slot.polarity ≠ .positive (some ⟨r.bools.size⟩))
    (hnegated : slot.polarity ≠ .negated ⟨r.bools.size⟩) :
    (r.withBool new).link slot = r.link slot := by
  have hhandle : ∀ {w : BoolId}, w ≠ ⟨r.bools.size⟩ →
      (r.withBool new).handle? w = r.handle? w := by
    intro w hw
    rw [handle?, handle?, bool?_withBool, if_neg fun h => hw (BoolId.index_inj.mp h)]
  cases hpolarity : slot.polarity with
  | positive m =>
      cases m with
      | none => simp only [link, hpolarity, Option.bind_none]
      | some m =>
          have hm : m ≠ ⟨r.bools.size⟩ := by
            rintro rfl
            exact hpositive hpolarity
          simp only [link, hpolarity, Option.bind_some, hhandle hm]
  | negated q =>
      have hq : q ≠ ⟨r.bools.size⟩ := by
        rintro rfl
        exact hnegated hpolarity
      simp only [link, hpolarity, hhandle hq]

theorem Aligned.not_negated_size (h : (r.withBool new).Aligned) (hslot : slot ∈ r.bools.toList) :
    slot.polarity ≠ .negated ⟨r.bools.size⟩ := by
  intro hpolarity
  obtain ⟨i, hi⟩ := exists_bool?_of_mem hslot
  have hlt : i.index < r.bools.size := lt_size_of_bool? hi
  have hlower := (h.negated (bool?_withBool_of_some hi new) hpolarity).1
  exact absurd hlower (Nat.lt_asymm hlt)

theorem holdings_withBool (r : Registry) (new : BoolSlot) (uses : Nat) :
    ((r.withBool new).holdings uses).Perm
      ((new.handle, (r.withBool new).boolStake uses new) ::
        (r.bools.toList.map (fun slot => (slot.handle, (r.withBool new).boolStake uses slot)) ++
          r.intVars.map fun v => (v, ⟨uses, .positive none⟩))) := by
  have hbools : (r.withBool new).bools.toList = r.bools.toList ++ [new] := Array.toList_push
  have hints : (r.withBool new).intVars = r.intVars := rfl
  simp only [holdings, hbools, hints, List.map_append, List.map_cons, List.map_nil,
    List.append_assoc, List.singleton_append]
  exact List.perm_middle

/-- A new positive slot is tied to nothing yet. -/
theorem holdings_withBool_positive (h : (r.withBool new).Aligned) {m : Option BoolId}
    (hnew : new.polarity = .positive m) (uses : Nat) :
    ((r.withBool new).holdings uses).Perm
      ((new.handle, ⟨uses, .positive none⟩) :: r.holdings uses) := by
  have hsize := bool?_withBool_size r new
  have hlink : (r.withBool new).link new = .positive none := by
    cases m with
    | none => simp only [link, hnew, Option.bind_none]
    | some m =>
        have hlater : r.bools.size < m.index := (h.positive hsize hnew).1
        have hnone : r.bool? m = none := Array.getElem?_eq_none (Nat.le_of_lt hlater)
        simp only [link, hnew, Option.bind_some, handle?, bool?_withBool,
          if_neg (Nat.ne_of_gt hlater), hnone, Option.map_none]
  have hpositive : new.isPositive = true := isPositive_of_link hlink
  have hold : ∀ slot ∈ r.bools.toList,
      (slot.handle, (r.withBool new).boolStake uses slot) = (slot.handle, r.boolStake uses slot) := by
    intro slot hslot
    rw [boolStake, boolStake, link_withBool ?_ (h.not_negated_size hslot)]
    intro hpolarity
    obtain ⟨i, hi⟩ := exists_bool?_of_mem hslot
    have hback := (h.positive (bool?_withBool_of_some hi new) hpolarity).2 hsize
    rw [hnew] at hback
    cases hback
  have hstake : (r.withBool new).boolStake uses new = ⟨uses, .positive none⟩ := by
    rw [boolStake, hlink, if_pos hpositive]
  refine (holdings_withBool r new uses).trans ?_
  rw [hstake, List.map_congr_left hold]
  rfl

/-- Two ways to map slots with different handles that agree on all of them but one. -/
theorem perm_map_of_agree {α : Type} {slots : List BoolSlot} {old new : BoolSlot → α}
    (hdistinct : (slots.map BoolSlot.handle).Nodup) (hpartner : partner ∈ slots)
    (hagree : ∀ slot ∈ slots, slot ≠ partner → new slot = old slot) :
    ∃ rest, (slots.map old).Perm (old partner :: rest) ∧
      (slots.map new).Perm (new partner :: rest) := by
  obtain ⟨l₁, l₂, hsplit⟩ := List.append_of_mem hpartner
  have hperm : slots.Perm (partner :: (l₁ ++ l₂)) := by
    rw [hsplit]
    exact List.perm_middle
  have hrest : ∀ slot ∈ l₁ ++ l₂, new slot = old slot := by
    intro slot hslot
    apply hagree slot (hperm.mem_iff.mpr (List.mem_cons_of_mem _ hslot))
    rintro rfl
    rw [(hperm.map BoolSlot.handle).nodup_iff, List.map_cons, List.nodup_cons] at hdistinct
    exact hdistinct.1 (List.mem_map_of_mem hslot)
  refine ⟨(l₁ ++ l₂).map old, hperm.map old, ?_⟩
  rw [← List.map_congr_left hrest]
  exact hperm.map new

/-- A new negated slot is tied to its partner, which was tied to nothing. -/
theorem holdings_withBool_negated (h : (r.withBool new).Aligned) {p : BoolId}
    (hnew : new.polarity = .negated p) (hdistinct : r.vars.Nodup) (uses : Nat) :
    ∃ partner rest, r.bool? p = some partner ∧
      (r.holdings uses).Perm ((partner.handle, ⟨uses, .positive none⟩) :: rest) ∧
      ((r.withBool new).holdings uses).Perm
        ((new.handle, ⟨0, .negation partner.handle⟩) ::
          (partner.handle, ⟨uses, .positive (some new.handle)⟩) :: rest) := by
  have hsize := bool?_withBool_size r new
  obtain ⟨hlower, partner, hp, hback⟩ := h.negated hsize hnew
  have hpartner : r.bool? p = some partner := by
    rwa [bool?_withBool, if_neg (Nat.ne_of_lt hlower)] at hp
  have hpositive : partner.isPositive = true := BoolSlot.isPositive_of_positive hback
  -- of the old slots only the partner mentions the new one
  have hagree : ∀ slot ∈ r.bools.toList, slot ≠ partner →
      (slot.handle, (r.withBool new).boolStake uses slot) = (slot.handle, r.boolStake uses slot) := by
    intro slot hslot hne
    rw [boolStake, boolStake, link_withBool ?_ (h.not_negated_size hslot)]
    intro hpolarity
    obtain ⟨i, hi⟩ := exists_bool?_of_mem hslot
    have hip := h.unique (bool?_withBool_of_some hi new) hp hpolarity hback
    rw [hip, hpartner] at hi
    cases hi
    exact hne rfl
  have hbefore : r.boolStake uses partner = ⟨uses, .positive none⟩ := by
    have hnone : r.bool? ⟨r.bools.size⟩ = none := Array.getElem?_eq_none (Nat.le_refl _)
    simp only [boolStake, hpositive, link, hback, Option.bind_some, handle?, hnone,
      Option.map_none, if_true]
  have hafter : (r.withBool new).boolStake uses partner = ⟨uses, .positive (some new.handle)⟩ := by
    simp only [boolStake, hpositive, link, hback, Option.bind_some, handle?, hsize,
      Option.map_some, if_true]
  have hadded : (r.withBool new).boolStake uses new = ⟨0, .negation partner.handle⟩ := by
    simp [boolStake, BoolSlot.isPositive_of_negated hnew, link, hnew, handle?, hp]
  obtain ⟨rest, hold, hmapped⟩ := perm_map_of_agree (List.nodup_append.mp hdistinct).1
    (mem_of_bool? hpartner) hagree
  rw [hbefore] at hold
  rw [hafter] at hmapped
  refine ⟨partner, rest ++ r.intVars.map fun v => (v, ⟨uses, .positive none⟩), hpartner,
    hold.append_right _, ?_⟩
  refine (holdings_withBool r new uses).trans ?_
  rw [hadded]
  exact (hmapped.append_right _).cons _

/-! ## Negations of older slots -/

/-- A registry in which the slot `v` mentions its negation. -/
def repolarized (r : Registry) (v : BoolId) (polarity : Polarity) : Registry :=
  { r with bools := r.bools.modify v.index fun slot => { slot with polarity } }

theorem bool?_repolarized (r : Registry) (v w : BoolId) (polarity : Polarity) :
    (r.repolarized v polarity).bool? w =
      if v = w then (r.bool? w).map fun slot => { slot with polarity } else r.bool? w := by
  simp only [bool?, repolarized, Array.getElem?_modify, BoolId.index_inj]

theorem handle?_repolarized (r : Registry) (v w : BoolId) (polarity : Polarity) :
    (r.repolarized v polarity).handle? w = r.handle? w := by
  rw [handle?, handle?, bool?_repolarized]
  split
  · cases r.bool? w <;> rfl
  · rfl

theorem vars_repolarized (r : Registry) (v : BoolId) (polarity : Polarity) :
    (r.repolarized v polarity).vars = r.vars := by
  have hbools : (r.repolarized v polarity).bools.toList.map BoolSlot.handle =
      r.bools.toList.map BoolSlot.handle := by
    refine List.ext_getElem? fun i => ?_
    have hhandle := handle?_repolarized r v ⟨i⟩ polarity
    simp only [handle?, bool?, ← Array.getElem?_toList] at hhandle
    simpa only [List.getElem?_map] using hhandle
  rw [vars, vars, hbools]
  rfl

theorem withNegation_eq {v : BoolId} (hv : v.index < r.bools.size) (new : BoolSlot) :
    r.withNegation v new =
      (r.repolarized v (.positive (some ⟨r.bools.size⟩))).withBool new := by
  have hbools : (r.bools.push new).modify v.index (fun slot =>
        { slot with polarity := .positive (some ⟨r.bools.size⟩) }) =
      (r.bools.modify v.index fun slot =>
        { slot with polarity := .positive (some ⟨r.bools.size⟩) }).push new := by
    refine Array.ext_getElem? fun i => ?_
    simp only [Array.getElem?_modify, Array.getElem?_push, Array.size_modify]
    by_cases hi : i = r.bools.size
    · simp [hi, Nat.ne_of_lt hv]
    · simp [hi]
  rw [withNegation, hbools]
  rfl

/-- To mention a slot that is not there yet makes no difference. -/
theorem holdings_repolarized {v : BoolId} (hv : r.bool? v = some slot)
    (hslot : slot.polarity = .positive none) (uses : Nat) :
    (r.repolarized v (.positive (some ⟨r.bools.size⟩))).holdings uses = r.holdings uses := by
  let r' := r.repolarized v (.positive (some ⟨r.bools.size⟩))
  have hhandle : r'.handle? = r.handle? := by
    funext w
    exact handle?_repolarized r v w _
  have hnone : r.handle? ⟨r.bools.size⟩ = none := by
    rw [handle?, bool?, Array.getElem?_eq_none (Nat.le_refl _), Option.map_none]
  have hbools : r'.bools.toList.map (fun slot => (slot.handle, r'.boolStake uses slot)) =
      r.bools.toList.map (fun slot => (slot.handle, r.boolStake uses slot)) := by
    refine List.ext_getElem? fun i => ?_
    have hbool := bool?_repolarized r v ⟨i⟩ (.positive (some ⟨r.bools.size⟩))
    simp only [bool?, ← Array.getElem?_toList] at hbool hv
    simp only [List.getElem?_map]
    rw [hbool]
    split
    · next hvi =>
        cases hvi
        rw [hv]
        simp [boolStake, BoolSlot.isPositive, BoolSlot.negates?, hslot, link, hhandle, hnone]
    · simp only [boolStake, link_congr hhandle]
  rw [holdings, holdings, hbools]
  rfl

/-- The negation of a slot without one. -/
theorem holdings_withNegation (h : r.Paired) {v : BoolId} (hv : r.bool? v = some slot)
    (hslot : slot.polarity = .positive none) (hnew : new.polarity = .negated v)
    (hdistinct : r.vars.Nodup) (uses : Nat) :
    ∃ rest, (r.holdings uses).Perm ((slot.handle, ⟨uses, .positive none⟩) :: rest) ∧
      ((r.withNegation v new).holdings uses).Perm
        ((new.handle, ⟨0, .negation slot.handle⟩) ::
          (slot.handle, ⟨uses, .positive (some new.handle)⟩) :: rest) := by
  have haligned := (h.withNegation hv hslot hnew).aligned
  -- first the slot mentions its negation, then that is added like any negated slot
  rw [withNegation_eq (lt_size_of_bool? hv)] at haligned ⊢
  obtain ⟨partner, rest, hpartner, hbefore, hafter⟩ :=
    holdings_withBool_negated haligned hnew (by rwa [vars_repolarized]) uses
  have hhandle : partner.handle = slot.handle := by
    have hsame := handle?_repolarized r v v (.positive (some ⟨r.bools.size⟩))
    rw [handle?, handle?, hpartner, hv] at hsame
    exact Option.some.inj hsame
  rw [hhandle] at hbefore hafter
  rw [holdings_repolarized hv hslot] at hbefore
  exact ⟨rest, hbefore, hafter⟩

/-! ## Integer slots and tables -/

/-- A registry with one more integer slot. -/
def withInt (r : Registry) (slot : IntSlot) : Registry := { r with ints := r.ints.push slot }

/-- Only boolean slots and the handles of integer slots count. -/
theorem holdings_congr (hbools : r'.bools = r.bools) (hints : r'.intVars = r.intVars)
    (uses : Nat) : r'.holdings uses = r.holdings uses := by
  have hhandle : r'.handle? = r.handle? := by
    funext w
    rw [handle?, handle?, bool?, bool?, hbools]
  simp only [holdings, boolStake, link_congr hhandle, hbools, hints]

theorem intVars_withInt (r : Registry) (slot : IntSlot) :
    (r.withInt slot).intVars = r.intVars ++ slot.handle.toList := by
  simp only [intVars, withInt, Array.toList_push, List.filterMap_append]
  cases hhandle : slot.handle <;> simp [hhandle]

theorem holdings_withInt (r : Registry) (slot : IntSlot) (uses : Nat) :
    ((r.withInt slot).holdings uses).Perm
      (slot.handle.toList.map (fun v => (v, ⟨uses, .positive none⟩)) ++ r.holdings uses) := by
  have hlink : ∀ other, (r.withInt slot).link other = r.link other := fun _ => rfl
  simp only [holdings, boolStake, hlink, intVars_withInt, List.map_append, ← List.append_assoc]
  refine List.perm_append_comm.trans ?_
  rw [List.append_assoc]
  exact .refl _

theorem intVars_withTable (r : Registry) (v : IntId) : (r.withTable v).intVars = r.intVars := by
  have hints : (r.withTable v).ints.toList.map IntSlot.handle = r.ints.toList.map IntSlot.handle := by
    refine List.ext_getElem? fun i => ?_
    simp only [withTable, List.getElem?_map, Array.getElem?_toList, Array.getElem?_modify]
    split
    · cases r.ints[i]? <;> rfl
    · rfl
  have hfilter : ∀ ints : List IntSlot,
      ints.filterMap IntSlot.handle = (ints.map IntSlot.handle).filterMap id := by
    intro ints
    rw [List.filterMap_map]
    rfl
  rw [intVars, intVars, hfilter, hints, ← hfilter]

end Registry

end JointModel
