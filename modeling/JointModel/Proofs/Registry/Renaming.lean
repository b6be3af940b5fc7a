import JointModel.Proofs.Registry.Tables
import JointModel.Proofs.Session.Members
import Mathlib.Data.List.Nodup
import Mathlib.Data.Set.Function

/-!
# Renaming handles

Two sessions may store the same variables under different handles.  A renaming `ρ` sends
each handle of the one to the handle of the other.

* A registry is renamed slot by slot, and every way to add a slot commutes with that
  (`renamed_withBool` and its companions).
* `Session.Renames ρ vars s t` says that `t` has the entries of `s` behind the handles
  `vars`, once these are renamed, and the same problem.  What else the sessions store makes
  no difference.

A variable that is new in both sessions gets its handles related by an update of the
renaming (`Renames.enrol`, `Renames.negate`).  The handle is fresh, so the update leaves all
that was renamed before as it was.
-/

namespace JointModel

variable {ρ σ : VarId → VarId} {v w n : VarId}

/-! ## Entries -/

/-- The handle that a link mentions. -/
def Link.partner? : Link → Option VarId
  | .positive n => n
  | .negation p => some p

/-- A link with its handle renamed. -/
def Link.renamed (ρ : VarId → VarId) : Link → Link
  | .positive n => .positive (n.map ρ)
  | .negation p => .negation (ρ p)

/-- An entry with its link renamed. -/
def VarInfo.renamed (ρ : VarId → VarId) (entry : VarInfo) : VarInfo :=
  { entry with link := entry.link.renamed ρ }

/-- A problem with its variables renamed. -/
def Problem.renamed (ρ : VarId → VarId) (problem : Problem) : Problem :=
  { problem with vars := problem.vars.map ρ }

theorem Link.renamed_congr {link : Link} (h : ∀ w, link.partner? = some w → σ w = ρ w) :
    link.renamed σ = link.renamed ρ := by
  cases link with
  | positive n =>
      cases n with
      | none => rfl
      | some n => simp only [Link.renamed, Option.map_some, h n rfl]
  | negation p => rw [Link.renamed, Link.renamed, h p rfl]

theorem VarInfo.renamed_congr {entry : VarInfo}
    (h : ∀ w, entry.link.partner? = some w → σ w = ρ w) : entry.renamed σ = entry.renamed ρ := by
  rw [VarInfo.renamed, VarInfo.renamed, Link.renamed_congr h]

theorem Problem.renamed_congr {problem : Problem} (h : ∀ v ∈ problem.vars, σ v = ρ v) :
    problem.renamed σ = problem.renamed ρ := by
  rw [Problem.renamed, Problem.renamed, Array.map_congr_left h]

@[simp] theorem Link.renamed_id (link : Link) : link.renamed id = link := by
  cases link <;> simp [Link.renamed]

@[simp] theorem VarInfo.renamed_id (entry : VarInfo) : entry.renamed id = entry := by
  simp [VarInfo.renamed]

@[simp] theorem Problem.renamed_id (problem : Problem) : problem.renamed id = problem := by
  simp [Problem.renamed]

/-! ## Registries -/

/-- A boolean slot with its handle renamed. -/
def BoolSlot.renamed (ρ : VarId → VarId) (slot : BoolSlot) : BoolSlot :=
  { slot with handle := ρ slot.handle }

/-- An integer slot with its handle renamed, if it has one. -/
def IntSlot.renamed (ρ : VarId → VarId) (slot : IntSlot) : IntSlot :=
  { slot with handle := slot.handle.map ρ }

namespace Registry

variable {r : Registry} {x : IntId}

/-- A registry with all its handles renamed. -/
def renamed (ρ : VarId → VarId) (r : Registry) : Registry :=
  { r with bools := r.bools.map (BoolSlot.renamed ρ), ints := r.ints.map (IntSlot.renamed ρ) }

theorem bool?_renamed (r : Registry) (v : BoolId) :
    (r.renamed ρ).bool? v = (r.bool? v).map (BoolSlot.renamed ρ) := Array.getElem?_map

theorem int?_renamed (r : Registry) (x : IntId) :
    (r.renamed ρ).int? x = (r.int? x).map (IntSlot.renamed ρ) := Array.getElem?_map

theorem size_bools_renamed (r : Registry) : (r.renamed ρ).bools.size = r.bools.size :=
  Array.size_map

theorem size_ints_renamed (r : Registry) : (r.renamed ρ).ints.size = r.ints.size :=
  Array.size_map

/-- Tables hold slots and no handles. -/
theorem indicator?_renamed (r : Registry) (x : IntId) (value : Int) :
    (r.renamed ρ).indicator? x value = r.indicator? x value := by
  have hx := int?_renamed (ρ := ρ) r x
  cases hslot : r.int? x with
  | none =>
      rw [hslot, Option.map_none] at hx
      rw [indicator?_of_unknown hx, indicator?_of_unknown hslot]
  | some slot =>
      rw [hslot, Option.map_some] at hx
      rw [indicator?_of_int? hx, indicator?_of_int? hslot]
      rfl

theorem vars_renamed (r : Registry) : (r.renamed ρ).vars = r.vars.map ρ := by
  have hbools : (r.renamed ρ).bools.toList.map BoolSlot.handle =
      (r.bools.toList.map BoolSlot.handle).map ρ := by
    rw [renamed, Array.toList_map, List.map_map, List.map_map]
    rfl
  have hints : (r.renamed ρ).intVars = r.intVars.map ρ := by
    rw [intVars, intVars, renamed, Array.toList_map, List.filterMap_map, List.map_filterMap]
    rfl
  rw [vars, vars, hbools, hints, List.map_append]

@[simp] theorem renamed_id (r : Registry) : r.renamed id = r := by
  have hbool : BoolSlot.renamed id = id := rfl
  have hint : IntSlot.renamed id = id := by
    funext slot
    simp [IntSlot.renamed]
  rw [renamed, hbool, hint, Array.map_id, Array.map_id]

/-- Only the handles of the registry matter. -/
theorem renamed_congr (h : ∀ v ∈ r.vars, σ v = ρ v) : r.renamed σ = r.renamed ρ := by
  have hbools : r.bools.map (BoolSlot.renamed σ) = r.bools.map (BoolSlot.renamed ρ) := by
    refine Array.map_congr_left fun slot hslot => ?_
    have hmem : slot.handle ∈ r.vars :=
      List.mem_append_left _ (List.mem_map_of_mem (Array.mem_toList_iff.mpr hslot))
    rw [BoolSlot.renamed, BoolSlot.renamed, h _ hmem]
  have hints : r.ints.map (IntSlot.renamed σ) = r.ints.map (IntSlot.renamed ρ) := by
    refine Array.map_congr_left fun slot hslot => ?_
    rw [IntSlot.renamed, IntSlot.renamed]
    cases hhandle : slot.handle with
    | none => rfl
    | some v =>
        have hmem : v ∈ r.vars := List.mem_append_right _
          (List.mem_filterMap.mpr ⟨slot, Array.mem_toList_iff.mpr hslot, hhandle⟩)
        rw [Option.map_some, Option.map_some, h v hmem]
  rw [renamed, renamed, hbools, hints]

/-! ## Adding slots to a renamed registry -/

theorem renamed_withBool (r : Registry) (slot : BoolSlot) :
    (r.withBool slot).renamed ρ = (r.renamed ρ).withBool (slot.renamed ρ) := by
  rw [renamed, withBool, Array.map_push]
  rfl

theorem renamed_withInt (r : Registry) (slot : IntSlot) :
    (r.withInt slot).renamed ρ = (r.renamed ρ).withInt (slot.renamed ρ) := by
  rw [renamed, withInt, Array.map_push]
  rfl

/-- To change an element and then all of them, or the other way around. -/
theorem map_modify_comm {α : Type} (xs : Array α) (i : Nat) {change rename : α → α}
    (hcomm : ∀ x, rename (change x) = change (rename x)) :
    (xs.modify i change).map rename = (xs.map rename).modify i change := by
  refine Array.ext_getElem? fun j => ?_
  simp only [Array.getElem?_map, Array.getElem?_modify]
  split
  · cases xs[j]? with
    | none => rfl
    | some x => simp only [Option.map_some, hcomm]
  · rfl

theorem renamed_withNegation (r : Registry) (v : BoolId) (negated : BoolSlot) :
    (r.withNegation v negated).renamed ρ =
      (r.renamed ρ).withNegation v (negated.renamed ρ) := by
  simp only [renamed, withNegation]
  rw [map_modify_comm, Array.map_push, Array.size_map]
  exact fun _ => rfl

theorem renamed_withTable (r : Registry) (x : IntId) :
    (r.withTable x).renamed ρ = (r.renamed ρ).withTable x := by
  simp only [renamed, withTable]
  rw [map_modify_comm]
  exact fun _ => rfl

theorem renamed_withIndicator (r : Registry) (x : IntId) (slot : IntSlot) (value : Int)
    (v : BoolId) : (r.withIndicator x slot value v).renamed ρ =
      (r.renamed ρ).withIndicator x slot value v := by
  rw [withIndicator, withIndicator]
  cases slot.table with
  | some table => rfl
  | none =>
      show ((r.withTable x).renamed ρ).insertAt r.tables.size value v = _
      rw [renamed_withTable]
      rfl

theorem vars_withNegation {v : BoolId} {slot negated : BoolSlot} (hv : r.bool? v = some slot) :
    (r.withNegation v negated).vars.Perm (negated.handle :: r.vars) := by
  rw [withNegation_eq (lt_size_of_bool? hv)]
  refine (vars_withBool _ _).trans ?_
  rw [vars_repolarized]

end Registry

/-! ## Sessions -/

namespace Session

variable {s s' t t' : Session} {vars vars' : List VarId} {entry other : VarInfo}

/-- Behind the handles `vars` the session `t` has the entries of `s`, renamed, and it has the
same problem, renamed. -/
structure Renames (ρ : VarId → VarId) (vars : List VarId) (s t : Session) : Prop where
  distinct : (vars.map ρ).Nodup
  entries : ∀ v ∈ vars, ∃ entry, s.var? v = some entry ∧ t.var? (ρ v) = some (entry.renamed ρ) ∧
    ∀ w, entry.link.partner? = some w → w ∈ vars
  problem : ∃ problem, s.problem = some problem ∧ t.problem = some (problem.renamed ρ) ∧
    ∀ v ∈ problem.vars, v ∈ vars

theorem Renames.bijOn (h : Renames ρ vars s t) :
    Set.BijOn ρ {v | v ∈ vars} {w | w ∈ vars.map ρ} := by
  refine ⟨fun v hv => List.mem_map_of_mem hv, fun v hv w hw hsame => ?_, fun w hw => ?_⟩
  · exact List.inj_on_of_nodup_map h.distinct hv hw hsame
  · exact List.mem_map.mp hw

theorem Renames.perm (h : Renames ρ vars s t) (hperm : vars'.Perm vars) :
    Renames ρ vars' s t where
  distinct := (hperm.map ρ).nodup_iff.mpr h.distinct
  entries v hv := by
    obtain ⟨entry, hentry, hentry', hpartner⟩ := h.entries v (hperm.mem_iff.mp hv)
    exact ⟨entry, hentry, hentry', fun w hw => hperm.mem_iff.mpr (hpartner w hw)⟩
  problem := by
    obtain ⟨problem, hproblem, hproblem', hmembers⟩ := h.problem
    exact ⟨problem, hproblem, hproblem', fun v hv => hperm.mem_iff.mpr (hmembers v hv)⟩

/-- What happens elsewhere in the first session makes no difference. -/
theorem Renames.of_left (h : Renames ρ vars s t)
    (hkept : ∀ {v entry}, v ∈ vars → s.var? v = some entry → s'.var? v = some entry)
    (hproblem : s'.problem = s.problem) : Renames ρ vars s' t where
  distinct := h.distinct
  entries v hv := by
    obtain ⟨entry, hentry, hrest⟩ := h.entries v hv
    exact ⟨entry, hkept hv hentry, hrest⟩
  problem := by
    rw [hproblem]
    exact h.problem

/-- Nor does what happens elsewhere in the second one. -/
theorem Renames.of_right (h : Renames ρ vars s t)
    (hkept : ∀ {w entry}, w ∈ vars.map ρ → t.var? w = some entry → t'.var? w = some entry)
    (hproblem : t'.problem = t.problem) : Renames ρ vars s t' where
  distinct := h.distinct
  entries v hv := by
    obtain ⟨entry, hentry, hentry', hpartner⟩ := h.entries v hv
    exact ⟨entry, hentry, hkept (List.mem_map_of_mem hv) hentry', hpartner⟩
  problem := by
    rw [hproblem]
    exact h.problem

/-! ## New variables in both sessions -/

/-- Handles that stand for nothing yet are none of those that are renamed. -/
theorem Renames.not_mem (h : Renames ρ vars s t) (hv : s.var? v = none) : v ∉ vars := by
  intro hmem
  obtain ⟨entry, hentry, -⟩ := h.entries v hmem
  rw [hv] at hentry
  cases hentry

theorem Renames.ne_of_fresh (h : Renames ρ vars s t) (hv : v ∈ vars) (hw : t.var? w = none) :
    ρ v ≠ w := by
  rintro rfl
  obtain ⟨entry, -, hentry, -⟩ := h.entries v hv
  rw [hw] at hentry
  cases hentry

/-- The renaming that sends `v` to `w` agrees with the old one if `v` is fresh. -/
theorem Renames.update_eq (h : Renames ρ vars s t) (hv : s.var? v = none) :
    ∀ x ∈ vars, Function.update ρ v w x = ρ x := by
  intro x hx
  refine Function.update_of_ne ?_ w ρ
  rintro rfl
  exact h.not_mem hv hx

theorem Renames.map_update (h : Renames ρ vars s t) (hv : s.var? v = none) :
    (v :: vars).map (Function.update ρ v w) = w :: vars.map ρ := by
  rw [List.map_cons, Function.update_self, List.map_congr_left (h.update_eq hv)]

theorem Renames.distinct_update (h : Renames ρ vars s t) (hv : s.var? v = none)
    (hw : t.var? w = none) : ((v :: vars).map (Function.update ρ v w)).Nodup := by
  rw [h.map_update hv, List.nodup_cons]
  refine ⟨fun hmem => ?_, h.distinct⟩
  obtain ⟨x, hx, hsame⟩ := List.mem_map.mp hmem
  exact h.ne_of_fresh hx hw hsame

/-- Both sessions get the same new member. -/
theorem Renames.enrol (h : Renames ρ vars s t) (hlink : entry.link = .positive none)
    (hs : s.Enrols v entry s') (ht : t.Enrols w entry t') :
    Renames (Function.update ρ v w) (v :: vars) s' t' where
  distinct := h.distinct_update hs.fresh ht.fresh
  entries x hx := by
    rcases List.mem_cons.mp hx with rfl | hx
    · have hpartner : ∀ y, entry.link.partner? = some y → y ∈ x :: vars := by
        intro y hy
        rw [hlink] at hy
        cases hy
      refine ⟨{ entry with uses := entry.uses + 1 }, ?_, ?_, hpartner⟩
      · rw [hs.var?, if_pos rfl]
      · rw [Function.update_self, ht.var?, if_pos rfl, VarInfo.renamed, hlink]
        rfl
    · obtain ⟨old, hold, hold', hpartner⟩ := h.entries x hx
      refine ⟨old, hs.live_of_ne hold, ?_, fun y hy => List.mem_cons_of_mem _ (hpartner y hy)⟩
      rw [h.update_eq hs.fresh x hx, ht.live_of_ne hold',
        VarInfo.renamed_congr fun y hy => h.update_eq hs.fresh y (hpartner y hy)]
  problem := by
    obtain ⟨problem, hproblem, hproblem', hmembers⟩ := h.problem
    obtain ⟨_, hs₁, hs₂⟩ := hs.problem
    obtain ⟨_, ht₁, ht₂⟩ := ht.problem
    rw [hproblem] at hs₁
    rw [hproblem'] at ht₁
    cases hs₁
    cases ht₁
    refine ⟨_, hs₂, ht₂.trans ?_, fun x hx => ?_⟩
    · have hsame : problem.vars.map (Function.update ρ v w) = problem.vars.map ρ :=
        Array.map_congr_left fun x hx => h.update_eq hs.fresh x (hmembers x hx)
      simp only [Problem.renamed, Array.map_push, Function.update_self, hsame]
    · rcases Array.mem_push.mp hx with hx | rfl
      · exact List.mem_cons_of_mem _ (hmembers x hx)
      · exact List.mem_cons_self

/-- In both sessions the same variable gets an alias. -/
theorem Renames.negate (h : Renames ρ vars s t) (hv : v ∈ vars) (hs : s.Negates v entry n s')
    (ht : t.Negates (ρ v) (entry.renamed ρ) w t') :
    Renames (Function.update ρ n w) (n :: vars) s' t' where
  distinct := h.distinct_update hs.fresh ht.fresh
  entries x hx := by
    have hsame : Function.update ρ n w v = ρ v := h.update_eq hs.fresh v hv
    rcases List.mem_cons.mp hx with rfl | hx
    · refine ⟨entry.negated v, ?_, ?_, fun y hy => ?_⟩
      · rw [hs.var?, if_pos rfl]
      · rw [Function.update_self, ht.var?, if_pos rfl, VarInfo.renamed]
        show _ = some { entry.negated v with link := .negation (Function.update ρ x w v) }
        rw [hsame]
        rfl
      · cases hy
        exact List.mem_cons_of_mem _ hv
    · have hxn : x ≠ n := fun hxn => h.not_mem hs.fresh (hxn ▸ hx)
      have hxw : ρ x ≠ w := h.ne_of_fresh hx ht.fresh
      rw [h.update_eq hs.fresh x hx, hs.var?, if_neg hxn, ht.var?, if_neg hxw]
      by_cases hxv : x = v
      · subst hxv
        rw [if_pos rfl, if_pos rfl]
        refine ⟨_, rfl, ?_, fun y hy => ?_⟩
        · show _ = some { entry with link := .positive (some (Function.update ρ n w n)) }
          rw [Function.update_self]
          rfl
        · cases hy
          exact List.mem_cons_self
      · have hρ : ρ x ≠ ρ v := fun hρ => hxv (List.inj_on_of_nodup_map h.distinct hx hv hρ)
        obtain ⟨old, hold, hold', hpartner⟩ := h.entries x hx
        rw [if_neg hxv, if_neg hρ]
        refine ⟨old, hold, ?_, fun y hy => List.mem_cons_of_mem _ (hpartner y hy)⟩
        rw [hold', VarInfo.renamed_congr fun y hy => h.update_eq hs.fresh y (hpartner y hy)]
  problem := by
    obtain ⟨problem, hproblem, hproblem', hmembers⟩ := h.problem
    refine ⟨problem, (problem_eq_of_frame hs.frame_eq).trans hproblem,
      (problem_eq_of_frame ht.frame_eq).trans (hproblem'.trans ?_),
      fun x hx => List.mem_cons_of_mem _ (hmembers x hx)⟩
    rw [Problem.renamed_congr fun x hx => h.update_eq hs.fresh x (hmembers x hx)]

end Session

end JointModel
