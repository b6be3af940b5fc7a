import JointModel.Model.Outcome
import JointModel.Proofs.Decimal.Order
import Mathlib.Order.Bounds.Basic

/-!
# What an outcome holds

An outcome starts empty, and then a strategy records solutions, raises the bound and sets the
status, in any order and with any doubles (`Outcome.run`).

* The incumbent is the first best solution that was recorded (`Outcome.incumbent_firstBest`).
  A NaN is never kept, and an infinite value is no better than none.
* The bound is the greatest value that was raised, as long as no NaN was
  (`Outcome.lawfulBound_iff`).  A NaN is not turned down, as it is not at most the bound that
  there is.  Nothing is at most a NaN, so the next value is accepted too, and everything that
  was known before is lost.

## Strategy

What is stored has a value among the extended real numbers.  For each kind of step a lemma says
what becomes of that value: a minimum (`extended?_objective_step`), a maximum
(`extended?_bound_step`), or a value that takes the place of a NaN
(`extended?_bound_step_of_nan`).  The rest is induction over the steps.
-/

namespace JointModel

open Decimal

theorem extended?_infinity : extended? infinity = some ⊤ := by
  have hshape : Shape.ofBits infinity.toBits.toNat = .infinite false := by decide
  rw [extended?, hshape]
  rfl

theorem extended?_neg_infinity : extended? (-infinity) = some ⊥ := by
  have hshape : Shape.ofBits (-infinity).toBits.toNat = .infinite true := by decide
  rw [extended?, hshape]
  rfl

namespace Outcome

/-! ## Steps -/

/-- What is done to an outcome. -/
inductive Step
  | status (status : Status)
  | record (value : Float) (solution : Solution)
  | bound (value : Float)
deriving Repr

/-- The value of the solution that a step records. -/
noncomputable def Step.recorded? : Step → Option EReal
  | .record value _ => extended? value
  | _ => none

/-- The value to which a step raises the bound. -/
noncomputable def Step.raised? : Step → Option EReal
  | .bound value => extended? value
  | _ => none

/-- Does a step. -/
def step (o : Outcome) : Step → Outcome
  | .status status => o.setStatus status
  | .record value solution => (o.record value solution).2
  | .bound value => (o.raiseBound value).2

/-- The outcome of some steps. -/
def run (steps : List Step) : Outcome := steps.foldl step {}

theorem run_concat (steps : List Step) (s : Step) : run (steps ++ [s]) = (run steps).step s :=
  List.foldl_concat ..

/-- The values that steps come with. -/
def values (value? : Step → Option EReal) (steps : List Step) : Set EReal :=
  {a | ∃ s ∈ steps, value? s = some a}

/-- The values that were recorded, those of NaNs apart. -/
noncomputable def recorded (steps : List Step) : Set EReal := values Step.recorded? steps

/-- The values to which the bound was raised, those of NaNs apart. -/
noncomputable def raised (steps : List Step) : Set EReal := values Step.raised? steps

/-- The condition holds of every step and those before it. -/
def Along (P : List Step → Step → Prop) (steps : List Step) : Prop :=
  ∀ before s after, steps = before ++ s :: after → P before s

variable {P : List Step → Step → Prop} {steps : List Step} {s : Step} {o : Outcome} {a b : EReal}
  {value : Float} {solution : Solution}

theorem along_nil : Along P [] := fun _ _ _ h => by simp at h

theorem along_concat : Along P (steps ++ [s]) ↔ Along P steps ∧ P steps s := by
  constructor
  · intro h
    refine ⟨fun before s' after hsplit => h before s' (after ++ [s]) ?_, h steps s [] rfl⟩
    rw [hsplit, List.append_assoc, List.cons_append]
  · rintro ⟨hsteps, hs⟩ before s' after hsplit
    rcases List.eq_nil_or_concat' after with rfl | ⟨after', last, rfl⟩
    · obtain ⟨rfl, hlast⟩ := List.append_inj' hsplit rfl
      cases hlast
      exact hs
    · refine hsteps before s' after' ?_
      rw [← List.cons_append, ← List.append_assoc] at hsplit
      exact (List.append_inj' hsplit rfl).1

theorem values_nil (value? : Step → Option EReal) : values value? [] = ∅ := by simp [values]

theorem values_concat_none {value? : Step → Option EReal} (hs : value? s = none) :
    values value? (steps ++ [s]) = values value? steps := by
  ext a
  simp [values, or_and_right, exists_or, hs]

theorem values_concat_some {value? : Step → Option EReal} (hs : value? s = some b) :
    values value? (steps ++ [s]) = insert b (values value? steps) := by
  ext a
  simp [values, or_and_right, exists_or, hs, or_comm, eq_comm]

/-! ## Solutions -/

/-- A solution is kept if its value is below that of the incumbent. -/
theorem record_fst_iff (ho : extended? o.objective = some a) :
    (o.record value solution).1 = true ↔ ∃ b, extended? value = some b ∧ b < a := by
  have hworse : (value.isNaN || decide (value ≥ o.objective)) = true ↔
      ¬ ∃ b, extended? value = some b ∧ b < a := by
    rw [Bool.or_eq_true, isNaN_iff, decide_eq_true_iff, ge_iff_le, le_iff, ho]
    cases extended? value <;> simp
  unfold record
  split
  · next h => simpa using hworse.mp h
  · next h => simpa using not_not.mp (mt hworse.mpr h)

theorem record_snd_of_kept (h : (o.record value solution).1 = true) :
    (o.record value solution).2 = { o with
      objective := value, solution
      status := if o.status = .unknown then .feasible else o.status } := by
  unfold record at h ⊢
  split <;> simp_all

theorem record_snd_of_not_kept (h : (o.record value solution).1 = false) :
    (o.record value solution).2 = o := by
  unfold record at h ⊢
  split <;> simp_all

/-- The value of the incumbent is the less of the old one and the new one. -/
theorem extended?_objective_step (ho : extended? o.objective = some a) (s : Step) :
    extended? (o.step s).objective = some (s.recorded?.elim a (min a)) := by
  cases s with
  | status status => exact ho
  | bound value =>
      have hsame : (o.raiseBound value).2.objective = o.objective := by
        unfold raiseBound
        split <;> rfl
      rw [step, hsame]
      exact ho
  | record value solution =>
      cases hkept : (o.record value solution).1 with
      | true =>
          obtain ⟨b, hb, hlt⟩ := (record_fst_iff ho).mp hkept
          rw [step, record_snd_of_kept hkept, Step.recorded?, hb, Option.elim_some,
            min_eq_right hlt.le]
      | false =>
          have hnot := mt (record_fst_iff ho).mpr (Bool.eq_false_iff.mp hkept)
          rw [step, record_snd_of_not_kept hkept, ho, Step.recorded?]
          cases hb : extended? value with
          | none => rfl
          | some b =>
              have hle : a ≤ b := not_lt.mp fun hlt => hnot ⟨b, hb, hlt⟩
              rw [Option.elim_some, min_eq_left hle]

/-- The value of the incumbent is the least that was recorded, or infinite. -/
theorem exists_isLeast (steps : List Step) : ∃ a, extended? (run steps).objective = some a ∧
    IsLeast (insert ⊤ (recorded steps)) a := by
  induction steps using List.reverseRecOn with
  | nil =>
      refine ⟨⊤, extended?_infinity, ?_⟩
      rw [recorded, values_nil, insert_empty_eq]
      exact isLeast_singleton
  | append_singleton steps s ih =>
      obtain ⟨a, ha, hleast⟩ := ih
      refine ⟨_, by rw [run_concat]; exact extended?_objective_step ha s, ?_⟩
      cases hs : s.recorded? with
      | none => rwa [recorded, values_concat_none hs]
      | some b =>
          rw [recorded, values_concat_some hs, Set.insert_comm, Option.elim_some, min_comm]
          exact hleast.insert b

/-- A solution is kept if its value is below all that were recorded before, and not infinite. -/
theorem kept_iff (steps : List Step) (value : Float) (solution : Solution) :
    ((run steps).record value solution).1 = true ↔
      ∃ a, extended? value = some a ∧ a < ⊤ ∧ ∀ b ∈ recorded steps, a < b := by
  obtain ⟨least, hleast, hmem, hlower⟩ := exists_isLeast steps
  rw [record_fst_iff hleast]
  refine exists_congr fun a => and_congr_right fun _ => ⟨fun hlt => ?_, fun ⟨htop, hbelow⟩ => ?_⟩
  · exact ⟨hlt.trans_le (hlower (Set.mem_insert _ _)),
      fun b hb => hlt.trans_le (hlower (Set.mem_insert_of_mem _ hb))⟩
  · rcases hmem with rfl | hmem
    · exact htop
    · exact hbelow least hmem

/-- The step is a call that keeps a solution, after the steps before it. -/
def Kept (before : List Step) (s : Step) : Prop :=
  ∃ value solution, s = .record value solution ∧ ((run before).record value solution).1 = true

/-- The step keeps a solution, and none of those after it does. -/
structure LastKept (before : List Step) (s : Step) (after : List Step) : Prop where
  kept : Kept before s
  last : Along (fun mid t => ¬ Kept (before ++ s :: mid) t) after

/-- No other step touches the incumbent. -/
theorem step_of_not_kept (h : ¬ Kept steps s) :
    (run (steps ++ [s])).objective = (run steps).objective ∧
      (run (steps ++ [s])).solution = (run steps).solution := by
  rw [run_concat]
  cases s with
  | status status => exact ⟨rfl, rfl⟩
  | bound value =>
      simp only [step, raiseBound]
      split <;> exact ⟨rfl, rfl⟩
  | record value solution =>
      have hkept : ((run steps).record value solution).1 = false :=
        Bool.eq_false_iff.mpr fun hkept => h ⟨value, solution, rfl, hkept⟩
      rw [step, record_snd_of_not_kept hkept]
      exact ⟨rfl, rfl⟩

/-- The incumbent comes from the last call that kept a solution, if there is one. -/
theorem solution_of_last_kept (steps : List Step) :
    Along (fun before s => ¬ Kept before s) steps ∧ (run steps).solution = {} ∨
    ∃ before after, steps = before ++ .record (run steps).objective (run steps).solution :: after ∧
      LastKept before (.record (run steps).objective (run steps).solution) after := by
  induction steps using List.reverseRecOn with
  | nil => exact .inl ⟨along_nil, rfl⟩
  | append_singleton steps s ih =>
      by_cases hkept : Kept steps s
      · obtain ⟨value, solution, rfl, hkept⟩ := hkept
        have hrun : run (steps ++ [.record value solution]) =
            ((run steps).record value solution).2 := run_concat _ _
        rw [hrun, record_snd_of_kept hkept]
        exact .inr ⟨steps, [], rfl, ⟨⟨value, solution, rfl, hkept⟩, along_nil⟩⟩
      · obtain ⟨hobjective, hsolution⟩ := step_of_not_kept hkept
        rw [hobjective, hsolution]
        rcases ih with ⟨hnone, hempty⟩ | ⟨before, after, hsplit, hlast⟩
        · exact .inl ⟨along_concat.mpr ⟨hnone, hkept⟩, hempty⟩
        · refine .inr ⟨before, after ++ [s], ?_, ⟨hlast.kept, along_concat.mpr ⟨hlast.last, ?_⟩⟩⟩
          · rw [← List.cons_append, ← List.append_assoc, ← hsplit]
          · rw [← hsplit]
            exact hkept

/-- The status after a step.  A solution that is kept makes a model feasible of which nothing is
known. -/
def nextStatus (o : Outcome) : Step → Status
  | .status status => status
  | .bound _ => o.status
  | .record value solution =>
    if (o.record value solution).1 = true ∧ o.status = .unknown then .feasible else o.status

theorem status_step (o : Outcome) (s : Step) : (o.step s).status = o.nextStatus s := by
  cases s with
  | status status => rfl
  | bound value =>
      simp only [step, raiseBound]
      split <;> rfl
  | record value solution =>
      rw [step, nextStatus]
      cases hkept : (o.record value solution).1 with
      | true => simp [record_snd_of_kept hkept]
      | false => simp [record_snd_of_not_kept hkept]

/-- The incumbent of some steps is the first best solution that they recorded. -/
structure FirstBest (steps : List Step) : Prop where
  /-- The objective value is no NaN, and it is the least value that was recorded. -/
  least : ∃ a, extended? (run steps).objective = some a ∧ IsLeast (insert ⊤ (recorded steps)) a
  /-- A solution is kept if it is better than all before. -/
  kept : ∀ value solution, ((run steps).record value solution).1 = true ↔
    ∃ a, extended? value = some a ∧ a < ⊤ ∧ ∀ b ∈ recorded steps, a < b
  /-- Either no solution was kept, or the incumbent is the one that was kept last.  No earlier
  solution was as good. -/
  incumbent : Along (fun before s => ¬ Kept before s) steps ∧ (run steps).solution = {} ∨
    ∃ before after, steps = before ++ .record (run steps).objective (run steps).solution :: after ∧
      LastKept before (.record (run steps).objective (run steps).solution) after ∧
      ∀ a ∈ extended? (run steps).objective, ∀ b ∈ recorded before, a < b
  /-- Only `setStatus` and a first solution change the status. -/
  status : ∀ s, (run (steps ++ [s])).status = (run steps).nextStatus s

/-- Whatever is reported, the incumbent is the first best solution. -/
theorem incumbent_firstBest (steps : List Step) : FirstBest steps where
  least := exists_isLeast steps
  kept := kept_iff steps
  incumbent := by
    rcases solution_of_last_kept steps with hnone | ⟨before, after, hsplit, hlast⟩
    · exact .inl hnone
    · refine .inr ⟨before, after, hsplit, hlast, fun a ha => ?_⟩
      obtain ⟨value, solution, hrecord, hkept⟩ := hlast.kept
      cases hrecord
      obtain ⟨b, hb, -, hbelow⟩ := (kept_iff before _ _).mp hkept
      cases hb.symm.trans ha
      exact hbelow
  status s := by rw [run_concat, status_step]

/-! ## The bound -/

/-- The bound is raised by whatever is not at most the bound that there is. -/
theorem raiseBound_fst_iff : (o.raiseBound value).1 = true ↔ ¬ value ≤ o.bound := by
  unfold raiseBound
  split <;> simp_all

/-- Only raising touches the bound. -/
theorem bound_step (o : Outcome) (s : Step) : (o.step s).bound = match s with
    | .bound value => if value ≤ o.bound then o.bound else value
    | _ => o.bound := by
  cases s with
  | status status => rfl
  | record value solution =>
      simp only [step, record]
      split <;> rfl
  | bound value =>
      simp only [step, raiseBound]
      split <;> rfl

/-- The step raises the bound to a NaN. -/
def Step.RaisesNaN (s : Step) : Prop := ∃ value, s = .bound value ∧ value.isNaN = true

/-- The value of the bound is the greater of the old one and the new one. -/
theorem extended?_bound_step (ho : extended? o.bound = some a) (hs : ¬ s.RaisesNaN) :
    extended? (o.step s).bound = some (s.raised?.elim a (max a)) := by
  rw [bound_step]
  cases s with
  | status | record => exact ho
  | bound value =>
      obtain ⟨b, hb⟩ : ∃ b, extended? value = some b :=
        Option.ne_none_iff_exists'.mp fun hnan => hs ⟨value, rfl, isNaN_iff.mpr hnan⟩
      have hle : value ≤ o.bound ↔ b ≤ a := by simp [le_iff, ho, hb]
      simp only [Step.raised?, hb, Option.elim_some, hle]
      split
      · next h => rw [ho, max_eq_left h]
      · next h => rw [hb, max_eq_right (not_le.mp h).le]

/-- Nothing is at most a NaN, so the next value takes its place. -/
theorem extended?_bound_step_of_nan (ho : extended? o.bound = none) (s : Step) :
    extended? (o.step s).bound = s.raised? := by
  rw [bound_step]
  cases s with
  | status | record => exact ho
  | bound value =>
      have hnot : ¬ value ≤ o.bound := by simp [le_iff, ho]
      simp only [if_neg hnot, Step.raised?]

/-- A NaN is at most nothing, so it is always stored. -/
theorem extended?_bound_step_nan (o : Outcome) (hs : s.RaisesNaN) :
    extended? (o.step s).bound = none := by
  obtain ⟨value, rfl, hnan⟩ := hs
  have hnone := isNaN_iff.mp hnan
  have hnot : ¬ value ≤ o.bound := by simp [le_iff, hnone]
  simp only [bound_step, if_neg hnot, hnone]

/-- As long as no NaN is raised, the bound is the greatest value that was. -/
theorem exists_isGreatest {steps : List Step} (h : ∀ s ∈ steps, ¬ s.RaisesNaN) :
    ∃ a, extended? (run steps).bound = some a ∧ IsGreatest (insert ⊥ (raised steps)) a := by
  induction steps using List.reverseRecOn with
  | nil =>
      refine ⟨⊥, extended?_neg_infinity, ?_⟩
      rw [raised, values_nil, insert_empty_eq]
      exact isGreatest_singleton
  | append_singleton steps s ih =>
      obtain ⟨a, ha, hgreatest⟩ := ih fun t ht => h t (List.mem_append_left _ ht)
      have hs : ¬ s.RaisesNaN := h s (List.mem_append_right _ List.mem_cons_self)
      refine ⟨_, by rw [run_concat]; exact extended?_bound_step ha hs, ?_⟩
      cases hs : s.raised? with
      | none => rwa [raised, values_concat_none hs]
      | some b =>
          rw [raised, values_concat_some hs, Set.insert_comm, Option.elim_some, max_comm]
          exact hgreatest.insert b

/-- Once a NaN was raised, only what is raised after it counts. -/
theorem bound_after_nan {before after : List Step} (hs : s.RaisesNaN)
    (h : ∀ t ∈ after, ¬ t.RaisesNaN) :
    raised after = ∅ ∧ (run (before ++ s :: after)).bound.isNaN = true ∨
      ∃ a, extended? (run (before ++ s :: after)).bound = some a ∧ IsGreatest (raised after) a := by
  induction after using List.reverseRecOn with
  | nil =>
      refine .inl ⟨values_nil _, isNaN_iff.mpr ?_⟩
      rw [run_concat]
      exact extended?_bound_step_nan _ hs
  | append_singleton after t ih =>
      have hlast : run (before ++ s :: (after ++ [t])) = (run (before ++ s :: after)).step t := by
        rw [← run_concat, List.append_assoc, List.cons_append]
      rw [hlast]
      rcases ih fun t ht => h t (List.mem_append_left _ ht) with ⟨hnone, hnan⟩ | ⟨a, ha, hgreatest⟩
      · have hbound := extended?_bound_step_of_nan (isNaN_iff.mp hnan) t
        cases ht : t.raised? with
        | none =>
            rw [raised, values_concat_none ht]
            exact .inl ⟨hnone, isNaN_iff.mpr (hbound.trans ht)⟩
        | some b =>
            refine .inr ⟨b, hbound.trans ht, ?_⟩
            rw [raised, values_concat_some ht, ← raised, hnone, insert_empty_eq]
            exact isGreatest_singleton
      · have ht := h t (List.mem_append_right _ List.mem_cons_self)
        refine .inr ⟨_, extended?_bound_step ha ht, ?_⟩
        cases ht : t.raised? with
        | none => rwa [raised, values_concat_none ht]
        | some b =>
            rw [raised, values_concat_some ht, Option.elim_some, max_comm]
            exact hgreatest.insert b

/-- The bound is a lower bound that is only ever raised. -/
structure LawfulBound (steps : List Step) : Prop where
  /-- The bound is no NaN, and it is the greatest value that was raised. -/
  greatest : ∀ before, before <+: steps →
    ∃ a, extended? (run before).bound = some a ∧ IsGreatest (insert ⊥ (raised before)) a
  /-- The bound never decreases. -/
  grows : Along (fun before s => (run before).bound ≤ (run (before ++ [s])).bound) steps
  /-- A call moves the bound if its value is greater. -/
  moves : Along (fun before s => ∀ value, s = .bound value →
    (((run before).raiseBound value).1 = true ↔ (run before).bound < value)) steps

theorem lawfulBound_of_no_nan (h : ∀ s ∈ steps, ¬ s.RaisesNaN) : LawfulBound steps := by
  have hprefix : ∀ before s after, steps = before ++ s :: after →
      (∃ a, extended? (run before).bound = some a) ∧ ¬ s.RaisesNaN := by
    intro before s after hsplit
    obtain ⟨a, ha, -⟩ := exists_isGreatest fun t ht => h t (hsplit ▸ List.mem_append_left _ ht)
    exact ⟨⟨a, ha⟩, h s (hsplit ▸ List.mem_append_right _ List.mem_cons_self)⟩
  constructor
  · exact fun before hbefore => exists_isGreatest fun t ht => h t (hbefore.subset ht)
  · intro before s after hsplit
    obtain ⟨⟨a, ha⟩, hs⟩ := hprefix before s after hsplit
    have hnext := extended?_bound_step ha hs
    rw [run_concat, le_iff]
    refine ⟨a, _, ha, hnext, ?_⟩
    cases s.raised? with
    | none => exact le_rfl
    | some b => exact le_max_left a b
  · rintro before s after hsplit value rfl
    obtain ⟨⟨a, ha⟩, hs⟩ := hprefix before _ after hsplit
    obtain ⟨b, hb⟩ : ∃ b, extended? value = some b :=
      Option.ne_none_iff_exists'.mp fun hnan => hs ⟨value, rfl, isNaN_iff.mpr hnan⟩
    simp [raiseBound_fst_iff, le_iff, lt_iff, ha, hb]

/-- The bound is only ever raised if and only if no NaN is.  Else it is lost: it is a NaN until
the next value is raised, and then the greatest value that was raised since, whatever it was
before. -/
theorem lawfulBound_iff (steps : List Step) :
    (LawfulBound steps ↔ ∀ value, .bound value ∈ steps → value.isNaN = false) ∧
    ∀ {before after value}, steps = before ++ .bound value :: after → value.isNaN = true →
      (∀ later, .bound later ∈ after → later.isNaN = false) →
      raised after = ∅ ∧ (run steps).bound.isNaN = true ∨
        ∃ a, extended? (run steps).bound = some a ∧ IsGreatest (raised after) a := by
  have hnone : ∀ {steps : List Step}, (∀ value, .bound value ∈ steps → value.isNaN = false) →
      ∀ s ∈ steps, ¬ s.RaisesNaN := by
    rintro steps h s hs ⟨value, rfl, hnan⟩
    cases (h value hs).symm.trans hnan
  refine ⟨⟨fun hlawful value hvalue => ?_, fun h => lawfulBound_of_no_nan (hnone h)⟩, ?_⟩
  · obtain ⟨before, after, rfl⟩ := List.append_of_mem hvalue
    refine Bool.eq_false_iff.mpr fun hnan => ?_
    -- right after the NaN the bound has no value
    obtain ⟨a, ha, -⟩ := hlawful.greatest (before ++ [.bound value]) ⟨after, by simp⟩
    rw [run_concat, extended?_bound_step_nan _ ⟨value, rfl, hnan⟩] at ha
    cases ha
  · rintro before after value rfl hnan hlater
    exact bound_after_nan ⟨value, rfl, hnan⟩ (hnone hlater)

/-- The double 1. -/
def one : Float := .ofBits 0x3FF0000000000000

/-- The double 2. -/
def two : Float := .ofBits 0x4000000000000000

/-- A NaN between two bounds, the second of which is the lower one. -/
def lostSteps : List Step := [.bound two, .bound .nan, .bound one]

theorem lawfulBound_iff_lost : (run [.bound two]).bound = two ∧
    ((run [.bound two]).raiseBound .nan).1 = true ∧
    ((run [.bound two, .bound .nan]).raiseBound one).1 = true ∧ (run lostSteps).bound = one ∧
    one < two ∧ ¬ LawfulBound lostSteps := by
  refine ⟨rfl, by decide, by decide, rfl, by decide, fun hlawful => ?_⟩
  have hnan := (lawfulBound_iff lostSteps).1.mp hlawful .nan (by simp [lostSteps])
  exact absurd hnan (by decide)

end Outcome

end JointModel
