import JointModel.Domains
import JointModel.Proofs.Effect
import Mathlib.Algebra.Group.Nat.Defs
import Mathlib.Logic.Function.Basic
import Mathlib.Tactic.SplitIfs

/-!
# The boolean variables of the CP store

A call of the store changes it in one of three ways (`Domains.Grows`): there is one
more boolean variable, one more integer variable, or a literal for one more equality.
Nothing that the store handed out is ever taken back.

Number 0 is the variable of the constants.  Every other number is given out once, so the
literals that were made for equalities have variables of their own (`Domains.Numbered`).
The numbers are not stored, and a literal has room for thirty-one bits of its number
only (`Literal.toNat_var_ofVar`), so they are kept beside the store here.
-/

namespace JointModel

open Effect

/-- The positive literal of the variable with a number. -/
def Literal.numbered (k : Nat) : Literal := .ofVar (UInt32.ofNat k) true

/-- A literal keeps thirty-one bits of the number of its variable. -/
theorem Literal.toNat_var_ofVar (k : Nat) (positive : Bool) :
    (Literal.ofVar (UInt32.ofNat k) positive).var.toNat = k % 2 ^ 31 := by
  have hbits : k % 4294967296 * 2 % 4294967296 = k % 2147483648 * 2 := by omega
  cases positive with
  | true => simp [ofVar, var, Nat.shiftLeft_eq, hbits, Nat.shiftRight_eq_div_pow]
  | false =>
      have hodd : (k % 2147483648 * 2 ||| 1) / 2 = k % 2147483648 := by
        have hshift := Nat.shiftRight_or_distrib (a := k % 2147483648 * 2) (b := 1) (i := 1)
        simpa [Nat.shiftRight_eq_div_pow] using hshift
      simp [ofVar, var, Nat.shiftLeft_eq, hbits, Nat.shiftRight_eq_div_pow, hodd]

/-- So it keeps the whole number, if that fits. -/
theorem Literal.toNat_var_ofVar_of_lt {k : Nat} (hk : k < 2 ^ 31) (positive : Bool) :
    (Literal.ofVar (UInt32.ofNat k) positive).var.toNat = k := by
  rw [toNat_var_ofVar, Nat.mod_eq_of_lt hk]

namespace Domains

variable {s t : Domains} {key key' : DomainId × Int} {l : Literal} {lb ub : Int}
  {number : DomainId × Int → Nat}

/-! ## What a call can do -/

/-- The store with a literal for one more equality. -/
def withEquality (s : Domains) (key : DomainId × Int) : Domains :=
  { s with bools := s.bools + 1, equalities := s.equalities ++ [(key, s.freshLiteral)] }

/-- The store `t` is what a call can make of `s`. -/
inductive Grows (s : Domains) : Domains → Prop
  | refl : Grows s s
  | bool : Grows s { s with bools := s.bools + 1 }
  | int (lb ub : Int) : Grows s { s with bounds := s.bounds.push (lb, ub) }
  | equality (key : DomainId × Int) : s.equalities.lookup key = none →
      Grows s (s.withEquality key)

theorem equal_ends (s : Domains) (d : DomainId) (value : Int) :
    Ends (equal d value) s (fun _ t => s.Grows t) fun _ t => s.Grows t := by
  unfold Ends equal
  cases s.bounds? d with
  | none => exact .refl
  | some bounds =>
      obtain ⟨lb, ub⟩ := bounds
      dsimp only
      split_ifs with hout hfixed
      · exact .refl
      · exact .refl
      · cases hlookup : s.equalities.lookup (d, value) with
        | some l => exact .refl
        | none => exact .equality _ hlookup

/-- Whatever is called, the store only grows. -/
theorem perform_ends (c : Call) (s : Domains) :
    Ends (perform c) s (fun _ t => s.Grows t) fun _ t => s.Grows t := by
  cases c with
  | constants | bounds | counts => exact .refl
  | newBool => exact .bool
  | newInt lb ub =>
      rw [perform, ends_map]
      unfold Ends newInt
      by_cases hbounds : lb > ub
      · simp only [if_pos hbounds]
        exact .refl
      · simp only [if_neg hbounds]
        exact .int lb ub
  | equal d value =>
      rw [perform, ends_map]
      exact equal_ends s d value

/-- The literal of an equality that can hold or not hold. -/
theorem equal_of_bounds {d : DomainId} {value : Int} (hbounds : s.bounds? d = some (lb, ub))
    (hlower : lb ≤ value) (hupper : value ≤ ub) (hfree : lb ≠ ub) :
    ∃ l t, equal d value s = .ok l t ∧ t.equalities.lookup (d, value) = some l ∧
      (t = s ∨ s.equalities.lookup (d, value) = none ∧ t = s.withEquality (d, value)) := by
  have hin : ¬ (value < lb ∨ value > ub) := by omega
  cases hlookup : s.equalities.lookup (d, value) with
  | some l =>
      refine ⟨l, s, ?_, hlookup, .inl rfl⟩
      simp only [equal, hbounds, if_neg hin, if_neg hfree, hlookup]
  | none =>
      refine ⟨s.freshLiteral, s.withEquality (d, value), ?_, ?_, .inr ⟨rfl, rfl⟩⟩
      · simp only [equal, hbounds, if_neg hin, if_neg hfree, hlookup]
        rfl
      · simp [withEquality, List.lookup_append, hlookup]

theorem lookup_withEquality (s : Domains) (key key' : DomainId × Int) :
    (s.withEquality key).equalities.lookup key' =
      (s.equalities.lookup key').or (if key' = key then some s.freshLiteral else none) := by
  rw [withEquality, List.lookup_append]
  by_cases hkey : key' = key
  · simp [hkey]
  · simp [List.lookup_cons, beq_false_of_ne hkey, hkey]

/-! ## What grows keeps -/

theorem Grows.bools_le (h : s.Grows t) : s.bools ≤ t.bools := by
  cases h with
  | refl | int => exact Nat.le_refl _
  | bool | equality => exact Nat.le_succ _

theorem Grows.bounds? (h : s.Grows t) {d : DomainId} {bounds : Int × Int}
    (hbounds : s.bounds? d = some bounds) : t.bounds? d = some bounds := by
  cases h with
  | refl | bool | equality => exact hbounds
  | int lb ub =>
      have hlt : d.index < s.bounds.size := (Array.getElem?_eq_some_iff.mp hbounds).1
      show (s.bounds.push (lb, ub))[d.index]? = some bounds
      rw [Array.getElem?_push, if_neg (Nat.ne_of_lt hlt)]
      exact hbounds

theorem Grows.lookup (h : s.Grows t) (hlookup : s.equalities.lookup key = some l) :
    t.equalities.lookup key = some l := by
  cases h with
  | refl | bool | int => exact hlookup
  | equality key' => rw [lookup_withEquality, hlookup, Option.some_or]

/-! ## The numbers of variables -/

/-- Every equality that has a literal has a variable of its own. -/
structure Numbered (number : DomainId × Int → Nat) (s : Domains) : Prop where
  constants : 0 < s.bools
  made : ∀ {key l}, s.equalities.lookup key = some l →
    l = .numbered (number key) ∧ 0 < number key ∧ number key < s.bools
  distinct : ∀ {key key' l l'}, s.equalities.lookup key = some l →
    s.equalities.lookup key' = some l' → number key = number key' → key = key'

/-- A store without new equalities keeps its numbers. -/
theorem Numbered.of_equalities (h : s.Numbered number) (hbools : s.bools ≤ t.bools)
    (hequalities : t.equalities = s.equalities) : t.Numbered number where
  constants := Nat.lt_of_lt_of_le h.constants hbools
  made hlookup := by
    rw [hequalities] at hlookup
    obtain ⟨hl, hpos, hlt⟩ := h.made hlookup
    exact ⟨hl, hpos, Nat.lt_of_lt_of_le hlt hbools⟩
  distinct hlookup hlookup' hsame := by
    rw [hequalities] at hlookup hlookup'
    exact h.distinct hlookup hlookup' hsame

/-- A new equality gets the next number. -/
theorem Numbered.withEquality (h : s.Numbered number) (hnone : s.equalities.lookup key = none) :
    (s.withEquality key).Numbered (Function.update number key s.bools) := by
  -- the old numbers are below the new one
  have hold : ∀ {k l}, k ≠ key → (s.withEquality key).equalities.lookup k = some l →
      s.equalities.lookup k = some l := by
    intro k l hk hlookup
    rwa [lookup_withEquality, if_neg hk, Option.or_none] at hlookup
  have hnew : ∀ {l}, (s.withEquality key).equalities.lookup key = some l →
      l = s.freshLiteral := by
    intro l hlookup
    rw [lookup_withEquality, hnone, if_pos rfl, Option.none_or] at hlookup
    exact (Option.some.inj hlookup).symm
  refine ⟨Nat.succ_pos _, fun {k l} hlookup => ?_, fun {k k' l l'} hlookup hlookup' hsame => ?_⟩
  · by_cases hk : k = key
    · subst hk
      rw [Function.update_self]
      exact ⟨hnew hlookup, h.constants, Nat.lt_succ_self _⟩
    · rw [Function.update_of_ne hk]
      obtain ⟨hl, hpos, hlt⟩ := h.made (hold hk hlookup)
      exact ⟨hl, hpos, Nat.lt_succ_of_lt hlt⟩
  · by_cases hk : k = key <;> by_cases hk' : k' = key
    · rw [hk, hk']
    · rw [hk, Function.update_self, Function.update_of_ne hk'] at hsame
      exact absurd hsame (Nat.ne_of_gt (h.made (hold hk' hlookup')).2.2)
    · rw [hk', Function.update_self, Function.update_of_ne hk] at hsame
      exact absurd hsame (Nat.ne_of_lt (h.made (hold hk hlookup)).2.2)
    · rw [Function.update_of_ne hk, Function.update_of_ne hk'] at hsame
      exact h.distinct (hold hk hlookup) (hold hk' hlookup') hsame

/-- Old numbers stay, and new ones are not below those that were given out before. -/
theorem Grows.numbered (h : s.Grows t) (hs : s.Numbered number) :
    ∃ number', t.Numbered number' ∧ ∀ {key l}, t.equalities.lookup key = some l →
      s.equalities.lookup key = some l ∧ number' key = number key ∨ s.bools ≤ number' key := by
  cases h with
  | refl | int =>
      exact ⟨number, hs.of_equalities (Nat.le_refl _) rfl, fun hlookup => .inl ⟨hlookup, rfl⟩⟩
  | bool => exact ⟨number, hs.of_equalities (Nat.le_succ _) rfl, fun hlookup => .inl ⟨hlookup, rfl⟩⟩
  | equality key hnone =>
      refine ⟨_, hs.withEquality hnone, fun {k l} hlookup => ?_⟩
      by_cases hk : k = key
      · rw [hk, Function.update_self]
        exact .inr (Nat.le_refl _)
      · rw [lookup_withEquality, if_neg hk, Option.or_none] at hlookup
        exact .inl ⟨hlookup, Function.update_of_ne hk _ _⟩

/-- The stores that calls lead to. -/
inductive Reachable : Domains → Prop
  | fresh : Reachable {}
  | call {s : Domains} (c : Call) : Reachable s → Reachable (after (perform c) s)

theorem Reachable.numbered (h : s.Reachable) : ∃ number, s.Numbered number := by
  induction h with
  | fresh => exact ⟨fun _ => 0, Nat.one_pos, fun hlookup => by simp at hlookup,
      fun hlookup => by simp at hlookup⟩
  | call c _ ih =>
      obtain ⟨number, hnumber⟩ := ih
      obtain ⟨number', hnumber', -⟩ := (perform_ends c _).after.numbered hnumber
      exact ⟨number', hnumber'⟩

end Domains

end JointModel
