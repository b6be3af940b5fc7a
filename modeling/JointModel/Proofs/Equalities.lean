import JointModel.Proofs.Domains
import Mathlib.Data.List.Find
import Mathlib.Data.List.Nodup

/-!
# Reading equalities back from their literals

The store finds the equality that a literal stands for by the literal's variable, in a
table whose order carries no meaning.  That works only if no variable is ever given out
twice.

`History s log` says that `log` is what the accepted calls answered on the way from the
fresh store to `s`, for any calls in any order.  As long as a literal has room for the
numbers of the variables, the store and its history agree (`equality?_inverts_equal`): new
literals have variables of their own, the literal of an equality stays the same, and a
literal and its negation give back the equality they were made for, while all other
literals give none.

## Strategy

`Answers` lists what an accepted call answers and what it makes of the store.  `Traced`
is the invariant: the table holds the undecided equalities that were asked for, each
under a number of its own (`Numbered`), and the other literals of the log have other
numbers below the next one.  `Traced.step` keeps it, case by case of `Answers`, and
`History.traced` is the induction over the history.
-/

namespace JointModel

open Effect

/-- Only a literal and its negation share a variable. -/
theorem Literal.var_eq_iff {l m : Literal} : l.var = m.var ↔ l = m ∨ l = m.negate := by
  constructor
  · intro hvar
    have hhalf : l.raw.toNat / 2 = m.raw.toNat / 2 := by
      have hnat := congrArg UInt32.toNat hvar
      simpa [var, Nat.shiftRight_eq_div_pow] using hnat
    have hupper : ∀ i, l.raw.toNat.testBit (i + 1) = m.raw.toNat.testBit (i + 1) := fun i => by
      rw [Nat.testBit_succ, Nat.testBit_succ, hhalf]
    -- the words agree above the lowest bit, which is the polarity
    by_cases hlowest : l.raw.toNat.testBit 0 = m.raw.toNat.testBit 0
    · left
      have hraw : l.raw = m.raw := UInt32.toNat_inj.mp <| Nat.eq_of_testBit_eq fun i => by
        cases i with
        | zero => exact hlowest
        | succ i => exact hupper i
      exact congrArg Literal.mk hraw
    · right
      have hraw : l.raw = m.raw ^^^ 1 := UInt32.toNat_inj.mp <| Nat.eq_of_testBit_eq fun i => by
        rw [UInt32.toNat_xor, Nat.testBit_xor]
        cases i with
        | zero =>
            show _ = (m.raw.toNat.testBit 0 ^^ true)
            rw [Bool.xor_true]
            exact Bool.eq_not.mpr hlowest
        | succ i =>
            have hone : (UInt32.toNat 1).testBit (i + 1) = false := by simp [Nat.testBit_succ]
            rw [hone, Bool.xor_false]
            exact hupper i
      exact congrArg Literal.mk hraw
  · rintro (rfl | rfl)
    · rfl
    · exact var_negate m

namespace Domains

variable {s t : Domains} {log : List (Call × Answer)} {c : Call} {a : Answer}
  {key : DomainId × Int} {l l' : Literal} {number : DomainId × Int → Nat}

/-! ## Histories -/

/-- The accepted calls that led from the fresh store to this one, with their answers, the
last one at the end. -/
inductive History : Domains → List (Call × Answer) → Prop
  | fresh : History {} []
  | accepted {s t : Domains} {log : List (Call × Answer)} {c : Call} {a : Answer} :
      History s log → perform c s = .ok a t → History t (log ++ [(c, a)])
  | rejected {s t : Domains} {log : List (Call × Answer)} {c : Call} {e : EngineError} :
      History s log → perform c s = .error e t → History t log

/-- The bounds leave open whether the equality holds. -/
def Undecided (s : Domains) (key : DomainId × Int) : Prop :=
  ∃ lb ub, s.bounds? key.1 = some (lb, ub) ∧ lb < ub ∧ lb ≤ key.2 ∧ key.2 ≤ ub

/-- The literal was answered when the equality was asked for. -/
def Answered (log : List (Call × Answer)) (key : DomainId × Int) (l : Literal) : Prop :=
  (Call.equal key.1 key.2, Answer.literal l) ∈ log

/-- How often a new boolean variable was asked for. -/
def newBools (log : List (Call × Answer)) : Nat :=
  log.countP fun event => event.1 matches .newBool

theorem key_eq_of_equal {key key' : DomainId × Int}
    (h : Call.equal key.1 key.2 = .equal key'.1 key'.2) : key = key' := by
  injection h with hdomain hvalue
  exact Prod.ext hdomain hvalue

theorem answered_append : Answered (log ++ [(c, a)]) key l ↔
    Answered log key l ∨ c = .equal key.1 key.2 ∧ a = .literal l := by
  simp [Answered, eq_comm]

theorem newBools_append : newBools (log ++ [(c, a)]) =
    newBools log + (if c matches .newBool then 1 else 0) := by
  cases c <;> simp [newBools]

theorem undecided_congr (hbounds : t.bounds? key.1 = s.bounds? key.1) :
    t.Undecided key ↔ s.Undecided key := by
  rw [Undecided, Undecided, hbounds]

theorem Grows.undecided (h : s.Grows t) (hkey : s.Undecided key) : t.Undecided key := by
  obtain ⟨lb, ub, hbounds, hrest⟩ := hkey
  exact ⟨lb, ub, h.bounds? hbounds, hrest⟩

/-! ## What a call answers -/

/-- What an accepted call answers and what it makes of the store. -/
inductive Answers (s : Domains) : Call → Answer → Domains → Prop
  | reads {c : Call} {a : Answer} : ¬ (c matches .newBool) → (∀ l, a ≠ .literal l) → Answers s c a s
  | int (lb ub : Int) : Answers s (.newInt lb ub) (.domain ⟨s.bounds.size⟩)
      { s with bounds := s.bounds.push (lb, ub) }
  | bool : Answers s .newBool (.literal s.freshLiteral) { s with bools := s.bools + 1 }
  | decided {key : DomainId × Int} {positive : Bool} : (s.bounds? key.1).isSome →
      ¬ s.Undecided key → Answers s (.equal key.1 key.2) (.literal (.ofVar 0 positive)) s
  | again {key : DomainId × Int} {l : Literal} : s.Undecided key →
      s.equalities.lookup key = some l → Answers s (.equal key.1 key.2) (.literal l) s
  | made {key : DomainId × Int} : s.Undecided key → s.equalities.lookup key = none →
      Answers s (.equal key.1 key.2) (.literal s.freshLiteral) (s.withEquality key)

theorem equal_answers (s : Domains) (key : DomainId × Int) :
    Ends (equal key.1 key.2) s (fun l t => Answers s (.equal key.1 key.2) (.literal l) t)
      fun _ t => t = s := by
  cases hbounds : s.bounds? key.1 with
  | none =>
      refine ends_of_rejected (e := .invalidDomain key.1) ?_ rfl
      simp only [equal, hbounds]
  | some bounds =>
      obtain ⟨lb, ub⟩ := bounds
      have hknown : (s.bounds? key.1).isSome := by rw [hbounds]; rfl
      by_cases hkey : lb ≤ key.2 ∧ key.2 ≤ ub
      · by_cases hfixed : lb = ub
        · refine ends_of_accepted (a := trueLiteral) (t := s) ?_ (.decided hknown ?_)
          · have hin : ¬ (key.2 < lb ∨ key.2 > ub) := by omega
            simp only [equal, hbounds, if_neg hin, if_pos hfixed]
          · rintro ⟨lb', ub', hbounds', hlt, -⟩
            cases hbounds.symm.trans hbounds'
            omega
        · have hopen : s.Undecided key :=
            ⟨lb, ub, hbounds, lt_of_le_of_ne (hkey.1.trans hkey.2) hfixed, hkey⟩
          obtain ⟨l, t, hrun, hlookup, rfl | ⟨hnone, rfl⟩⟩ :=
            equal_of_bounds hbounds hkey.1 hkey.2 hfixed
          · exact ends_of_accepted hrun (.again hopen hlookup)
          · rw [lookup_withEquality, hnone, if_pos rfl, Option.none_or] at hlookup
            cases hlookup
            exact ends_of_accepted hrun (.made hopen hnone)
      · refine ends_of_accepted (a := falseLiteral) (t := s) ?_ (.decided hknown ?_)
        · have hout : key.2 < lb ∨ key.2 > ub := by omega
          simp only [equal, hbounds, if_pos hout]
        · rintro ⟨lb', ub', hbounds', -, hin⟩
          cases hbounds.symm.trans hbounds'
          exact hkey hin

/-- An accepted call does what `Answers` lists, and a rejected one does nothing. -/
theorem perform_answers (c : Call) (s : Domains) :
    Ends (perform c) s (fun a t => s.Answers c a t) fun _ t => t = s := by
  cases c with
  | constants | bounds | counts => exact .reads (by simp) (by simp)
  | newBool => exact .bool
  | newInt lb ub =>
      rw [perform, ends_map]
      unfold Ends newInt
      by_cases hempty : lb > ub
      · simp only [if_pos hempty]
      · simp only [if_neg hempty]
        exact .int lb ub
  | equal d value =>
      rw [perform, ends_map]
      exact equal_answers s (d, value)

/-! ## The invariant -/

/-- The table of a store and the numbers of its literals fit the log. -/
structure Traced (number : DomainId × Int → Nat) (s : Domains) (log : List (Call × Answer)) :
    Prop where
  numbered : s.Numbered number
  distinct : (s.equalities.map (·.1)).Nodup
  asked : ∀ {key l}, Answered log key l →
    (s.bounds? key.1).isSome ∧ (s.Undecided key → s.equalities.lookup key = some l)
  listed : ∀ {key l}, s.equalities.lookup key = some l → s.Undecided key ∧ Answered log key l
  bools : ∀ {l}, (Call.newBool, Answer.literal l) ∈ log → ∃ k, l = .numbered k ∧ 0 < k ∧
    k < s.bools ∧ ∀ {key l'}, s.equalities.lookup key = some l' → number key ≠ k
  below : ∀ {c l}, (c, Answer.literal l) ∈ log →
    ∃ k positive, l = .ofVar (UInt32.ofNat k) positive ∧ k < s.bools
  count : s.bools = 1 + newBools log + s.equalities.length

theorem traced_fresh : Traced (fun _ => 0) {} [] where
  numbered := ⟨Nat.one_pos, fun hlookup => by simp at hlookup, fun hlookup => by simp at hlookup⟩
  distinct := by simp
  asked h := by simp [Answered] at h
  listed h := by simp at h
  bools h := by simp at h
  below h := by simp at h
  count := rfl

/-- A call that leaves the store as it is goes into the log. -/
theorem Traced.note (h : Traced number s log) (hcall : ¬ (c matches .newBool))
    (hasked : ∀ key l, c = .equal key.1 key.2 → a = .literal l →
      (s.bounds? key.1).isSome ∧ (s.Undecided key → s.equalities.lookup key = some l))
    (hbelow : ∀ l, a = .literal l →
      ∃ k positive, l = .ofVar (UInt32.ofNat k) positive ∧ k < s.bools) :
    Traced number s (log ++ [(c, a)]) where
  numbered := h.numbered
  distinct := h.distinct
  asked hanswered := by
    rcases answered_append.mp hanswered with hold | ⟨hequal, hliteral⟩
    · exact h.asked hold
    · exact hasked _ _ hequal hliteral
  listed hlookup := by
    obtain ⟨hopen, hold⟩ := h.listed hlookup
    exact ⟨hopen, answered_append.mpr (.inl hold)⟩
  bools hmem := by
    rcases List.mem_append.mp hmem with hold | hnew
    · exact h.bools hold
    · cases List.mem_singleton.mp hnew
      simp at hcall
  below hmem := by
    rcases List.mem_append.mp hmem with hold | hnew
    · exact h.below hold
    · cases List.mem_singleton.mp hnew
      exact hbelow _ rfl
  count := by
    rw [newBools_append, if_neg (by simpa using hcall)]
    exact h.count

theorem Traced.withInt (h : Traced number s log) (lb ub : Int) :
    Traced number { s with bounds := s.bounds.push (lb, ub) } log where
  numbered := h.numbered.of_equalities (Nat.le_refl _) rfl
  distinct := h.distinct
  asked {key l} hanswered := by
    obtain ⟨hknown, hlookup⟩ := h.asked hanswered
    obtain ⟨bounds, hbounds⟩ := Option.isSome_iff_exists.mp hknown
    have hkept := (Grows.int (s := s) lb ub).bounds? hbounds
    refine ⟨by rw [hkept]; rfl, fun hopen => hlookup ?_⟩
    exact (undecided_congr (hkept.trans hbounds.symm)).mp hopen
  listed hlookup := by
    obtain ⟨hopen, hanswered⟩ := h.listed hlookup
    exact ⟨(Grows.int lb ub).undecided hopen, hanswered⟩
  bools := h.bools
  below := h.below
  count := h.count

theorem Traced.withBool (h : Traced number s log) :
    Traced number { s with bools := s.bools + 1 }
      (log ++ [(.newBool, .literal s.freshLiteral)]) where
  numbered := h.numbered.of_equalities (Nat.le_succ _) rfl
  distinct := h.distinct
  asked hanswered := by
    rcases answered_append.mp hanswered with hold | ⟨hequal, -⟩
    · exact h.asked hold
    · cases hequal
  listed hlookup := by
    obtain ⟨hopen, hold⟩ := h.listed hlookup
    exact ⟨hopen, answered_append.mpr (.inl hold)⟩
  bools hmem := by
    rcases List.mem_append.mp hmem with hold | hnew
    · obtain ⟨k, hl, hpos, hlt, hother⟩ := h.bools hold
      exact ⟨k, hl, hpos, Nat.lt_succ_of_lt hlt, hother⟩
    · cases List.mem_singleton.mp hnew
      refine ⟨s.bools, rfl, h.numbered.constants, Nat.lt_succ_self _, fun hlookup => ?_⟩
      exact Nat.ne_of_lt (h.numbered.made hlookup).2.2
  below hmem := by
    rcases List.mem_append.mp hmem with hold | hnew
    · obtain ⟨k, positive, hl, hlt⟩ := h.below hold
      exact ⟨k, positive, hl, Nat.lt_succ_of_lt hlt⟩
    · cases List.mem_singleton.mp hnew
      exact ⟨s.bools, true, rfl, Nat.lt_succ_self _⟩
  count := by
    show s.bools + 1 = 1 + newBools (log ++ [_]) + s.equalities.length
    rw [newBools_append, if_pos rfl, h.count]
    omega

theorem Traced.withEquality (h : Traced number s log) (hopen : s.Undecided key)
    (hnone : s.equalities.lookup key = none) :
    Traced (Function.update number key s.bools) (s.withEquality key)
      (log ++ [(.equal key.1 key.2, .literal s.freshLiteral)]) where
  numbered := h.numbered.withEquality hnone
  distinct := by
    have hnew : ∀ entry ∈ s.equalities, entry.1 ≠ key := fun entry hmem hsame => by
      simpa [hsame] using List.lookup_eq_none_iff.mp hnone entry hmem
    rw [Domains.withEquality, List.map_append, List.nodup_append]
    refine ⟨h.distinct, List.nodup_singleton _, fun k hk k' hk' => ?_⟩
    obtain ⟨entry, hmem, rfl⟩ := List.mem_map.mp hk
    rw [List.mem_singleton.mp hk']
    exact hnew entry hmem
  asked {k l} hanswered := by
    rw [lookup_withEquality]
    rcases answered_append.mp hanswered with hold | ⟨hequal, hliteral⟩
    · obtain ⟨hknown, hlookup⟩ := h.asked hold
      refine ⟨hknown, fun hopen' => ?_⟩
      rw [hlookup hopen', Option.some_or]
    · obtain rfl : key = k := key_eq_of_equal hequal
      cases hliteral
      obtain ⟨lb, ub, hbounds, -⟩ := hopen
      refine ⟨?_, fun _ => by rw [hnone, if_pos rfl, Option.none_or]⟩
      show (s.bounds? key.1).isSome
      rw [hbounds]
      rfl
  listed {k l} hlookup := by
    rw [lookup_withEquality] at hlookup
    by_cases hk : k = key
    · subst hk
      rw [hnone, if_pos rfl, Option.none_or] at hlookup
      cases hlookup
      exact ⟨hopen, answered_append.mpr (.inr ⟨rfl, rfl⟩)⟩
    · rw [if_neg hk, Option.or_none] at hlookup
      obtain ⟨hold, hanswered⟩ := h.listed hlookup
      exact ⟨hold, answered_append.mpr (.inl hanswered)⟩
  bools {l} hmem := by
    rcases List.mem_append.mp hmem with hold | hnew
    · obtain ⟨k, hl, hpos, hlt, hother⟩ := h.bools hold
      refine ⟨k, hl, hpos, Nat.lt_succ_of_lt hlt, fun {key' l'} hlookup => ?_⟩
      rw [lookup_withEquality] at hlookup
      by_cases hkey : key' = key
      · rw [hkey, Function.update_self]
        exact Nat.ne_of_gt hlt
      · rw [if_neg hkey, Option.or_none] at hlookup
        rw [Function.update_of_ne hkey]
        exact hother hlookup
    · simp at hnew
  below hmem := by
    rcases List.mem_append.mp hmem with hold | hnew
    · obtain ⟨k, positive, hl, hlt⟩ := h.below hold
      exact ⟨k, positive, hl, Nat.lt_succ_of_lt hlt⟩
    · cases List.mem_singleton.mp hnew
      exact ⟨s.bools, true, rfl, Nat.lt_succ_self _⟩
  count := by
    show s.bools + 1 = 1 + newBools (log ++ [_]) + (s.equalities ++ [_]).length
    rw [newBools_append, if_neg (by simp), h.count, List.length_append, List.length_singleton]
    omega

/-- An accepted call keeps the invariant. -/
theorem Traced.step (h : Traced number s log) (hstep : s.Answers c a t) :
    ∃ number', Traced number' t (log ++ [(c, a)]) := by
  cases hstep with
  | reads hcall hliteral =>
      exact ⟨number, h.note hcall (fun _ l _ hl => absurd hl (hliteral l))
        fun l hl => absurd hl (hliteral l)⟩
  | int lb ub =>
      exact ⟨number, (h.withInt lb ub).note (by simp) (fun _ _ hequal => by cases hequal)
        fun _ hl => by cases hl⟩
  | bool => exact ⟨number, h.withBool⟩
  | @decided key positive hknown hdecided =>
      refine ⟨number, h.note (by simp) (fun key' l hequal _ => ?_) fun l hl => ?_⟩
      · obtain rfl : key = key' := key_eq_of_equal hequal
        exact ⟨hknown, fun hopen => absurd hopen hdecided⟩
      · cases hl
        exact ⟨0, positive, rfl, h.numbered.constants⟩
  | @again key l hopen hlookup =>
      refine ⟨number, h.note (by simp) (fun key' l' hequal hl => ?_) fun l' hl => ?_⟩
      · obtain rfl : key = key' := key_eq_of_equal hequal
        cases hl
        obtain ⟨lb, ub, hbounds, -⟩ := hopen
        exact ⟨by rw [hbounds]; rfl, fun _ => hlookup⟩
      · cases hl
        obtain ⟨hl, -, hlt⟩ := h.numbered.made hlookup
        exact ⟨number key, true, hl, hlt⟩
  | made hopen hnone => exact ⟨_, h.withEquality hopen hnone⟩

theorem History.traced (h : s.History log) : ∃ number, Traced number s log := by
  induction h with
  | fresh => exact ⟨_, traced_fresh⟩
  | @accepted s t log c a _ hrun ih =>
      obtain ⟨number, htraced⟩ := ih
      exact htraced.step ((perform_answers c s).accepted hrun)
  | @rejected s t log c e _ hrun ih =>
      rw [(perform_answers c s).rejected hrun]
      exact ih

/-! ## Reading the table -/

section Table

variable {key' : DomainId × Int} (h : Traced number s log) (hbools : s.bools ≤ 2 ^ 31)
include h hbools

theorem Traced.toNat_var (hlookup : s.equalities.lookup key = some l) :
    l.var.toNat = number key := by
  obtain ⟨rfl, -, hlt⟩ := h.numbered.made hlookup
  exact Literal.toNat_var_ofVar_of_lt (Nat.lt_of_lt_of_le hlt hbools) true

/-- Equalities have variables of their own. -/
theorem Traced.key_eq (hlookup : s.equalities.lookup key = some l)
    (hlookup' : s.equalities.lookup key' = some l') (hvar : l.var = l'.var) : key = key' := by
  refine h.numbered.distinct hlookup hlookup' ?_
  rw [← h.toNat_var hbools hlookup, ← h.toNat_var hbools hlookup', hvar]

omit hbools in
theorem Traced.lookup_of_mem (hmem : (key, l) ∈ s.equalities) :
    s.equalities.lookup key = some l := by
  obtain ⟨before, behind, hsplit⟩ := List.append_of_mem hmem
  refine List.lookup_eq_some_iff.mpr ⟨before, behind, hsplit, fun entry hentry => ?_⟩
  have hdistinct := h.distinct
  rw [hsplit, List.map_append, List.map_cons, List.nodup_append] at hdistinct
  have hne : entry.1 ≠ key :=
    hdistinct.2.2 _ (List.mem_map_of_mem hentry) _ List.mem_cons_self
  simpa [bne_iff_ne] using hne.symm

/-- The store gives back an equality exactly from literals over the variable of its
literal. -/
theorem Traced.equality?_eq_some :
    s.equality? l = some key ↔ ∃ l', s.equalities.lookup key = some l' ∧ l'.var = l.var := by
  constructor
  · intro hfound
    obtain ⟨⟨k, l'⟩, hfind, rfl⟩ := Option.map_eq_some_iff.mp hfound
    have hvar : l'.var = l.var := by simpa using List.find?_some hfind
    exact ⟨l', h.lookup_of_mem (List.mem_of_find?_eq_some hfind), hvar⟩
  · rintro ⟨l', hlookup, hvar⟩
    obtain ⟨before, behind, hsplit, -⟩ := List.lookup_eq_some_iff.mp hlookup
    have hmem : (key, l') ∈ s.equalities := hsplit ▸ List.mem_append_right _ List.mem_cons_self
    -- some entry is found, and only one key has that variable
    obtain ⟨⟨k, m⟩, hfind⟩ : ∃ entry, s.equalities.find? (fun e => e.2.var == l.var) = some entry :=
      Option.isSome_iff_exists.mp (List.find?_isSome.mpr ⟨_, hmem, beq_of_eq hvar⟩)
    have hfound : m.var = l.var := by simpa using List.find?_some hfind
    have hm := h.lookup_of_mem (List.mem_of_find?_eq_some hfind)
    rw [equality?, hfind, Option.map_some,
      h.key_eq hbools hm hlookup (hfound.trans hvar.symm)]

/-- Reordering the table changes no answer. -/
theorem Traced.equality?_of_perm {table : List ((DomainId × Int) × Literal)}
    (hperm : table.Perm s.equalities) (l : Literal) :
    { s with equalities := table }.equality? l = s.equality? l := by
  have hfind : table.find? (fun e => e.2.var == l.var) =
      s.equalities.find? (fun e => e.2.var == l.var) := by
    refine List.find?_eq_find?_of_perm hperm ?_
    rintro ⟨k, m⟩ ⟨hmem, hvar⟩ ⟨k', m'⟩ ⟨hmem', hvar'⟩
    have hm := h.lookup_of_mem (hperm.mem_iff.mp hmem)
    have hm' := h.lookup_of_mem (hperm.mem_iff.mp hmem')
    obtain rfl := h.key_eq hbools hm hm' ((eq_of_beq hvar).trans (eq_of_beq hvar').symm)
    rw [Option.some.inj (hm.symm.trans hm')]
  rw [equality?, hfind, equality?]

end Table

/-! ## The store and its history -/

/-- The store gives equalities back from their literals as its history says. -/
structure Inverts (s : Domains) (log : List (Call × Answer)) : Prop where
  /-- The literal of a new variable is over none that the log names, nor over that of the
  constants. -/
  fresh : ∀ {c l t}, perform c s = .ok (.literal l) t → c = .newBool ∨ s.bools < t.bools →
    t.bools ≤ 2 ^ 31 → l.var ≠ falseLiteral.var ∧ l.var ≠ trueLiteral.var ∧
      ∀ {c' l'}, (c', Answer.literal l') ∈ log → l.var ≠ l'.var
  /-- An equality keeps its literal, and both polarities give it back. -/
  again : ∀ {key l}, Answered log key l → s.Undecided key →
    equal key.1 key.2 s = .ok l s ∧ s.equality? l = some key ∧ s.equality? l.negate = some key
  /-- Any other literal gives no equality. -/
  other : ∀ {l}, (∀ {key l'}, Answered log key l' → s.Undecided key → l ≠ l' ∧ l ≠ l'.negate) →
    s.equality? l = none
  constants : s.equality? falseLiteral = none ∧ s.equality? trueLiteral = none
  bools : ∀ {l}, (Call.newBool, Answer.literal l) ∈ log →
    s.equality? l = none ∧ s.equality? l.negate = none
  /-- The order of the table is of no account. -/
  order : ∀ {table}, table.Perm s.equalities → ∀ l,
    { s with equalities := table }.equality? l = s.equality? l
  /-- There is a variable for the constants, one for each new boolean variable, and one for
  each undecided equality that was asked for. -/
  count : ∃ keys : List (DomainId × Int), keys.Nodup ∧
    (∀ key, key ∈ keys ↔ s.Undecided key ∧ ∃ l, Answered log key l) ∧
    s.bools = 1 + newBools log + keys.length

theorem Traced.fresh (h : Traced number s log) {c : Call} {l : Literal} {t : Domains}
    (hrun : perform c s = .ok (.literal l) t) (hnew : c = .newBool ∨ s.bools < t.bools)
    (hbools : t.bools ≤ 2 ^ 31) : l.var ≠ falseLiteral.var ∧ l.var ≠ trueLiteral.var ∧
      ∀ {c' l'}, (c', Answer.literal l') ∈ log → l.var ≠ l'.var := by
  obtain ⟨rfl, ht⟩ : l = s.freshLiteral ∧ t.bools = s.bools + 1 := by
    cases (perform_answers c s).accepted hrun with
    | reads _ hliteral => exact absurd rfl (hliteral l)
    | bool => exact ⟨rfl, rfl⟩
    | decided | again =>
        rcases hnew with hcall | hlt
        · cases hcall
        · exact absurd hlt (Nat.lt_irrefl _)
    | made => exact ⟨rfl, rfl⟩
  have hlt : s.bools < 2 ^ 31 := by omega
  have hvar : s.freshLiteral.var.toNat = s.bools := Literal.toNat_var_ofVar_of_lt hlt true
  -- every literal so far has a smaller number
  have hother : ∀ k positive, k < s.bools →
      s.freshLiteral.var ≠ (Literal.ofVar (UInt32.ofNat k) positive).var := by
    intro k positive hk hsame
    have hnumber := congrArg UInt32.toNat hsame
    rw [hvar, Literal.toNat_var_ofVar_of_lt (hk.trans hlt)] at hnumber
    exact absurd hnumber (Nat.ne_of_gt hk)
  refine ⟨hother 0 false h.numbered.constants, hother 0 true h.numbered.constants, ?_⟩
  intro c' l' hmem
  obtain ⟨k, positive, rfl, hk⟩ := h.below hmem
  exact hother k positive hk

theorem Traced.equality?_eq_none (h : Traced number s log) (hbools : s.bools ≤ 2 ^ 31)
    {k : Nat} (hl : l.var.toNat = k)
    (hother : ∀ {key l'}, s.equalities.lookup key = some l' → number key ≠ k) :
    s.equality? l = none ∧ s.equality? l.negate = none := by
  have hnone : ∀ m : Literal, m.var = l.var → s.equality? m = none := by
    intro m hm
    rw [Option.eq_none_iff_forall_ne_some]
    intro key hkey
    obtain ⟨l', hlookup, hvar⟩ := (h.equality?_eq_some hbools).mp hkey
    refine hother hlookup ?_
    rw [← h.toNat_var hbools hlookup, hvar, hm, hl]
  exact ⟨hnone l rfl, hnone _ (Literal.var_negate l)⟩

/-- After any calls, as long as there are not too many boolean variables, the store gives
equalities back from their literals. -/
theorem equality?_inverts_equal (h : s.History log) (hbools : s.bools ≤ 2 ^ 31) :
    s.Inverts log := by
  obtain ⟨number, htraced⟩ := h.traced
  have hzero : ∀ {key l'}, s.equalities.lookup key = some l' → number key ≠ 0 := fun hlookup =>
    Nat.ne_of_gt (htraced.numbered.made hlookup).2.1
  have hfalse := htraced.equality?_eq_none hbools (l := falseLiteral) (by decide) hzero
  have htrue := htraced.equality?_eq_none hbools (l := trueLiteral) (by decide) hzero
  refine ⟨htraced.fresh, fun {key l} hanswered hopen => ?_, fun {l} hno => ?_,
    ⟨hfalse.1, htrue.1⟩, fun {l} hmem => ?_, htraced.equality?_of_perm hbools,
    s.equalities.map (·.1), htraced.distinct, fun key => ?_, ?_⟩
  · have hlookup := (htraced.asked hanswered).2 hopen
    refine ⟨?_, (htraced.equality?_eq_some hbools).mpr ⟨l, hlookup, rfl⟩,
      (htraced.equality?_eq_some hbools).mpr ⟨l, hlookup, (Literal.var_negate l).symm⟩⟩
    obtain ⟨lb, ub, hbounds, hlt, hlower, hupper⟩ := hopen
    obtain ⟨l', t, hrun, hlookup', rfl | ⟨hnone, -⟩⟩ :=
      equal_of_bounds hbounds hlower hupper (Int.ne_of_lt hlt)
    · rwa [Option.some.inj (hlookup.symm.trans hlookup')]
    · cases hnone.symm.trans hlookup
  · rw [Option.eq_none_iff_forall_ne_some]
    intro key hkey
    obtain ⟨l', hlookup, hvar⟩ := (htraced.equality?_eq_some hbools).mp hkey
    obtain ⟨hopen, hanswered⟩ := htraced.listed hlookup
    obtain ⟨hne, hne'⟩ := hno hanswered hopen
    exact (Literal.var_eq_iff.mp hvar.symm).elim hne hne'
  · obtain ⟨k, rfl, -, hk, hother⟩ := htraced.bools hmem
    exact htraced.equality?_eq_none hbools
      (Literal.toNat_var_ofVar_of_lt (Nat.lt_of_lt_of_le hk hbools) true) hother
  · constructor
    · intro hmem
      obtain ⟨⟨k, l⟩, hentry, rfl⟩ := List.mem_map.mp hmem
      obtain ⟨hopen, hanswered⟩ := htraced.listed (htraced.lookup_of_mem hentry)
      exact ⟨hopen, l, hanswered⟩
    · rintro ⟨hopen, l, hanswered⟩
      obtain ⟨before, behind, hsplit, -⟩ :=
        List.lookup_eq_some_iff.mp ((htraced.asked hanswered).2 hopen)
      rw [hsplit, List.map_append, List.map_cons]
      exact List.mem_append_right _ List.mem_cons_self
  · rw [htraced.count, List.length_map]

/-- An integer variable, an equality that is asked for twice, a new boolean variable, and an
equality of a variable that does not exist. -/
theorem equality?_inverts_equal_sample : ∃ (s : Domains) (log : List (Call × Answer)),
    s.History log ∧ s.bools ≤ 2 ^ 31 ∧ s.Undecided (⟨0⟩, 2) ∧
    Answered log (⟨0⟩, 2) (.numbered 1) ∧ (.newBool, .literal (.numbered 2)) ∈ log ∧
    s.Inverts log ∧ s.equality? (Literal.numbered 1).negate = some (⟨0⟩, 2) := by
  have h : History ⟨3, #[(0, 3)], [((⟨0⟩, 2), .numbered 1)]⟩
      [(.newInt 0 3, .domain ⟨0⟩), (.equal ⟨0⟩ 2, .literal (.numbered 1)),
        (.newBool, .literal (.numbered 2)), (.equal ⟨0⟩ 2, .literal (.numbered 1))] :=
    ((((History.fresh.accepted (c := .newInt 0 3) rfl).accepted (c := .equal ⟨0⟩ 2) rfl).accepted
      (c := .newBool) rfl).accepted (c := .equal ⟨0⟩ 2) rfl).rejected (c := .equal ⟨9⟩ 0) rfl
  refine ⟨_, _, h, by decide, ⟨0, 3, rfl, by decide, by decide, by decide⟩, ?_, ?_,
    equality?_inverts_equal h (by decide), by decide⟩
  · exact List.mem_cons_of_mem _ List.mem_cons_self
  · exact List.mem_cons_of_mem _ (List.mem_cons_of_mem _ List.mem_cons_self)

end Domains

end JointModel
