import JointModel.Proofs.Effect
import JointModel.Proofs.HandleTable
import JointModel.Session.Calls

/-!
# What the calls of a session do to its entries

Nothing outside this file looks into the tables of a session: what a call does
is said by the views `var?` and `cons?` before and after it.

* `Adds` and `AddsCons`: an entry was stored under a handle that stood for
  nothing before.
* `Negates`: the alias of a positive entry was made, and both are linked.
* `Enrols`: a new entry was stored and made a member of the problem.

Where all outcomes of a call matter, `ends_newVar`, `ends_negateVar`, `ends_enrolVar`,
`ends_dropVarUse` and their companions for constraints list them.

Everything but the entries, the number of allocations and the counts of releases
is the `frame` of a session, which these calls leave alone.
-/

namespace JointModel

theorem VarId.index_inj {v w : VarId} : v.index = w.index ↔ v = w := by
  cases v
  cases w
  simp

theorem ConsId.index_inj {c d : ConsId} : c.index = d.index ↔ c = d := by
  cases c
  cases d
  simp

/-- The entry that a positive variable gets in a new working copy. -/
def VarInfo.copied (entry : VarInfo) : VarInfo :=
  { entry with space := .copy, uses := 1, link := .positive none }

namespace Session

open Effect

variable {s t : Session} {v w n : VarId} {c d : ConsId} {entry : VarInfo}

/-- A session without its entries, the number of allocations and the counts of
releases. -/
def frame (s : Session) : Session :=
  { s with
    vars := {}, conss := {}, allocations := 0
    ledger.varReleases := 0, ledger.consReleases := 0 }

theorem problem_eq_of_frame (h : t.frame = s.frame) : t.problem = s.problem :=
  (congrArg problem h :)

theorem copies_eq_of_frame (h : t.frame = s.frame) : t.copies = s.copies :=
  (congrArg copies h :)

theorem hooked_eq_of_frame (h : t.frame = s.frame) : t.hooked = s.hooked :=
  (congrArg hooked h :)

theorem limit_eq_of_frame (h : t.frame = s.frame) : t.limit = s.limit :=
  (congrArg limit h :)

theorem forks_eq_of_frame (h : t.frame = s.frame) : t.ledger.forks = s.ledger.forks :=
  (congrArg (fun s => s.ledger.forks) h :)

theorem discards_eq_of_frame (h : t.frame = s.frame) : t.ledger.discards = s.ledger.discards :=
  (congrArg (fun s => s.ledger.discards) h :)

/-! ## The views of a changed table -/

theorem var?_modify (s : Session) (v w : VarId) (change : VarInfo → VarInfo) :
    ({ s with vars := s.vars.modify v.index change } : Session).var? w =
      if w = v then (s.var? w).map change else s.var? w := by
  simp only [var?, HandleTable.get?_modify, VarId.index_inj, eq_comm]

/-- The uses of a live variable change. -/
theorem var?_modifyUses {entry : VarInfo} (hv : s.var? v = some entry) (change : Nat → Nat)
    (w : VarId) :
    ({ s with
      vars := s.vars.modify v.index fun entry => { entry with uses := change entry.uses } } :
        Session).var? w =
      if w = v then some { entry with uses := change entry.uses } else s.var? w := by
  rw [var?_modify]
  split
  · next hw => rw [hw, hv, Option.map_some]
  · rfl

theorem cons?_modify (s : Session) (c d : ConsId) (change : ConsInfo → ConsInfo) :
    ({ s with conss := s.conss.modify c.index change } : Session).cons? d =
      if d = c then (s.cons? d).map change else s.cons? d := by
  simp only [cons?, HandleTable.get?_modify, ConsId.index_inj, eq_comm]

theorem var?_freeVar (s : Session) (v w : VarId) (n : Option VarId) :
    (s.freeVar v n).var? w = if w = v ∨ some w = n then none else s.var? w := by
  cases n with
  | none => simp [freeVar, var?, HandleTable.get?_remove, VarId.index_inj, eq_comm]
  | some n =>
      simp only [freeVar, var?, HandleTable.get?_remove, VarId.index_inj, Option.some.injEq]
      by_cases hn : w = n
      · simp [hn]
      · by_cases hv : w = v
        · simp [hv]
        · simp [hn, hv, Ne.symm hn, Ne.symm hv]

theorem cons?_freeCons (s : Session) (c d : ConsId) :
    (s.freeCons c).cons? d = if d = c then none else s.cons? d := by
  simp only [freeCons, cons?, HandleTable.get?_remove, ConsId.index_inj, eq_comm]

/-! ## New entries -/

/-- `t` is `s` with a new variable `v`. -/
structure Adds (s : Session) (v : VarId) (entry : VarInfo) (t : Session) : Prop where
  fresh : s.var? v = none
  var? : ∀ w, t.var? w = if w = v then some entry else s.var? w
  table : t.vars.Sound
  rest : t = { s with vars := t.vars, allocations := s.allocations + 1 }

/-- `t` is `s` with a new constraint `c`. -/
structure AddsCons (s : Session) (c : ConsId) (entry : ConsInfo) (t : Session) : Prop where
  fresh : s.cons? c = none
  cons? : ∀ d, t.cons? d = if d = c then some entry else s.cons? d
  table : t.conss.Sound
  rest : t = { s with conss := t.conss, allocations := s.allocations + 1 }

/-- `cause` rejects an allocation because the limit is reached. -/
def Exhausted (s : Session) (cause : EngineError) : Prop :=
  (∃ limit, s.limit = some limit ∧ limit ≤ s.allocations) ∧ ∃ detail, cause = .allocation detail

/-- One more allocation stays within the limit. -/
def HasRoom (s : Session) : Prop := ∀ limit, s.limit = some limit → s.allocations < limit

theorem allocate_ends (s : Session) (name : String) :
    Ends (allocate name) s (fun _ t => s.HasRoom ∧ t = { s with allocations := s.allocations + 1 })
      fun cause t => t = s ∧ s.Exhausted cause := by
  unfold Ends allocate
  cases hlimit : s.exhausted? with
  | none =>
      refine ⟨fun limit hl => ?_, rfl⟩
      simpa [exhausted?, hl, Option.filter_eq_none_iff] using hlimit
  | some limit =>
      obtain ⟨hl, hle⟩ := Option.filter_eq_some_iff.mp hlimit
      exact ⟨rfl, ⟨limit, hl, by simpa using hle⟩, _, rfl⟩

theorem allocateVar_ends (h : s.vars.Sound) (entry : VarInfo) :
    Ends (allocateVar entry) s (fun v t => s.HasRoom ∧ s.Adds v entry t)
      fun cause t => t = s ∧ s.Exhausted cause := by
  unfold allocateVar
  rw [ends_bind]
  refine (allocate_ends s entry.name).mono (fun _ t ht => ?_) fun _ _ he => he
  obtain ⟨hroom, rfl⟩ := ht
  refine ⟨hroom, ?_, ?_, h.insert entry, rfl⟩
  · exact h.get?_insert_fst entry
  · intro w
    refine (h.get?_insert entry w.index).trans ?_
    simp only [eq_comm, ← VarId.index_inj]
    rfl

theorem allocateCons_ends (h : s.conss.Sound) (entry : ConsInfo) :
    Ends (allocateCons entry) s (fun c t => s.HasRoom ∧ s.AddsCons c entry t)
      fun cause t => t = s ∧ s.Exhausted cause := by
  unfold allocateCons
  rw [ends_bind]
  refine (allocate_ends s entry.name).mono (fun _ t ht => ?_) fun _ _ he => he
  obtain ⟨hroom, rfl⟩ := ht
  refine ⟨hroom, ?_, ?_, h.insert entry, rfl⟩
  · exact h.get?_insert_fst entry
  · intro d
    refine (h.get?_insert entry d.index).trans ?_
    simp only [eq_comm, ← ConsId.index_inj]
    rfl

theorem Adds.live_of_ne (h : s.Adds v entry t) {other : VarInfo} (hw : s.var? w = some other) :
    t.var? w = some other := by
  rw [h.var?, if_neg, hw]
  rintro rfl
  rw [h.fresh] at hw
  cases hw

theorem newVar_ends (h : s.vars.Sound) (hproblem : s.problem.isSome) (name : String)
    (lb ub obj : Float) (kind : VarKind) :
    Ends (newVar name lb ub obj kind) s
      (fun v t => s.HasRoom ∧ s.Adds v
        { name, lb, ub, obj, kind, space := .primary, uses := 1, link := .positive none } t)
      fun cause t => t = s ∧ s.Exhausted cause := by
  obtain ⟨problem, hproblem⟩ := Option.isSome_iff_exists.mp hproblem
  unfold newVar
  rw [ends_bind]
  refine ends_of_accepted (a := problem) (t := s) ?_ (allocateVar_ends h _)
  simp [requireProblem, hproblem]

theorem newVar_rejected (name : String) (lb ub obj : Float) (kind : VarKind)
    (hproblem : s.problem = none) :
    newVar name lb ub obj kind s = .error .noProblem s := by
  simp [newVar, requireProblem, hproblem]

/-- The outcomes of a new variable. -/
theorem ends_newVar (h : s.vars.Sound) (name : String) (lb ub obj : Float) (kind : VarKind)
    {P : VarId → Session → Prop} {Q : EngineError → Session → Prop}
    (hadds : ∀ v t, s.Adds v
      { name, lb, ub, obj, kind, space := .primary, uses := 1, link := .positive none } t → P v t)
    (hrejected : ∀ cause, Q cause s) : Ends (newVar name lb ub obj kind) s P Q := by
  cases hproblem : s.problem with
  | none => exact ends_of_rejected (newVar_rejected name lb ub obj kind hproblem) (hrejected _)
  | some problem =>
      have hends := newVar_ends h (Option.isSome_of_eq_some hproblem) name lb ub obj kind
      exact hends.mono (fun v t ht => hadds v t ht.2) fun cause t ht => ht.1 ▸ hrejected cause

theorem newCons_ends (h : s.conss.Sound) (hproblem : s.problem.isSome) {handler : String}
    (hhandler : s.hasHandler handler) (name : String) :
    Ends (newCons handler name) s
      (fun c t => s.HasRoom ∧ s.AddsCons c { name, handler, uses := 1 } t)
      fun cause t => t = s ∧ s.Exhausted cause := by
  obtain ⟨problem, hproblem⟩ := Option.isSome_iff_exists.mp hproblem
  unfold newCons
  rw [ends_bind]
  refine ends_of_accepted (a := ()) (t := s) (by simp [requireHandler, hhandler]) ?_
  rw [ends_bind]
  refine ends_of_accepted (a := problem) (t := s) ?_ (allocateCons_ends h _)
  simp [requireProblem, hproblem]

/-- The outcomes of a new constraint. -/
theorem ends_newCons (h : s.conss.Sound) (handler name : String) {P : ConsId → Session → Prop}
    {Q : EngineError → Session → Prop}
    (hadds : ∀ c t, s.AddsCons c { name, handler, uses := 1 } t → P c t)
    (hrejected : ∀ cause, Q cause s) : Ends (newCons handler name) s P Q := by
  cases hhandler : s.hasHandler handler with
  | false =>
      exact ends_of_rejected (e := .unknownHandler handler) (by simp [newCons, requireHandler, hhandler])
        (hrejected _)
  | true =>
      cases hproblem : s.problem with
      | none =>
          exact ends_of_rejected (e := .noProblem)
            (by simp [newCons, requireHandler, requireProblem, hhandler, hproblem]) (hrejected _)
      | some problem =>
          have hends := newCons_ends h (Option.isSome_of_eq_some hproblem) hhandler name
          exact hends.mono (fun c t ht => hadds c t ht.2) fun cause t ht => ht.1 ▸ hrejected cause

theorem copyCons_ends (h : s.conss.Sound) {entry : ConsInfo} (hc : s.cons? c = some entry) :
    Ends (copyCons c) s (fun d t => s.HasRoom ∧ s.AddsCons d { entry with uses := 1 } t)
      fun cause t => t = s ∧ s.Exhausted cause := by
  unfold copyCons
  rw [ends_bind]
  exact ends_of_accepted (by simp only [getCons, hc]) (allocateCons_ends h _)

/-- The outcomes of a copy of a constraint. -/
theorem ends_copyCons (h : s.conss.Sound) (c : ConsId) {P : ConsId → Session → Prop}
    {Q : EngineError → Session → Prop}
    (hadds : ∀ entry d t, s.cons? c = some entry → s.AddsCons d { entry with uses := 1 } t → P d t)
    (hrejected : ∀ cause, Q cause s) : Ends (copyCons c) s P Q := by
  cases hc : s.cons? c with
  | none => exact ends_of_rejected (e := .invalidCons c) (by simp [copyCons, getCons, hc]) (hrejected _)
  | some entry =>
      exact (copyCons_ends h hc).mono (fun d t ht => hadds entry d t hc ht.2)
        fun cause t ht => ht.1 ▸ hrejected cause

/-! ## Copies and negations -/

theorem copyEntry_ends (h : s.vars.Sound) (entry : VarInfo) :
    Ends (copyEntry entry) s (fun v t => s.HasRoom ∧ s.Adds v entry.copied t)
      fun cause t => t = s ∧ s.Exhausted cause :=
  allocateVar_ends h entry.copied

theorem copyVar_ends (h : s.vars.Sound) {entry : VarInfo} {n : Option VarId}
    (hv : s.var? v = some entry) (hlink : entry.link = .positive n) :
    Ends (copyVar v) s (fun w t => s.HasRoom ∧ s.Adds w entry.copied t)
      fun cause t => t = s ∧ s.Exhausted cause := by
  unfold copyVar
  rw [ends_bind]
  refine ends_of_accepted (a := entry) (t := s) (by simp only [getVar, hv]) ?_
  simpa only [hlink] using copyEntry_ends h entry

/-- `t` is `s` with a new alias `n` for the negation of `v`. -/
structure Negates (s : Session) (v : VarId) (entry : VarInfo) (n : VarId) (t : Session) :
    Prop where
  live : s.var? v = some entry
  link : entry.link = .positive none
  fresh : s.var? n = none
  var? : ∀ w, t.var? w =
    if w = n then some (entry.negated v)
    else if w = v then some { entry with link := .positive (some n) }
    else s.var? w
  table : t.vars.Sound
  rest : t = { s with vars := t.vars, allocations := s.allocations + 1 }

theorem Negates.ne (h : s.Negates v entry n t) : n ≠ v := by
  rintro rfl
  have := h.live
  rw [h.fresh] at this
  cases this

theorem negateVar_ends (h : s.vars.Sound) {entry : VarInfo} (hv : s.var? v = some entry)
    (hlink : entry.link = .positive none) :
    Ends (negateVar v) s (fun n t => s.HasRoom ∧ s.Negates v entry n t)
      fun cause t => t = s ∧ s.Exhausted cause := by
  unfold negateVar
  rw [ends_bind]
  refine ends_of_accepted (a := entry) (t := s) (by simp only [getVar, hv]) ?_
  simp only [hlink]
  rw [ends_bind]
  refine (allocateVar_ends h _).mono (fun n t ht => ?_) fun _ _ he => he
  obtain ⟨hroom, hadds⟩ := ht
  refine ⟨hroom, hv, hlink, hadds.fresh, ?_, hadds.table.modify _ _, ?_⟩
  · intro w
    rw [var?_modify, hadds.var?]
    by_cases hwn : w = n
    · have hwv : w ≠ v := by
        rintro rfl
        rw [hwn, hadds.fresh] at hv
        cases hv
      simp [hwn, hwn ▸ hwv]
    · by_cases hwv : w = v
      · subst hwv
        simp [hwn, hv]
      · simp [hwn, hwv]
  · rw [hadds.rest]

theorem negateVar_of_linked {entry : VarInfo} {n : VarId} (hv : s.var? v = some entry)
    (hlink : entry.link = .positive (some n) ∨ entry.link = .negation n) :
    negateVar v s = .ok n s := by
  unfold negateVar
  rw [bind_apply]
  rcases hlink with hlink | hlink <;> simp [getVar, hv, hlink]

/-- The outcomes of a negation: the variable is linked already, or its alias is made. -/
theorem ends_negateVar (h : s.vars.Sound) (v : VarId) {P : VarId → Session → Prop}
    {Q : EngineError → Session → Prop}
    (hlinked : ∀ entry n, s.var? v = some entry →
      entry.link = .positive (some n) ∨ entry.link = .negation n → P n s)
    (hnegates : ∀ entry n t, s.Negates v entry n t → P n t)
    (hrejected : ∀ cause, Q cause s) : Ends (negateVar v) s P Q := by
  cases hv : s.var? v with
  | none =>
      exact ends_of_rejected (e := .invalidVar v) (by simp [negateVar, getVar, hv]) (hrejected _)
  | some entry =>
      cases hlink : entry.link with
      | negation p =>
          exact ends_of_accepted (negateVar_of_linked hv (.inr hlink))
            (hlinked entry p hv (.inr hlink))
      | positive m =>
          cases m with
          | some n =>
              exact ends_of_accepted (negateVar_of_linked hv (.inl hlink))
                (hlinked entry n hv (.inl hlink))
          | none =>
              exact (negateVar_ends h hv hlink).mono (fun n t ht => hnegates entry n t ht.2)
                fun cause t ht => ht.1 ▸ hrejected cause

/-- The copy of an alias is the alias of the copy of its partner. -/
theorem copyVar_alias_ends (h : s.vars.Sound) {entry partner : VarInfo} {p : VarId}
    (hv : s.var? v = some entry) (hlink : entry.link = .negation p)
    (hp : s.var? p = some partner) :
    Ends (copyVar v) s
      (fun n t => ∃ target u, s.Adds target partner.copied u ∧
        u.Negates target partner.copied n t)
      fun cause t => (t = s ∨ ∃ target, s.Adds target partner.copied t) ∧
        ∃ detail, cause = .allocation detail := by
  unfold copyVar
  rw [ends_bind]
  refine ends_of_accepted (a := entry) (t := s) (by simp only [getVar, hv]) ?_
  simp only [hlink]
  rw [ends_bind]
  refine ends_of_accepted (a := partner) (t := s) (by simp only [getVar, hp]) ?_
  rw [ends_bind]
  refine (copyEntry_ends h partner).mono (fun target u hu => ?_) fun cause t ht => ?_
  · have hadds : s.Adds target partner.copied u := hu.2
    have htarget : u.var? target = some partner.copied := by rw [hadds.var?, if_pos rfl]
    refine (negateVar_ends hadds.table htarget rfl).mono (fun n t ht => ?_) fun cause t ht => ?_
    · exact ⟨target, u, hadds, ht.2⟩
    · exact ⟨.inr ⟨target, ht.1 ▸ hadds⟩, ht.2.2⟩
  · exact ⟨.inl ht.1, ht.2.2⟩

/-! ## Members and uses -/

/-- Counts one more use of a variable. -/
def useVar (s : Session) (v : VarId) : Session :=
  { s with vars := s.vars.modify v.index fun entry => { entry with uses := entry.uses + 1 } }

theorem enrolVar_accepted {entry : VarInfo} {n : Option VarId} (hv : s.var? v = some entry)
    (hlink : entry.link = .positive n) {problem : Problem} (hproblem : s.problem = some problem) :
    enrolVar v s =
      .ok () { s.useVar v with problem := some { problem with vars := problem.vars.push v } } := by
  unfold enrolVar
  simp [getVar, hv, hlink, modifyVar, modifyProblem, hproblem, useVar]

/-- The outcomes of an enrolment.  One that is rejected for want of a problem counts the use. -/
theorem ends_enrolVar (v : VarId) {P : Unit → Session → Prop} {Q : EngineError → Session → Prop}
    (henrols : ∀ entry m problem, s.var? v = some entry → entry.link = .positive m →
      s.problem = some problem →
      P () { s.useVar v with problem := some { problem with vars := problem.vars.push v } })
    (hcounted : ∀ entry m cause, s.var? v = some entry → entry.link = .positive m →
      Q cause (s.useVar v))
    (hrejected : ∀ cause, Q cause s) : Ends (enrolVar v) s P Q := by
  cases hv : s.var? v with
  | none =>
      exact ends_of_rejected (e := .invalidVar v) (by simp [enrolVar, getVar, hv]) (hrejected _)
  | some entry =>
      cases hlink : entry.link with
      | negation p =>
          exact ends_of_rejected (e := .invalidVar v) (by simp [enrolVar, getVar, hv, hlink])
            (hrejected _)
      | positive m =>
          cases hproblem : s.problem with
          | none =>
              refine ends_of_rejected (e := .noProblem) (t := s.useVar v) ?_
                (hcounted entry m _ hv hlink)
              simp [enrolVar, getVar, hv, hlink, modifyVar, modifyProblem, hproblem, useVar]
          | some problem =>
              exact ends_of_accepted (enrolVar_accepted hv hlink hproblem)
                (henrols entry m problem hv hlink hproblem)

theorem enrolCons_accepted {entry : ConsInfo} (hc : s.cons? c = some entry) {problem : Problem}
    (hproblem : s.problem = some problem) :
    enrolCons c s = .ok ()
      { s with
        conss := s.conss.modify c.index fun entry => { entry with uses := entry.uses + 1 }
        problem := some { problem with conss := problem.conss.push c } } := by
  unfold enrolCons
  simp [getCons, hc, modifyCons, modifyProblem, hproblem]

/-- The outcomes of an enrolment of a constraint. -/
theorem ends_enrolCons (c : ConsId) {P : Unit → Session → Prop} {Q : EngineError → Session → Prop}
    (henrols : ∀ entry problem, s.cons? c = some entry → s.problem = some problem → P ()
      { s with
        conss := s.conss.modify c.index fun entry => { entry with uses := entry.uses + 1 }
        problem := some { problem with conss := problem.conss.push c } })
    (hcounted : ∀ entry cause, s.cons? c = some entry → Q cause
      { s with conss := s.conss.modify c.index fun entry => { entry with uses := entry.uses + 1 } })
    (hrejected : ∀ cause, Q cause s) : Ends (enrolCons c) s P Q := by
  cases hc : s.cons? c with
  | none =>
      exact ends_of_rejected (e := .invalidCons c) (by simp [enrolCons, getCons, hc]) (hrejected _)
  | some entry =>
      cases hproblem : s.problem with
      | none =>
          refine ends_of_rejected (e := .noProblem) (t := _) ?_ (hcounted entry _ hc)
          simp [enrolCons, getCons, hc, modifyCons, modifyProblem, hproblem]
      | some problem =>
          exact ends_of_accepted (enrolCons_accepted hc hproblem) (henrols entry problem hc hproblem)

theorem dropVarUse_last {entry : VarInfo} {n : Option VarId} (hv : s.var? v = some entry)
    (hlink : entry.link = .positive n) (huses : entry.uses ≤ 1) :
    dropVarUse v s = .ok () (s.freeVar v n) := by
  unfold dropVarUse
  simp [getVar, hv, hlink, huses]

theorem dropVarUse_more {entry : VarInfo} {n : Option VarId} (hv : s.var? v = some entry)
    (hlink : entry.link = .positive n) (huses : ¬ entry.uses ≤ 1) :
    dropVarUse v s = .ok ()
      { s with
        vars := s.vars.modify v.index fun entry => { entry with uses := entry.uses - 1 } } := by
  unfold dropVarUse
  simp [getVar, hv, hlink, huses, modifyVar]

/-- The outcomes of taking back a use: the last one frees the entry, any other one is counted. -/
theorem ends_dropVarUse (v : VarId) {P : Unit → Session → Prop}
    {Q : EngineError → Session → Prop}
    (hlast : ∀ entry m, s.var? v = some entry → entry.link = .positive m → P () (s.freeVar v m))
    (hmore : ∀ entry m, s.var? v = some entry → entry.link = .positive m → 1 < entry.uses →
      P () { s with
        vars := s.vars.modify v.index fun entry => { entry with uses := entry.uses - 1 } })
    (hrejected : ∀ cause, Q cause s) : Ends (dropVarUse v) s P Q := by
  cases hv : s.var? v with
  | none =>
      exact ends_of_rejected (e := .invalidVar v) (by simp [dropVarUse, getVar, hv]) (hrejected _)
  | some entry =>
      cases hlink : entry.link with
      | negation p =>
          exact ends_of_rejected (e := .aliasRelease v) (by simp [dropVarUse, getVar, hv, hlink])
            (hrejected _)
      | positive m =>
          by_cases huses : entry.uses ≤ 1
          · exact ends_of_accepted (dropVarUse_last hv hlink huses) (hlast entry m hv hlink)
          · exact ends_of_accepted (dropVarUse_more hv hlink huses)
              (hmore entry m hv hlink (Nat.lt_of_not_le huses))

theorem dropConsUse_last {entry : ConsInfo} (hc : s.cons? c = some entry)
    (huses : entry.uses ≤ 1) : dropConsUse c s = .ok () (s.freeCons c) := by
  unfold dropConsUse
  simp [getCons, hc, huses]

theorem dropConsUse_more {entry : ConsInfo} (hc : s.cons? c = some entry)
    (huses : ¬ entry.uses ≤ 1) :
    dropConsUse c s = .ok ()
      { s with
        conss := s.conss.modify c.index fun entry => { entry with uses := entry.uses - 1 } } := by
  unfold dropConsUse
  simp [getCons, hc, huses, modifyCons]

/-- The outcomes of taking back a use of a constraint. -/
theorem ends_dropConsUse (c : ConsId) {P : Unit → Session → Prop} {Q : EngineError → Session → Prop}
    (hlast : ∀ entry, s.cons? c = some entry → P () (s.freeCons c))
    (hmore : ∀ entry, s.cons? c = some entry → 1 < entry.uses → P ()
      { s with conss := s.conss.modify c.index fun entry => { entry with uses := entry.uses - 1 } })
    (hrejected : ∀ cause, Q cause s) : Ends (dropConsUse c) s P Q := by
  cases hc : s.cons? c with
  | none =>
      exact ends_of_rejected (e := .invalidCons c) (by simp [dropConsUse, getCons, hc]) (hrejected _)
  | some entry =>
      by_cases huses : entry.uses ≤ 1
      · exact ends_of_accepted (dropConsUse_last hc huses) (hlast entry hc)
      · exact ends_of_accepted (dropConsUse_more hc huses) (hmore entry hc (Nat.lt_of_not_le huses))

end Session

end JointModel
