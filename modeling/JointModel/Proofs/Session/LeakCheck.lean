import JointModel.Proofs.Session.Settlement

/-!
# The leak check is exact

An honest caller gives back only what it captured, each use once, and leaves the entries of
the working copies on the stack to the session.  `Honest` collects the sessions that
accepted calls of such a caller lead to, each with the uses that the caller captured and
still has to give back.

In all of them every entry is used as often as the caller, the problem and the working
copies claim it, so the teardown is not rejected, and it leaves exactly what the caller has
not given back (`Honest.leaves_captures`).
-/

namespace JointModel

open Effect Formulation

/-- What the caller holds after a call that was accepted with an answer and left the
session `t`. -/
def Captures.after (held : Captures) (t : Session) : Session.Call → Session.Answer → Captures
  | .newVar .., .var v => { held with vars := v :: held.vars }
  | .copyVar _, .var v => { held with vars := t.positiveOf v :: held.vars }
  | .releaseVar v, _ => { held with vars := held.vars.erase v }
  | .newCons .., .cons c => { held with conss := c :: held.conss }
  | .copyCons _, .cons c => { held with conss := c :: held.conss }
  | .releaseCons c, _ => { held with conss := held.conss.erase c }
  | _, _ => held

namespace Session

variable {s t : Session} {held : Captures} {v : VarId} {c : ConsId} {source : Formulation}

/-- The calls that an honest caller may make: it releases what it captured, and the handles
of a formulation from which a fork starts are alive. -/
def Call.Fair (held : Captures) (s : Session) : Call → Prop
  | .releaseVar v => v ∈ held.vars
  | .releaseCons c => c ∈ held.conss
  | .forkCopy source => s.copies = [] → source.Built ∧ source.LivesIn s
  | _ => True

/-- The sessions that accepted calls of an honest caller and changes of the limit lead to, and
what the caller holds in them. -/
inductive Honest : Session → Captures → Prop
  | fresh (limit : Option Nat) : Honest { limit } {}
  | call {s t : Session} {held : Captures} {answer : Answer} (c : Call) : Honest s held →
      c.Fair held s → perform c s = .ok answer t → Honest t (held.after t c answer)
  | setLimit {s : Session} {held : Captures} (count : Option Nat) : Honest s held →
      Honest (s.setLimit count) held

/-! ## Every call -/

/-- The step lemma: a call of an honest caller keeps the balance. -/
theorem Balances.perform (h : s.Balances held) {c : Call} (hfair : c.Fair held s) :
    Ends (perform c) s (fun answer t => t.Balances (held.after t c answer)) fun _ _ => True := by
  cases c with
  | changeSetting setting =>
      refine ends_map.mpr ?_
      by_cases hsetting : setting = .maxThreads 0
      · exact ends_of_rejected (by rw [Session.changeSetting, if_pos hsetting]) trivial
      · exact ends_of_accepted (a := ()) (t := { s with settings := s.settings.set setting })
          (by rw [Session.changeSetting, if_neg hsetting])
          (h.of_tables rfl rfl rfl ⟨rfl, rfl⟩ h.sound.hooked)
  | newProblem name =>
      refine ends_map.mpr ?_
      cases hproblem : s.problem with
      | some problem =>
          exact ends_of_rejected (e := .problemExists) (t := s)
            (by simp only [Session.newProblem, hproblem]) trivial
      | none =>
          refine ends_of_accepted (a := ()) (t := { s with problem := some { name } })
            (by simp only [Session.newProblem, hproblem]) ?_
          refine h.of_tables rfl rfl rfl ⟨?_, ?_⟩ h.sound.hooked
          · rw [enrolledVars, enrolledVars, hproblem]
            rfl
          · rw [enrolledConss, enrolledConss, hproblem]
            rfl
  | setSense sense => exact ends_map.mpr (h.modifyProblem (fun _ => rfl) fun _ => rfl)
  | setIntegral => exact ends_map.mpr (h.modifyProblem (fun _ => rfl) fun _ => rfl)
  | newVar name lb ub obj kind => exact ends_map.mpr (h.newVar name lb ub obj kind)
  | enrolVar v => exact ends_map.mpr (h.enrolVar v)
  | negateVar v => exact ends_map.mpr (h.negateVar v)
  | copyVar v => exact ends_map.mpr (h.copyVar v)
  | releaseVar v =>
      obtain ⟨t, hrun, ht⟩ := h.releaseVar hfair
      exact ends_map.mpr (ends_of_accepted hrun ht)
  | addHandler name =>
      refine ends_map.mpr ?_
      cases hhandler : s.hasHandler name with
      | true =>
          exact ends_of_rejected (e := .duplicateHandler name) (t := s)
            (by simp [Session.addHandler, hhandler]) trivial
      | false =>
          exact ends_of_accepted (a := ()) (t := { s with handlers := s.handlers ++ [name] })
            (by simp [Session.addHandler, hhandler])
            (h.of_tables rfl rfl rfl ⟨rfl, rfl⟩ h.sound.hooked)
  | newCons handler name => exact ends_map.mpr (h.newCons handler name)
  | enrolCons c => exact ends_map.mpr (h.enrolCons c)
  | copyCons c => exact ends_map.mpr (h.copyCons c)
  | releaseCons c =>
      obtain ⟨t, hrun, ht⟩ := h.releaseCons hfair
      exact ends_map.mpr (ends_of_accepted hrun ht)
  | installHooks => exact h.of_tables rfl rfl rfl ⟨rfl, rfl⟩ fun _ => rfl
  | forkCopy source => exact ends_map.mpr (h.forkCopy hfair)
  | discardCopy =>
      refine ends_map.mpr ?_
      cases hcopies : s.copies with
      | nil => exact ends_of_accepted (discardCopy_of_none hcopies) h
      | cons copy rest =>
          obtain ⟨t, hrun, ht, -⟩ := h.discardCopy hcopies
          exact ends_of_accepted hrun ht
  | close =>
      obtain ⟨t, hrun, ht, -⟩ := h.close
      exact ends_map.mpr (ends_of_accepted hrun ht)

/-- The run lemma. -/
theorem Honest.balances (h : s.Honest held) : s.Balances held := by
  induction h with
  | fresh limit => exact balances_fresh limit
  | call c _ hfair hrun ih => exact (ih.perform hfair).accepted hrun
  | setLimit count _ ih => exact ih.of_tables rfl rfl rfl ⟨rfl, rfl⟩ ih.sound.hooked

/-- A formulation whose handles the caller holds is alive, so a fork may start from it. -/
theorem Honest.livesIn (h : s.Honest held) (hvars : ∀ v ∈ source.registry.ownedVars, v ∈ held.vars)
    (hbridge : ∀ c, source.bridge = some c → c ∈ held.conss) : source.LivesIn s where
  vars v hv := h.balances.live_of_claim (List.mem_append_left _ (hvars v hv))
  bridge {c} hc := h.balances.live_of_consClaim (List.mem_append_left _ (hbridge c hc))

/-! ## What is left -/

/-- Lists that mention an element at most once each mention it as often as there are lists
that mention it. -/
theorem count_flatMap {ι κ : Type} [DecidableEq κ] (f : ι → List κ) {xs : List ι}
    (hnodup : ∀ x ∈ xs, (f x).Nodup) (k : κ) :
    (xs.flatMap f).count k = xs.countP fun x => decide (k ∈ f x) := by
  induction xs with
  | nil => rfl
  | cons x xs ih =>
      obtain ⟨hx, hxs⟩ := List.forall_mem_cons.mp hnodup
      rw [List.flatMap_cons, List.count_append, ih hxs, List.countP_cons, Nat.add_comm]
      by_cases hk : k ∈ f x
      · simp [hk, List.count_eq_one_of_mem hx hk]
      · simp [hk, List.count_eq_zero_of_not_mem hk]

/-- Every entry is used once for each use that the caller holds, for each time that it is a
member of the problem, and for each working copy on the stack that owns it. -/
structure Counts (s : Session) (held : Captures) : Prop where
  vars : ∀ {v entry n}, s.var? v = some entry → entry.link = .positive n →
    entry.uses = held.vars.count v + s.enrolledVars.count v +
      s.copies.countP fun g => decide (v ∈ g.registry.ownedVars)
  conss : ∀ {c info}, s.cons? c = some info →
    info.uses = held.conss.count c + s.enrolledConss.count c +
      s.copies.countP fun g => decide (g.bridge = some c)
  heldVars : ∀ v ∈ held.vars, ∃ entry n, s.var? v = some entry ∧ entry.link = .positive n
  heldConss : ∀ c ∈ held.conss, ∃ info, s.cons? c = some info

theorem Balances.counts (h : s.Balances held) : s.Counts held where
  vars {v entry n} hv hlink := by
    have huses : tally (s.varClaims held) v = some entry.uses := by
      rw [← h.vars]
      exact varUses_of_positive hv hlink
    rw [← (tally_eq_some.mp huses).2, varClaims, List.count_append, List.count_append,
      count_flatMap _ h.distinct, Nat.add_assoc]
  conss {c info} hc := by
    have huses : tally (s.consClaims held) c = some info.uses := by
      rw [← h.conss]
      exact consUses_of_some hc
    rw [← (tally_eq_some.mp huses).2, consClaims, List.count_append, List.count_append,
      count_flatMap _ fun g _ => g.bridge.toList_nodup, Nat.add_assoc]
    simp only [Option.mem_toList]
  heldVars v hv := h.live_of_claim (List.mem_append_left _ hv)
  heldConss c hc := h.live_of_consClaim (List.mem_append_left _ hc)

end Session

/-- What is left of the entry of a variable if only the caller uses it.  An alias is left
with its positive partner. -/
def Captures.leaveVar (held : Captures) (v : VarId) (entry : VarInfo) : Option VarInfo :=
  match entry.link with
  | .positive _ =>
    if v ∈ held.vars then some { entry with uses := held.vars.count v } else none
  | .negation p => if p ∈ held.vars then some entry else none

theorem Captures.leaveVar_of_positive (held : Captures) {v : VarId} {entry : VarInfo}
    {n : Option VarId} (hlink : entry.link = .positive n) : held.leaveVar v entry =
      if v ∈ held.vars then some { entry with uses := held.vars.count v } else none := by
  simp only [leaveVar, hlink]

theorem Captures.leaveVar_of_negation (held : Captures) {v p : VarId} {entry : VarInfo}
    (hlink : entry.link = .negation p) :
    held.leaveVar v entry = if p ∈ held.vars then some entry else none := by
  simp only [leaveVar, hlink]

/-- What is left of the entry of a constraint if only the caller uses it. -/
def Captures.leaveCons (held : Captures) (c : ConsId) (info : ConsInfo) : Option ConsInfo :=
  if c ∈ held.conss then some { info with uses := held.conss.count c } else none

namespace Session

variable {s t : Session} {held : Captures} {v : VarId} {c : ConsId}

/-- The session `t` is what is left of `s` if nobody but the caller holds anything. -/
structure Leaves (s : Session) (held : Captures) (t : Session) : Prop where
  copies : t.copies = []
  problem : t.problem = none
  var? : ∀ v, t.var? v = (s.var? v).bind (held.leaveVar v)
  cons? : ∀ c, t.cons? c = (s.cons? c).bind (held.leaveCons c)
  /-- Nothing leaks exactly if the caller gave everything back. -/
  blocks : t.blocks = 0 ↔ held.vars = [] ∧ held.conss = []

section OnlyCaller

variable (ht : t.Balances held) (hcopies : t.copies = []) (hproblem : t.problem = none)

include ht hcopies hproblem

/-- Without a problem and without copies, only the caller has claims. -/
theorem Balances.varUses_eq : t.varUses = tally held.vars := by
  rw [ht.vars, varClaims, enrolledVars, hproblem, hcopies]
  simp

theorem Balances.consUses_eq : t.consUses = tally held.conss := by
  rw [ht.conss, consClaims, enrolledConss, hproblem, hcopies]
  simp

/-- A variable is left exactly if the caller holds it, with the uses that the caller holds. -/
theorem Balances.leaves_positive (hdwindles : s.Dwindles t) {entry : VarInfo} {n : Option VarId}
    (hv : s.var? v = some entry) (hlink : entry.link = .positive n) :
    t.var? v =
      if v ∈ held.vars then some { entry with uses := held.vars.count v } else none := by
  have huses := congrFun (ht.varUses_eq hcopies hproblem) v
  by_cases hheld : v ∈ held.vars
  · rw [tally_of_mem hheld] at huses
    obtain ⟨left, m, hleft, -, hcount⟩ := varUses_eq_some.mp huses
    rw [if_pos hheld, hleft, hdwindles.same hv hleft, hcount]
  · rw [if_neg hheld]
    rw [tally_eq_none.mpr hheld] at huses
    cases hleft : t.var? v with
    | none => rfl
    | some left =>
        have hlink' : left.link = .positive n := by
          rw [hdwindles.same hv hleft]
          exact hlink
        rw [varUses_of_positive hleft hlink'] at huses
        cases huses

/-- An alias is left exactly if its partner is. -/
theorem Balances.leaves_alias (hs : s.Sound) (hdwindles : s.Dwindles t) {entry : VarInfo}
    {p : VarId} (hv : s.var? v = some entry) (hlink : entry.link = .negation p) :
    t.var? v = if p ∈ held.vars then some entry else none := by
  obtain ⟨hnoUses, partner, hp, hback⟩ := hs.linked.positive hv hlink
  have hpartner := ht.leaves_positive hcopies hproblem hdwindles hp hback
  by_cases hheld : p ∈ held.vars
  · -- the partner still knows its alias
    rw [if_pos hheld] at hpartner ⊢
    obtain ⟨left, hleft, hnegation, -⟩ := ht.sound.linked.negation hpartner hback
    have hzero : left.uses = entry.uses :=
      (ht.sound.linked.positive hleft hnegation).1.trans hnoUses.symm
    rw [hleft, hdwindles.same hv hleft, hzero]
  · rw [if_neg hheld] at hpartner ⊢
    cases hleft : t.var? v with
    | none => rfl
    | some left =>
        have hlink' : left.link = .negation p := by
          rw [hdwindles.same hv hleft]
          exact hlink
        obtain ⟨-, partner', hp', -⟩ := ht.sound.linked.positive hleft hlink'
        rw [hpartner] at hp'
        cases hp'

theorem Balances.leaves_var? (hs : s.Sound) (hdwindles : s.Dwindles t) (v : VarId) :
    t.var? v = (s.var? v).bind (held.leaveVar v) := by
  cases hv : s.var? v with
  | none => exact hdwindles.dead hv
  | some entry =>
      rw [Option.bind_some]
      cases hlink : entry.link with
      | positive n =>
          rw [held.leaveVar_of_positive hlink, ht.leaves_positive hcopies hproblem hdwindles hv hlink]
      | negation p =>
          rw [held.leaveVar_of_negation hlink, ht.leaves_alias hcopies hproblem hs hdwindles hv hlink]

theorem Balances.leaves_cons? (hdwindles : s.Dwindles t) (c : ConsId) :
    t.cons? c = (s.cons? c).bind (held.leaveCons c) := by
  have huses := congrFun (ht.consUses_eq hcopies hproblem) c
  cases hc : s.cons? c with
  | none => exact hdwindles.deadCons hc
  | some info =>
      rw [Option.bind_some, Captures.leaveCons]
      by_cases hheld : c ∈ held.conss
      · rw [tally_of_mem hheld] at huses
        obtain ⟨left, hleft, hcount⟩ := Option.map_eq_some_iff.mp huses
        rw [if_pos hheld, hleft, hdwindles.sameCons hc hleft, hcount]
      · rw [if_neg hheld]
        rw [tally_eq_none.mpr hheld] at huses
        exact Option.map_eq_none_iff.mp huses

theorem Balances.leaves_blocks : t.blocks = 0 ↔ held.vars = [] ∧ held.conss = [] := by
  have hvarUses := ht.varUses_eq hcopies hproblem
  have hconsUses := ht.consUses_eq hcopies hproblem
  have hblocks : t.blocks = 0 ↔ (∀ v, t.var? v = none) ∧ ∀ c, t.cons? c = none := by
    rw [Session.blocks, hcopies, hproblem, List.length_nil, Option.elim_none, Nat.add_zero,
      Nat.add_eq_zero_iff, HandleTable.liveCount_eq_zero_iff,
      HandleTable.liveCount_eq_zero_iff]
    exact ⟨fun h => ⟨fun v => h.1 v.index, fun c => h.2 c.index⟩,
      fun h => ⟨fun i => h.1 ⟨i⟩, fun i => h.2 ⟨i⟩⟩⟩
  rw [hblocks]
  constructor
  · rintro ⟨hnoVars, hnoConss⟩
    constructor
    · refine List.eq_nil_iff_forall_not_mem.mpr fun v => tally_eq_none.mp ?_
      rw [← hvarUses]
      exact varUses_of_dead (hnoVars v)
    · refine List.eq_nil_iff_forall_not_mem.mpr fun c => tally_eq_none.mp ?_
      rw [← hconsUses, consUses, hnoConss, Option.map_none]
  · rintro ⟨hnoVars, hnoConss⟩
    have hnoUses : ∀ v, t.varUses v = none := by
      intro v
      rw [hvarUses, hnoVars]
      rfl
    constructor
    · intro v
      cases hv : t.var? v with
      | none => rfl
      | some entry =>
          cases hlink : entry.link with
          | positive n =>
              have huses := hnoUses v
              rw [varUses_of_positive hv hlink] at huses
              cases huses
          | negation p =>
              -- an alias does not outlive its partner
              obtain ⟨-, partner, hp, hback⟩ := ht.sound.linked.positive hv hlink
              have huses := hnoUses p
              rw [varUses_of_positive hp hback] at huses
              cases huses
    · intro c
      cases hc : t.cons? c with
      | none => rfl
      | some info =>
          have huses := congrFun hconsUses c
          rw [consUses_of_some hc, hnoConss] at huses
          cases huses

end OnlyCaller

/-- However an honest caller used a session, every entry is used as often as it is claimed,
and a teardown goes through and leaves exactly what the caller still holds. -/
theorem Honest.leaves_captures (h : s.Honest held) :
    s.Counts held ∧ ∃ t, close s = .ok () t ∧ s.Leaves held t := by
  have hs := h.balances
  obtain ⟨t, hrun, ht, hcopies, hproblem, hdwindles⟩ := hs.close
  exact ⟨hs.counts, t, hrun, hcopies, hproblem, ht.leaves_var? hcopies hproblem hs.sound hdwindles,
    ht.leaves_cons? hcopies hproblem hdwindles, ht.leaves_blocks hcopies hproblem⟩

/-- A call that the caller tries.  If it is rejected, the caller starts over before it. -/
def attempt (c : Call) (x : Session × Captures) : Session × Captures :=
  match perform c x.1 with
  | .ok answer t => (t, x.2.after t c answer)
  | .error _ _ => x

theorem Honest.attempt {x : Session × Captures} (h : x.1.Honest x.2) {c : Call}
    (hfair : c.Fair x.2 x.1) : (attempt c x).1.Honest (attempt c x).2 := by
  unfold Session.attempt
  cases hrun : perform c x.1 with
  | ok answer t => exact h.call c hfair hrun
  | error cause t => exact h

theorem Honest.attempts {calls : List Call} (hfair : ∀ c ∈ calls, ∀ held s, c.Fair held s)
    {x : Session × Captures} (h : x.1.Honest x.2) :
    (calls.foldl (fun x c => Session.attempt c x) x).1.Honest
      (calls.foldl (fun x c => Session.attempt c x) x).2 := by
  induction calls generalizing x with
  | nil => exact h
  | cons c calls ih =>
      obtain ⟨hc, hcalls⟩ := List.forall_mem_cons.mp hfair
      exact ih hcalls (h.attempt (hc x.2 x.1))

/-- A caller who built a model by hand. -/
def builder : Session × Captures :=
  (seedCalls ++ [Call.installHooks]).foldl (fun x c => attempt c x) ({}, {})

/-- The same caller has a working copy on the stack, an alias of its own, and one variable
less to give back. -/
def borrower : Session × Captures :=
  attempt (.releaseVar ⟨0⟩) (attempt (.copyVar ⟨1⟩) (attempt (.forkCopy seed) builder))

theorem honest_builder : builder.1.Honest builder.2 := by
  refine Honest.attempts ?_ (.fresh none)
  simp [seedCalls, Call.Fair]

theorem honest_borrower : borrower.1.Honest borrower.2 := by
  have hlives : seed.LivesIn builder.1 := by
    refine honest_builder.livesIn (fun v hv => ?_) fun c hc => ?_
    · rw [show seed.registry.ownedVars = [⟨0⟩, ⟨2⟩] by decide] at hv
      rw [show builder.2.vars = [⟨2⟩, ⟨0⟩] by decide +kernel]
      exact List.mem_reverse.mp hv
    · rw [show seed.bridge = some ⟨0⟩ by decide] at hc
      rw [show builder.2.conss = [⟨0⟩] by decide +kernel]
      exact List.mem_singleton.mpr (Option.some.inj hc).symm
  have hfork := honest_builder.attempt (c := .forkCopy seed) fun _ => ⟨built_seed, hlives⟩
  have hcopy := hfork.attempt (c := .copyVar ⟨1⟩) trivial
  have hmem : (⟨0⟩ : VarId) ∈
      (attempt (.copyVar ⟨1⟩) (attempt (.forkCopy seed) builder)).2.vars := by decide +kernel
  exact hcopy.attempt (c := .releaseVar ⟨0⟩) hmem

/-- The variable that the caller copied is left with its alias, and so are the variable and
the constraint that it never gave back. -/
theorem leaves_captures_borrower :
    borrower.1.Honest borrower.2 ∧ borrower.1.copies ≠ [] ∧
      borrower.2.vars = [⟨6⟩, ⟨2⟩] ∧ borrower.2.conss = [⟨0⟩] ∧
      borrower.1.Counts borrower.2 ∧
      ∃ t, close borrower.1 = .ok () t ∧ borrower.1.Leaves borrower.2 t ∧ t.blocks ≠ 0 := by
  obtain ⟨hcounts, t, hrun, hleaves⟩ := honest_borrower.leaves_captures
  have hvars : borrower.2.vars = [⟨6⟩, ⟨2⟩] := by decide +kernel
  have hconss : borrower.2.conss = [⟨0⟩] := by decide +kernel
  refine ⟨honest_borrower, by decide +kernel, hvars, hconss, hcounts, t, hrun, hleaves, ?_⟩
  intro hnone
  rw [hleaves.blocks, hvars] at hnone
  exact absurd hnone.1 (List.cons_ne_nil _ _)

end Session

end JointModel
