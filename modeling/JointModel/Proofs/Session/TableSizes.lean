import JointModel.Proofs.Session.Reachable
import Mathlib.Logic.Relation
import Mathlib.Order.Bounds.Basic

/-!
# How large the tables of a session get

The numbers of freed entries are used again, so a table only grows when all of its numbers are in
use.  Hence it never has more numbers than there were entries alive at one time: its size is the
largest count of live entries that there ever was (`Course.atPeak`).

That holds at any point within a call.  An `Elementary` step does one thing to one table, and a
`Course` is a record of all the steps in which a session came about from a fresh one, whatever
calls were made and whether or not they were rejected.

## Strategy

* A table is at its peak after a step if it was before (`HandleTable.Step.size_eq`), so it is
  after a course, by induction.
* Every call consists of elementary steps (`keeps_threaded_perform`).  What has to be seen to is
  that only live entries are removed: the alias of a variable that is freed is alive, and it is
  another entry.
-/

namespace JointModel

open Effect Relation

namespace Session

variable {s t u start : Session} {v : VarId} {c : ConsId}

/-! ## Elementary steps -/

/-- One operation on one of the tables, or something that touches neither. -/
inductive Elementary (s t : Session) : Prop
  | vars : s.vars.Step t.vars → t.conss = s.conss → Elementary s t
  | conss : t.vars = s.vars → s.conss.Step t.conss → Elementary s t
  | rest : t.vars = s.vars → t.conss = s.conss → Elementary s t

/-- Elementary steps lead from `start` to the session. -/
def Threaded (start s : Session) : Prop := ReflTransGen Elementary start s

theorem threaded_refl (s : Session) : s.Threaded s := .refl

theorem Threaded.rest (h : start.Threaded s) (hvars : t.vars = s.vars)
    (hconss : t.conss = s.conss) : start.Threaded t :=
  h.tail (.rest hvars hconss)

theorem Threaded.vars (h : start.Threaded s) (hstep : s.vars.Step t.vars)
    (hconss : t.conss = s.conss) : start.Threaded t :=
  h.tail (.vars hstep hconss)

theorem Threaded.conss (h : start.Threaded s) (hvars : t.vars = s.vars)
    (hstep : s.conss.Step t.conss) : start.Threaded t :=
  h.tail (.conss hvars hstep)

/-! ## Calls that store entries -/

/-- A condition on the tables that is kept when entries are stored or changed. -/
structure Storing (P : Session → Prop) : Prop where
  rest : ∀ {s t : Session}, P s → t.vars = s.vars → t.conss = s.conss → P t
  insertVar : ∀ {s : Session} (entry : VarInfo), P s → P { s with vars := (s.vars.insert entry).2 }
  modifyVar : ∀ {s : Session} (i : Nat) (change : VarInfo → VarInfo), P s →
    P { s with vars := s.vars.modify i change }
  insertCons : ∀ {s : Session} (entry : ConsInfo), P s →
    P { s with conss := (s.conss.insert entry).2 }

section Storing

variable {P : Session → Prop} (h : Storing P)
include h

theorem Storing.allocate (name : String) : Keeps P (allocate name) := fun s hs =>
  (allocate_ends s name).mono (fun _ _ ht => ht.2 ▸ h.rest hs rfl rfl) fun _ _ ht => ht.1 ▸ hs

theorem Storing.allocateVar (entry : VarInfo) : Keeps P (allocateVar entry) :=
  (h.allocate entry.name).bind fun _ _ hs => h.insertVar entry hs

theorem Storing.allocateCons (entry : ConsInfo) : Keeps P (allocateCons entry) :=
  (h.allocate entry.name).bind fun _ _ hs => h.insertCons entry hs

theorem Storing.negateVar (v : VarId) : Keeps P (negateVar v) := by
  refine (keeps_getVar v).bind fun entry => ?_
  cases entry.link with
  | negation p => exact keeps_pure p
  | positive m =>
      cases m with
      | some n => exact keeps_pure n
      | none => exact (h.allocateVar _).bind fun _ _ hs => h.modifyVar v.index _ hs

theorem Storing.copyVar (v : VarId) : Keeps P (copyVar v) := by
  refine (keeps_getVar v).bind fun entry => ?_
  cases entry.link with
  | positive m => exact h.allocateVar _
  | negation p =>
      exact (keeps_getVar p).bind fun partner => (h.allocateVar _).bind h.negateVar

/-- A copy is captured by calls that store entries. -/
theorem Storing.capturing : Capturing P where
  copyVar := h.copyVar
  negateVar := h.negateVar
  copyCons c := (keeps_getCons c).bind fun _ => h.allocateCons _

end Storing

theorem storing_threaded (start : Session) : Storing start.Threaded where
  rest hs := hs.rest
  insertVar entry hs := hs.vars (.insert entry) rfl
  modifyVar i change hs := hs.vars (.modify i change) rfl
  insertCons entry hs := hs.conss rfl (.insert entry)

/-! ## Calls that release -/

/-- A variable is freed first, and its alias next. -/
theorem Threaded.freeVar (h : start.Threaded s) (hs : s.Sound) {entry : VarInfo} {m : Option VarId}
    (hv : s.var? v = some entry) (hlink : entry.link = .positive m) :
    start.Threaded (s.freeVar v m) := by
  have hlive : (s.vars.get? v.index).isSome := Option.isSome_of_eq_some hv
  let mid : Session := { s with vars := s.vars.remove v.index }
  have hmid : start.Threaded mid := h.vars (.remove hlive) rfl
  cases m with
  | none => exact hmid
  | some n =>
      obtain ⟨negated, hn, hback, -⟩ := hs.linked.negation hv hlink
      have hne : v.index ≠ n.index := by
        intro hindex
        obtain rfl := VarId.index_inj.mp hindex
        cases hv.symm.trans hn
        cases hlink.symm.trans hback
      have hlive' : (mid.vars.get? n.index).isSome := by
        rw [HandleTable.get?_remove, if_neg hne]
        exact Option.isSome_of_eq_some hn
      exact hmid.vars (.remove hlive') rfl

/-- The session is sound, and elementary steps led to it. -/
def SoundlyThreaded (start s : Session) : Prop := s.Sound ∧ start.Threaded s

theorem SoundlyThreaded.rest (h : start.SoundlyThreaded s) (hvars : t.vars = s.vars)
    (hconss : t.conss = s.conss) (hhooked : t.copies ≠ [] → t.hooked) : start.SoundlyThreaded t :=
  ⟨h.1.of_tables hvars hconss hhooked, h.2.rest hvars hconss⟩

theorem keeps_threaded_dropVarUse (start : Session) (v : VarId) :
    Keeps start.SoundlyThreaded (dropVarUse v) := fun s hs =>
  (keeps_dropVarUse v s hs.1).and (ends_dropVarUse v
    (P := fun _ => start.Threaded) (Q := fun _ => start.Threaded)
    (fun _ _ hv hlink => hs.2.freeVar hs.1 hv hlink)
    (fun _ _ _ _ _ => hs.2.vars (.modify v.index _) rfl) fun _ => hs.2)

theorem keeps_threaded_dropConsUse (start : Session) (c : ConsId) :
    Keeps start.SoundlyThreaded (dropConsUse c) := fun s hs =>
  (keeps_dropConsUse c s hs.1).and (ends_dropConsUse c
    (P := fun _ => start.Threaded) (Q := fun _ => start.Threaded)
    (fun _ hc => hs.2.conss rfl (.remove (Option.isSome_of_eq_some hc)))
    (fun _ _ _ => hs.2.conss rfl (.modify c.index _)) fun _ => hs.2)

theorem durable_threaded (start : Session) : Durable start.SoundlyThreaded where
  copyVar v := (keeps_copyVar v).and ((storing_threaded start).copyVar v)
  negateVar v := (keeps_negateVar v).and ((storing_threaded start).negateVar v)
  copyCons c := (keeps_copyCons c).and ((storing_threaded start).capturing.copyCons c)
  releaseVar v := Keeps.bind (fun _ hs => hs.rest rfl rfl hs.1.hooked) fun _ =>
    keeps_threaded_dropVarUse start v
  releaseCons c := Keeps.bind (fun _ hs => hs.rest rfl rfl hs.1.hooked) fun _ =>
    keeps_threaded_dropConsUse start c

/-! ## All calls -/

theorem indifferent_threaded (start : Session) : Indifferent start.SoundlyThreaded where
  settings _ hs := hs.rest rfl rfl hs.1.hooked
  problem _ hs := hs.rest rfl rfl hs.1.hooked
  handlers _ hs := hs.rest rfl rfl hs.1.hooked

theorem keeps_threaded_enrolVar (start : Session) (v : VarId) :
    Keeps start.Threaded (enrolVar v) := fun _ hs =>
  ends_enrolVar v (fun _ _ _ _ _ _ => hs.vars (.modify v.index _) rfl)
    (fun _ _ _ _ _ => hs.vars (.modify v.index _) rfl) fun _ => hs

theorem keeps_threaded_enrolCons (start : Session) (c : ConsId) :
    Keeps start.Threaded (enrolCons c) := fun _ hs =>
  ends_enrolCons c (fun _ _ _ _ => hs.conss rfl (.modify c.index _))
    (fun _ _ _ => hs.conss rfl (.modify c.index _)) fun _ => hs

theorem keeps_threaded_forkCopy (start : Session) (source : Formulation) :
    Keeps start.SoundlyThreaded (forkCopy source) := by
  refine fun s hs => (keeps_forkCopy source s hs.1).and ?_
  refine ends_forkCopy (fun _ _ => hs.2) fun _ _ => ?_
  exact (Formulation.keeps_fork (durable_threaded start).engine (s.innermost?.getD source)
    { session := s } hs).mono (fun _ _ he => he.2.rest rfl rfl) fun _ _ he => he.2

theorem keeps_threaded_discardCopy (start : Session) :
    Keeps start.SoundlyThreaded discardCopy := by
  refine fun s hs => ends_discardCopy (fun _ => hs) fun copy rest hhooked _ => ?_
  have hshort : start.SoundlyThreaded { s with copies := rest } :=
    hs.rest rfl rfl fun _ => hhooked
  exact (Formulation.keeps_onSession_release (durable_threaded start).toReleasing copy _ hshort).mono
    (fun _ _ ht => ht.rest rfl rfl ht.1.hooked) fun _ _ ht => ht

theorem keeps_threaded_close (start : Session) : Keeps start.SoundlyThreaded close := by
  have hmembers : ∀ problem, Keeps start.SoundlyThreaded (dropMembers problem) := fun problem =>
    (Keeps.forM (keeps_threaded_dropConsUse start)).bind fun _ =>
      Keeps.forM (keeps_threaded_dropVarUse start)
  refine fun s hs => (keeps_close s hs.1).and ?_
  unfold close
  rw [ends_bind, ends_get, ends_bind]
  refine (keeps_discardCopies (keeps_threaded_discardCopy start) _ s hs).mono (fun _ t ht => ?_)
    fun _ _ ht => ht.2
  rw [ends_bind]
  exact ((indifferent_threaded start).dropProblem hmembers t ht).mono
    (fun _ _ hu => hu.2.rest rfl rfl) fun _ _ hu => hu.2

/-- Every call consists of elementary steps. -/
theorem keeps_threaded_perform (start : Session) (c : Call) :
    Keeps start.SoundlyThreaded (perform c) := by
  have hindifferent := indifferent_threaded start
  have hdurable := durable_threaded start
  cases c with
  | changeSetting setting => exact (hindifferent.changeSetting setting).map
  | newProblem name => exact (hindifferent.newProblem name).map
  | setSense sense => exact (hindifferent.modifyProblem _).map
  | setIntegral => exact (hindifferent.modifyProblem _).map
  | newVar name lb ub obj kind =>
      exact ((keeps_newVar name lb ub obj kind).and (keeps_requireProblem.bind fun _ =>
        (storing_threaded start).allocateVar _)).map
  | enrolVar v => exact ((keeps_enrolVar v).and (keeps_threaded_enrolVar start v)).map
  | negateVar v => exact (hdurable.negateVar v).map
  | copyVar v => exact (hdurable.copyVar v).map
  | releaseVar v => exact (hdurable.releaseVar v).map
  | addHandler name => exact (hindifferent.addHandler name).map
  | newCons handler name =>
      exact ((keeps_newCons handler name).and ((keeps_requireHandler handler).bind fun _ =>
        keeps_requireProblem.bind fun _ => (storing_threaded start).allocateCons _)).map
  | enrolCons c => exact ((keeps_enrolCons c).and (keeps_threaded_enrolCons start c)).map
  | copyCons c => exact (hdurable.copyCons c).map
  | releaseCons c => exact (hdurable.releaseCons c).map
  | installHooks => exact Keeps.map fun s hs => hs.rest rfl rfl fun _ => rfl
  | forkCopy source => exact (keeps_threaded_forkCopy start source).map
  | discardCopy => exact (keeps_threaded_discardCopy start).map
  | close => exact (keeps_threaded_close start).map

/-! ## Courses -/

/-- What can happen to a session: a call, another limit, or a fork or a release of a formulation
that the session does not stack. -/
inductive Event
  | call (c : Call)
  | setLimit (count : Option Nat)
  | fork (source : Formulation)
  | release (copy : Formulation)

/-- The session after an event, whether or not that was rejected. -/
def Event.happen : Event → Session → Session
  | .call c, s => after (perform c) s
  | .setLimit count, s => s.setLimit count
  | .fork source, s => after (Engine.onSession source.fork) s
  | .release copy, s => after (Engine.onSession copy.release) s

/-- The session after all events. -/
def afterAll (s : Session) (events : List Event) : Session :=
  events.foldl (fun s e => e.happen s) s

/-- A fresh session after all events. -/
def happened (limit : Option Nat) (events : List Event) : Session :=
  ({ limit } : Session).afterAll events

/-- An elementary step is recorded.  The latest state comes first. -/
inductive Records : List Session → List Session → Prop
  | step {s t : Session} {past : List Session} : s.Elementary t →
      Records (s :: past) (t :: s :: past)

/-- The states that a session went through, elementary step by elementary step. -/
inductive Course (limit : Option Nat) : List Event → List Session → Prop
  | fresh : Course limit [] [{ limit }]
  | event {events : List Event} {s : Session} {past past' : List Session} (e : Event) :
      Course limit events (s :: past) →
      ReflTransGen Records (s :: past) (e.happen s :: past') →
      Course limit (events ++ [e]) (e.happen s :: past')

theorem soundlyThreaded_happen (hs : s.Sound) (e : Event) : s.SoundlyThreaded (e.happen s) := by
  have hstart : s.SoundlyThreaded s := ⟨hs, threaded_refl s⟩
  cases e with
  | call c => exact (keeps_threaded_perform s c).after hstart
  | setLimit count => exact hstart.rest rfl rfl hs.hooked
  | fork source =>
      exact (Formulation.keeps_onSession_fork (durable_threaded s) source).after hstart
  | release copy =>
      exact (Formulation.keeps_onSession_release (durable_threaded s).toReleasing copy).after hstart

theorem afterAll_concat (s : Session) (events : List Event) (e : Event) :
    s.afterAll (events ++ [e]) = e.happen (s.afterAll events) := List.foldl_concat ..

theorem soundlyThreaded_afterAll (hs : s.Sound) (events : List Event) :
    s.SoundlyThreaded (s.afterAll events) := by
  induction events using List.reverseRecOn with
  | nil => exact ⟨hs, threaded_refl s⟩
  | append_singleton events e ih =>
      rw [afterAll_concat]
      have hstep := soundlyThreaded_happen ih.1 e
      exact ⟨hstep.1, ih.2.trans hstep.2⟩

theorem sound_happened (limit : Option Nat) (events : List Event) :
    (happened limit events).Sound :=
  (soundlyThreaded_afterAll (sound_fresh limit) events).1

/-- Elementary steps can be recorded. -/
theorem Threaded.records (h : s.Threaded t) (past : List Session) :
    ∃ past', ReflTransGen Records (s :: past) (t :: past') := by
  induction h with
  | refl => exact ⟨past, .refl⟩
  | tail _ hstep ih =>
      obtain ⟨past', hrecords⟩ := ih
      exact ⟨_, hrecords.tail (.step hstep)⟩

/-- Every history has a course. -/
theorem exists_course (limit : Option Nat) (events : List Event) :
    ∃ past, Course limit events (happened limit events :: past) := by
  induction events using List.reverseRecOn with
  | nil => exact ⟨[], .fresh⟩
  | append_singleton events e ih =>
      obtain ⟨past, hcourse⟩ := ih
      obtain ⟨past', hrecords⟩ :=
        (soundlyThreaded_happen (sound_happened limit events) e).2.records past
      rw [happened, afterAll_concat]
      exact ⟨past', hcourse.event e hrecords⟩

/-! ## Peaks -/

/-- The counts of live entries in a record. -/
def counts (live : Session → Nat) (trace : List Session) : Set Nat :=
  {n | ∃ s ∈ trace, live s = n}

theorem isGreatest_counts_cons {live : Session → Nat} {trace : List Session} {n : Nat}
    (h : IsGreatest (counts live trace) n) (s : Session) :
    IsGreatest (counts live (s :: trace)) (max n (live s)) := by
  have hinsert : counts live (s :: trace) = insert (live s) (counts live trace) := by
    ext n
    simp only [counts, Set.mem_ofPred_eq, List.exists_mem_cons_iff, Set.mem_insert_iff, eq_comm]
  rw [hinsert, max_comm]
  exact h.insert _

/-- The tables of the session are as large as the record of its states requires. -/
structure AtPeak (past : List Session) (s : Session) : Prop where
  soundVars : s.vars.Sound
  soundConss : s.conss.Sound
  vars : IsGreatest (counts (·.vars.liveCount) (s :: past)) s.vars.size
  conss : IsGreatest (counts (·.conss.liveCount) (s :: past)) s.conss.size

theorem atPeak_fresh (limit : Option Nat) : AtPeak [] { limit } := by
  have hcounts : ∀ live : Session → Nat, counts live [{ limit }] = {live { limit }} := by
    intro live
    ext n
    simp [counts, eq_comm]
  refine ⟨HandleTable.sound_empty, HandleTable.sound_empty, ?_, ?_⟩
  · rw [hcounts]
    exact isGreatest_singleton
  · rw [hcounts]
    exact isGreatest_singleton

/-- A step makes the tables as large as it has to. -/
theorem Elementary.sizes (h : s.Elementary t) (hvars : s.vars.Sound) (hconss : s.conss.Sound) :
    (t.vars.Sound ∧ t.vars.size = max s.vars.size t.vars.liveCount) ∧
      (t.conss.Sound ∧ t.conss.size = max s.conss.size t.conss.liveCount) := by
  constructor
  · cases h with
    | vars hstep _ => exact ⟨hstep.sound hvars, hstep.size_eq hvars⟩
    | conss hsame _ | rest hsame _ =>
        rw [hsame]
        exact ⟨hvars, (max_eq_left (HandleTable.liveCount_le_size _)).symm⟩
  · cases h with
    | conss _ hstep => exact ⟨hstep.sound hconss, hstep.size_eq hconss⟩
    | vars _ hsame | rest _ hsame =>
        rw [hsame]
        exact ⟨hconss, (max_eq_left (HandleTable.liveCount_le_size _)).symm⟩

/-- Tables never shrink. -/
theorem Threaded.size_le (h : start.Threaded s) (hstart : start.Sound) :
    start.vars.size ≤ s.vars.size ∧ start.conss.size ≤ s.conss.size := by
  suffices hall : (s.vars.Sound ∧ s.conss.Sound) ∧
      start.vars.size ≤ s.vars.size ∧ start.conss.size ≤ s.conss.size from hall.2
  induction h with
  | refl => exact ⟨⟨hstart.vars, hstart.conss⟩, le_rfl, le_rfl⟩
  | tail _ hstep ih =>
      obtain ⟨⟨hvars, hconss⟩, hle, hleConss⟩ := ih
      obtain ⟨⟨hvars', hsize⟩, hconss', hsizeConss⟩ := hstep.sizes hvars hconss
      refine ⟨⟨hvars', hconss'⟩, ?_, ?_⟩
      · exact hle.trans (hsize ▸ le_max_left _ _)
      · exact hleConss.trans (hsizeConss ▸ le_max_left _ _)

/-- Elementary steps keep a table at its peak. -/
theorem AtPeak.step {past : List Session} (h : AtPeak past s) (hstep : s.Elementary t) :
    AtPeak (s :: past) t := by
  obtain ⟨⟨hvars, hsize⟩, hconss, hsizeConss⟩ := hstep.sizes h.soundVars h.soundConss
  refine ⟨hvars, hconss, ?_, ?_⟩
  · rw [hsize]
    exact isGreatest_counts_cons h.vars t
  · rw [hsizeConss]
    exact isGreatest_counts_cons h.conss t

theorem AtPeak.records {past past' : List Session} (h : AtPeak past s)
    (hrecords : ReflTransGen Records (s :: past) (t :: past')) : AtPeak past' t := by
  generalize hstart : s :: past = trace at hrecords
  generalize hend : t :: past' = trace' at hrecords
  induction hrecords generalizing t past' with
  | refl =>
      rw [← hstart] at hend
      cases hend
      exact h
  | tail _ hstep ih =>
      cases hstep with
      | step hstep =>
          cases hend
          exact (ih rfl).step hstep

/-- In every course, the tables are at their peak. -/
theorem Course.atPeak {limit : Option Nat} {events : List Event} {past : List Session}
    (h : Course limit events (s :: past)) : AtPeak past s := by
  generalize htrace : s :: past = trace at h
  induction h generalizing s past with
  | fresh =>
      cases htrace
      exact atPeak_fresh limit
  | event e _ hrecords ih =>
      cases htrace
      exact (ih rfl).records hrecords

end Session

end JointModel
