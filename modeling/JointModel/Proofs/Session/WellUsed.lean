import JointModel.Proofs.Formulation.WorkingCopies
import JointModel.Proofs.Session.Safety

/-!
# Sessions that are used at will

`WellUsed` collects the sessions that histories of calls lead to whose forks start from
formulations that can be built.  Nothing else is asked of the calls: their handles may be
stale, unknown or those of aliases, and uses may be given back that others captured.

All of them are sound, their copies can be built (`WellUsed.copies`), and so no call on
them breaks an assumption (`WellUsed.unbroken`).
-/

namespace JointModel

open Effect

namespace Session

variable {s t : Session} {α : Type}

/-! ## The copies on the stack can be built -/

/-- All working copies are formulations that can be built. -/
def CopiesBuilt (s : Session) : Prop := ∀ g ∈ s.copies, g.Built

theorem CopiesBuilt.of_copies (h : s.CopiesBuilt) (hcopies : t.copies = s.copies) :
    t.CopiesBuilt := by
  rw [CopiesBuilt, hcopies]
  exact h

theorem keeps_copiesBuilt {act : Run α}
    (h : ∀ frame, Keeps (fun s : Session => s.frame = frame) act) : Keeps CopiesBuilt act :=
  fun s hs => (h s.frame s rfl).mono (fun _ _ ht => hs.of_copies (copies_eq_of_frame ht))
    fun _ _ ht => hs.of_copies (copies_eq_of_frame ht)

theorem durable_copiesBuilt : Durable CopiesBuilt where
  copyVar v := keeps_copiesBuilt fun frame => (durable_frame frame).copyVar v
  negateVar v := keeps_copiesBuilt fun frame => (durable_frame frame).negateVar v
  releaseVar v := keeps_copiesBuilt fun frame => (durable_frame frame).releaseVar v
  copyCons c := keeps_copiesBuilt fun frame => (durable_frame frame).copyCons c
  releaseCons c := keeps_copiesBuilt fun frame => (durable_frame frame).releaseCons c

theorem indifferent_copiesBuilt : Indifferent CopiesBuilt where
  settings _ hs := hs
  problem _ hs := hs
  handlers _ hs := hs

theorem keeps_copiesBuilt_newVar (name : String) (lb ub obj : Float) (kind : VarKind) :
    Keeps CopiesBuilt (newVar name lb ub obj kind) :=
  keeps_copiesBuilt fun frame =>
    keeps_requireProblem.bind fun _ => keeps_frame_allocateVar frame _

theorem keeps_copiesBuilt_newCons (handler name : String) :
    Keeps CopiesBuilt (newCons handler name) :=
  keeps_copiesBuilt fun frame => (keeps_requireHandler handler).bind fun _ =>
    keeps_requireProblem.bind fun _ => (keeps_frame_allocate frame _).bind fun _ _ hs => hs

theorem keeps_copiesBuilt_enrolVar (v : VarId) : Keeps CopiesBuilt (enrolVar v) := by
  refine (keeps_getVar v).bind fun entry => ?_
  cases entry.link with
  | negation p => exact keeps_throw _
  | positive m =>
      exact Keeps.bind (fun _ hs => hs) fun _ => indifferent_copiesBuilt.modifyProblem _

theorem keeps_copiesBuilt_enrolCons (c : ConsId) : Keeps CopiesBuilt (enrolCons c) :=
  (keeps_getCons c).bind fun _ =>
    Keeps.bind (fun _ hs => hs) fun _ => indifferent_copiesBuilt.modifyProblem _

theorem keeps_copiesBuilt_forkCopy {source : Formulation} (hsource : source.Built) :
    Keeps CopiesBuilt (forkCopy source) := by
  intro s hs
  have hparent : (s.innermost?.getD source).Built := by
    cases hinnermost : s.innermost? with
    | none => exact hsource
    | some parent => exact hs parent (List.mem_of_head? hinnermost)
  refine ends_forkCopy (fun _ _ => hs) fun _ _ => ?_
  have hfork := Formulation.keeps_fork durable_copiesBuilt.engine (s.innermost?.getD source)
    { session := s } hs
  cases hrun : (s.innermost?.getD source).fork { session := s } with
  | ok copy e =>
      exact ends_of_accepted hrun
        (List.forall_mem_cons.mpr ⟨hparent.fork hrun, hfork.accepted hrun⟩)
  | error cause e => exact ends_of_rejected hrun (hfork.rejected hrun)

theorem keeps_copiesBuilt_discardCopy : Keeps CopiesBuilt discardCopy := by
  intro s hs
  refine ends_discardCopy (fun _ => hs) fun copy rest _ hcopies => ?_
  have hrest : CopiesBuilt { s with copies := rest } := fun g hg =>
    hs g (hcopies ▸ List.mem_cons_of_mem copy hg)
  have hrelease := Formulation.keeps_onSession_release durable_copiesBuilt.toReleasing copy
    { s with copies := rest } hrest
  exact hrelease.mono (fun _ _ ht => ht.of_copies rfl) fun _ _ ht => ht

theorem keeps_copiesBuilt_close : Keeps CopiesBuilt close := by
  have hmembers : ∀ problem, Keeps CopiesBuilt (dropMembers problem) := fun problem =>
    keeps_copiesBuilt fun frame => (Keeps.forM (keeps_frame_dropConsUse frame)).bind fun _ =>
      Keeps.forM (keeps_frame_dropVarUse frame)
  exact keeps_get.bind fun s => (keeps_discardCopies keeps_copiesBuilt_discardCopy _).bind fun _ =>
    (indifferent_copiesBuilt.dropProblem hmembers).bind fun _ _ hs => hs

/-! ## Histories -/

/-- The source of a fork can be built. -/
def Call.Admissible : Call → Prop
  | .forkCopy source => source.Built
  | _ => True

theorem keeps_copiesBuilt_perform {c : Call} (hc : c.Admissible) :
    Keeps CopiesBuilt (perform c) := by
  cases c with
  | changeSetting setting => exact (indifferent_copiesBuilt.changeSetting setting).map
  | newProblem name => exact (indifferent_copiesBuilt.newProblem name).map
  | setSense sense => exact (indifferent_copiesBuilt.modifyProblem _).map
  | setIntegral => exact (indifferent_copiesBuilt.modifyProblem _).map
  | newVar name lb ub obj kind => exact (keeps_copiesBuilt_newVar name lb ub obj kind).map
  | enrolVar v => exact (keeps_copiesBuilt_enrolVar v).map
  | negateVar v => exact (durable_copiesBuilt.negateVar v).map
  | copyVar v => exact (durable_copiesBuilt.copyVar v).map
  | releaseVar v => exact (durable_copiesBuilt.releaseVar v).map
  | addHandler name => exact (indifferent_copiesBuilt.addHandler name).map
  | newCons handler name => exact (keeps_copiesBuilt_newCons handler name).map
  | enrolCons c => exact (keeps_copiesBuilt_enrolCons c).map
  | copyCons c => exact (durable_copiesBuilt.copyCons c).map
  | releaseCons c => exact (durable_copiesBuilt.releaseCons c).map
  | installHooks => exact Keeps.map fun _ hs => hs
  | forkCopy source => exact (keeps_copiesBuilt_forkCopy hc).map
  | discardCopy => exact keeps_copiesBuilt_discardCopy.map
  | close => exact keeps_copiesBuilt_close.map

/-- The sessions that calls and changes of the limit lead to if every fork starts from a
formulation that can be built. -/
inductive WellUsed : Session → Prop
  | fresh (limit : Option Nat) : WellUsed { limit }
  | call {s : Session} (c : Call) : WellUsed s → c.Admissible → WellUsed (after (perform c) s)
  | setLimit {s : Session} (count : Option Nat) : WellUsed s → WellUsed (s.setLimit count)

theorem WellUsed.reachable (h : s.WellUsed) : s.Reachable := by
  induction h with
  | fresh limit => exact .fresh limit
  | call c _ _ ih => exact ih.call c
  | setLimit count _ ih => exact ih.setLimit count

theorem WellUsed.copies (h : s.WellUsed) : s.CopiesBuilt := by
  induction h with
  | fresh limit => exact fun g hg => nomatch hg
  | call c _ hc ih => exact (keeps_copiesBuilt_perform hc).after ih
  | setLimit count _ ih => exact ih

theorem wellUsed_history {calls : List Call} (h : ∀ c ∈ calls, c.Admissible) :
    (history calls).WellUsed := by
  suffices hfold : ∀ s : Session, s.WellUsed →
      (calls.foldl (fun s c => after (perform c) s) s).WellUsed from hfold {} (.fresh none)
  induction calls with
  | nil => exact fun _ hs => hs
  | cons c calls ih =>
      intro s hs
      exact ih (fun d hd => h d (List.mem_cons_of_mem c hd)) _ (hs.call c (h c List.mem_cons_self))

/-! ## No call breaks an assumption -/

open JointModel.Checked

theorem agrees_call (h : s.Sound) (hcopies : s.CopiesBuilt) {c : Call} (hc : c.Admissible) :
    Agrees (Checked.call c) (perform c) s := by
  cases c with
  | newVar name lb ub obj kind => exact (Checked.agrees_newVar h name lb ub obj kind).map _
  | negateVar v => exact (Checked.agrees_negateVar h v).map _
  | copyVar v => exact (Checked.agrees_copyVar h v).map _
  | releaseVar v => exact (Checked.agrees_releaseVar h v).map _
  | newCons handler name => exact (Checked.agrees_newCons h handler name).map _
  | copyCons c => exact (Checked.agrees_copyCons h c).map _
  | releaseCons c => exact (Checked.agrees_releaseCons h c).map _
  | forkCopy source =>
      exact (Checked.agrees_forkCopy h hc.paired fun g hg => (hcopies g hg).paired).map _
  | discardCopy => exact (Checked.agrees_discardCopy h).map _
  | close => exact (Checked.agrees_close h).map _
  | _ => exact agrees_plain _ s

/-- However a session was used, it is sound, no call breaks an assumption, and once the
teardown goes through no copy is left. -/
theorem WellUsed.unbroken (h : s.WellUsed) :
    s.Sound ∧
      (∀ c : Call, c.Admissible →
        (Checked.call c).exec s = .ok (outcome (perform c s))) ∧
      ∀ t, close s = .ok () t → t.copies = [] := by
  have hsound := h.reachable.sound
  refine ⟨hsound, fun c hc => agrees_call hsound h.copies hc, fun t ht => ?_⟩
  exact ((close_ends hsound).accepted ht).2

open Formulation in
/-- The calls of a user that releases an alias, an unknown handle and the uses that others
captured, and goes on with the handles that are free then. -/
def misuse : List Call :=
  seedCalls ++ [.installHooks, .forkCopy seed, .releaseVar ⟨1⟩, .releaseVar ⟨9⟩, .releaseVar ⟨0⟩,
    .releaseVar ⟨0⟩, .releaseVar ⟨0⟩, .newVar "x" 0.0 1.0 0.0 .binary, .negateVar ⟨1⟩]

theorem admissible_misuse : ∀ c ∈ misuse, c.Admissible := by
  simp [misuse, Formulation.seedCalls, Call.Admissible, Formulation.built_seed]

/-- A handle that the problem still holds stands for an alias at last.  The teardown
notices and breaks no assumption, and the next one goes through. -/
theorem unbroken_misused :
    ((history misuse).WellUsed ∧ (history (misuse ++ [.close])).WellUsed) ∧
      (∃ t, (Checked.call .close).exec (history misuse) =
        .ok (.error (.aliasRelease ⟨0⟩), t)) ∧
      ∃ t, close (history (misuse ++ [.close])) = .ok () t ∧ t.copies = [] := by
  have hused : (history misuse).WellUsed := wellUsed_history admissible_misuse
  have hclosed : (history (misuse ++ [.close])).WellUsed :=
    wellUsed_history (List.forall_mem_append.mpr ⟨admissible_misuse, by simp [Call.Admissible]⟩)
  have hrejected : (match perform .close (history misuse) with
      | .error (.aliasRelease ⟨0⟩) _ => true
      | _ => false) = true := by decide +kernel
  have haccepted : (match close (history (misuse ++ [.close])) with
      | .ok _ _ => true
      | .error _ _ => false) = true := by decide +kernel
  refine ⟨⟨hused, hclosed⟩, ?_, ?_⟩
  · obtain ⟨-, hcalls, -⟩ := hused.unbroken
    rw [hcalls .close trivial]
    split at hrejected
    · next t hrun => exact ⟨t, by rw [hrun]; rfl⟩
    · cases hrejected
  · split at haccepted
    · next _ t hrun => exact ⟨t, hrun, hclosed.unbroken.2.2 t hrun⟩
    · cases haccepted

end Session

end JointModel
