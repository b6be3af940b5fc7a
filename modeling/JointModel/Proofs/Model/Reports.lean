import JointModel.Proofs.Model.Run

/-!
# Which objective a reported result belongs to

A model has one outcome for all its solves.  A solve replaces the objective and the timer,
but it goes on with the incumbent and the bound that earlier solves left, and compares what
its strategy reports with them.  So a result of one objective can be reported for another,
and it can keep a result of that one out (`results_mixed`).

This happens exactly if the incumbent or the bound at the start of a call are from another
objective: `results_belong_iff` says of every call in every history that what it leaves in
the outcome belongs to its objective, whatever its strategy does, if and only if what it
finds there does.

## Strategy

* A `Report` is a command with its answer.  The last solution and the last bound in a log
  that were kept are what the outcome consists of (`Tracks`).  Every command keeps that
  (`Solve.perform_tracks`), and so do scripts and histories.
* `Solve.run_belongs` goes through a script once more, with the log that the call started
  with: a value is only ever compared with the one that `Tracks` names.
-/

namespace JointModel

open Effect

/-- A command that was performed while `objective` was minimized, and its answer. -/
structure Report where
  objective : IntId
  command : Command
  reply : Solve.Reply

namespace Report

/-- The objective value and the solution that were kept. -/
def solution? (r : Report) : Option (Float × Solution) :=
  match r.command, r.reply with
  | .record objective solution, .flag true => some (objective, solution)
  | _, _ => none

/-- The bound that was kept. -/
def bound? (r : Report) : Option Float :=
  match r.command, r.reply with
  | .raiseBound bound, .flag true => some bound
  | _, _ => none

/-- The last report in which there is something to be found. -/
def last? {α : Type} (find? : Report → Option α) (log : List Report) : Option Report :=
  log.reverse.find? fun r => (find? r).isSome

/-- What was found last. -/
def latest {α : Type} (find? : Report → Option α) (initial : α) (log : List Report) : α :=
  ((last? find? log).bind find?).getD initial

/-- What was found last, if anything, was reported while `objective` was minimized. -/
def LatestOf {α : Type} (find? : Report → Option α) (objective : IntId) (log : List Report) : Prop :=
  ∀ r ∈ last? find? log, r.objective = objective

/-- The incumbent and its objective value. -/
def incumbent (log : List Report) : Float × Solution := latest solution? (infinity, {}) log

/-- The bound. -/
def bound (log : List Report) : Float := latest bound? (-infinity) log

/-- The outcome is what was kept last. -/
structure Tracks (log : List Report) (o : Outcome) : Prop where
  incumbent : (o.objective, o.solution) = incumbent log
  bound : o.bound = bound log

/-- After the reports of a call for `objective`, what the outcome consists of belongs to that
objective, and so did everything that kept one of them out.  There is no other reason to
turn a report down than that it is no better, or that it has no value. -/
structure BelongsTo (objective : IntId) (log reports : List Report) : Prop where
  incumbent : LatestOf solution? objective (log ++ reports)
  bound : LatestOf bound? objective (log ++ reports)
  beaten : ∀ {done rest : List Report} {value : Float} {solution : Solution},
    reports = done ++ ⟨objective, .record value solution, .flag false⟩ :: rest →
    value.isNaN = true ∨
      value ≥ (Report.incumbent (log ++ done)).1 ∧ LatestOf solution? objective (log ++ done)
  unmoved : ∀ {done rest : List Report} {value : Float},
    reports = done ++ ⟨objective, .raiseBound value, .flag false⟩ :: rest →
    value ≤ Report.bound (log ++ done) ∧ LatestOf bound? objective (log ++ done)

/-! ## One more report -/

variable {α : Type} {find? : Report → Option α} {log reports : List Report} {r : Report}
  {o : Outcome} {objective : IntId}

theorem last?_concat (find? : Report → Option α) (log : List Report) (r : Report) :
    last? find? (log ++ [r]) = if (find? r).isSome then some r else last? find? log := by
  rw [last?, List.reverse_concat, List.find?_cons]
  cases hfound : (find? r).isSome <;> rfl

theorem latest_concat (find? : Report → Option α) (initial : α) (log : List Report) (r : Report) :
    latest find? initial (log ++ [r]) = (find? r).getD (latest find? initial log) := by
  rw [latest, last?_concat]
  cases hfound : find? r with
  | none => rfl
  | some found => simp [hfound]

theorem LatestOf.of_forall (h : ∀ r ∈ log, r.objective = objective) :
    LatestOf find? objective log :=
  fun r hr => h r (List.mem_reverse.mp (List.mem_of_find?_eq_some hr))

theorem LatestOf.concat (h : LatestOf find? objective log) (hr : r.objective = objective) :
    LatestOf find? objective (log ++ [r]) := by
  intro found hfound
  rw [last?_concat] at hfound
  split at hfound
  · rwa [← Option.some.inj hfound]
  · exact h found hfound

/-- What the outcome is after a report that was kept, or was not. -/
theorem Tracks.concat (h : Tracks log o) {o' : Outcome}
    (hsolution : (o'.objective, o'.solution) = r.solution?.getD (o.objective, o.solution))
    (hbound : o'.bound = r.bound?.getD o.bound) : Tracks (log ++ [r]) o' where
  incumbent := by rw [hsolution, h.incumbent, Report.incumbent, Report.incumbent, latest_concat]
  bound := by rw [hbound, h.bound, Report.bound, Report.bound, latest_concat]

theorem tracks_nil : Tracks [] {} := ⟨rfl, rfl⟩

theorem BelongsTo.nil (hincumbent : LatestOf solution? objective log)
    (hbound : LatestOf bound? objective log) : BelongsTo objective log [] where
  incumbent := by rwa [List.append_nil]
  bound := by rwa [List.append_nil]
  beaten := by simp
  unmoved := by simp

/-- The first report of a call comes before the others. -/
theorem BelongsTo.cons (h : BelongsTo objective (log ++ [r]) reports)
    (hbeaten : ∀ {value solution}, r = ⟨objective, .record value solution, .flag false⟩ →
      value.isNaN = true ∨
        value ≥ (Report.incumbent log).1 ∧ LatestOf solution? objective log)
    (hunmoved : ∀ {value}, r = ⟨objective, .raiseBound value, .flag false⟩ →
      value ≤ Report.bound log ∧ LatestOf bound? objective log) :
    BelongsTo objective log (r :: reports) where
  incumbent := by rw [List.append_cons]; exact h.incumbent
  bound := by rw [List.append_cons]; exact h.bound
  beaten := by
    intro done rest value solution hreports
    rcases List.cons_eq_append_iff.mp hreports with ⟨rfl, hcons⟩ | ⟨done, rfl, hrest⟩
    · rw [List.append_nil]
      exact hbeaten (List.head_eq_of_cons_eq hcons.symm)
    · rw [List.append_cons]
      exact h.beaten hrest
  unmoved := by
    intro done rest value hreports
    rcases List.cons_eq_append_iff.mp hreports with ⟨rfl, hcons⟩ | ⟨done, rfl, hrest⟩
    · rw [List.append_nil]
      exact hunmoved (List.head_eq_of_cons_eq hcons.symm)
    · rw [List.append_cons]
      exact h.unmoved hrest

end Report

/-! ## What a strategy reports -/

namespace Solve

open Report

variable {ctx : Solve} {s : State} {log : List Report}

/-- The reports of a strategy: its commands with their answers. -/
def reportsOf (objective : IntId) (script : Script) (replies : List Reply) : List Report :=
  List.zipWith (Report.mk objective) script replies

theorem objective_of_mem_reportsOf {objective : IntId} {script : Script} {replies : List Reply}
    {r : Report} (hr : r ∈ reportsOf objective script replies) : r.objective = objective := by
  induction script generalizing replies with
  | nil => simp [reportsOf] at hr
  | cons c rest ih =>
      cases replies with
      | nil => simp [reportsOf] at hr
      | cons reply replies =>
          rcases List.mem_cons.mp hr with rfl | hr
          · rfl
          · exact ih hr

theorem outcome_ask {α : Type} (act : EStateM EngineError Solvers α) (reply : α → Reply)
    (s : State) : (ask act reply s).2.outcome = s.outcome := by
  unfold ask
  cases act s.solvers <;> rfl

/-- The outcome stays what was kept last. -/
theorem perform_tracks (ctx : Solve) (h : Tracks log s.outcome) (c : Command) :
    Tracks (log ++ [⟨ctx.objective, c, (ctx.perform s c).1⟩]) (ctx.perform s c).2.outcome := by
  cases c with
  | record value solution =>
      simp only [perform, Outcome.record]
      split <;> exact h.concat rfl rfl
  | raiseBound value =>
      simp only [perform, Outcome.raiseBound]
      split <;> exact h.concat rfl rfl
  | fork | discard | domains =>
      simp only [perform, outcome_ask]
      exact h.concat rfl rfl
  | arguments | formulation | workingCopy | session | inTime | setStatus | outcome | describe =>
      exact h.concat rfl rfl

/-- A solution is turned down if it has no value, or none that is better than the incumbent's. -/
theorem perform_record_false {value : Float} {solution : Solution} (h : Tracks log s.outcome)
    (hreply : (ctx.perform s (.record value solution)).1 = .flag false) :
    value.isNaN = true ∨ value ≥ (incumbent log).1 := by
  rw [← h.incumbent]
  simp only [perform, Outcome.record] at hreply
  split at hreply
  · next hworse => simpa only [Bool.or_eq_true, decide_eq_true_eq] using hworse
  · cases hreply

/-- A bound is turned down if it is not above the one before. -/
theorem perform_raiseBound_false {value : Float} (h : Tracks log s.outcome)
    (hreply : (ctx.perform s (.raiseBound value)).1 = .flag false) : value ≤ bound log := by
  rw [← h.bound]
  simp only [perform, Outcome.raiseBound] at hreply
  split at hreply
  · assumption
  · cases hreply

/-- So it does through a script. -/
theorem run_tracks (ctx : Solve) (script : Script) (h : Tracks log s.outcome) :
    Tracks (log ++ reportsOf ctx.objective script (ctx.run s script).1)
      (ctx.run s script).2.outcome := by
  induction script generalizing s log with
  | nil => rwa [reportsOf, List.zipWith_nil_left, List.append_nil]
  | cons c rest ih =>
      have htick : Tracks log { s with clock := s.clock + 1 }.outcome := h
      have hrest := ih (perform_tracks ctx htick c)
      rwa [List.append_assoc] at hrest

/-- If what there was before the first command belongs to the objective, then so does all
that a script makes of it. -/
theorem run_belongs (ctx : Solve) (script : Script) (h : Tracks log s.outcome)
    (hincumbent : LatestOf solution? ctx.objective log)
    (hbound : LatestOf bound? ctx.objective log) :
    BelongsTo ctx.objective log (reportsOf ctx.objective script (ctx.run s script).1) := by
  induction script generalizing s log with
  | nil => exact .nil hincumbent hbound
  | cons c rest ih =>
      have htick : Tracks log { s with clock := s.clock + 1 }.outcome := h
      refine (ih (perform_tracks ctx htick c) (hincumbent.concat rfl) (hbound.concat rfl)).cons ?_ ?_
      · intro value solution hr
        obtain ⟨-, rfl, hreply⟩ := Report.mk.inj hr
        exact (perform_record_false htick hreply).imp_right fun hworse => ⟨hworse, hincumbent⟩
      · intro value hr
        obtain ⟨-, rfl, hreply⟩ := Report.mk.inj hr
        exact ⟨perform_raiseBound_false htick hreply, hbound⟩

end Solve

/-! ## Histories -/

/-- A model starts with nothing reported. -/
theorem Model.create_outcome {config : Config} {solvers t : Solvers} {m : Model}
    (hcreate : Model.create config solvers = .ok m t) : m.outcome = {} := by
  have hengine (act : Engine.Run Unit) :
      Keeps (fun s : Live => s.model.outcome = {}) (Live.onEngine act) :=
    keeps_onPart _ fun _ _ hs => hs
  have hconstants : Keeps (fun s : Live => s.model.outcome = {})
      (Live.onRegistry Draft.addConstants) := keeps_onPart _ fun _ _ hs => hs
  exact create_of_phases (P := fun s => s.model.outcome = {}) (Q := fun s => s.model.outcome = {})
    rfl hengine (fun s hs => (hconstants s hs).mono (fun _ _ hs => hs) fun _ _ _ => trivial)
    (keeps_onPart _ fun _ _ hs => hs) hengine hcreate

namespace Live

open Report Solve

variable {start s u : Live} {log : List Report} {objective : IntId} {limit : Float}

/-- What a model was led to by calls that are through, and what was reported in them.  The
solvers may be used by others in between. -/
inductive Logs (start : Live) : Live → List Report → Prop
  | start : Logs start start []
  | add {s : Live} {log : List Report} (c : Draft.Call) : Logs start s log →
      Logs start (after (onRegistry (Draft.perform c)) s) log
  | register {s : Live} {log : List Report} (method : Method) (script : Script) :
      Logs start s log →
      Logs start { s with model.strategies := s.model.strategies.set method script } log
  | startTimer {s : Live} {log : List Report} (timer : Timer) : Logs start s log →
      Logs start { s with model.timer := timer } log
  | solvers {s : Live} {log : List Report} (solvers : Solvers) : Logs start s log →
      Logs start { s with solvers } log
  | minimize {s : Live} {log : List Report} {objective : IntId} {limit : Float} {script : Script}
      (now : Nat) : Logs start s log → s.model.dispatch objective limit = .ok script →
      Logs start (s.solve script objective limit now).2
        (log ++ reportsOf objective script (s.solve script objective limit now).1)

/-- In every history, the outcome is what was kept last. -/
theorem Logs.tracks (h : Logs start s log) (hstart : start.model.outcome = {}) :
    Tracks log s.model.outcome := by
  induction h with
  | start => rw [hstart]; exact tracks_nil
  | @add s log c _ ih =>
      have hkeeps : Keeps (fun t : Live => Tracks log t.model.outcome)
          (onRegistry (Draft.perform c)) := keeps_onPart _ fun _ _ ht => ht
      exact hkeeps.after ih
  | register | startTimer | solvers => assumption
  | @minimize s log objective limit script now _ _ ih =>
      exact run_tracks (s.context objective limit now) script ih

/-- The model with another strategy for its method. -/
def withStrategy (s : Live) (script : Script) : Live :=
  { s with model.strategies := s.model.strategies.set s.model.config.method script }

theorem dispatch_of_slot {m : Model} {script : Script} (hlimit : limit > 0.0)
    (hslot : (m.formulation.registry.int? objective).isSome)
    (hscript : m.strategies.script? m.config.method = some script) :
    m.dispatch objective limit = .ok script := by
  obtain ⟨slot, hslot⟩ := Option.isSome_iff_exists.mp hslot
  simp only [Model.dispatch, if_pos hlimit, hslot, hscript]

theorem minimize_of_dispatch {script : Script}
    (hdispatch : s.model.dispatch objective limit = .ok script) (now : Nat) :
    minimize objective limit now s =
      .ok (s.solve script objective limit now).1 (s.solve script objective limit now).2 := by
  simp only [minimize, hdispatch]

/-- Which strategy there is does not matter for a call to be in order. -/
theorem dispatch_withStrategy {script₀ : Script}
    (hdispatch : s.model.dispatch objective limit = .ok script₀) (script : Script) :
    (s.withStrategy script).model.dispatch objective limit = .ok script := by
  unfold Model.dispatch at hdispatch
  split at hdispatch
  · next hlimit =>
      refine dispatch_of_slot hlimit ?_ (if_pos rfl)
      cases hslot : s.model.formulation.registry.int? objective with
      | none => simp [hslot] at hdispatch
      | some slot => simp [withStrategy, hslot]
  · cases hdispatch

variable {config : Config} {solvers t : Solvers} {m : Model}

/-- What a call leaves in the outcome belongs to its objective, and nothing else keeps its
reports out, for every strategy that it may run, if and only if this is true of what it finds
there. -/
theorem results_belong_iff {script₀ : Script} (hcreate : Model.create config solvers = .ok m t)
    (hlogs : Logs ⟨m, t⟩ s log) (hdispatch : s.model.dispatch objective limit = .ok script₀) :
    (∀ script now replies u,
      minimize objective limit now (s.withStrategy script) = .ok replies u →
      Tracks (log ++ reportsOf objective script replies) u.model.outcome ∧
        BelongsTo objective log (reportsOf objective script replies)) ↔
      LatestOf solution? objective log ∧ LatestOf bound? objective log := by
  have htracks := hlogs.tracks (Model.create_outcome hcreate)
  refine ⟨fun hall => ?_, fun ⟨hincumbent, hbound⟩ script now replies u hrun => ?_⟩
  · -- a strategy that reports nothing leaves what there was
    have hrun := minimize_of_dispatch (dispatch_withStrategy hdispatch []) 0
    obtain ⟨-, hbelongs⟩ := hall [] 0 _ _ hrun
    have hincumbent := hbelongs.incumbent
    have hbound := hbelongs.bound
    rw [reportsOf, List.zipWith_nil_left, List.append_nil] at hincumbent hbound
    exact ⟨hincumbent, hbound⟩
  · rw [minimize_of_dispatch (dispatch_withStrategy hdispatch script)] at hrun
    cases hrun
    let ctx := (s.withStrategy script).context objective limit now
    exact ⟨run_tracks ctx script htracks, run_belongs ctx script htracks hincumbent hbound⟩

/-- A strategy that finds a solution of value 1 and proves it optimal. -/
def cheapScript : Script := [.record 1.0 ⟨#[], #[0, 1, 5]⟩, .raiseBound 1.0]

/-- A strategy that finds a solution of value 5. -/
def dearScript : Script := [.record 5.0 ⟨#[], #[0, 1, 5]⟩]

/-- Two variables are added and a strategy for the first is registered. -/
def twoObjectives (s : Live) : Live :=
  let s := after (onRegistry (Draft.perform (.int 0 10 "y"))) s
  let s := after (onRegistry (Draft.perform (.int 0 10 "z"))) s
  { s with model.strategies := s.model.strategies.set .mip cheapScript }

/-- The first variable is minimized, and the next strategy is registered. -/
def cheapFound (s : Live) : Live :=
  let s := ((twoObjectives s).solve cheapScript ⟨1⟩ 5.0 0).2
  { s with model.strategies := s.model.strategies.set .mip dearScript }

/-- What the first strategy reported. -/
def cheapReports (s : Live) : List Report :=
  reportsOf ⟨1⟩ cheapScript ((twoObjectives s).solve cheapScript ⟨1⟩ 5.0 0).1

/-- After the first variable was minimized, either can be minimized. -/
theorem exists_cheapFound : ∃ m t, Model.create { method := .mip } {} = .ok m t ∧
    Logs ⟨m, t⟩ (cheapFound ⟨m, t⟩) (cheapReports ⟨m, t⟩) ∧
    (∀ objective : IntId, objective = ⟨1⟩ ∨ objective = ⟨2⟩ →
      (cheapFound ⟨m, t⟩).model.dispatch objective 5.0 = .ok dearScript) ∧
    (last? solution? (cheapReports ⟨m, t⟩ ++
      reportsOf ⟨2⟩ dearScript ((cheapFound ⟨m, t⟩).solve dearScript ⟨2⟩ 5.0 0).1)).map
        (·.objective) = some ⟨1⟩ := by
  have hrun : (match Model.create { method := .mip } {} with
      | .ok m t =>
        let s := twoObjectives ⟨m, t⟩
        decide (s.model.config.method = .mip) &&
          (s.model.formulation.registry.int? ⟨1⟩).isSome &&
          (s.model.formulation.registry.int? ⟨2⟩).isSome &&
          (last? solution? (cheapReports ⟨m, t⟩ ++
            reportsOf ⟨2⟩ dearScript ((cheapFound ⟨m, t⟩).solve dearScript ⟨2⟩ 5.0 0).1)).map
              (·.objective) == some ⟨1⟩
      | .error _ _ => false) = true := by decide +kernel
  cases hcreate : Model.create { method := .mip } {} with
  | error failure t => simp [hcreate] at hrun
  | ok m t =>
      simp only [hcreate, Bool.and_eq_true, beq_iff_eq, decide_eq_true_eq] at hrun
      obtain ⟨⟨⟨hmethod, hfirst⟩, hsecond⟩, hincumbent⟩ := hrun
      have hpositive : (5.0 : Float) > 0.0 := by decide
      have hdispatch : (twoObjectives ⟨m, t⟩).model.dispatch ⟨1⟩ 5.0 = .ok cheapScript :=
        dispatch_of_slot hpositive hfirst (by rw [hmethod]; rfl)
      have hstart : Logs ⟨m, t⟩ ⟨m, t⟩ [] := .start
      have hlogs := ((hstart.add (.int 0 10 "y")).add (.int 0 10 "z")).register .mip cheapScript
      refine ⟨m, t, rfl, (hlogs.minimize 0 hdispatch).register .mip dearScript, ?_, hincumbent⟩
      intro objective hobjective
      have hslot : ((cheapFound ⟨m, t⟩).model.formulation.registry.int? objective).isSome := by
        rcases hobjective with rfl | rfl
        · exact hfirst
        · exact hsecond
      have hsame : (cheapFound ⟨m, t⟩).model.config.method = .mip := hmethod
      exact dispatch_of_slot hpositive hslot (by rw [hsame]; rfl)

/-- The first variable is minimized once more: nothing else was reported so far. -/
theorem results_belong_again : ∃ m t s log script₀, Model.create { method := .mip } {} = .ok m t ∧
    Logs ⟨m, t⟩ s log ∧ log.length = 2 ∧ s.model.dispatch ⟨1⟩ 5.0 = .ok script₀ ∧
    ∀ script now replies u, minimize ⟨1⟩ 5.0 now (s.withStrategy script) = .ok replies u →
      Tracks (log ++ reportsOf ⟨1⟩ script replies) u.model.outcome ∧
        BelongsTo ⟨1⟩ log (reportsOf ⟨1⟩ script replies) := by
  obtain ⟨m, t, hcreate, hlogs, hdispatch, -⟩ := exists_cheapFound
  have hfirst := hdispatch ⟨1⟩ (.inl rfl)
  have hsame : ∀ r ∈ cheapReports ⟨m, t⟩, r.objective = ⟨1⟩ := fun _ => objective_of_mem_reportsOf
  exact ⟨m, t, _, _, _, hcreate, hlogs, rfl, hfirst,
    (results_belong_iff hcreate hlogs hfirst).mpr ⟨.of_forall hsame, .of_forall hsame⟩⟩

/-- The other variable is minimized: the solution of value 1 that was found for the first is
still reported, and keeps the one of value 5 out. -/
theorem results_mixed : ∃ m t s log script replies u,
    Model.create { method := .mip } {} = .ok m t ∧ Logs ⟨m, t⟩ s log ∧
    minimize ⟨2⟩ 5.0 0 s = .ok replies u ∧ s.model.dispatch ⟨2⟩ 5.0 = .ok script ∧
    ¬ BelongsTo ⟨2⟩ log (reportsOf ⟨2⟩ script replies) := by
  obtain ⟨m, t, hcreate, hlogs, hdispatch, hincumbent⟩ := exists_cheapFound
  have hsecond := hdispatch ⟨2⟩ (.inr rfl)
  refine ⟨m, t, _, _, _, _, _, hcreate, hlogs, minimize_of_dispatch hsecond 0, hsecond,
    fun hbelongs => ?_⟩
  obtain ⟨r, hr, hfirst⟩ := Option.map_eq_some_iff.mp hincumbent
  have hother := hbelongs.incumbent r hr
  rw [hfirst] at hother
  cases hother

end Live

end JointModel
