import JointModel.Proofs.Model.Creation
import JointModel.Proofs.Registry.Additions

/-!
# Setting a session up in the reach of faults

Creating a model makes a fixed sequence of calls on the session (`setUpCalls`), and any
of them may fail: a fault strikes, or no block is left.  Either all calls go through, and
the model has exactly the constants and a bridge if its method needs one, or what was
made so far is `Unfinished`, and every unfinished model can be torn down.

## Strategy

* Up to the problem, the session is cleared and the formulation empty, so there is
  nothing to be released.
* From then on the accounts are in order after every call, with one exception: a bridge
  that was created but refused by the problem is used once, not twice.  Releasing it
  leads back to accounts that are in order.
-/

namespace JointModel

open Effect Formulation

/-! ## The constants -/

/-- A registry with the constants and nothing else. -/
def Registry.IsConstants (r : Registry) : Prop :=
  ∃ v n w domain, r =
    { bools := #[⟨v, Domains.falseLiteral, .positive (some .truth), "false"⟩,
        ⟨n, Domains.trueLiteral, .negated .falsity, "~false"⟩]
      ints := #[⟨some w, domain, 0, 0, "zero", none⟩] }

namespace Draft

variable {f : Formulation} {d d' : Draft}

/-- The accounts of a draft are in order, if the formulation `f` gets its registry, and
releases are out of reach of faults. -/
structure Accounted (f : Formulation) (d : Draft) : Prop where
  accounts : d.solvers.session.Accounts 2 { f with registry := d.registry }
  spared : d.solvers.engine.faults.Spared

theorem Accounted.ready (h : d.Accounted f) : d.Ready :=
  ⟨h.accounts.sound, h.accounts.problem, h.spared.releaseVar⟩

theorem Accounted.stays (h : d.Accounted f)
    (hwithin : d'.solvers.engine.faults.Within d.solvers.engine.faults) (hstays : d.Stays d') :
    d'.Accounted f := by
  obtain ⟨e, hunchanged, rfl⟩ := hstays
  exact ⟨h.accounts.of_views hunchanged.sound hunchanged.var? hunchanged.cons? hunchanged.frame,
    hwithin.spared h.spared⟩

theorem Accounted.addLiteral (h : d.Accounted f) (name : String) (ub : Float) (literal : Literal) :
    Proceeds [.newVar, .enrolVar] (Draft.addLiteral name ub literal) d
      (fun i d' => d'.Accounted f ∧ d'.solvers.session.backdrop = d.solvers.session.backdrop ∧
        i = ⟨d.registry.bools.size⟩ ∧
        ∃ v, d'.registry = d.registry.withBool ⟨v, literal, .positive none, name⟩)
      (Accounted f) := by
  have hpaired : d.registry.Paired := h.accounts.paired _ List.mem_cons_self
  refine (proceeds_addLiteral h.ready name ub literal).mono (fun i d' hwithin hd' => ?_)
    fun _ => h.stays
  obtain ⟨hi, v, e, henrols, rfl⟩ := hd'
  let slot : BoolSlot := ⟨v, literal, .positive none, name⟩
  have hnew : (d.registry.withBool slot).Paired := hpaired.withBool rfl
  refine ⟨⟨h.accounts.enrol henrols rfl hnew rfl ?_, hwithin.spared h.spared⟩, ?_, hi, v, rfl⟩
  · exact Registry.holdings_withBool_positive hnew.aligned rfl 2
  · show e.session.backdrop = _
    rw [henrols.rest]
    rfl

theorem Accounted.negate (h : d.Accounted f) {v : BoolId} {slot : BoolSlot}
    (hslot : d.registry.bool? v = some slot) (hpolarity : slot.polarity = .positive none) :
    Proceeds [.negateVar] (Draft.negate v) d
      (fun _ d' => d'.Accounted f ∧ d'.solvers.session.backdrop = d.solvers.session.backdrop ∧
        ∃ n, d'.registry = d.registry.withNegation v
          ⟨n, slot.literal.negate, .negated v, "~" ++ slot.name⟩)
      (Accounted f) := by
  have hpaired : d.registry.Paired := h.accounts.paired _ List.mem_cons_self
  have hresident := h.accounts.resident_primary
  have hnew : ∀ n : VarId, ∃ rest,
      (d.registry.holdings 2).Perm ((slot.handle, ⟨2, .positive none⟩) :: rest) ∧
      ((d.registry.withNegation v
        ⟨n, slot.literal.negate, .negated v, "~" ++ slot.name⟩).holdings 2).Perm
        ((n, ⟨0, .negation slot.handle⟩) :: (slot.handle, ⟨2, .positive (some n)⟩) :: rest) :=
    fun n => Registry.holdings_withNegation hpaired hslot hpolarity rfl hresident.distinct 2
  -- any handle will do to find the stake of the slot before it is negated
  obtain ⟨rest, hholding, -⟩ := hnew slot.handle
  obtain ⟨entry, hentry, hstake⟩ := hresident.graded (hholding.mem_iff.mpr List.mem_cons_self)
  refine (proceeds_negate h.ready hslot hpolarity hentry (congrArg Stake.link hstake)).mono
    (fun i d' hwithin hd' => ?_) fun _ => h.stays
  obtain ⟨-, n, e, hnegates, rfl⟩ := hd'
  obtain ⟨rest, hbefore, hafter⟩ := hnew n
  refine ⟨⟨h.accounts.negate hnegates (hpaired.withNegation hslot hpolarity rfl) rfl hbefore
    hafter, hwithin.spared h.spared⟩, ?_, n, rfl⟩
  show e.session.backdrop = _
  rw [hnegates.rest]
  rfl

theorem Accounted.addInt (h : d.Accounted f) {lb ub : Int} (hbounds : lb ≤ ub) (name : String) :
    Proceeds [.newVar, .enrolVar] (Draft.addInt lb ub name) d
      (fun _ d' => d'.Accounted f ∧ d'.solvers.session.backdrop = d.solvers.session.backdrop ∧
        ∃ v domain, d'.registry = d.registry.withInt ⟨some v, domain, lb, ub, name, none⟩)
      (Accounted f) := by
  have hpaired : d.registry.Paired := h.accounts.paired _ List.mem_cons_self
  refine (proceeds_addInt h.ready hbounds name).mono (fun i d' hwithin hd' => ?_) fun d' => ?_
  · obtain ⟨-, v, e, henrols, rfl⟩ := hd'
    refine ⟨⟨h.accounts.enrol henrols rfl (hpaired.of_bools rfl) rfl
      (d.registry.holdings_withInt _ 2), hwithin.spared h.spared⟩, ?_, v, _, rfl⟩
    show e.session.backdrop = _
    rw [henrols.rest]
    rfl
  · have hdomain : (d.withDomain lb ub).Accounted f := ⟨h.accounts, h.spared⟩
    exact hdomain.stays

/-- The constants take the first slots of an empty registry. -/
theorem Accounted.addConstants (h : d.Accounted f) (hempty : d.registry = {}) :
    Proceeds [.newVar, .enrolVar, .negateVar, .newVar, .enrolVar] Draft.addConstants d
      (fun _ d' => d'.Accounted f ∧ d'.solvers.session.backdrop = d.solvers.session.backdrop ∧
        d'.registry.IsConstants)
      (Accounted f) := by
  unfold Draft.addConstants
  refine (proceeds_bind (h.addLiteral "false" 0.0 Domains.falseLiteral) fun i d₁ _ h₁ => ?_ :)
  obtain ⟨h₁, hbackdrop₁, rfl, v, hregistry₁⟩ := h₁
  have hslot : d₁.registry.bool? ⟨d.registry.bools.size⟩ =
      some ⟨v, Domains.falseLiteral, .positive none, "false"⟩ := by
    rw [hregistry₁, Registry.bool?_withBool_size]
  refine (proceeds_bind (h₁.negate hslot rfl) fun _ d₂ _ h₂ => ?_ :)
  obtain ⟨h₂, hbackdrop₂, n, hregistry₂⟩ := h₂
  refine (proceeds_bind (h₂.addInt (Int.le_refl 0) "zero") fun _ d₃ _ h₃ => ?_ :)
  obtain ⟨h₃, hbackdrop₃, w, domain, hregistry₃⟩ := h₃
  refine proceeds_of_accepted rfl rfl
    ⟨h₃, hbackdrop₃.trans (hbackdrop₂.trans hbackdrop₁), v, n, w, domain, ?_⟩
  have hname : "~" ++ "false" = "~false" := by decide
  have hliteral : Domains.falseLiteral.negate = Domains.trueLiteral := by decide
  rw [hregistry₃, hregistry₂, hregistry₁, hempty]
  simp [Registry.withBool, Registry.withNegation, Registry.withInt, hname, hliteral, BoolId.truth,
    BoolId.falsity]

end Draft

/-! ## Unfinished models -/

namespace Session

variable {s t : Session} {f : Formulation} {uses : Nat}

/-- The members of the problem matter, and what else it says does not. -/
theorem Accounts.setProblem (h : s.Accounts uses f) {problem problem' : Problem}
    (hproblem : s.problem = some problem) (hvars : problem'.vars = problem.vars)
    (hconss : problem'.conss = problem.conss) :
    Accounts uses f { s with problem := some problem' } where
  sound := h.sound.of_tables rfl rfl h.sound.hooked
  paired := h.paired
  vars := h.vars
  conss := h.conss
  members := by
    obtain ⟨old, hold, hmembers⟩ := h.members
    rw [hproblem] at hold
    cases hold
    exact ⟨problem', rfl, hvars ▸ hconss ▸ hmembers⟩
  depth := h.depth

theorem Cleared.settings (h : s.Cleared) (settings : Settings) : Cleared { s with settings } :=
  { h with sound := h.sound.of_tables rfl rfl h.sound.hooked }

theorem close_of_cleared (h : s.Cleared) :
    close s = .ok () { s with handlers := [], hooked := false } := by
  simp only [close, bind_apply, get_apply, h.copies, List.length_nil, discardCopies, pure_apply,
    dropProblem, h.problem, modify_apply]

theorem Cleared.closed (h : s.Cleared) : Cleared { s with handlers := [], hooked := false } :=
  { h with
    sound := h.sound.of_tables rfl rfl fun hcopies => absurd h.copies hcopies
    handlers := rfl
    hooked := rfl }

/-- The creator of a constraint takes its use back. -/
theorem AddsCons.undo {c : ConsId} {info : ConsInfo} (h : s.AddsCons c info t) (hs : s.Sound)
    (huses : info.uses = 1) : ∃ u, releaseCons c t = .ok () u ∧ s.Unchanged u := by
  have ht : t.Sound := h.sound hs (by rw [huses]; exact Nat.one_pos)
  let counted : Session := { t with ledger.consReleases := t.ledger.consReleases + 1 }
  have hcounted : counted.Sound := ht.of_tables rfl rfl ht.hooked
  have hc : counted.cons? c = some info := (h.cons? c).trans (if_pos rfl)
  refine ⟨counted.freeCons c, ?_, hcounted.freeCons hc, h.var?_eq, ?_, h.frame_eq⟩
  · have hdrop : dropConsUse c counted = .ok () (counted.freeCons c) :=
      dropConsUse_last hc (Nat.le_of_eq huses)
    rw [releaseCons, bind_apply]
    exact hdrop
  · funext d
    rw [cons?_freeCons]
    by_cases hd : d = c
    · rw [if_pos hd, hd, h.fresh]
    · rw [if_neg hd]
      exact (h.cons? d).trans (if_neg hd)

end Session

namespace Model

open Session

/-- What is left of a formulation and its session if setting them up fails. -/
inductive Unfinished (f : Formulation) (s : Session) : Prop
  /-- There is no problem yet. -/
  | vacant : f = {} → s.Cleared → Unfinished f s
  /-- Everything that was made is a member of the problem. -/
  | accounted : s.Accounts 2 f → Unfinished f s
  /-- The bridge was created, but the problem refused it. -/
  | loose {start : Session} {c : ConsId} {info : ConsInfo} :
      start.Accounts 2 { f with bridge := none } → start.AddsCons c info s → info.uses = 1 →
      f.bridge = some c → Unfinished f s

/-- An unfinished model can be torn down like any other. -/
theorem Unfinished.tearDown {m : Model} {s : Session} {faults : Faults} (h : Unfinished m.formulation s)
    (hspared : faults.Spared) : ∃ t, m.tearDown ⟨s, faults⟩ = .ok () ⟨t, faults⟩ ∧ t.Cleared := by
  cases h with
  | vacant hempty hcleared =>
      refine ⟨_, ?_, hcleared.closed⟩
      have hrelease : m.formulation.release ⟨s, faults⟩ = .ok () ⟨s, faults⟩ := by
        rw [hempty]
        rfl
      rw [Model.tearDown, bind_apply, hrelease]
      simp only [Engine.close, Engine.call_of_spared (e := ⟨s, faults⟩) hspared.close,
        close_of_cleared hcleared]
  | accounted haccounts =>
      obtain ⟨t, htearDown, hdropped⟩ := tearDown_accepted haccounts hspared
      exact ⟨t, htearDown, hdropped.cleared⟩
  | @loose start c info haccounts hadds huses hbridge =>
      -- once the bridge is released, the model is one without a bridge
      let bare : Model := { m with formulation.bridge := none }
      obtain ⟨u, hundo, hunchanged⟩ := hadds.undo haccounts.sound huses
      have hu : u.Accounts 2 bare.formulation :=
        haccounts.of_views hunchanged.sound hunchanged.var? hunchanged.cons? hunchanged.frame
      obtain ⟨t, htearDown, hdropped⟩ := tearDown_accepted (m := bare) hu hspared
      refine ⟨t, ?_, hdropped.cleared⟩
      have hcall : Engine.releaseCons c ⟨s, faults⟩ = .ok () ⟨u, faults⟩ := by
        rw [Engine.releaseCons, Engine.call_of_spared hspared.releaseCons]
        simp only [hundo]
      have hrelease : m.formulation.release ⟨s, faults⟩ = bare.formulation.release ⟨u, faults⟩ := by
        simp only [Formulation.release, hbridge, bare, Option.toList_some, Option.toList_none,
          List.forM_eq_forM, List.forM_cons, List.forM_nil, bind_apply, hcall, pure_apply]
      rw [← htearDown, Model.tearDown, Model.tearDown, bind_apply, bind_apply, hrelease]

end Model

/-! ## One call after the other -/

namespace Live

variable {α : Type} {ops : List Operation} {s : Live}

/-- A call on a model proceeds through the calls `ops`. -/
abbrev Proceeds (ops : List Operation) (act : Run α) (s : Live) (Q : α → Live → Prop)
    (R : Live → Prop) : Prop :=
  JointModel.Proceeds (fun s => s.solvers.engine) ModelError.engine ops act s Q R

theorem proceeds_onEngine {act : Engine.Run α} {Q : α → Live → Prop} {R : Live → Prop}
    (h : Engine.Proceeds ops act s.solvers.engine (fun a e => Q a { s with solvers.engine := e })
      fun e => R { s with solvers.engine := e }) : Proceeds ops (onEngine act) s Q R :=
  proceeds_onPart rfl (fun _ => rfl) (fun _ => rfl) (Solvers.proceeds_onEngine h)

end Live

namespace Model

open Session Live

variable {s : Live} {config : Config}

/-- The model is unfinished in its session. -/
def Halfway (s : Live) : Prop := Unfinished s.model.formulation s.solvers.session

/-- The session is cleared, and the model has nothing yet. -/
structure Vacant (s : Live) : Prop where
  empty : s.model.formulation = {}
  cleared : s.solvers.session.Cleared
  spared : s.solvers.engine.faults.Spared

/-- There is a problem, and everything that was made is a member of it. -/
structure Underway (s : Live) : Prop where
  accounts : s.solvers.session.Accounts 2 s.model.formulation
  spared : s.solvers.engine.faults.Spared

/-- The problem is there, and nothing else yet. -/
structure Bare (s : Live) : Prop extends Underway s where
  empty : s.model.formulation = {}
  handlers : s.solvers.session.handlers = []

/-- The constants are there, and nothing else yet. -/
structure Seeded (s : Live) : Prop extends Underway s where
  constants : s.model.formulation.registry.IsConstants
  bridge : s.model.formulation.bridge = none
  handlers : s.solvers.session.handlers = []

/-- The constants are there, and a bridge if the method needs one. -/
structure Furnished (method : Method) (s : Live) : Prop extends Underway s where
  constants : s.model.formulation.registry.IsConstants
  bridge : s.model.formulation.bridge.isSome = method.needsBridge

theorem Vacant.settings (h : Vacant s) :
    Live.Proceeds (sessionSettings.map fun _ => .changeSetting)
      (sessionSettings.forM fun setting => onEngine (Engine.changeSetting setting)) s
      (fun _ t => Vacant t) Halfway := by
  refine proceeds_forM (fun setting hsetting s hs => ?_) h
  have hthreads : setting ≠ .maxThreads 0 := by
    rintro rfl
    exact absurd hsetting (by decide)
  have hrun : changeSetting setting s.solvers.session =
      .ok () { s.solvers.session with settings := s.solvers.session.settings.set setting } :=
    if_neg hthreads
  refine proceeds_onEngine ((Engine.proceeds_call (R := fun t => t = s.solvers.session)
    (Q := fun _ t => t.Cleared) hrun rfl rfl rfl (hs.cleared.settings _) rfl).mono
    (fun _ e hwithin ht => ?_) fun e _ he => ?_)
  · exact ⟨hs.empty, ht, hwithin.spared hs.spared⟩
  · have hcleared : e.session.Cleared := he ▸ hs.cleared
    exact .vacant hs.empty hcleared

theorem Vacant.newProblem (h : Vacant s) (name : String) :
    Live.Proceeds [.newProblem] (onEngine (Engine.newProblem name)) s (fun _ t => Bare t)
      Halfway := by
  have hrun : Session.newProblem name s.solvers.session =
      .ok () { s.solvers.session with problem := some { name } } := by
    simp only [Session.newProblem, h.cleared.problem]
  have haccounts : Accounts 2 {} { s.solvers.session with problem := some { name } } :=
    Cleared.accounts h.cleared { name } rfl rfl s.solvers.session.settings
  refine proceeds_onEngine ((Engine.proceeds_call (R := fun t => t = s.solvers.session)
    (Q := fun _ t => t.Accounts 2 {} ∧ t.handlers = []) hrun rfl rfl rfl
    ⟨haccounts, h.cleared.handlers⟩ rfl).mono (fun _ e hwithin ht => ?_) fun e _ he => ?_)
  · have haccounts : e.session.Accounts 2 s.model.formulation := h.empty ▸ ht.1
    exact ⟨⟨haccounts, hwithin.spared h.spared⟩, h.empty, ht.2⟩
  · have hcleared : e.session.Cleared := he ▸ h.cleared
    exact .vacant h.empty hcleared

/-- Whatever the problem says besides its members. -/
theorem Bare.modifyProblem (h : Bare s) {op : Operation} (hblocks : op.blocks = 0)
    {change : Problem → Problem} (hvars : ∀ problem, (change problem).vars = problem.vars)
    (hconss : ∀ problem, (change problem).conss = problem.conss) :
    Live.Proceeds [op] (onEngine (Engine.call op (Session.modifyProblem change))) s
      (fun _ t => Bare t) Halfway := by
  obtain ⟨problem, hproblem, -⟩ := h.accounts.members
  have hrun : Session.modifyProblem change s.solvers.session =
      .ok () { s.solvers.session with problem := some (change problem) } := by
    simp only [Session.modifyProblem, hproblem]
  have haccounts := h.accounts.setProblem hproblem (hvars problem) (hconss problem)
  refine proceeds_onEngine ((Engine.proceeds_call (R := fun t => t = s.solvers.session)
    (Q := fun _ t => t.Accounts 2 s.model.formulation ∧ t.handlers = []) hrun hblocks rfl rfl
    ⟨haccounts, h.handlers⟩ rfl).mono (fun _ e hwithin ht => ?_) fun e _ he => ?_)
  · exact ⟨⟨ht.1, hwithin.spared h.spared⟩, h.empty, ht.2⟩
  · have haccounts : e.session.Accounts 2 s.model.formulation := he ▸ h.accounts
    exact .accounted haccounts

/-- The calls that declare the objective integral. -/
def objectiveCalls (integral : Bool) : List Operation := if integral then [.setIntegral] else []

theorem Bare.setUpObjective (h : Bare s) (integral : Bool) :
    Live.Proceeds (objectiveCalls integral) (setUpObjective integral) s (fun _ t => Bare t)
      Halfway := by
  cases integral with
  | false => exact proceeds_of_accepted rfl rfl h
  | true => exact h.modifyProblem rfl (fun _ => rfl) fun _ => rfl

/-- The calls that make the constants. -/
def constantCalls : List Operation := [.newVar, .enrolVar, .negateVar, .newVar, .enrolVar]

theorem Bare.addConstants (h : Bare s) :
    Live.Proceeds constantCalls (onRegistry Draft.addConstants) s (fun _ t => Seeded t)
      Halfway := by
  have hempty : s.model.formulation.registry = {} := by rw [h.empty]
  have hd : Draft.Accounted s.model.formulation ⟨s.model.formulation.registry, s.solvers⟩ :=
    ⟨h.accounts, h.spared⟩
  refine proceeds_onPart rfl (fun _ => rfl) (fun _ => rfl) ((hd.addConstants hempty).mono
    (fun _ d _ ht => ?_) fun d _ ht => ?_)
  · obtain ⟨ht, hbackdrop, hconstants⟩ := ht
    have hbridge : s.model.formulation.bridge = none := by rw [h.empty]
    exact ⟨⟨ht.accounts, ht.spared⟩, hconstants, hbridge,
      (congrArg Session.handlers hbackdrop :).trans h.handlers⟩
  · exact .accounted ht.accounts

/-- The calls that make the bridge. -/
def bridgeCalls (method : Method) : List Operation :=
  if method.needsBridge then [.addHandler, .newCons, .enrolCons] else []

theorem proceeds_assembly {ops : List Operation} {α : Type} {act : Engine.Run α} {a : Assembly}
    {Q : α → Assembly → Prop} {R : Assembly → Prop}
    (h : Engine.Proceeds ops act a.engine (fun x e => Q x { a with engine := e })
      fun e => R { a with engine := e }) :
    Proceeds (fun a : Assembly => a.engine) id ops (Assembly.onEngine act) a Q R :=
  proceeds_onPart rfl (fun _ => rfl) (fun _ => rfl) h

/-- The formulation knows its bridge before the problem does. -/
theorem addBridge_proceeds {f : Formulation} {e : Engine} (h : e.session.Accounts 2 f)
    (hnone : f.bridge = none) (hhandlers : e.session.handlers = []) :
    Proceeds (fun a : Assembly => a.engine) id [.addHandler, .newCons, .enrolCons]
      Assembly.addBridge ⟨e, f⟩
      (fun _ a => ∃ c, a.engine.session.Accounts 2 { f with bridge := some c } ∧
        a.formulation = { f with bridge := some c })
      fun a => Unfinished a.formulation a.engine.session := by
  have hinclude : Session.addHandler bridgeHandler e.session =
      .ok () { e.session with handlers := [bridgeHandler] } := by
    simp [Session.addHandler, hasHandler, hhandlers]
  have hhandler : Proceeds (fun a : Assembly => a.engine) id [.addHandler]
      (Assembly.onEngine (Engine.addHandler bridgeHandler)) ⟨e, f⟩
      (fun _ a => a.formulation = f ∧ a.engine.session.Accounts 2 f ∧
        a.engine.session.hasHandler bridgeHandler = true)
      fun a => Unfinished a.formulation a.engine.session := by
    refine proceeds_assembly ((Engine.proceeds_call (R := fun t => t.Accounts 2 f)
      (Q := fun _ t => t.Accounts 2 f ∧ t.hasHandler bridgeHandler = true) hinclude rfl rfl rfl
      ⟨h.of_tables rfl rfl rfl rfl rfl h.sound.hooked, ?_⟩ h).mono (fun _ e' _ he' => ⟨rfl, he'⟩)
      fun e' _ he' => .accounted he')
    simp [hasHandler]
  unfold Assembly.addBridge
  refine (proceeds_bind hhandler fun _ a _ ha => ?_ :)
  obtain ⟨e, g⟩ := a
  obtain ⟨rfl, h, hknown⟩ := ha
  have hnew : Proceeds (fun a : Assembly => a.engine) id [.newCons]
      (Assembly.onEngine (Engine.newCons bridgeHandler "cp")) ⟨e, g⟩
      (fun c a => a.formulation = g ∧ e.session.AddsCons c ⟨"cp", bridgeHandler, 1⟩ a.engine.session)
      fun a => Unfinished a.formulation a.engine.session := by
    refine proceeds_assembly ((Engine.proceeds_call_new (R := fun t => t = e.session)
      (Q := fun c t => e.session.AddsCons c ⟨"cp", bridgeHandler, 1⟩ t) ?_ rfl rfl).mono
      (fun _ e' _ he' => ⟨rfl, he'⟩) fun e' _ he' => .accounted (he' ▸ h))
    refine (newCons_ends h.sound.conss h.problem hknown "cp").mono (fun c t ht => ?_) fun _ _ ht => ht
    exact ⟨ht.1, ht.2.allocations_eq, limit_eq_of_frame ht.2.frame_eq, ht.2⟩
  refine (proceeds_bind hnew fun c a _ ha => ?_ :)
  obtain ⟨e', g'⟩ := a
  obtain ⟨rfl, hadds⟩ := ha
  obtain ⟨problem, hproblem, -⟩ := h.members
  have hc : e'.session.cons? c = some ⟨"cp", bridgeHandler, 1⟩ := by rw [hadds.cons?, if_pos rfl]
  have hproblem' : e'.session.problem = some problem :=
    (problem_eq_of_frame hadds.frame_eq).trans hproblem
  refine proceeds_bind_of_accepted rfl rfl ?_
  refine proceeds_assembly ((Engine.proceeds_call (R := fun t => t = e'.session)
    (Q := fun _ t => t.Accounts 2 { g' with bridge := some c })
    (enrolCons_accepted hc hproblem') rfl rfl rfl (h.addBridge hnone hadds rfl hproblem) rfl).mono
    (fun _ e'' _ he'' => ⟨c, he'', rfl⟩) fun e'' _ he'' => ?_)
  -- the bridge is there, but it is no member of the problem
  have hbare : e.session.Accounts 2 { g' with bridge := none } := by
    rw [← hnone]
    exact h
  rw [← he''] at hadds
  exact .loose hbare hadds rfl rfl

theorem Seeded.setUpBridge {s : Live} (h : Seeded s) (method : Method) :
    Live.Proceeds (bridgeCalls method) (Model.setUpBridge method) s
      (fun _ t => Furnished method t) Halfway := by
  cases hneeds : method.needsBridge with
  | false =>
      have hnone : Model.setUpBridge method = pure () := by rw [Model.setUpBridge, hneeds]; rfl
      rw [bridgeCalls, hneeds, hnone]
      exact proceeds_of_accepted rfl rfl ⟨h.toUnderway, h.constants, by rw [h.bridge, hneeds]; rfl⟩
  | true =>
      have hbridge : Model.setUpBridge method = Live.onFormulation Assembly.addBridge := by
        rw [Model.setUpBridge, hneeds]
        rfl
      rw [bridgeCalls, hneeds, hbridge]
      refine proceeds_onPart rfl (fun _ => rfl) (fun _ => rfl)
        ((addBridge_proceeds h.accounts h.bridge h.handlers).mono (fun _ a hwithin ha => ?_)
          fun _ _ ha => ha)
      obtain ⟨c, haccounts, hformulation⟩ := ha
      refine ⟨⟨?_, hwithin.spared h.spared⟩, ?_, ?_⟩
      · show a.engine.session.Accounts 2 a.formulation
        rw [hformulation]
        exact haccounts
      · show a.formulation.registry.IsConstants
        rw [hformulation]
        exact h.constants
      · show a.formulation.bridge.isSome = method.needsBridge
        rw [hformulation, hneeds]
        rfl

/-- The hooks come last. -/
theorem Furnished.installHooks {s : Live} {method : Method} (h : Furnished method s) :
    Live.Proceeds [.installHooks] (onEngine Engine.installHooks) s (fun _ t => Furnished method t)
      Halfway := by
  have hrun : Session.installHooks s.solvers.session =
      .ok () { s.solvers.session with hooked := true } := rfl
  have haccounts : Accounts 2 s.model.formulation { s.solvers.session with hooked := true } :=
    h.accounts.of_tables rfl rfl rfl rfl rfl fun _ => rfl
  refine proceeds_onEngine ((Engine.proceeds_call (R := fun t => t.Accounts 2 s.model.formulation)
    (Q := fun _ t => t.Accounts 2 s.model.formulation) hrun rfl rfl rfl haccounts
    h.accounts).mono (fun _ e hwithin ht => ?_) fun e _ ht => ?_)
  · exact ⟨⟨ht, hwithin.spared h.spared⟩, h.constants, h.bridge⟩
  · exact .accounted ht

/-! ## The whole sequence -/

/-- The calls that setting a session up makes, in their order. -/
def setUpCalls (config : Config) : List Operation :=
  [.changeSetting, .changeSetting, .changeSetting, .changeSetting, .newProblem, .setSense] ++
    (objectiveCalls config.integralObjective ++
      (constantCalls ++ (bridgeCalls config.method ++ [.installHooks])))

/-- Setting a session up proceeds through its calls, and if it is cut short, the model is
unfinished. -/
theorem setUp_proceeds {config : Config} {solvers : Solvers} (hcleared : solvers.session.Cleared)
    (hspared : solvers.engine.faults.Spared) :
    Live.Proceeds (setUpCalls config) (setUp config) ⟨{ config }, solvers⟩
      (fun _ s => Furnished config.method s) Halfway := by
  have hvacant : Vacant ⟨{ config }, solvers⟩ := ⟨rfl, hcleared, hspared⟩
  unfold setUp
  refine (proceeds_bind hvacant.settings fun _ s _ hs => ?_ :)
  refine (proceeds_bind (hs.newProblem config.problemName) fun _ s _ hs => ?_ :)
  have hsense : Live.Proceeds [.setSense] (onEngine (Engine.setSense .minimize)) s
      (fun _ t => Bare t) Halfway := hs.modifyProblem rfl (fun _ => rfl) fun _ => rfl
  refine (proceeds_bind hsense fun _ s _ hs => ?_ :)
  refine (proceeds_bind (hs.setUpObjective config.integralObjective) fun _ s _ hs => ?_ :)
  refine (proceeds_bind hs.addConstants fun _ s _ hs => ?_ :)
  refine (proceeds_bind (hs.setUpBridge config.method) fun _ s _ hs => ?_ :)
  exact hs.installHooks

end Model

end JointModel
