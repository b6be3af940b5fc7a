import JointModel.Proofs.Model.Accounts
import JointModel.Registry.Draft

/-!
# Adding slots keeps the accounts

`Draft.Balanced` says that the accounts of a draft are in order, and it pins down
what adding slots leaves alone: the ledger and the working copies among it.  As the
ledger counts every release, no call that adds slots ever releases anything.

All calls keep a draft balanced, whether the solvers reject them or not
(`keeps_balanced_perform`).  The two steps that make a variable a member of the
problem are taken together: what holds after the first alone is nobody's business
(`ends_newMember`).  The session rejects a new entry only if no block is left
(`OutOfBlocks`), so without a limit the constants can always be added
(`addConstants_ends`).
-/

namespace JointModel

open Effect Formulation

/-- A session without its entries, the number of allocations and the problem: what
adding slots leaves alone. -/
def Session.backdrop (s : Session) : Session :=
  { s with vars := {}, conss := {}, allocations := 0, problem := none }

namespace Draft

variable {α : Type} {f : Formulation} {backdrop : Session} {d : Draft} {v : VarId}

/-- The accounts of a draft are in order, if the formulation `f` gets its registry,
and no fault is armed. -/
structure Balanced (f : Formulation) (backdrop : Session) (d : Draft) : Prop where
  faults : d.solvers.engine.faults = []
  backdrop : d.solvers.session.backdrop = backdrop
  accounts : d.solvers.session.Accounts 2 { f with registry := d.registry }

/-- A new entry was rejected because no block was left. -/
def OutOfBlocks (limit : Option Nat) (cause : ModelError) : Prop :=
  limit ≠ none ∧ ∃ detail, cause = .engine (.allocation detail)

/-- The draft with another session. -/
def withSession (d : Draft) (s : Session) : Draft :=
  { d with solvers.engine := { session := s } }

/-- Without faults, a call ends as on the session. -/
theorem ends_onEngine (hfaults : d.solvers.engine.faults = []) {op : Operation}
    {act : Session.Run α} {Q : α → Draft → Prop} {E : ModelError → Draft → Prop} :
    Ends (onEngine (Engine.call op act)) d Q E ↔ Ends act d.solvers.session
      (fun a t => Q a (d.withSession t)) fun cause t => E (.engine cause) (d.withSession t) := by
  rw [onEngine, onSolvers, ends_onPart, Solvers.onEngine, ends_onPart, Engine.ends_call hfaults]
  rfl

/-- A call of the CP store changes nothing that counts. -/
theorem keeps_balanced_onDomains (act : Domains.Run α) :
    Keeps (Balanced f backdrop) (onDomains act) := by
  intro d hd
  rw [onDomains, onSolvers, ends_onPart, Solvers.onDomains, ends_onPart]
  exact ends_of_forall (fun _ _ => ⟨hd.faults, hd.backdrop, hd.accounts⟩)
    fun _ _ => ⟨hd.faults, hd.backdrop, hd.accounts⟩

theorem Balanced.of_registry (h : Balanced f backdrop d) {r : Registry}
    (hbools : r.bools = d.registry.bools) (hints : r.intVars = d.registry.intVars) :
    Balanced f backdrop { d with registry := r } :=
  ⟨h.faults, h.backdrop, h.accounts.of_registry rfl hbools hints⟩

/-- An allocation that is rejected leaves the session as it was. -/
theorem Balanced.exhausted (h : Balanced f backdrop d) {cause : EngineError} {t : Session}
    (hend : t = d.solvers.session ∧ d.solvers.session.Exhausted cause) :
    Balanced f backdrop (d.withSession t) ∧ OutOfBlocks backdrop.limit (.engine cause) := by
  obtain ⟨rfl, ⟨limit, hlimit, -⟩, detail, rfl⟩ := hend
  refine ⟨⟨rfl, h.backdrop, h.accounts⟩, ?_, detail, rfl⟩
  have hbackdrop : d.solvers.session.backdrop.limit = some limit := hlimit
  rw [h.backdrop] at hbackdrop
  simp [hbackdrop]

/-- The session `t` has the handle `v` as a new member of its problem: any registry
that owns it besides what the draft owns is balanced. -/
def Joins (f : Formulation) (backdrop : Session) (d : Draft) (v : VarId) (t : Session) : Prop :=
  ∀ {r : Registry}, r.Paired →
    (r.holdings 2).Perm ((v, ⟨2, .positive none⟩) :: d.registry.holdings 2) →
    Balanced f backdrop { d.withSession t with registry := r }

/-- A new variable is made a member of the problem, or nothing happens. -/
theorem ends_newMember (hd : Balanced f backdrop d) {name : String} {lb ub obj : Float}
    {kind : VarKind} {next : VarId → Run α} {Q : α → Draft → Prop} {E : ModelError → Draft → Prop}
    (hnext : ∀ v t, Joins f backdrop d v t → Ends (next v) (d.withSession t) Q E)
    (hreject : ∀ cause d', Balanced f backdrop d' ∧ OutOfBlocks backdrop.limit cause → E cause d') :
    Ends (onEngine (Engine.newVar name lb ub obj kind) >>= fun v =>
      onEngine (Engine.enrolOrRelease v) >>= fun _ => next v) d Q E := by
  have haccounts := hd.accounts
  obtain ⟨problem, hproblem, -⟩ := haccounts.members
  rw [ends_bind, Engine.newVar, ends_onEngine hd.faults]
  refine (Session.newVar_ends haccounts.sound.vars haccounts.problem name lb ub obj kind).mono
    (fun v t ht => ?_) fun cause t ht => hreject _ _ (hd.exhausted ht)
  obtain ⟨-, hadds⟩ := ht
  have hv : t.var? v = some ⟨name, lb, ub, obj, kind, .primary, 1, .positive none⟩ := by
    rw [hadds.var?, if_pos rfl]
  have hproblem' : t.problem = some problem :=
    (Session.problem_eq_of_frame hadds.frame_eq).trans hproblem
  -- the entry is positive and the problem is there, so nothing has to be taken back
  have henrol := Session.enrolVar_accepted hv rfl hproblem'
  have hrun : onEngine (Engine.enrolOrRelease v) (d.withSession t) = .ok () (d.withSession
      { t.useVar v with problem := some { problem with vars := problem.vars.push v } }) := by
    simp only [onEngine, onSolvers, Solvers.onEngine, onPart, Engine.enrolOrRelease,
      tryCatch_apply, Engine.enrolVar, withSession, Engine.call_of_unarmed, henrol]
  rw [ends_bind]
  refine ends_of_accepted hrun (hnext v _ fun {r} hpaired hholdings => ⟨rfl, ?_, ?_⟩)
  · refine Eq.trans ?_ hd.backdrop
    rw [hadds.rest]
    rfl
  · exact haccounts.enrol (hadds.enrols hproblem) rfl hpaired rfl hholdings

/-! ## Single calls -/

theorem addLiteral_ends (hd : Balanced f backdrop d) (name : String) (ub : Float)
    (literal : Literal) :
    Ends (addLiteral name ub literal) d
      (fun v d' => Balanced f backdrop d' ∧ ∃ slot, d'.registry.bool? v = some slot ∧
        slot.polarity = .positive none)
      fun cause d' => Balanced f backdrop d' ∧ OutOfBlocks backdrop.limit cause := by
  refine ends_newMember hd (fun v t hjoins => ?_) fun _ _ hd' => hd'
  have hpaired : d.registry.Paired := hd.accounts.paired _ List.mem_cons_self
  let slot : BoolSlot := { handle := v, literal, polarity := .positive none, name }
  have hnew : (d.registry.withBool slot).Paired := hpaired.withBool rfl
  exact ⟨hjoins hnew (Registry.holdings_withBool_positive hnew.aligned rfl 2), slot,
    d.registry.bool?_withBool_size slot, rfl⟩

/-- A slot without a negation gets one. -/
theorem negate_ends (hd : Balanced f backdrop d) {v : BoolId} {slot : BoolSlot}
    (hslot : d.registry.bool? v = some slot) (hpolarity : slot.polarity = .positive none) :
    Ends (negate v) d (fun _ d' => Balanced f backdrop d')
      fun cause d' => Balanced f backdrop d' ∧ OutOfBlocks backdrop.limit cause := by
  have haccounts := hd.accounts
  have hpaired : d.registry.Paired := haccounts.paired _ List.mem_cons_self
  have hdistinct : d.registry.vars.Nodup := haccounts.resident_primary.distinct
  have hnew : ∀ n : VarId, ∃ rest,
      (d.registry.holdings 2).Perm ((slot.handle, ⟨2, .positive none⟩) :: rest) ∧
      ((d.registry.withNegation v
        ⟨n, slot.literal.negate, .negated v, "~" ++ slot.name⟩).holdings 2).Perm
        ((n, ⟨0, .negation slot.handle⟩) :: (slot.handle, ⟨2, .positive (some n)⟩) :: rest) :=
    fun n => Registry.holdings_withNegation hpaired hslot hpolarity rfl hdistinct 2
  -- any handle will do to find the stake of the slot before it is negated
  obtain ⟨rest, hholding, -⟩ := hnew slot.handle
  obtain ⟨entry, hentry, hstake⟩ := haccounts.resident_primary.graded
    (hholding.mem_iff.mpr List.mem_cons_self)
  unfold negate
  rw [ends_bind]
  refine ends_of_accepted (a := slot) (t := d) (by simp only [getBool, hslot]) ?_
  simp only [hpolarity]
  rw [ends_bind, Engine.negateVar, ends_onEngine hd.faults]
  refine (Session.negateVar_ends haccounts.sound.vars hentry (congrArg Stake.link hstake)).mono
    (fun n t ht => ?_) fun _ _ ht => hd.exhausted ht
  obtain ⟨-, hnegates⟩ := ht
  obtain ⟨rest, hbefore, hafter⟩ := hnew n
  refine ⟨rfl, ?_, ?_⟩
  · refine Eq.trans ?_ hd.backdrop
    show t.backdrop = d.solvers.session.backdrop
    rw [hnegates.rest]
    rfl
  · exact haccounts.negate hnegates (hpaired.withNegation hslot hpolarity rfl) rfl hbefore hafter

theorem addInt_ends (hd : Balanced f backdrop d) {lb ub : Int} (hbounds : lb ≤ ub)
    (name : String) :
    Ends (addInt lb ub name) d (fun _ d' => Balanced f backdrop d')
      fun cause d' => Balanced f backdrop d' ∧ OutOfBlocks backdrop.limit cause := by
  have hnot : ¬ lb > ub := Int.not_lt.mpr hbounds
  unfold addInt
  rw [ends_bind]
  refine ends_of_accepted (a := ()) (t := d) (by simp only [requireBounds, if_neg hnot]) ?_
  rw [ends_bind, onDomains, onSolvers, ends_onPart, Solvers.onDomains, ends_onPart]
  let domains : Domains :=
    { d.solvers.domains with bounds := d.solvers.domains.bounds.push (lb, ub) }
  have hdomain : Domains.newInt lb ub d.solvers.domains =
      .ok ⟨d.solvers.domains.bounds.size⟩ domains := by
    simp only [Domains.newInt, if_neg hnot, domains]
  refine ends_of_accepted hdomain ?_
  have hd' : Balanced f backdrop { d with solvers.domains := domains } :=
    ⟨hd.faults, hd.backdrop, hd.accounts⟩
  refine ends_newMember hd' (fun v t hjoins => ?_) fun _ _ hd' => hd'
  have hpaired : d.registry.Paired := hd.accounts.paired _ List.mem_cons_self
  let slot : IntSlot :=
    { handle := some v, domain := ⟨d.solvers.domains.bounds.size⟩, lb, ub, name, table := none }
  have hnew : (d.registry.withInt slot).Paired := hpaired.of_bools rfl
  exact hjoins hnew (d.registry.holdings_withInt slot 2)

/-- The constants can be added as long as there are blocks. -/
theorem addConstants_ends (hd : Balanced f backdrop d) :
    Ends addConstants d (fun _ d' => Balanced f backdrop d')
      fun cause d' => Balanced f backdrop d' ∧ OutOfBlocks backdrop.limit cause := by
  unfold addConstants
  rw [ends_bind]
  refine (addLiteral_ends hd _ _ _).mono (fun v d' hd' => ?_) fun _ _ hd' => hd'
  obtain ⟨hd', slot, hslot, hpolarity⟩ := hd'
  rw [ends_bind]
  refine (negate_ends hd' hslot hpolarity).mono (fun _ d'' hd'' => ?_) fun _ _ hd'' => hd''
  rw [ends_bind]
  exact (addInt_ends hd'' (Int.le_refl 0) "zero").mono (fun _ _ h => h) fun _ _ h => h

/-! ## All calls keep the accounts -/

theorem keeps_balanced_addLiteral (name : String) (ub : Float) (literal : Literal) :
    Keeps (Balanced f backdrop) (addLiteral name ub literal) := fun _ hd =>
  (addLiteral_ends hd name ub literal).mono (fun _ _ h => h.1) fun _ _ h => h.1

theorem keeps_balanced_addBool (name : String) : Keeps (Balanced f backdrop) (addBool name) :=
  Keeps.bind (keeps_balanced_onDomains _) fun literal => keeps_balanced_addLiteral name 1.0 literal

theorem keeps_balanced_negate (v : BoolId) : Keeps (Balanced f backdrop) (negate v) := by
  intro d hd
  cases hslot : d.registry.bool? v with
  | none =>
      refine ends_of_rejected (e := .unknownBool v) (t := d) ?_ hd
      simp only [negate, bind_apply, getBool, hslot]
  | some slot =>
      have hknown : ∀ {n}, slot.polarity = .negated n ∨ slot.polarity = .positive (some n) →
          negate v d = .ok n d := by
        rintro n (hpolarity | hpolarity) <;>
          simp only [negate, bind_apply, getBool, hslot, hpolarity, pure_apply]
      cases hpolarity : slot.polarity with
      | negated p => exact ends_of_accepted (hknown (.inl hpolarity)) hd
      | positive m =>
          cases m with
          | some n => exact ends_of_accepted (hknown (.inr hpolarity)) hd
          | none => exact (negate_ends hd hslot hpolarity).mono (fun _ _ h => h) fun _ _ h => h.1

theorem keeps_balanced_addInt (lb ub : Int) (name : String) :
    Keeps (Balanced f backdrop) (addInt lb ub name) := by
  intro d hd
  by_cases hbounds : lb ≤ ub
  · exact (addInt_ends hd hbounds name).mono (fun _ _ h => h) fun _ _ h => h.1
  · refine ends_of_rejected (e := .invalidDomain lb ub) (t := d) ?_ hd
    simp only [addInt, bind_apply, requireBounds, if_pos (Int.not_le.mp hbounds)]

theorem keeps_balanced_addVirtualInt (lb ub : Int) (name : String) :
    Keeps (Balanced f backdrop) (addVirtualInt lb ub name) := by
  refine Keeps.bind (keeps_requireBounds lb ub) fun _ =>
    Keeps.bind (keeps_balanced_onDomains _) fun domain d hd => ?_
  let slot : IntSlot := { handle := none, domain, lb, ub, name, table := none }
  have hints : (d.registry.withInt slot).intVars = d.registry.intVars := by
    rw [Registry.intVars_withInt, Option.toList_none, List.append_nil]
  exact hd.of_registry rfl hints

theorem keeps_balanced_indicatorTable (v : IntId) (slot : IntSlot) :
    Keeps (Balanced f backdrop) (indicatorTable v slot) := by
  unfold indicatorTable
  cases slot.table with
  | some table => exact keeps_pure table
  | none => exact fun d hd => hd.of_registry rfl (d.registry.intVars_withTable v)

theorem keeps_balanced_addIndicator (v : IntId) (slot : IntSlot) (value : Int) :
    Keeps (Balanced f backdrop) (addIndicator v slot value) :=
  Keeps.bind (keeps_balanced_onDomains _) fun _ =>
    Keeps.bind (keeps_balanced_addLiteral _ _ _) fun _ =>
      Keeps.bind (keeps_balanced_indicatorTable v slot) fun _ _ hd => hd.of_registry rfl rfl

theorem keeps_balanced_indicator (v : IntId) (value : Int) :
    Keeps (Balanced f backdrop) (indicator v value) := by
  refine Keeps.bind (keeps_getInt v) fun slot => ?_
  split
  · exact keeps_pure _
  · split
    · exact keeps_pure _
    · refine Keeps.bind keeps_get fun d => ?_
      cases d.registry.indicator? v value with
      | some known => exact keeps_pure known
      | none => exact keeps_balanced_addIndicator v slot value

/-- Whatever slots a call adds, the accounts stay in order. -/
theorem keeps_balanced_perform (c : Call) : Keeps (Balanced f backdrop) (perform c) := by
  cases c with
  | bool name => exact (keeps_balanced_addBool name).map
  | negate v => exact (keeps_balanced_negate v).map
  | int lb ub name => exact (keeps_balanced_addInt lb ub name).map
  | virtualInt lb ub name => exact (keeps_balanced_addVirtualInt lb ub name).map
  | indicator v value => exact (keeps_balanced_indicator v value).map

end Draft

end JointModel
