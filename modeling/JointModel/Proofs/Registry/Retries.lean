import JointModel.Proofs.Registry.Agreement
import Mathlib.Data.List.Count

/-!
# Rejected calls and their retries

A call that adds a slot asks the CP store first, then the session, and appends the
slot last.  A call that is rejected on the way leaves the registry, the entries and
the problem as they were, and the store has one variable more at most
(`Draft.Intact`).

An indicator that the session refused leaves its literal in the store.  A later
attempt is answered that literal, so no second one is ever made for the equality
(`Draft.rejections_are_retried`).

## Strategy

* `Draft.Steady` is all that has to be known of the session: it is sound, and no
  fault is armed for releases, by which a variable that the problem refuses is
  taken back.  It is kept by whatever is called, so it holds in every state that
  `Turn`s lead to.
* Every turn is a `Step` too, so that the registry and the store agree there.
* The store never forgets an equality and never lists it twice
  (`Domains.Grows.distinct`).
-/

namespace JointModel

open Effect

namespace Domains

variable {s t : Domains}

/-- No equality is listed twice. -/
theorem Grows.distinct (h : s.Grows t) (hs : (s.equalities.map Prod.fst).Nodup) :
    (t.equalities.map Prod.fst).Nodup := by
  cases h with
  | refl | bool | int => exact hs
  | equality key hnone =>
      have hfresh : key ∉ s.equalities.map Prod.fst := by
        rintro hmem
        obtain ⟨entry, hentry, hkey⟩ := List.mem_map.mp hmem
        simpa [hkey] using List.lookup_eq_none_iff.mp hnone entry hentry
      rw [withEquality, List.map_append, List.map_singleton]
      exact List.nodup_append_comm.mp (List.nodup_cons.mpr ⟨hfresh, hs⟩)

theorem Reachable.distinct (h : s.Reachable) : (s.equalities.map Prod.fst).Nodup := by
  induction h with
  | fresh => exact List.nodup_nil
  | call c _ ih => exact (perform_ends c _).after.distinct ih

end Domains

/-! ## What every call keeps -/

namespace Engine

/-- The session is sound, and releases are out of reach of the faults. -/
structure Steady (e : Engine) : Prop where
  sound : e.session.Sound
  spared : e.faults.lookup .releaseVar = none

theorem keeps_steady_call {α : Type} {op : Operation} {act : Session.Run α}
    (h : Keeps Session.Sound act) : Keeps Steady (call op act) := by
  intro e he
  refine (call_ends (h e.session he.sound)).mono (fun _ e' he' => ?_) fun _ e' he' => ?_
  · exact ⟨he'.1, he'.2 _ he.spared⟩
  · obtain ⟨hsound | ⟨-, hsame, -⟩, hwithin⟩ := he'
    · exact ⟨hsound, hwithin _ he.spared⟩
    · exact ⟨hsame.symm ▸ he.sound, hwithin _ he.spared⟩

theorem keeps_steady_enrolOrRelease (v : VarId) : Keeps Steady (enrolOrRelease v) :=
  (keeps_steady_call (Session.keeps_enrolVar v)).tryCatch fun cause =>
    (keeps_steady_call (Session.keeps_releaseVar v)).bind fun _ => keeps_throw cause

end Engine

namespace Draft

variable {α : Type} {d d' d₀ d₁ d₂ : Draft} {x : IntId} {value : Int}
  {literal : Literal} {domain : DomainId}

/-- The engine of the draft is steady. -/
def Steady (d : Draft) : Prop := d.solvers.engine.Steady

theorem keeps_steady_onEngine {act : Engine.Run α} (h : Keeps Engine.Steady act) :
    Keeps Steady (onEngine act) :=
  Keeps.onPart (P := fun s : Solvers => s.engine.Steady) (Keeps.onPart h fun _ _ => rfl)
    fun _ _ => rfl

theorem keeps_steady_onDomains (act : Domains.Run α) : Keeps Steady (onDomains act) :=
  Keeps.onPart (P := fun s : Solvers => s.engine.Steady) (keeps_onPart act fun _ _ hs => hs)
    fun _ _ => rfl

theorem keeps_steady_appendBool (slot : BoolSlot) : Keeps Steady (appendBool slot) :=
  fun _ hd => hd

theorem keeps_steady_appendInt (slot : IntSlot) : Keeps Steady (appendInt slot) := fun _ hd => hd

theorem keeps_steady_linkNegation (v negation : BoolId) : Keeps Steady (linkNegation v negation) :=
  fun _ hd => hd

theorem keeps_steady_newMember {name : String} {lb ub obj : Float} {kind : VarKind}
    {next : VarId → Run α} (hnext : ∀ v, Keeps Steady (next v)) :
    Keeps Steady (onEngine (Engine.newVar name lb ub obj kind) >>= fun v =>
      onEngine (Engine.enrolOrRelease v) >>= fun _ => next v) :=
  (keeps_steady_onEngine (Engine.keeps_steady_call
    (Session.keeps_newVar name lb ub obj kind))).bind fun v =>
      (keeps_steady_onEngine (Engine.keeps_steady_enrolOrRelease v)).bind fun _ => hnext v

theorem keeps_steady_addLiteral (name : String) (ub : Float) (literal : Literal) :
    Keeps Steady (addLiteral name ub literal) :=
  keeps_steady_newMember fun _ => keeps_steady_appendBool _

theorem keeps_steady_negate (v : BoolId) : Keeps Steady (negate v) := fun d hd =>
  ends_negate hd (fun _ => hd) fun slot hslot hpolarity => by
    have hget : getBool v d = .ok slot d := by simp only [getBool, hslot]
    unfold negate
    rw [ends_bind]
    refine ends_of_accepted hget ?_
    simp only [hpolarity]
    have hcall : Keeps Engine.Steady (Engine.negateVar slot.handle) :=
      Engine.keeps_steady_call (Session.keeps_negateVar slot.handle)
    exact ((keeps_steady_onEngine hcall).bind fun _ => (keeps_steady_appendBool _).bind
      fun negation => Keeps.bind (keeps_steady_linkNegation v negation) fun _ => keeps_pure _) d hd

theorem keeps_steady_addInt (lb ub : Int) (name : String) : Keeps Steady (addInt lb ub name) :=
  (keeps_requireBounds lb ub).bind fun _ => (keeps_steady_onDomains _).bind fun _ =>
    keeps_steady_newMember fun _ => keeps_steady_appendInt _

theorem keeps_steady_addVirtualInt (lb ub : Int) (name : String) :
    Keeps Steady (addVirtualInt lb ub name) :=
  (keeps_requireBounds lb ub).bind fun _ => (keeps_steady_onDomains _).bind fun _ =>
    keeps_steady_appendInt _

theorem keeps_steady_addIndicator (x : IntId) (slot : IntSlot) (value : Int) :
    Keeps Steady (addIndicator x slot value) :=
  (keeps_steady_onDomains _).bind fun literal => (keeps_steady_addLiteral _ _ literal).bind
    fun b d hd => ends_of_accepted (noteIndicator x slot value b d) hd

theorem keeps_steady_perform (c : Call) : Keeps Steady (perform c) := by
  cases c with
  | bool name =>
      exact ((keeps_steady_onDomains _).bind fun literal => keeps_steady_addLiteral _ _ literal).map
  | negate v => exact (keeps_steady_negate v).map
  | int lb ub name => exact (keeps_steady_addInt lb ub name).map
  | virtualInt lb ub name => exact (keeps_steady_addVirtualInt lb ub name).map
  | indicator v value =>
      exact Keeps.map fun d hd => ends_indicator hd (fun _ _ _ => hd) (fun _ _ _ _ => hd)
        (fun _ _ _ _ _ _ _ => hd)
        fun slot _ _ _ _ _ => keeps_steady_addIndicator v slot value d hd

/-! ## What a rejected call leaves -/

/-- The registry is as it was, the session but for its counts of allocations and releases, and
the store has at most one variable more. -/
structure Intact (d d' : Draft) : Prop where
  registry : d'.registry = d.registry
  session : d.solvers.session.Unchanged d'.solvers.session
  store : d.solvers.domains.Grows d'.solvers.domains

theorem Steady.unchanged (hd : d.Steady) {e : Engine} (h : e.session = d.solvers.session) :
    d.solvers.session.Unchanged e.session := by
  rw [h]
  exact .refl hd.sound

theorem Steady.intact (hd : d.Steady) : d.Intact d := ⟨rfl, .refl hd.sound, .refl⟩

/-- What stays after the store has grown. -/
theorem Stays.intact_of_grows {s : Domains} (hgrows : d.solvers.domains.Grows s)
    (h : Stays { d with solvers.domains := s } d') : d.Intact d' := by
  obtain ⟨e, hunchanged, rfl⟩ := h
  exact ⟨rfl, hunchanged, hgrows⟩

/-- A variable that cannot be made or enrolled leaves nothing behind. -/
theorem newMember_rejected (hd : d.Steady) {name : String} {lb ub obj : Float} {kind : VarKind}
    {next : VarId → Run α}
    (hnext : ∀ v d, ∃ a d', next v d = .ok a d' ∧ d'.solvers.engine = d.solvers.engine) :
    Ends (onEngine (Engine.newVar name lb ub obj kind) >>= fun v =>
      onEngine (Engine.enrolOrRelease v) >>= fun _ => next v) d (fun _ _ => True)
      fun _ d' => d.Stays d' := by
  cases hproblem : d.solvers.session.problem with
  | none =>
      have hreject : Ends (Session.newVar name lb ub obj kind) d.solvers.engine.session
          (fun _ _ => False) fun _ t => t = d.solvers.session :=
        ends_of_rejected (Session.newVar_rejected name lb ub obj kind hproblem) rfl
      rw [ends_bind, onEngine, onSolvers, ends_onPart, Solvers.onEngine, ends_onPart]
      refine (Engine.call_ends hreject).mono (fun _ _ he => he.1.elim) fun cause e he => ?_
      exact ⟨e, hd.unchanged (he.1.elim id fun hstruck => hstruck.2.1), rfl⟩
  | some problem =>
      have hready : d.Ready := ⟨hd.sound, by rw [hproblem]; rfl, hd.spared⟩
      refine Ends.mono (proceeds_newMember (Q := fun _ _ => True) hready fun v e _ => ?_)
        (fun _ _ _ => trivial) fun _ _ hd' => hd'.2
      obtain ⟨a, d', hrun, hengine⟩ := hnext v (d.withEngine e)
      exact ⟨a, d', hrun, hengine, trivial⟩

theorem addLiteral_rejected (hd : d.Steady) (name : String) (ub : Float) (literal : Literal) :
    Ends (addLiteral name ub literal) d (fun _ _ => True) fun _ d' => d.Stays d' :=
  newMember_rejected hd fun _ _ => ⟨_, _, rfl, rfl⟩

theorem addBool_rejected (hd : d.Steady) (name : String) :
    Ends (addBool name) d (fun _ _ => True) fun _ d' => d.Intact d' := by
  have hnew : onDomains Domains.newBool d = .ok d.solvers.domains.freshLiteral
      { d with solvers.domains.bools := d.solvers.domains.bools + 1 } := rfl
  have hd' : Steady { d with solvers.domains.bools := d.solvers.domains.bools + 1 } := hd
  unfold addBool
  rw [ends_bind]
  refine ends_of_accepted hnew ((addLiteral_rejected hd' _ _ _).mono (fun _ _ h => h) ?_)
  exact fun _ _ hstays => hstays.intact_of_grows .bool

/-- A negation is rejected before anything changes. -/
theorem negateVar_rejected {s : Session} (hs : s.Sound) (v : VarId) :
    Ends (Session.negateVar v) s (fun _ _ => True) fun _ t => t = s := by
  cases hv : s.var? v with
  | none =>
      have hrun : Session.negateVar v s = .error (.invalidVar v) s := by
        simp only [Session.negateVar, bind_apply, Session.getVar, hv]
      exact ends_of_rejected hrun rfl
  | some entry =>
      cases hlink : entry.link with
      | negation p => exact ends_of_accepted (Session.negateVar_of_linked hv (.inr hlink)) trivial
      | positive n =>
          cases n with
          | some n =>
              exact ends_of_accepted (Session.negateVar_of_linked hv (.inl hlink)) trivial
          | none =>
              exact (Session.negateVar_ends hs.vars hv hlink).mono (fun _ _ _ => trivial)
                fun _ _ ht => ht.1

theorem negate_rejected (hd : d.Steady) (v : BoolId) :
    Ends (negate v) d (fun _ _ => True) fun _ d' => d.Intact d' := by
  refine ends_negate hd.intact (fun _ => trivial) fun slot hslot hpolarity => ?_
  have hget : getBool v d = .ok slot d := by simp only [getBool, hslot]
  unfold negate
  rw [ends_bind]
  refine ends_of_accepted hget ?_
  simp only [hpolarity]
  rw [ends_bind, onEngine, onSolvers, ends_onPart, Solvers.onEngine, ends_onPart]
  refine (Engine.call_ends (negateVar_rejected hd.sound slot.handle)).mono
    (fun _ _ _ => trivial) fun _ e he => ?_
  exact ⟨rfl, hd.unchanged (he.1.elim id fun hstruck => hstruck.2.1), .refl⟩

theorem addInt_rejected (hd : d.Steady) (lb ub : Int) (name : String) :
    Ends (addInt lb ub name) d (fun _ _ => True) fun _ d' => d.Intact d' := by
  unfold addInt
  rw [ends_bind]
  refine (requireBounds_ends d lb ub).mono (fun _ d' hd' => ?_) fun _ d' hd' => hd'.1 ▸ hd.intact
  obtain ⟨rfl, hle⟩ := hd'
  have hgrown : (d'.withDomain lb ub).Steady := hd
  rw [ends_bind]
  refine ends_of_accepted (onDomains_newInt hle d') ?_
  refine Ends.mono (newMember_rejected hgrown ?_) (fun _ _ h => h)
    fun _ _ hstays => hstays.intact_of_grows (.int lb ub)
  exact fun _ _ => ⟨_, _, rfl, rfl⟩

theorem addVirtualInt_rejected (hd : d.Steady) (lb ub : Int) (name : String) :
    Ends (addVirtualInt lb ub name) d (fun _ _ => True) fun _ d' => d.Intact d' := by
  unfold addVirtualInt
  rw [ends_bind]
  refine (requireBounds_ends d lb ub).mono (fun _ d' hd' => ?_) fun _ d' hd' => hd'.1 ▸ hd.intact
  obtain ⟨rfl, hle⟩ := hd'
  rw [ends_bind]
  exact ends_of_accepted (onDomains_newInt hle d') trivial

/-- The variable `x` of the domain may or may not have the value, and the store has a literal for
that. -/
def Prepared (d : Draft) (x : IntId) (domain : DomainId) (value : Int) (literal : Literal) : Prop :=
  ∃ slot, d.registry.int? x = some slot ∧ slot.domain = domain ∧
    slot.lb ≤ value ∧ value ≤ slot.ub ∧ slot.lb ≠ slot.ub ∧
    d.solvers.domains.equalities.lookup (domain, value) = some literal

/-- An indicator is refused by the session only, once the store has its literal. -/
theorem addIndicator_rejected (hd : d.Steady) (hagreeing : d.Agreeing) {slot : IntSlot}
    (hx : d.registry.int? x = some slot) (hlower : slot.lb ≤ value) (hupper : value ≤ slot.ub)
    (hfree : slot.lb ≠ slot.ub) :
    Ends (addIndicator x slot value) d (fun _ _ => True) fun _ d' => d.Intact d' ∧
      ∃ literal, Domains.equal slot.domain value d.solvers.domains =
        .ok literal d'.solvers.domains ∧ d'.Prepared x slot.domain value literal := by
  obtain ⟨literal, s, hequal, hlookup, -⟩ :=
    Domains.equal_of_bounds (hagreeing.bounded.bounds hx).1 hlower hupper hfree
  have hgrows : d.solvers.domains.Grows s :=
    (Domains.equal_ends d.solvers.domains slot.domain value).accepted hequal
  have hanswer : onDomains (Domains.equal slot.domain value) d =
      .ok literal { d with solvers.domains := s } := by
    simp only [onDomains, onSolvers, Solvers.onDomains, onPart, hequal]
  have hgrown : Steady { d with solvers.domains := s } := hd
  unfold addIndicator
  rw [ends_bind]
  refine ends_of_accepted hanswer ?_
  rw [ends_bind]
  refine (addLiteral_rejected hgrown _ _ _).mono (fun b d₁ _ => ?_) fun _ d₁ hstays => ?_
  · exact ends_of_accepted (noteIndicator x slot value b d₁) trivial
  · refine ⟨hstays.intact_of_grows hgrows, literal, ?_⟩
    obtain ⟨e, -, rfl⟩ := hstays
    exact ⟨hequal, slot, hx, rfl, hlower, hupper, hfree, hlookup⟩

theorem indicator_rejected (hd : d.Steady) (hagreeing : d.Agreeing) (x : IntId) (value : Int) :
    Ends (indicator x value) d (fun _ _ => True) fun _ d' => d.Intact d' ∧
      ∀ slot, d.registry.int? x = some slot → ∃ literal,
        Domains.equal slot.domain value d.solvers.domains = .ok literal d'.solvers.domains ∧
        d'.Prepared x slot.domain value literal := by
  refine ends_indicator_cases (fun hx => ⟨hd.intact, fun slot hslot => ?_⟩)
    (fun _ _ _ => trivial) (fun _ _ _ _ => trivial) (fun _ _ _ _ _ _ _ => trivial)
    fun slot hx hlower hupper hfree _ => ?_
  · rw [hx] at hslot
    cases hslot
  · refine (addIndicator_rejected hd hagreeing hx hlower hupper hfree).mono (fun _ _ h => h)
      fun _ d' hd' => ⟨hd'.1, fun slot' hslot' => ?_⟩
    rw [hx] at hslot'
    cases hslot'
    exact hd'.2

/-- Whatever call is rejected, nothing that matters changes. -/
theorem perform_rejected (hd : d.Steady) (hagreeing : d.Agreeing) (c : Call) :
    Ends (perform c) d (fun _ _ => True) fun _ d' => d.Intact d' := by
  cases c with
  | bool name => exact ends_map.mpr (addBool_rejected hd name)
  | negate v => exact ends_map.mpr (negate_rejected hd v)
  | int lb ub name => exact ends_map.mpr (addInt_rejected hd lb ub name)
  | virtualInt lb ub name => exact ends_map.mpr (addVirtualInt_rejected hd lb ub name)
  | indicator v value =>
      exact ends_map.mpr ((indicator_rejected hd hagreeing v value).mono (fun _ _ h => h)
        fun _ _ hd' => hd'.1)

/-! ## The next attempt -/

/-- The registry answers a slot with the literal that the store has already. -/
theorem Prepared.indicator (h : d.Prepared x domain value literal) (hagreeing : d.Agreeing)
    (hseeded : d.registry.Seeded) {b : BoolId} (hrun : indicator x value d = .ok b d') :
    (∃ bool, d'.registry.bool? b = some bool ∧ bool.literal = literal) ∧
      d'.solvers.domains = d.solvers.domains := by
  obtain ⟨slot, hx, rfl, hlower, hupper, hfree, hlookup⟩ := h
  obtain ⟨l, s, hequal, hlookup', hstore⟩ :=
    Domains.equal_of_bounds (hagreeing.bounded.bounds hx).1 hlower hupper hfree
  have hsame : s = d.solvers.domains := by
    refine hstore.resolve_right fun hnew => ?_
    rw [hlookup] at hnew
    cases hnew.1
  have hkept : d'.solvers.domains = d.solvers.domains := by
    refine (ends_indicator (Q := fun _ d' => d'.solvers.domains = d.solvers.domains)
      (E := fun _ _ => True) trivial (fun _ _ _ => rfl)
      (fun _ _ _ _ => rfl) (fun _ _ _ _ _ _ _ => rfl) fun slot' hx' _ _ _ _ => ?_).accepted hrun
    refine (addIndicator_leaves x slot' value d).mono (fun _ d' hd' => ?_) fun _ _ _ => trivial
    obtain ⟨-, literal', s', handle, e, hequal', rfl⟩ := hd'
    rw [hx] at hx'
    cases hx'
    rw [hequal] at hequal'
    cases hequal'
    exact hsame
  obtain ⟨honward, slot', bool, hx', hb, hequal'⟩ :=
    (hagreeing.indicator hseeded x value).accepted hrun
  refine ⟨⟨bool, hb, ?_⟩, hkept⟩
  obtain ⟨table, hx''⟩ := honward.ints hx
  rw [hx''] at hx'
  cases hx'
  rw [hkept, hequal] at hequal'
  cases hequal'
  rw [hsame, hlookup] at hlookup'
  exact (Option.some.inj hlookup').symm

/-! ## In every state -/

/-- What can happen to a registry and its solvers: a call that adds slots, whether it goes
through or not, calls on the store and on the session by somebody else, another limit on blocks,
and a fault that is armed for anything but releases. -/
inductive Turn : Draft → Draft → Prop
  | add (d : Draft) (c : Call) : Turn d (after (perform c) d)
  | store (d : Draft) (c : Domains.Call) :
      Turn d { d with solvers.domains := after (Domains.perform c) d.solvers.domains }
  | session (d : Draft) (c : Session.Call) :
      Turn d (d.withEngine (after (Engine.perform c) d.solvers.engine))
  | limit (d : Draft) (count : Option Nat) :
      Turn d (d.withEngine
        { d.solvers.engine with session := d.solvers.session.setLimit count })
  | arm (d : Draft) (op : Operation) (count : Nat) : op ≠ .releaseVar →
      Turn d (d.withEngine
        { d.solvers.engine with faults := d.solvers.engine.faults.arm op count })

/-- To the registry and the store, the engine does not matter. -/
theorem Turn.step (h : Turn d d') : Step d d' := by
  cases h with
  | add c => exact .add d c
  | store c => exact .store d c
  | session | limit | arm => exact .engine d _

theorem Turn.steady (h : Turn d d') (hd : d.Steady) : d'.Steady := by
  cases h with
  | add c => exact (keeps_steady_perform c).after hd
  | store => exact hd
  | session c => exact (Engine.keeps_steady_call (Session.keeps_perform c)).after hd
  | limit count => exact ⟨hd.sound.of_tables rfl rfl hd.sound.hooked, hd.spared⟩
  | arm op count hop =>
      refine ⟨hd.sound, ?_⟩
      have hne : Operation.releaseVar ≠ op := hop.symm
      simp only [withEngine, Faults.arm, List.lookup_cons, beq_false_of_ne hne]
      exact Faults.lookup_filter_ne _ _ _ hd.spared

end Draft

end JointModel
