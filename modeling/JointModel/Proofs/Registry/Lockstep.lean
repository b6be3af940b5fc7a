import JointModel.Proofs.Registry.Growth
import JointModel.Proofs.Registry.Renaming

/-!
# Drafts that differ in their handles

Two drafts may have the same slots and the same store, and differ only in the handles that
their sessions gave out and in what else these store (`Draft.Alike`).  Then every call goes
the same way in both, and they are alike afterwards (`Twins.perform`): no call can tell one
handle from another.

Nothing may stand in the way of new entries (`Draft.Unhindered`), as the sessions need not
have as many blocks left.

## Strategy

* A call reads slots, tables and the store.  These agree but for handles, so both runs take
  the same branch.
* In a branch that asks the session for a handle, both sessions have one to give
  (`Unhindered.accepted`), and the renaming is extended by the two new handles
  (`Session.Renames.enrol`, `Session.Renames.negate`).
-/

namespace JointModel

open Effect Session

/-- Without faults, none is left over. -/
theorem Faults.passing_nil (ops : List Operation) : passing [] ops = some [] := by
  induction ops with
  | nil => rfl
  | cons op ops ih =>
      rw [passing, count_of_spared rfl]
      exact ih

namespace Draft

variable {α : Type} {base : Session} {copies copies' : List Formulation} {d d' : Draft}
  {ops : List Operation} {ρ : VarId → VarId} {v w : VarId} {entry : VarInfo} {e e' : Engine}

/-- The session keeps the entries of the registry beside those of the working copies, the
detached ones being `copies`, and nothing stands in the way of new ones. -/
structure Unhindered (base : Session) (copies : List Formulation) (d : Draft) : Prop where
  hosts : base.Hosts (d.registry.holdings 2) (copies ++ d.solvers.session.copies) d.solvers.session
  paired : d.registry.Paired
  problem : d.solvers.session.problem.isSome
  unlimited : d.solvers.session.limit = none
  unarmed : d.solvers.engine.faults = []

theorem Unhindered.ready (h : d.Unhindered base copies) : d.Ready :=
  ⟨h.hosts.sound, h.problem, by rw [h.unarmed]; rfl⟩

/-- The entry behind a slot without a negation has no alias. -/
theorem Unhindered.unlinked (h : d.Unhindered base copies) {b : BoolId} {slot : BoolSlot}
    (hb : d.registry.bool? b = some slot) (hpolarity : slot.polarity = .positive none) :
    ∃ entry, d.solvers.session.var? slot.handle = some entry ∧ entry.link = .positive none := by
  obtain ⟨entry, hentry, hlink⟩ := h.hosts.slot_entry hb
  refine ⟨entry, hentry, hlink.trans ?_⟩
  rw [Registry.link, hpolarity]
  rfl

/-- A sequence of calls that is not hindered goes through. -/
theorem Unhindered.accepted (h : d.Unhindered base copies) {act : Run α} {Q : α → Draft → Prop}
    {R : Draft → Prop} (hproceeds : Proceeds ops act d Q R) :
    ∃ a d', act d = .ok a d' ∧ d'.solvers.session.limit = none ∧ d'.solvers.engine.faults = [] ∧
      Q a d' := by
  have hends : Ends act d
      (fun a d' => d'.solvers.session.limit = none ∧ d'.solvers.engine.faults = [] ∧ Q a d')
      fun _ _ => False := by
    refine Ends.mono hproceeds (fun a d' hd' => ?_) fun _ d' hd' => ?_
    · obtain ⟨hpasses, hQ⟩ := hd'
      have hfaults := hpasses.faults
      rw [h.unarmed, Faults.passing_nil] at hfaults
      exact ⟨hpasses.limit.trans h.unlimited, (Option.some.inj hfaults).symm, hQ⟩
    · obtain ⟨⟨cause, -, hhalts⟩, -⟩ := hd'
      rcases hhalts.reason with ⟨op, -, hlookup, -⟩ | ⟨-, limit, hlimit, -⟩
      · rw [h.unarmed] at hlookup
        exact hlookup rfl
      · have hnone := h.unlimited.symm.trans hlimit
        cases hnone
  exact hends.exists_accepted

/-! ## What is added is not in the way -/

/-- A new member of the problem gets a slot. -/
theorem Unhindered.enrol (h : d.Unhindered base copies) {r : Registry}
    (henrols : d.solvers.session.Enrols v entry e.session)
    (hentry : entry.stake = ⟨1, .positive none⟩) (hpaired : r.Paired)
    (hholdings : (r.holdings 2).Perm ((v, ⟨2, .positive none⟩) :: d.registry.holdings 2))
    (hlimit : e.session.limit = none) (hfaults : e.faults = []) (s : Domains) :
    Unhindered base copies ⟨r, e, s⟩ where
  hosts := h.hosts.withMember henrols hentry hholdings
  paired := hpaired
  problem := by
    obtain ⟨problem, -, hproblem⟩ := henrols.problem
    exact Option.isSome_of_eq_some hproblem
  unlimited := hlimit
  unarmed := hfaults

/-- An alias gets a slot. -/
theorem Unhindered.negate (h : d.Unhindered base copies) {b : BoolId} {slot new : BoolSlot}
    (hb : d.registry.bool? b = some slot) (hpolarity : slot.polarity = .positive none)
    (hnew : new.polarity = .negated b)
    (hnegates : d.solvers.session.Negates slot.handle entry new.handle e.session)
    (hlimit : e.session.limit = none) (hfaults : e.faults = []) :
    Unhindered base copies { d.withEngine e with registry := d.registry.withNegation b new } where
  hosts := h.hosts.withNegation h.paired hb hpolarity hnew hnegates
  paired := h.paired.withNegation hb hpolarity hnew
  problem := by
    show e.session.problem.isSome
    rw [problem_eq_of_frame hnegates.frame_eq]
    exact h.problem
  unlimited := hlimit
  unarmed := hfaults

/-- Only the entries of the registry and the session matter. -/
theorem Unhindered.of_registry (h : d.Unhindered base copies) {r : Registry}
    (hbools : r.bools = d.registry.bools) (hints : r.intVars = d.registry.intVars) (s : Domains) :
    Unhindered base copies ⟨r, d.solvers.engine, s⟩ where
  hosts := by
    have hholdings : r.holdings 2 = d.registry.holdings 2 :=
      Registry.holdings_congr hbools hints 2
    show base.Hosts (r.holdings 2) _ _
    rw [hholdings]
    exact h.hosts
  paired := h.paired.of_bools hbools
  problem := h.problem
  unlimited := h.unlimited
  unarmed := h.unarmed

/-! ## Alike drafts -/

/-- The draft `d'` is `d` with its handles renamed; what the sessions store besides does not
matter. -/
structure Alike (ρ : VarId → VarId) (d d' : Draft) : Prop where
  registry : d'.registry = d.registry.renamed ρ
  domains : d'.solvers.domains = d.solvers.domains
  session : Renames ρ d.registry.vars d.solvers.session d'.solvers.session

theorem Alike.bool? (h : d.Alike ρ d') (b : BoolId) :
    d'.registry.bool? b = (d.registry.bool? b).map (BoolSlot.renamed ρ) := by
  rw [h.registry, Registry.bool?_renamed]

theorem Alike.int? (h : d.Alike ρ d') (x : IntId) :
    d'.registry.int? x = (d.registry.int? x).map (IntSlot.renamed ρ) := by
  rw [h.registry, Registry.int?_renamed]

/-- The handles of older slots are renamed as before. -/
theorem Alike.renamed_update (h : d.Alike ρ d') (hv : d.solvers.session.var? v = none)
    (w : VarId) : d.registry.renamed (Function.update ρ v w) = d'.registry := by
  rw [h.registry]
  exact Registry.renamed_congr (h.session.update_eq hv)

/-- Both drafts get a slot for the new members. -/
theorem Alike.withBool (h : d.Alike ρ d') {slot : BoolSlot} (hlink : entry.link = .positive none)
    (hs : d.solvers.session.Enrols slot.handle entry e.session)
    (ht : d'.solvers.session.Enrols w entry e'.session) :
    Alike (Function.update ρ slot.handle w)
      { d.withEngine e with registry := d.registry.withBool slot }
      { d'.withEngine e' with registry := d'.registry.withBool { slot with handle := w } } where
  registry := by
    show d'.registry.withBool _ = (d.registry.withBool slot).renamed _
    rw [Registry.renamed_withBool, h.renamed_update hs.fresh, BoolSlot.renamed,
      Function.update_self]
  domains := h.domains
  session := (h.session.enrol hlink hs ht).perm (Registry.vars_withBool _ _)

theorem Alike.withInt (h : d.Alike ρ d') {slot : IntSlot} (hhandle : slot.handle = some v)
    (hlink : entry.link = .positive none) (hs : d.solvers.session.Enrols v entry e.session)
    (ht : d'.solvers.session.Enrols w entry e'.session) :
    Alike (Function.update ρ v w) { d.withEngine e with registry := d.registry.withInt slot }
      { d'.withEngine e' with registry := d'.registry.withInt { slot with handle := some w } } where
  registry := by
    show d'.registry.withInt _ = (d.registry.withInt slot).renamed _
    rw [Registry.renamed_withInt, h.renamed_update hs.fresh, IntSlot.renamed, hhandle,
      Option.map_some, Function.update_self]
  domains := h.domains
  session := by
    refine (h.session.enrol hlink hs ht).perm ?_
    show (d.registry.withInt slot).vars.Perm _
    rw [Registry.vars, Registry.intVars_withInt, hhandle, ← List.append_assoc]
    exact List.perm_append_singleton _ _

theorem Alike.withVirtualInt (h : d.Alike ρ d') {slot : IntSlot} (hhandle : slot.handle = none) :
    Alike ρ { d with registry := d.registry.withInt slot }
      { d' with registry := d'.registry.withInt slot } where
  registry := by
    have hsame : slot.renamed ρ = slot := by
      rw [IntSlot.renamed, hhandle, Option.map_none, ← hhandle]
    show d'.registry.withInt _ = (d.registry.withInt slot).renamed _
    rw [Registry.renamed_withInt, hsame, h.registry]
  domains := h.domains
  session := by
    have hvars : (d.registry.withInt slot).vars = d.registry.vars := by
      rw [Registry.vars, Registry.intVars_withInt, hhandle, Option.toList_none, List.append_nil]
      rfl
    show Renames ρ (d.registry.withInt slot).vars _ _
    rw [hvars]
    exact h.session

/-- Both drafts get a slot for the new alias. -/
theorem Alike.withNegation (h : d.Alike ρ d') {b : BoolId} {slot new : BoolSlot}
    (hb : d.registry.bool? b = some slot)
    (hs : d.solvers.session.Negates slot.handle entry new.handle e.session)
    (ht : d'.solvers.session.Negates (ρ slot.handle) (entry.renamed ρ) w e'.session) :
    Alike (Function.update ρ new.handle w)
      { d.withEngine e with registry := d.registry.withNegation b new }
      { d'.withEngine e' with registry := d'.registry.withNegation b { new with handle := w } } where
  registry := by
    show d'.registry.withNegation b _ = (d.registry.withNegation b new).renamed _
    rw [Registry.renamed_withNegation, h.renamed_update hs.fresh, BoolSlot.renamed,
      Function.update_self]
  domains := h.domains
  session := by
    have hmem : slot.handle ∈ d.registry.vars :=
      List.mem_append_left _ (List.mem_map_of_mem (Registry.mem_of_bool? hb))
    exact (h.session.negate hmem hs ht).perm (Registry.vars_withNegation hb)

theorem Alike.withIndicator (h : d.Alike ρ d') (x : IntId) (slot : IntSlot) (value : Int)
    (b : BoolId) :
    Alike ρ { d with registry := d.registry.withIndicator x slot value b }
      { d' with registry := d'.registry.withIndicator x slot value b } where
  registry := by
    show d'.registry.withIndicator x slot value b = _
    rw [h.registry, ← Registry.renamed_withIndicator]
  domains := h.domains
  session := by
    have hvars : (d.registry.withIndicator x slot value b).vars = d.registry.vars := by
      rw [Registry.vars, Registry.vars, Registry.bools_withIndicator,
        Registry.intVars_withIndicator]
    show Renames ρ (d.registry.withIndicator x slot value b).vars _ _
    rw [hvars]
    exact h.session

/-! ## Calls that are blind to handles -/

/-- Two drafts that nothing hinders and that are alike. -/
structure Twins (base : Session) (copies copies' : List Formulation) (d d' : Draft) : Prop where
  left : d.Unhindered base copies
  right : d'.Unhindered base copies'
  alike : ∃ ρ, d.Alike ρ d'

/-- The call goes the same way in twins, and it leaves twins. -/
def Blind (base : Session) (copies copies' : List Formulation) (act : Run α) : Prop :=
  ∀ d d', Twins base copies copies' d d' →
    Lockstep act d d' (fun _ => Twins base copies copies') (Twins base copies copies')

theorem blind_pure (a : α) : Blind base copies copies' (pure a) := fun d d' h =>
  lockstep_of_accepted (pure_apply a d) (pure_apply a d') h

theorem Blind.bind {β : Type} {x : Run β} {f : β → Run α} (hx : Blind base copies copies' x)
    (hf : ∀ b, Blind base copies copies' (f b)) : Blind base copies copies' (x >>= f) :=
  fun d d' h => lockstep_bind ((hx d d' h).mono (fun b e e' he => hf b e e' he) fun _ _ he => he)

theorem Blind.map {β : Type} {x : Run β} (hx : Blind base copies copies' x) (f : β → α) :
    Blind base copies copies' (f <$> x) := fun d d' h => lockstep_map (hx d d' h)

theorem blind_requireBounds (lb ub : Int) : Blind base copies copies' (requireBounds lb ub) := by
  intro d d' h
  by_cases hbounds : lb > ub
  · have hrun : ∀ x : Draft, requireBounds lb ub x = .error (.invalidDomain lb ub) x := fun x => by
      simp only [requireBounds, if_pos hbounds]
    exact lockstep_of_rejected (hrun d) (hrun d') h
  · have hrun : ∀ x : Draft, requireBounds lb ub x = .ok () x := fun x => by
      simp only [requireBounds, if_neg hbounds]
    exact lockstep_of_accepted (hrun d) (hrun d') h

/-- Both stores are the same, so they answer the same and stay the same. -/
theorem blind_onDomains (act : Domains.Run α) :
    Blind base copies copies' (onDomains act) := by
  intro d d' h
  obtain ⟨ρ, halike⟩ := h.alike
  have hgrown : ∀ s : Domains, Twins base copies copies'
      { d with solvers.domains := s } { d' with solvers.domains := s } := fun s =>
    ⟨h.left.of_registry rfl rfl s, h.right.of_registry rfl rfl s,
      ρ, halike.registry, rfl, halike.session⟩
  refine lockstep_onPart (lockstep_onPart ?_)
  rw [halike.domains]
  cases hact : act d.solvers.domains with
  | ok a s => exact lockstep_of_accepted hact hact (hgrown s)
  | error cause s => exact lockstep_of_rejected hact hact (hgrown s)

/-! ## Slots with a handle -/

theorem blind_addLiteral (name : String) (ub : Float) (literal : Literal) :
    Blind base copies copies' (addLiteral name ub literal) := by
  intro d d' h
  obtain ⟨ρ, halike⟩ := h.alike
  obtain ⟨i, d₁, hrun, hlimit, hfaults, rfl, v, e, hs, rfl⟩ :=
    h.left.accepted (proceeds_addLiteral h.left.ready name ub literal)
  obtain ⟨i', d₁', hrun', hlimit', hfaults', rfl, w, e', ht, rfl⟩ :=
    h.right.accepted (proceeds_addLiteral h.right.ready name ub literal)
  have hsize : d'.registry.bools.size = d.registry.bools.size := by
    rw [halike.registry, Registry.size_bools_renamed]
  rw [hsize] at hrun'
  have hpaired : (d.registry.withBool ⟨v, literal, .positive none, name⟩).Paired :=
    h.left.paired.withBool rfl
  have hpaired' : (d'.registry.withBool ⟨w, literal, .positive none, name⟩).Paired :=
    h.right.paired.withBool rfl
  refine lockstep_of_accepted hrun hrun' ⟨?_, ?_, _, halike.withBool rfl hs ht⟩
  · exact h.left.enrol hs rfl hpaired
      (Registry.holdings_withBool_positive hpaired.aligned rfl 2) hlimit hfaults _
  · exact h.right.enrol ht rfl hpaired'
      (Registry.holdings_withBool_positive hpaired'.aligned rfl 2) hlimit' hfaults' _

theorem blind_addBool (name : String) : Blind base copies copies' (addBool name) :=
  (blind_onDomains Domains.newBool).bind fun literal => blind_addLiteral name 1.0 literal

/-- A new member of the problem gets an integer slot. -/
theorem blind_addMember (domain : DomainId) (lb ub : Int) (name : String) :
    Blind base copies copies'
      (onEngine (Engine.newVar name (Float.ofInt lb) (Float.ofInt ub) 0.0 .integer) >>= fun v =>
        onEngine (Engine.enrolOrRelease v) >>= fun _ =>
          appendInt { handle := some v, domain, lb, ub, name, table := none }) := by
  intro d d' h
  obtain ⟨ρ, halike⟩ := h.alike
  let slot (v : VarId) : IntSlot := { handle := some v, domain, lb, ub, name, table := none }
  have hproceeds : ∀ x : Draft, x.Ready → Proceeds [.newVar, .enrolVar]
      (onEngine (Engine.newVar name (Float.ofInt lb) (Float.ofInt ub) 0.0 .integer) >>= fun v =>
        onEngine (Engine.enrolOrRelease v) >>= fun _ => appendInt (slot v)) x
      (fun i x' => i = ⟨x.registry.ints.size⟩ ∧ ∃ v e,
        x.solvers.session.Enrols v
          (.new name (Float.ofInt lb) (Float.ofInt ub) 0.0 .integer) e.session ∧
        x' = { x.withEngine e with registry := x.registry.withInt (slot v) }) x.Stays :=
    fun x hx => proceeds_newMember hx fun v e henrols => ⟨_, _, rfl, rfl, rfl, v, e, henrols, rfl⟩
  obtain ⟨i, d₁, hrun, hlimit, hfaults, rfl, v, e, hs, rfl⟩ :=
    h.left.accepted (hproceeds d h.left.ready)
  obtain ⟨i', d₁', hrun', hlimit', hfaults', rfl, w, e', ht, rfl⟩ :=
    h.right.accepted (hproceeds d' h.right.ready)
  have hsize : d'.registry.ints.size = d.registry.ints.size := by
    rw [halike.registry, Registry.size_ints_renamed]
  rw [hsize] at hrun'
  refine lockstep_of_accepted hrun hrun' ⟨?_, ?_, _, halike.withInt rfl rfl hs ht⟩
  · exact h.left.enrol (r := d.registry.withInt (slot v)) hs rfl (h.left.paired.of_bools rfl)
      (d.registry.holdings_withInt (slot v) 2) hlimit hfaults _
  · exact h.right.enrol (r := d'.registry.withInt (slot w)) ht rfl (h.right.paired.of_bools rfl)
      (d'.registry.holdings_withInt (slot w) 2) hlimit' hfaults' _

theorem blind_addInt (lb ub : Int) (name : String) :
    Blind base copies copies' (addInt lb ub name) :=
  (blind_requireBounds lb ub).bind fun _ =>
    (blind_onDomains _).bind fun domain => blind_addMember domain lb ub name

theorem blind_addVirtualInt (lb ub : Int) (name : String) :
    Blind base copies copies' (addVirtualInt lb ub name) := by
  refine (blind_requireBounds lb ub).bind fun _ => (blind_onDomains _).bind fun domain d d' h => ?_
  obtain ⟨ρ, halike⟩ := h.alike
  let slot : IntSlot := { handle := none, domain, lb, ub, name, table := none }
  have hsize : d'.registry.ints.size = d.registry.ints.size := by
    rw [halike.registry, Registry.size_ints_renamed]
  have hints : ∀ r : Registry, (r.withInt slot).intVars = r.intVars := by
    intro r
    rw [Registry.intVars_withInt, Option.toList_none, List.append_nil]
  have hrun : appendInt slot d' = .ok ⟨d.registry.ints.size⟩
      { d' with registry := d'.registry.withInt slot } := by
    rw [appendInt, hsize]
    rfl
  refine lockstep_of_accepted rfl hrun ⟨?_, ?_, ρ, halike.withVirtualInt rfl⟩
  · exact h.left.of_registry (r := d.registry.withInt slot) rfl (hints _) _
  · exact h.right.of_registry (r := d'.registry.withInt slot) rfl (hints _) _

/-- Both sessions make an alias. -/
theorem Twins.addNegation (h : Twins base copies copies' d d') (halike : d.Alike ρ d') {b : BoolId}
    {slot : BoolSlot} (hb : d.registry.bool? b = some slot)
    (hpolarity : slot.polarity = .positive none) :
    Lockstep (Draft.negate b) d d' (fun _ => Twins base copies copies')
      (Twins base copies copies') := by
  have hb' : d'.registry.bool? b = some (slot.renamed ρ) := by
    rw [halike.bool?, hb, Option.map_some]
  have hpolarity' : (slot.renamed ρ).polarity = .positive none := hpolarity
  -- the entries behind the slot correspond
  have hmem : slot.handle ∈ d.registry.vars :=
    List.mem_append_left _ (List.mem_map_of_mem (Registry.mem_of_bool? hb))
  obtain ⟨entry, hentry, hentry', -⟩ := halike.session.entries _ hmem
  obtain ⟨_, hsame, hlink⟩ := h.left.unlinked hb hpolarity
  rw [hentry] at hsame
  cases hsame
  have hlink' : (entry.renamed ρ).link = .positive none := by
    rw [VarInfo.renamed, hlink]
    rfl
  obtain ⟨i, d₁, hrun, hlimit, hfaults, rfl, n, e, hs, rfl⟩ :=
    h.left.accepted (proceeds_negate h.left.ready hb hpolarity hentry hlink)
  obtain ⟨i', d₁', hrun', hlimit', hfaults', rfl, m, e', ht, rfl⟩ :=
    h.right.accepted (proceeds_negate h.right.ready hb' hpolarity' hentry' hlink')
  have hsize : d'.registry.bools.size = d.registry.bools.size := by
    rw [halike.registry, Registry.size_bools_renamed]
  rw [hsize] at hrun'
  exact lockstep_of_accepted hrun hrun'
    ⟨h.left.negate hb hpolarity rfl hs hlimit hfaults,
      h.right.negate hb' hpolarity' rfl ht hlimit' hfaults', _, halike.withNegation hb hs ht⟩

/-- A slot that has a negation is looked up, and any other one gets it from its session. -/
theorem blind_negate (b : BoolId) : Blind base copies copies' (negate b) := by
  intro d d' h
  obtain ⟨ρ, halike⟩ := h.alike
  have hb' := halike.bool? b
  cases hb : d.registry.bool? b with
  | none =>
      rw [hb, Option.map_none] at hb'
      refine lockstep_of_rejected (e := .unknownBool b) ?_ ?_ h
      · simp only [negate, bind_apply, getBool, hb]
      · simp only [negate, bind_apply, getBool, hb']
  | some slot =>
      rw [hb, Option.map_some] at hb'
      have hpolarity' : (slot.renamed ρ).polarity = slot.polarity := rfl
      have hknown : ∀ {m}, slot.polarity = .negated m ∨ slot.polarity = .positive (some m) →
          negate b d = .ok m d ∧ negate b d' = .ok m d' := by
        rintro m (hpolarity | hpolarity) <;> constructor <;>
          simp only [negate, bind_apply, getBool, hb, hb', hpolarity', hpolarity, pure_apply]
      cases hpolarity : slot.polarity with
      | negated p =>
          obtain ⟨hrun, hrun'⟩ := hknown (.inl hpolarity)
          exact lockstep_of_accepted hrun hrun' h
      | positive m =>
          cases m with
          | some m =>
              obtain ⟨hrun, hrun'⟩ := hknown (.inr hpolarity)
              exact lockstep_of_accepted hrun hrun' h
          | none => exact h.addNegation halike hb hpolarity

/-! ## Indicators -/

theorem blind_addIndicator (x : IntId) (slot : IntSlot) (value : Int) :
    Blind base copies copies' (addIndicator x slot value) := by
  refine (blind_onDomains _).bind fun literal => (blind_addLiteral _ _ _).bind fun b d d' h => ?_
  obtain ⟨ρ, halike⟩ := h.alike
  refine lockstep_of_accepted (noteIndicator x slot value b d) (noteIndicator x slot value b d')
    ⟨?_, ?_, ρ, halike.withIndicator x slot value b⟩
  · exact h.left.of_registry (Registry.bools_withIndicator _ _ _ _ _)
      (Registry.intVars_withIndicator _ _ _ _ _) _
  · exact h.right.of_registry (Registry.bools_withIndicator _ _ _ _ _)
      (Registry.intVars_withIndicator _ _ _ _ _) _

/-- What is left to do for an indicator once its variable and the older indicators were
looked up. -/
def indicatorOf (x : IntId) (slot : IntSlot) (value : Int) (known : Option BoolId) : Run BoolId :=
  if value < slot.lb ∨ value > slot.ub then pure .falsity
  else if slot.isFixed then pure .truth
  else match known with
    | some b => pure b
    | none => addIndicator x slot value

theorem indicator_of_int? {x : IntId} {slot : IntSlot} (hx : d.registry.int? x = some slot)
    (value : Int) :
    indicator x value d = indicatorOf x slot value (d.registry.indicator? x value) d := by
  simp only [indicator, bind_apply, getInt, hx, indicatorOf]
  split
  · rfl
  · split
    · rfl
    · rfl

theorem blind_indicatorOf (x : IntId) (slot : IntSlot) (value : Int) (known : Option BoolId) :
    Blind base copies copies' (indicatorOf x slot value known) := by
  unfold indicatorOf
  split
  · exact blind_pure _
  · split
    · exact blind_pure _
    · cases known with
      | some b => exact blind_pure b
      | none => exact blind_addIndicator x slot value

/-- An integer slot is asked for its bounds, its domain, its name and its table, and for no
handle. -/
theorem blind_indicator (x : IntId) (value : Int) :
    Blind base copies copies' (indicator x value) := by
  intro d d' h
  obtain ⟨ρ, halike⟩ := h.alike
  have hx' := halike.int? x
  cases hx : d.registry.int? x with
  | none =>
      rw [hx, Option.map_none] at hx'
      refine lockstep_of_rejected (e := .unknownInt x) ?_ ?_ h
      · simp only [indicator, bind_apply, getInt, hx]
      · simp only [indicator, bind_apply, getInt, hx']
  | some slot =>
      rw [hx, Option.map_some] at hx'
      refine (blind_indicatorOf x slot value _ d d' h).congr (indicator_of_int? hx value) ?_
      rw [indicator_of_int? hx', halike.registry, Registry.indicator?_renamed]
      rfl

/-! ## Every call -/

/-- No call that adds slots can tell twins apart. -/
theorem blind_perform (c : Call) : Blind base copies copies' (perform c) := by
  cases c with
  | bool name => exact (blind_addBool name).map BoolId.index
  | negate b => exact (blind_negate b).map BoolId.index
  | int lb ub name => exact (blind_addInt lb ub name).map IntId.index
  | virtualInt lb ub name => exact (blind_addVirtualInt lb ub name).map IntId.index
  | indicator x value => exact (blind_indicator x value).map BoolId.index

end Draft

end JointModel
