import JointModel.Proofs.Formulation.Pool
import JointModel.Proofs.Registry.Additions
import JointModel.Proofs.Registry.Literals

/-!
# A registry that grows beside working copies

`Draft.Coherent` says that the slots of a draft agree with its two solvers, while working
copies of the registry live in the same session.  Every call that adds slots keeps it,
whether it goes through or not (`Coherent.perform`), and so does making the constants
(`Coherent.addConstants`).

## Strategy

A call first changes the store or the session and then appends a slot.

* What the session keeps for a slot is settled by the lemmas about `Settled`, which also
  say what each call makes of the registry.
* That the literals stay apart is settled afterwards from what the registry became, as
  only then it is known whether an indicator was noted in its table.
-/

namespace JointModel

open Effect Session

namespace Draft

variable {α : Type} {base : Session} {detached : List Formulation} {d d' : Draft}

/-- The session keeps exactly one entry, with two uses, for every handle of the registry,
and the slots say what the entries and the store say. -/
structure Settled (base : Session) (detached : List Formulation) (d : Draft) : Prop where
  hosts : base.Hosts (d.registry.holdings 2) (detached ++ d.solvers.session.copies)
    d.solvers.session
  problem : d.solvers.session.problem.isSome
  spared : d.solvers.engine.faults.lookup .releaseVar = none
  paired : d.registry.Paired
  opposed : d.registry.Opposed
  tabled : d.registry.Tabled
  bounded : d.registry.Bounded d.solvers.domains
  described : d.registry.Described d.solvers.session

theorem Settled.ready (h : d.Settled base detached) : d.Ready :=
  ⟨h.hosts.sound, h.problem, h.spared⟩

/-! ## Calls that add no slot -/

theorem Settled.stays (h : d.Settled base detached)
    (hwithin : d'.solvers.engine.faults.Within d.solvers.engine.faults) (hstays : d.Stays d') :
    d'.Settled base detached := by
  obtain ⟨e, hunchanged, rfl⟩ := hstays
  have hcopies : e.session.copies = d.solvers.session.copies :=
    copies_eq_of_frame hunchanged.frame
  refine ⟨?_, ?_, hwithin _ h.spared, h.paired, h.opposed, h.tabled, h.bounded, ?_⟩
  · show base.Hosts (d.registry.holdings 2) (detached ++ e.session.copies) e.session
    rw [hcopies]
    exact h.hosts.of_views hunchanged.sound hunchanged.var? hunchanged.cons?
  · show e.session.problem.isSome
    rw [problem_eq_of_frame hunchanged.frame]
    exact h.problem
  · refine h.described.of_carries fun {w entry} _ hw => ⟨entry.link, ?_⟩
    show e.session.var? w = some entry
    rw [hunchanged.var?, hw]

/-- The store may grow. -/
theorem Settled.grow (h : d.Settled base detached) {s : Domains}
    (hgrows : d.solvers.domains.Grows s) :
    { d with solvers.domains := s }.Settled base detached :=
  { h with bounded := h.bounded.mono hgrows (Registry.int?_of_ints rfl) }

/-! ## Calls that add a slot -/

/-- A new member of the problem gets a boolean slot. -/
theorem Settled.withBool (h : d.Settled base detached) {slot : BoolSlot} {ub : Float} {e : Engine}
    (hpolarity : slot.polarity = .positive none)
    (hub : ub = if (⟨d.registry.bools.size⟩ : BoolId) = .falsity then 0.0 else 1.0)
    (henrols : d.solvers.session.Enrols slot.handle (.new slot.name 0.0 ub 0.0 .binary) e.session)
    (hwithin : e.faults.Within d.solvers.engine.faults) :
    { d.withEngine e with registry := d.registry.withBool slot }.Settled base detached := by
  have hpaired : (d.registry.withBool slot).Paired := h.paired.withBool hpolarity
  have hholdings := Registry.holdings_withBool_positive hpaired.aligned hpolarity 2
  refine ⟨?_, ?_, hwithin _ h.spared, hpaired, h.opposed.withBool h.paired hpolarity,
    h.tabled.congr rfl rfl, h.bounded.mono .refl (Registry.int?_of_ints rfl), ?_⟩
  · exact h.hosts.withMember henrols rfl hholdings
  · obtain ⟨problem, -, hproblem⟩ := henrols.problem
    exact Option.isSome_of_eq_some hproblem
  · have hdescribed : d.registry.Described e.session :=
      h.described.of_carries fun {w entry} _ hw => ⟨entry.link, henrols.live_of_ne hw⟩
    exact hdescribed.withBool ((henrols.var? _).trans (if_pos rfl)) ⟨rfl, rfl, hub, rfl⟩

theorem Settled.addLiteral (h : d.Settled base detached) (name : String) {ub : Float}
    (literal : Literal)
    (hub : ub = if (⟨d.registry.bools.size⟩ : BoolId) = .falsity then 0.0 else 1.0) :
    Ends (Draft.addLiteral name ub literal) d
      (fun i d' => d'.Settled base detached ∧ d'.solvers.domains = d.solvers.domains ∧
        i = ⟨d.registry.bools.size⟩ ∧
        ∃ v, d'.registry = d.registry.withBool ⟨v, literal, .positive none, name⟩)
      fun _ d' => d'.Settled base detached ∧ d'.solvers.domains = d.solvers.domains ∧
        d'.registry = d.registry := by
  refine Ends.mono (proceeds_addLiteral h.ready name ub literal) (fun i d' hd' => ?_)
    fun _ d' hd' => ?_
  · obtain ⟨hpasses, hi, v, e, henrols, rfl⟩ := hd'
    exact ⟨h.withBool rfl hub henrols hpasses.within, rfl, hi, v, rfl⟩
  · obtain ⟨⟨_, _, hhalts⟩, hstays⟩ := hd'
    refine ⟨h.stays hhalts.faults hstays, ?_⟩
    obtain ⟨e, -, rfl⟩ := hstays
    exact ⟨rfl, rfl⟩

/-- An alias gets a slot, and its partner learns of it. -/
theorem Settled.withNegation (h : d.Settled base detached) {v : BoolId} {slot new : BoolSlot}
    {entry : VarInfo} {e : Engine} (hv : d.registry.bool? v = some slot)
    (hpolarity : slot.polarity = .positive none) (hnew : new.polarity = .negated v)
    (hliteral : new.literal = slot.literal.negate)
    (hnegates : d.solvers.session.Negates slot.handle entry new.handle e.session)
    (hwithin : e.faults.Within d.solvers.engine.faults) :
    { d.withEngine e with registry := d.registry.withNegation v new }.Settled base detached := by
  refine ⟨h.hosts.withNegation h.paired hv hpolarity hnew hnegates, ?_, hwithin _ h.spared,
    h.paired.withNegation hv hpolarity hnew,
    h.opposed.withNegation h.paired hv hpolarity hnew hliteral, h.tabled.congr rfl rfl,
    h.bounded.mono .refl (Registry.int?_of_ints rfl), ?_⟩
  · show e.session.problem.isSome
    rw [problem_eq_of_frame hnegates.frame_eq]
    exact h.problem
  · have hdescribed : d.registry.Described e.session :=
      h.described.of_carries fun {w entry} _ hw => hnegates.carries hw
    refine hdescribed.of_slots (fun {w other} hw hpositive => ?_) (Registry.int?_of_ints rfl)
    obtain ⟨old, hold, hpositive, hhandle, -, hname⟩ :=
      Registry.bool?_withNegation_positive hv hpolarity hnew hw hpositive
    exact ⟨old, hold, hpositive, hhandle, hname⟩

theorem Settled.addNegation (h : d.Settled base detached) {v : BoolId} {slot : BoolSlot}
    (hv : d.registry.bool? v = some slot) (hpolarity : slot.polarity = .positive none) :
    Ends (Draft.negate v) d
      (fun _ d' => d'.Settled base detached ∧ d'.solvers.domains = d.solvers.domains ∧
        ∃ n, d'.registry = d.registry.withNegation v
          ⟨n, slot.literal.negate, .negated v, "~" ++ slot.name⟩)
      fun _ d' => d'.Settled base detached ∧ d'.solvers.domains = d.solvers.domains ∧
        d'.registry = d.registry := by
  obtain ⟨entry, hentry, hlink⟩ := h.hosts.slot_entry hv
  have hnone : entry.link = .positive none := by
    rw [hlink, Registry.link, hpolarity]
    rfl
  refine Ends.mono (proceeds_negate h.ready hv hpolarity hentry hnone) (fun i d' hd' => ?_)
    fun _ d' hd' => ?_
  · obtain ⟨hpasses, -, n, e, hnegates, rfl⟩ := hd'
    exact ⟨h.withNegation hv hpolarity rfl rfl hnegates hpasses.within, rfl, n, rfl⟩
  · obtain ⟨⟨_, _, hhalts⟩, hstays⟩ := hd'
    refine ⟨h.stays hhalts.faults hstays, ?_⟩
    obtain ⟨e, -, rfl⟩ := hstays
    exact ⟨rfl, rfl⟩

/-- A member of the problem gets an integer slot with a new domain. -/
theorem Settled.withInt (h : d.Settled base detached) {slot : IntSlot} {v : VarId} {e : Engine}
    (hhandle : slot.handle = some v) (htable : slot.table = none) (hbounds : slot.lb ≤ slot.ub)
    (hdomain : slot.domain = ⟨d.solvers.domains.bounds.size⟩)
    (henrols : d.solvers.session.Enrols v
      (.new slot.name (Float.ofInt slot.lb) (Float.ofInt slot.ub) 0.0 .integer) e.session)
    (hwithin : e.faults.Within d.solvers.engine.faults) :
    { (d.withDomain slot.lb slot.ub).withEngine e with
      registry := d.registry.withInt slot }.Settled base detached := by
  have hholdings := d.registry.holdings_withInt slot 2
  rw [hhandle] at hholdings
  refine ⟨h.hosts.withMember henrols rfl hholdings, ?_, hwithin _ h.spared,
    h.paired.of_bools rfl, h.opposed.of_bools rfl, h.tabled.withInt htable,
    h.bounded.withInt hbounds hdomain, ?_⟩
  · obtain ⟨problem, -, hproblem⟩ := henrols.problem
    exact Option.isSome_of_eq_some hproblem
  · have hdescribed : d.registry.Described e.session :=
      h.described.of_carries fun {w entry} _ hw => ⟨entry.link, henrols.live_of_ne hw⟩
    let entry : VarInfo := .new slot.name (Float.ofInt slot.lb) (Float.ofInt slot.ub) 0.0 .integer
    have hentry : e.session.var? v = some { entry with uses := entry.uses + 1 } :=
      (henrols.var? v).trans (if_pos rfl)
    refine hdescribed.withInt fun w hw => ?_
    rw [hhandle] at hw
    cases hw
    exact ⟨_, hentry, rfl, rfl, rfl, rfl⟩

/-- A virtual slot needs no entry. -/
theorem Settled.withVirtualInt (h : d.Settled base detached) {slot : IntSlot}
    (hhandle : slot.handle = none) (htable : slot.table = none) (hbounds : slot.lb ≤ slot.ub)
    (hdomain : slot.domain = ⟨d.solvers.domains.bounds.size⟩) :
    { d.withDomain slot.lb slot.ub with
      registry := d.registry.withInt slot }.Settled base detached := by
  have hholdings := d.registry.holdings_withInt slot 2
  rw [hhandle] at hholdings
  refine ⟨h.hosts.perm_tenants hholdings, h.problem, h.spared, h.paired.of_bools rfl,
    h.opposed.of_bools rfl, h.tabled.withInt htable, h.bounded.withInt hbounds hdomain,
    h.described.withInt fun w hw => ?_⟩
  rw [hhandle] at hw
  cases hw

/-- A table needs no entry either. -/
theorem Settled.withIndicator (h : d.Settled base detached) (x : IntId) (slot : IntSlot)
    (value : Int) (v : BoolId) :
    { d with registry := d.registry.withIndicator x slot value v }.Settled base detached := by
  let r := d.registry.withIndicator x slot value v
  have hbools : r.bools = d.registry.bools := d.registry.bools_withIndicator x slot value v
  have hholdings : r.holdings 2 = d.registry.holdings 2 :=
    Registry.holdings_congr hbools (d.registry.intVars_withIndicator x slot value v) 2
  refine ⟨?_, h.problem, h.spared, h.paired.of_bools hbools, h.opposed.of_bools hbools,
    h.tabled.withIndicator x slot value v,
    h.bounded.mono .refl (d.registry.int?_withIndicator x slot value v), ?_⟩
  · show base.Hosts (r.holdings 2) _ _
    rw [hholdings]
    exact h.hosts
  · refine h.described.of_slots (fun {w other} hw hpositive => ?_)
      (d.registry.int?_withIndicator x slot value v)
    rw [Registry.bool?, hbools] at hw
    exact ⟨other, hw, hpositive, rfl, rfl⟩

/-! ## Whole calls -/

/-- The slots of a draft agree with its solvers, and their literals are apart. -/
structure Coherent (base : Session) (detached : List Formulation) (d : Draft) : Prop
    extends Settled base detached d where
  literals : ∃ n, d.registry.Literals n d.solvers.domains

/-- The draft `d'` is coherent, and the slots of `d` are still there. -/
def Leads (base : Session) (detached : List Formulation) (d d' : Draft) : Prop :=
  d'.Coherent base detached ∧ d.registry.Extends d'.registry

theorem Coherent.leads (h : d.Coherent base detached) : d.Leads base detached d :=
  ⟨h, .refl _⟩

/-- Nothing but the store and the counts of the engine changed. -/
theorem Coherent.leads_of_grows (h : d.Coherent base detached) {s : Domains}
    (hgrows : d.solvers.domains.Grows s) (hsettled : d'.Settled base detached)
    (hdomains : d'.solvers.domains = s) (hregistry : d'.registry = d.registry) :
    d.Leads base detached d' := by
  obtain ⟨n, hliterals⟩ := h.literals
  obtain ⟨n', hliterals'⟩ := hliterals.grow hgrows
  exact ⟨⟨hsettled, n', hregistry ▸ hdomains ▸ hliterals'⟩, .of_bools (by rw [hregistry])⟩

theorem Coherent.addBool (h : d.Coherent base detached) (hseeded : d.registry.Seeded)
    (name : String) : Ends (Draft.addBool name) d (fun _ d' => d.Leads base detached d')
      fun _ d' => d.Leads base detached d' := by
  let s : Domains := { d.solvers.domains with bools := d.solvers.domains.bools + 1 }
  let next : Draft := { d with solvers.domains := s }
  have hnext : next.Settled base detached := h.toSettled.grow .bool
  have hnew : onDomains Domains.newBool d = .ok d.solvers.domains.freshLiteral next := rfl
  obtain ⟨n, hliterals⟩ := h.literals
  obtain ⟨hliterals', hunused⟩ := hliterals.bool
  unfold Draft.addBool
  rw [ends_bind]
  refine ends_of_accepted hnew ((hnext.addLiteral name d.solvers.domains.freshLiteral
    (if_neg hseeded.size_ne).symm).mono (fun _ d' hd' => ?_) fun _ d' hd' => ?_)
  · obtain ⟨hsettled, hdomains, -, v, hregistry⟩ := hd'
    let slot : BoolSlot := ⟨v, d.solvers.domains.freshLiteral, .positive none, name⟩
    have hliteral : slot.literal = .ofVar (UInt32.ofNat d.solvers.domains.bools)
        ((⟨d.registry.bools.size⟩ : BoolId) ≠ .falsity) := by
      rw [decide_eq_true hseeded.size_ne]
      rfl
    have hpushed : ∃ n', (d.registry.withBool slot).Literals n' s :=
      hliterals'.withBool rfl hliteral hunused
        fun hzero => absurd hzero (Nat.ne_of_gt hliterals.store.constants)
    refine ⟨⟨hsettled, ?_⟩, ?_⟩
    · rw [hregistry, hdomains]
      exact hpushed
    · rw [hregistry]
      exact Registry.extends_withBool _ _
  · exact h.leads_of_grows .bool hd'.1 hd'.2.1 hd'.2.2

/-- The slot `v` gets a negation. -/
theorem Coherent.leads_withNegation (h : d.Coherent base detached) {v : BoolId}
    {slot new : BoolSlot} (hv : d.registry.bool? v = some slot)
    (hpolarity : slot.polarity = .positive none) (hnew : new.polarity = .negated v)
    (hsettled : d'.Settled base detached) (hdomains : d'.solvers.domains = d.solvers.domains)
    (hregistry : d'.registry = d.registry.withNegation v new) : d.Leads base detached d' := by
  obtain ⟨n, hliterals⟩ := h.literals
  have hliterals' := hliterals.withNegation hv hpolarity hnew
  refine ⟨⟨hsettled, n, ?_⟩, ?_⟩
  · rw [hregistry, hdomains]
    exact hliterals'
  · rw [hregistry]
    exact Registry.extends_withNegation hv hpolarity new

theorem Coherent.negate (h : d.Coherent base detached) (v : BoolId) :
    Ends (Draft.negate v) d (fun _ d' => d.Leads base detached d')
      fun _ d' => d.Leads base detached d' := by
  refine ends_negate h.leads (fun _ => h.leads) fun slot hv hpolarity => ?_
  refine (h.addNegation hv hpolarity).mono (fun _ d' hd' => ?_) fun _ d' hd' => ?_
  · obtain ⟨hsettled, hdomains, n, hregistry⟩ := hd'
    exact h.leads_withNegation hv hpolarity rfl hsettled hdomains hregistry
  · exact h.leads_of_grows .refl hd'.1 hd'.2.1 hd'.2.2

/-- A new integer slot has no literal. -/
theorem Coherent.leads_withInt (h : d.Coherent base detached) {slot : IntSlot}
    (htable : slot.table = none) (hsettled : d'.Settled base detached)
    (hdomains : d'.solvers.domains = (d.withDomain slot.lb slot.ub).solvers.domains)
    (hregistry : d'.registry = d.registry.withInt slot) : d.Leads base detached d' := by
  obtain ⟨n, hliterals⟩ := h.literals
  obtain ⟨n', hliterals'⟩ := hliterals.grow (.int slot.lb slot.ub)
  refine ⟨⟨hsettled, n', ?_⟩, .of_bools (by rw [hregistry]; rfl)⟩
  rw [hregistry, hdomains]
  exact hliterals'.withInt htable

theorem Coherent.addInt (h : d.Coherent base detached) (lb ub : Int) (name : String) :
    Ends (Draft.addInt lb ub name) d (fun _ d' => d.Leads base detached d')
      fun _ d' => d.Leads base detached d' := by
  by_cases hbounds : lb ≤ ub
  · refine Ends.mono (proceeds_addInt h.ready hbounds name) (fun _ d' hd' => ?_) fun _ d' hd' => ?_
    · obtain ⟨hpasses, -, v, e, henrols, rfl⟩ := hd'
      let slot : IntSlot :=
        { handle := some v, domain := ⟨d.solvers.domains.bounds.size⟩, lb, ub, name, table := none }
      have hsettled : Settled base detached { (d.withDomain lb ub).withEngine e with
          registry := d.registry.withInt slot } :=
        h.withInt rfl rfl hbounds rfl henrols hpasses.within
      have htable : slot.table = none := rfl
      exact h.leads_withInt htable hsettled rfl rfl
    · obtain ⟨⟨_, _, hhalts⟩, hstays⟩ := hd'
      have hgrown : (d.withDomain lb ub).Settled base detached := h.toSettled.grow (.int lb ub)
      have hsettled := hgrown.stays hhalts.faults hstays
      obtain ⟨e, -, rfl⟩ := hstays
      exact h.leads_of_grows (.int lb ub) hsettled rfl rfl
  · have hrun : Draft.addInt lb ub name d = .error (.invalidDomain lb ub) d := by
      simp only [Draft.addInt, bind_apply, requireBounds, if_pos (Int.not_le.mp hbounds)]
    exact ends_of_rejected hrun h.leads

theorem Coherent.addVirtualInt (h : d.Coherent base detached) (lb ub : Int) (name : String) :
    Ends (Draft.addVirtualInt lb ub name) d (fun _ d' => d.Leads base detached d')
      fun _ d' => d.Leads base detached d' := by
  by_cases hbounds : lb ≤ ub
  · let slot : IntSlot :=
      { handle := none, domain := ⟨d.solvers.domains.bounds.size⟩, lb, ub, name, table := none }
    have hrun : Draft.addVirtualInt lb ub name d = .ok ⟨d.registry.ints.size⟩
        { d.withDomain lb ub with registry := d.registry.withInt slot } := by
      simp only [Draft.addVirtualInt, bind_apply, requireBounds, if_neg (Int.not_lt.mpr hbounds),
        onDomains_newInt hbounds]
      rfl
    have hsettled : Settled base detached
        { d.withDomain lb ub with registry := d.registry.withInt slot } :=
      h.withVirtualInt rfl rfl hbounds rfl
    have htable : slot.table = none := rfl
    exact ends_of_accepted hrun (h.leads_withInt htable hsettled rfl rfl)
  · have hrun : Draft.addVirtualInt lb ub name d = .error (.invalidDomain lb ub) d := by
      simp only [Draft.addVirtualInt, bind_apply, requireBounds, if_pos (Int.not_le.mp hbounds)]
    exact ends_of_rejected hrun h.leads

/-- An indicator is noted in the table of its variable. -/
theorem noteIndicator (x : IntId) (slot : IntSlot) (value : Int) (v : BoolId) (d : Draft) :
    (indicatorTable x slot >>= fun table =>
      (modify fun d : Draft => { d with
        registry.tables := d.registry.tables.modify table (Indicators.insert value v) }) >>=
      fun _ => pure v : Run BoolId) d =
      .ok v { d with registry := d.registry.withIndicator x slot value v } := by
  simp only [bind_apply, indicatorTable, Registry.withIndicator]
  cases slot.table <;> rfl

theorem Coherent.addIndicator (h : d.Coherent base detached) (hseeded : d.registry.Seeded)
    {x : IntId} {slot : IntSlot} {value : Int} (hx : d.registry.int? x = some slot)
    (hlower : slot.lb ≤ value) (hupper : value ≤ slot.ub) (hfree : slot.lb ≠ slot.ub)
    (hnone : d.registry.indicator? x value = none) :
    Ends (Draft.addIndicator x slot value) d (fun _ d' => d.Leads base detached d')
      fun _ d' => d.Leads base detached d' := by
  obtain ⟨literal, s, hequal, hlookup, hstore⟩ :=
    Domains.equal_of_bounds (h.bounded.bounds hx).1 hlower hupper hfree
  have hgrows : d.solvers.domains.Grows s := by
    rcases hstore with rfl | ⟨hfresh, rfl⟩
    · exact .refl
    · exact .equality _ hfresh
  let next : Draft := { d with solvers.domains := s }
  have hnext : next.Settled base detached := h.toSettled.grow hgrows
  have hnew : onDomains (Domains.equal slot.domain value) d = .ok literal next := by
    simp only [onDomains, onSolvers, Solvers.onDomains, onPart, hequal, next]
  obtain ⟨n, hliterals⟩ := h.literals
  obtain ⟨n', hliterals'⟩ := hliterals.grow hgrows
  unfold Draft.addIndicator
  rw [ends_bind]
  refine ends_of_accepted hnew ?_
  rw [ends_bind]
  refine (hnext.addLiteral _ literal (if_neg hseeded.size_ne).symm).mono (fun v d' hd' => ?_)
    fun _ d' hd' => h.leads_of_grows hgrows hd'.1 hd'.2.1 hd'.2.2
  obtain ⟨hsettled, hdomains, rfl, w, hregistry⟩ := hd'
  refine ends_of_accepted (noteIndicator x slot value ⟨d.registry.bools.size⟩ d') ?_
  let new : BoolSlot :=
    ⟨w, literal, .positive none, "[" ++ slot.name ++ " == " ++ toString value ++ "]"⟩
  have hpushed : ∃ n'', ((d.registry.withBool new).withIndicator x slot value
      ⟨d.registry.bools.size⟩).Literals n'' s :=
    hliterals'.withIndicator h.tabled hnext.bounded hx hnone rfl hlookup hseeded.size_ne
  refine ⟨⟨hsettled.withIndicator x slot value ⟨d.registry.bools.size⟩, ?_⟩, ?_⟩
  · rw [hregistry, hdomains]
    exact hpushed
  · rw [hregistry]
    exact (Registry.extends_withBool _ _).trans (.of_bools (Registry.bools_withIndicator _ _ _ _ _))

theorem Coherent.indicator (h : d.Coherent base detached) (hseeded : d.registry.Seeded)
    (x : IntId) (value : Int) :
    Ends (Draft.indicator x value) d (fun _ d' => d.Leads base detached d')
      fun _ d' => d.Leads base detached d' := by
  exact ends_indicator h.leads (fun _ _ _ => h.leads) (fun _ _ _ _ => h.leads)
    (fun _ _ _ _ _ _ _ => h.leads) fun _ hx hlower hupper hfree hnone =>
      h.addIndicator hseeded hx hlower hupper hfree hnone

/-- Every call that adds slots keeps them coherent, whether it goes through or not. -/
theorem Coherent.perform (h : d.Coherent base detached) (hseeded : d.registry.Seeded) (c : Call) :
    Ends (Draft.perform c) d (fun _ d' => d.Leads base detached d')
      fun _ d' => d.Leads base detached d' := by
  cases c with
  | bool name => exact ends_map.mpr (h.addBool hseeded name)
  | negate v => exact ends_map.mpr (h.negate v)
  | int lb ub name => exact ends_map.mpr (h.addInt lb ub name)
  | virtualInt lb ub name => exact ends_map.mpr (h.addVirtualInt lb ub name)
  | indicator v value => exact ends_map.mpr (h.indicator hseeded v value)

/-! ## The constants -/

/-- An empty registry is coherent in any session without copies. -/
theorem coherent_empty {solvers : Solvers} (hsound : solvers.session.Sound)
    (hproblem : solvers.session.problem.isSome) (hcopies : solvers.session.copies = [])
    (hspared : solvers.engine.faults.lookup .releaseVar = none)
    (hdomains : solvers.domains.Reachable) :
    Coherent solvers.session [] ⟨{}, solvers⟩ := by
  obtain ⟨number, hnumber⟩ := hdomains.numbered
  refine ⟨⟨?_, hproblem, hspared, Registry.paired_empty, Registry.opposed_empty,
    ⟨fun hx => by simp [Registry.int?] at hx, fun hx => by simp [Registry.int?] at hx⟩,
    Registry.bounded_empty _, Registry.described_empty _⟩, _, Registry.literals_empty hnumber⟩
  show solvers.session.Hosts [] ([] ++ solvers.session.copies) solvers.session
  rw [hcopies]
  exact .refl hsound

/-- Once the constants are made, they have the first two slots. -/
theorem Coherent.addConstants (h : d.Coherent base detached) (hempty : d.registry = {}) :
    Ends Draft.addConstants d (fun _ d' => d'.Coherent base detached ∧ d'.registry.Seeded)
      fun _ _ => True := by
  obtain ⟨n, hliterals⟩ := h.literals
  have hsize : (⟨d.registry.bools.size⟩ : BoolId) = .falsity := by rw [hempty]; rfl
  unfold Draft.addConstants
  rw [ends_bind]
  refine (h.toSettled.addLiteral "false" Domains.falseLiteral (if_pos hsize).symm).mono
    (fun i d₁ hd₁ => ?_) fun _ _ _ => trivial
  obtain ⟨hsettled, hdomains, rfl, v, hregistry⟩ := hd₁
  let slot : BoolSlot := ⟨v, Domains.falseLiteral, .positive none, "false"⟩
  have hslot : d₁.registry.bool? .falsity = some slot := by
    rw [hregistry, ← hsize, Registry.bool?_withBool_size]
  -- the constants have the number 0, which nobody else gets
  have hliterals₁ : ∃ n', (d.registry.withBool slot).Literals n' d.solvers.domains := by
    refine hliterals.withBool (k := 0) rfl ?_ ⟨hliterals.store.constants, ?_, fun hlookup =>
      Nat.ne_of_gt (hliterals.store.made hlookup).2.1⟩ fun _ => hsize
    · rw [decide_eq_false (not_not_intro hsize)]
      rfl
    · intro w other hw
      rw [hempty] at hw
      simp [Registry.bool?] at hw
  have h₁ : d₁.Coherent base detached := ⟨hsettled, by rw [hregistry, hdomains]; exact hliterals₁⟩
  rw [hsize, ends_bind]
  refine (h₁.addNegation hslot rfl).mono (fun _ d₂ hd₂ => ?_) fun _ _ _ => trivial
  obtain ⟨hsettled₂, hdomains₂, n, hregistry₂⟩ := hd₂
  obtain ⟨h₂, -⟩ := h₁.leads_withNegation hslot rfl rfl hsettled₂ hdomains₂ hregistry₂
  have hseeded : d₂.registry.Seeded := by
    have hone : d₁.registry.bools.size = 1 := by
      rw [hregistry, hempty]
      rfl
    have hname : "~" ++ "false" = "~false" := by decide
    have hopposite : Domains.falseLiteral.negate = Domains.trueLiteral := by decide
    rw [hregistry₂]
    refine ⟨⟨v, ?_⟩, n, ?_⟩
    · rw [Registry.bool?_withNegation hslot, hone, if_neg (by decide), if_pos rfl]
      rfl
    · have hindex : BoolId.truth.index = 1 := rfl
      rw [Registry.bool?_withNegation hslot, hone, if_pos hindex]
      rw [show slot.literal.negate = _ from hopposite, show "~" ++ slot.name = _ from hname]
  rw [ends_bind]
  refine (h₂.addInt 0 0 "zero").mono (fun _ d₃ hd₃ => ?_) fun _ _ _ => trivial
  exact ⟨hd₃.1, hseeded.extends hd₃.2⟩

end Draft

end JointModel
