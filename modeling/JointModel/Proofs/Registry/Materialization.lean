import JointModel.Proofs.Registry.Calls

/-!
# Every slot lives in both solvers

A registry starts with its constants and grows by any calls, while working copies are
forked from it and discarded again, the store is used by others and faults are armed
(`Site.Step`).  Whatever happens, its slots are materialized in both solvers
(`Draft.Materialized`): they are paired, and for each of them both solvers have what the
slot says.

The one thing that can go wrong is that two slots have literals over the same variable.  A
literal has no room for the topmost bit of a variable, and refused calls use up numbers as
well: once the store has numbered `2 ^ 31` variables, the next literal is that of the constant
true (`literals_collide`).

## Strategy

* What happens to the working copies leaves the entries of the registry alone, as they
  belong to none of the copies (`Session.Hosts.foreign_of_tenant`).
* Everything else is a call on the draft, so `Site.Step.kept` puts the two together, and
  an induction over the steps gives `Site.Reaches.kept`.
* For the collision a limit refuses all calls but the last one.  Each refusal leaves one more
  number behind and nothing else (`after_addBool_of_exhausted`).
-/

namespace JointModel

open Effect Session Formulation

/-- A draft beside the detached working copies that were forked from its registry. -/
structure Site where
  draft : Draft
  detached : List Formulation := []

namespace Site

variable {base : Session} {bridge : Option ConsId} {s t : Site}

/-- The working copies as a pool. -/
def pool (s : Site) : Pool :=
  { session := s.draft.solvers.session
    detached := s.detached
    made := (s.detached ++ s.draft.solvers.session.copies).length }

/-- The site after something happened to its working copies. -/
def withPool (s : Site) (p : Pool) : Site :=
  { draft := { s.draft with solvers.engine.session := p.session }, detached := p.detached }

/-- The site with another limit on blocks. -/
def withLimit (s : Site) (count : Option Nat) : Site :=
  s.withPool { s.pool with session := s.pool.session.setLimit count }

/-- What can happen: a call that adds slots, a call on the store, a fault that is armed,
or anything that forks or discards working copies of the registry, with or without a
bridge. -/
inductive Step (bridge : Option ConsId) : Site → Site → Prop
  | add (s : Site) (c : Draft.Call) : Step bridge s { s with draft := after (Draft.perform c) s.draft }
  | store (s : Site) (c : Domains.Call) : Step bridge s
      { s with draft.solvers.domains := after (Domains.perform c) s.draft.solvers.domains }
  | arm (s : Site) {op : Operation} (count : Nat) : op ≠ .releaseVar → Step bridge s
      { s with draft.solvers.engine.faults := s.draft.solvers.engine.faults.arm op count }
  | copies {s : Site} {p : Pool} (objective : IntId) :
      Pool.Step ⟨s.draft.registry, bridge, objective⟩ s.pool p → Step bridge s (s.withPool p)

/-- The sites that steps lead to once the constants are made. -/
def Reaches (bridge : Option ConsId) (d : Draft) (s : Site) : Prop :=
  Relation.ReflTransGen (Step bridge) { draft := d } s

/-- The slots agree with the solvers, and the constants are there. -/
structure InOrder (base : Session) (s : Site) : Prop where
  coherent : s.draft.Coherent base s.detached
  seeded : s.draft.registry.Seeded

theorem InOrder.of_leads (h : s.InOrder base) {d : Draft}
    (hleads : s.draft.Leads base s.detached d) : { s with draft := d }.InOrder base :=
  ⟨hleads.1, h.seeded.extends hleads.2⟩

/-- The registry can be forked. -/
theorem InOrder.livesIn (h : s.InOrder base)
    (hbridge : ∀ {c}, bridge = some c → ∃ info, base.cons? c = some info) (objective : IntId) :
    Formulation.LivesIn ⟨s.draft.registry, bridge, objective⟩ s.draft.solvers.session :=
  h.coherent.hosts.livesIn rfl hbridge

/-- Whatever happens to the working copies, the registry keeps its entries. -/
theorem InOrder.withPool (h : s.InOrder base)
    (hbridge : ∀ {c}, bridge = some c → ∃ info, base.cons? c = some info) {objective : IntId}
    {p : Pool} (hstep : Pool.Step ⟨s.draft.registry, bridge, objective⟩ s.pool p) :
    (s.withPool p).InOrder base := by
  have hpool : s.pool.InOrder base (s.draft.registry.holdings 2) :=
    ⟨h.coherent.hosts, (Nat.zero_add _).symm⟩
  obtain ⟨horder, hspares⟩ := hstep.kept hpool h.coherent.paired (h.livesIn hbridge objective)
  have hproblem : p.session.problem.isSome := by
    rw [hspares.problem]
    exact h.coherent.problem
  have hdescribed : s.draft.registry.Described p.session := by
    refine h.coherent.described.of_carries fun {w entry} howned hw => ⟨entry.link, ?_⟩
    refine hspares.vars (h.coherent.hosts.foreign_of_tenant ?_) hw
    rw [Registry.map_fst_holdings]
    exact s.draft.registry.ownedVars_sublist.subset howned
  exact ⟨{ h.coherent with hosts := horder.entries, problem := hproblem, described := hdescribed },
    h.seeded⟩

/-- The step lemma: whatever happens, the slots agree with the solvers. -/
theorem Step.kept (hstep : Step bridge s t) (h : s.InOrder base)
    (hbridge : ∀ {c}, bridge = some c → ∃ info, base.cons? c = some info) : t.InOrder base := by
  cases hstep with
  | add c => exact h.of_leads (h.coherent.perform h.seeded c).after
  | store c =>
      have hgrows := (Domains.perform_ends c s.draft.solvers.domains).after
      exact h.of_leads (h.coherent.leads_of_grows hgrows (h.coherent.grow hgrows) rfl rfl)
  | @arm op count hop =>
      have hspared : (s.draft.solvers.engine.faults.arm op count).lookup .releaseVar = none := by
        rw [Faults.arm, List.lookup_cons, beq_false_of_ne fun hsame => hop hsame.symm]
        exact Faults.lookup_filter_ne _ op _ h.coherent.spared
      exact ⟨{ h.coherent with spared := hspared }, h.seeded⟩
  | copies objective hcopies => exact h.withPool hbridge hcopies

/-- The run lemma. -/
theorem Reaches.kept {d : Draft} (hreach : s.Reaches bridge d)
    (hd : d.Coherent base []) (hseeded : d.registry.Seeded)
    (hbridge : ∀ {c}, bridge = some c → ∃ info, base.cons? c = some info) : s.InOrder base := by
  induction hreach with
  | refl => exact ⟨hd, hseeded⟩
  | tail _ hstep ih => exact hstep.kept ih hbridge

end Site

/-! ## What it comes down to -/

namespace Draft

variable {d : Draft} {base : Session} {detached : List Formulation}

/-- The slots of a registry are materialized in both solvers. -/
structure Materialized (d : Draft) : Prop where
  falsity : ∃ slot, d.registry.bool? .falsity = some slot ∧
    slot.polarity = .positive (some .truth) ∧ slot.literal = Domains.falseLiteral
  truth : ∃ slot, d.registry.bool? .truth = some slot ∧
    slot.polarity = .negated .falsity ∧ slot.literal = Domains.trueLiteral
  /-- A negated slot has its positive partner before it, and they are opposite in both
  solvers. -/
  negated : ∀ {v slot p}, d.registry.bool? v = some slot → slot.polarity = .negated p →
    p.index < v.index ∧ ∃ partner, d.registry.bool? p = some partner ∧
      partner.polarity = .positive (some v) ∧
      slot.literal = partner.literal.negate ∧ partner.literal = slot.literal.negate ∧
      negateVar partner.handle d.solvers.session = .ok slot.handle d.solvers.session ∧
      negateVar slot.handle d.solvers.session = .ok partner.handle d.solvers.session
  positive : ∀ {v slot n}, d.registry.bool? v = some slot → slot.polarity = .positive (some n) →
    ∃ negated, d.registry.bool? n = some negated ∧ negated.polarity = .negated v
  /-- Behind every positive slot there is a live binary variable. -/
  entries : ∀ {v slot}, d.registry.bool? v = some slot → slot.isPositive →
    ∃ entry, d.solvers.session.var? slot.handle = some entry ∧
      entry.Describes slot.name 0.0 (if v = .falsity then 0.0 else 1.0) .binary
  handles : ∀ {v w slot other}, d.registry.bool? v = some slot →
    d.registry.bool? w = some other → slot.handle = other.handle → v = w
  /-- The store has a boolean variable with a number of its own for every positive slot, and
  the literal keeps thirty-one bits of the number.  The literals tell the slots apart exactly
  if these bits do. -/
  numbers : ∃ number : BoolId → Nat,
    (∀ {v slot}, d.registry.bool? v = some slot → slot.isPositive →
      slot.literal = .ofVar (UInt32.ofNat (number v)) (v ≠ .falsity) ∧
        slot.literal.var.toNat = number v % 2 ^ 31 ∧ number v < d.solvers.domains.bools) ∧
    (∀ {v w slot other}, d.registry.bool? v = some slot → slot.isPositive →
      d.registry.bool? w = some other → other.isPositive → number v = number w → v = w) ∧
    (d.registry.LiteralsApart ↔ ∀ ⦃v w slot other⦄, d.registry.bool? v = some slot →
      slot.isPositive → d.registry.bool? w = some other → other.isPositive →
      number v % 2 ^ 31 = number w % 2 ^ 31 → v = w)
  /-- As long as all numbers fit into a literal, the literals tell the slots apart. -/
  literals : d.solvers.domains.bools ≤ 2 ^ 31 → d.registry.LiteralsApart
  /-- The store has the bounds of every integer slot, and so has the session unless the
  slot is virtual. -/
  bounds : ∀ {x slot}, d.registry.int? x = some slot →
    d.solvers.domains.bounds? slot.domain = some (slot.lb, slot.ub) ∧ slot.lb ≤ slot.ub
  intEntries : ∀ {x slot w}, d.registry.int? x = some slot → slot.handle = some w →
    ∃ entry, d.solvers.session.var? w = some entry ∧
      entry.Describes slot.name (Float.ofInt slot.lb) (Float.ofInt slot.ub) .integer
  domains : ∀ {x y slot other}, d.registry.int? x = some slot → d.registry.int? y = some other →
    slot.domain = other.domain → x = y
  /-- An indicator has the literal that the store made for its equality. -/
  indicators : ∀ {x slot value v}, d.registry.int? x = some slot →
    d.registry.indicator? x value = some v → ∃ indicator, d.registry.bool? v = some indicator ∧
      indicator.isPositive ∧
      d.solvers.domains.equalities.lookup (slot.domain, value) = some indicator.literal

/-- No two boolean slots share a handle. -/
theorem Settled.handles (h : d.Settled base detached) {v w : BoolId} {slot other : BoolSlot}
    (hv : d.registry.bool? v = some slot) (hw : d.registry.bool? w = some other)
    (hsame : slot.handle = other.handle) : v = w := by
  have hdistinct : (d.registry.bools.toList.map BoolSlot.handle).Nodup :=
    (List.nodup_append.mp h.hosts.nodup_vars).1
  have hslots : slot = other :=
    List.inj_on_of_nodup_map hdistinct (Registry.mem_of_bool? hv) (Registry.mem_of_bool? hw) hsame
  have hlt : v.index < d.registry.bools.toList.length := Registry.lt_size_of_bool? hv
  have hindex : d.registry.bools.toList[v.index]? = d.registry.bools.toList[w.index]? := by
    rw [Array.getElem?_toList, Array.getElem?_toList]
    exact hv.trans (hslots ▸ hw.symm)
  exact BoolId.index_inj.mp ((List.getElem?_inj hlt (hdistinct.of_map _)).mp hindex)

/-- The session ties partners to each other. -/
theorem Settled.negateVar (h : d.Settled base detached) {v p : BoolId} {slot partner : BoolSlot}
    (hv : d.registry.bool? v = some slot) (hslot : slot.polarity = .negated p)
    (hp : d.registry.bool? p = some partner) (hpartner : partner.polarity = .positive (some v)) :
    Session.negateVar partner.handle d.solvers.session = .ok slot.handle d.solvers.session ∧
      Session.negateVar slot.handle d.solvers.session = .ok partner.handle d.solvers.session := by
  obtain ⟨entry, hentry, hlink⟩ := h.hosts.slot_entry hv
  obtain ⟨entry', hentry', hlink'⟩ := h.hosts.slot_entry hp
  constructor
  · refine negateVar_of_linked hentry' (.inl (hlink'.trans ?_))
    simp only [Registry.link, hpartner, Option.bind_some, Registry.handle?, hv, Option.map_some]
  · refine negateVar_of_linked hentry (.inr (hlink.trans ?_))
    simp only [Registry.link, hslot, Registry.handle?, hp, Option.map_some, Option.getD_some]

theorem Coherent.materialized (h : d.Coherent base detached) (hseeded : d.registry.Seeded) :
    d.Materialized where
  falsity := by
    obtain ⟨handle, hf⟩ := hseeded.falsity
    exact ⟨_, hf, rfl, rfl⟩
  truth := by
    obtain ⟨handle, ht⟩ := hseeded.truth
    exact ⟨_, ht, rfl, rfl⟩
  negated {v slot p} hv hp := by
    obtain ⟨hlower, partner, hpartner, hback⟩ := h.paired.negated hv hp
    have hliteral := h.opposed.literal hv hp hpartner
    exact ⟨hlower, partner, hpartner, hback, hliteral, by rw [hliteral, Literal.negate_negate],
      h.toSettled.negateVar hv hp hpartner hback⟩
  positive := h.paired.positive
  entries := h.described.bools
  handles := h.toSettled.handles
  numbers := by
    obtain ⟨n, hliterals⟩ := h.literals
    refine ⟨n.slot, fun hv hpositive => ?_, hliterals.distinct, hliterals.apart_iff⟩
    obtain ⟨hliteral, hlt, -⟩ := hliterals.numbered hv hpositive
    exact ⟨hliteral, hliterals.toNat_var hv hpositive, hlt⟩
  literals hfits := by
    obtain ⟨n, hliterals⟩ := h.literals
    exact hliterals.apart hfits
  bounds := h.bounded.bounds
  intEntries := h.described.ints
  domains := h.bounded.domains
  indicators {x slot value v} hx hindicator := by
    obtain ⟨n, hliterals⟩ := h.literals
    have hindicates : d.registry.Indicates v (slot.domain, value) :=
      ⟨x, slot, hx, rfl, hindicator⟩
    exact hliterals.indicators hindicates

/-- A new boolean variable keeps the literals apart exactly if no older slot has the bits that its
literal keeps of its number. -/
theorem addBool_apart_iff {name : String} {i : BoolId} {d' : Draft}
    (hrun : addBool name d = .ok i d') : d'.registry.LiteralsApart ↔
      d.registry.LiteralsApart ∧ ∀ v slot, d.registry.bool? v = some slot → slot.isPositive →
        slot.literal.var.toNat ≠ d.solvers.domains.bools % 2 ^ 31 := by
  obtain ⟨-, v, e, rfl⟩ := (addBool_leaves name d).accepted hrun
  have hvar : d.solvers.domains.freshLiteral.var.toNat = d.solvers.domains.bools % 2 ^ 31 :=
    Literal.toNat_var_ofVar d.solvers.domains.bools true
  rw [Registry.literalsApart_withBool rfl, ← hvar]
  simp only [ne_eq, UInt32.toNat_inj]

/-- Once the constants were made in a session with a problem, the slots of the registry are
materialized in both solvers, whatever is added to it, whether or not the calls go through,
and whatever is forked from it and discarded meanwhile.  A new boolean variable keeps the
literals apart exactly if no slot has one over its number modulo `2 ^ 31`. -/
theorem dual_materialization {solvers : Solvers} (hsession : solvers.session.Reachable)
    (hproblem : solvers.session.problem.isSome) (hcopies : solvers.session.copies = [])
    (hspared : solvers.engine.faults.lookup .releaseVar = none)
    (hdomains : solvers.domains.Reachable)
    (hconstants : addConstants ⟨{}, solvers⟩ = .ok () d) {bridge : Option ConsId}
    (hbridge : ∀ {c}, bridge = some c → ∃ info, solvers.session.cons? c = some info) {s : Site}
    (hreach : s.Reaches bridge d) : s.draft.Materialized ∧
      ∀ name i d', addBool name s.draft = .ok i d' → (d'.registry.LiteralsApart ↔
        s.draft.registry.LiteralsApart ∧ ∀ v slot, s.draft.registry.bool? v = some slot →
          slot.isPositive → slot.literal.var.toNat ≠ s.draft.solvers.domains.bools % 2 ^ 31) := by
  have hempty := coherent_empty hsession.sound hproblem hcopies hspared hdomains
  obtain ⟨hd, hseeded⟩ := (hempty.addConstants rfl).accepted hconstants
  have horder := hreach.kept hd hseeded hbridge
  exact ⟨horder.coherent.materialized horder.seeded, fun _ _ _ => addBool_apart_iff⟩

/-- A session with a problem. -/
def plainSolvers : Solvers :=
  { engine := { session := Session.history [.newProblem "hybrid"] } }

/-- The constants in that session. -/
def constantsDraft : Draft := after addConstants ⟨{}, plainSolvers⟩

/-- A boolean variable with its negation, an integer variable with an indicator, and a
working copy that was forked before the indicator was made. -/
def grownSite : Site :=
  let s₁ : Site := { draft := after (perform (.bool "x")) constantsDraft }
  let s₂ : Site := { s₁ with draft := after (perform (.negate ⟨2⟩)) s₁.draft }
  let s₃ : Site := { s₂ with draft := after (perform (.int 0 3 "y")) s₂.draft }
  let s₄ : Site := s₃.withPool (s₃.pool.fork ⟨s₃.draft.registry, none, .zero⟩ [])
  { s₄ with draft := after (perform (.indicator ⟨1⟩ 2)) s₄.draft }

theorem reaches_grownSite : grownSite.Reaches none constantsDraft := by
  refine .tail (.tail (.tail (.tail (.single (.add _ (.bool "x"))) (.add _ (.negate ⟨2⟩)))
    (.add _ (.int 0 3 "y"))) (.copies .zero (.fork ?_ rfl rfl))) (.add _ (.indicator ⟨1⟩ 2))
  exact List.mem_cons_self

theorem dual_materialization_grown :
    (plainSolvers.session.Reachable ∧ plainSolvers.session.problem.isSome ∧
      addConstants ⟨{}, plainSolvers⟩ = .ok () constantsDraft ∧
      grownSite.Reaches none constantsDraft ∧ grownSite.draft.registry.bools.size = 5 ∧
      grownSite.detached.length = 1) ∧
    grownSite.draft.Materialized ∧ grownSite.draft.registry.LiteralsApart := by
  have hsession : plainSolvers.session.Reachable := Session.reachable_history _
  have hproblem : plainSolvers.session.problem.isSome := by decide +kernel
  have hcopies : plainSolvers.session.copies = [] := by decide +kernel
  have hconstants : addConstants ⟨{}, plainSolvers⟩ = .ok () constantsDraft := by rfl
  have hfits : grownSite.draft.solvers.domains.bools ≤ 2 ^ 31 := by decide +kernel
  obtain ⟨hmaterialized, -⟩ := dual_materialization hsession hproblem hcopies rfl .fresh hconstants
    (fun hbridge => by cases hbridge) reaches_grownSite
  exact ⟨⟨hsession, hproblem, hconstants, reaches_grownSite, by decide +kernel,
    by decide +kernel⟩, hmaterialized, hmaterialized.literals hfits⟩

/-! ## A collision -/

/-- With no block left a new boolean variable is refused, but its number is used up. -/
theorem after_addBool_of_exhausted {limit : Nat}
    (hlimit : d.solvers.session.exhausted? = some limit)
    (hspared : d.solvers.engine.faults.lookup .newVar = none) (name : String) :
    after (perform (.bool name)) d =
      { d with solvers.domains.bools := d.solvers.domains.bools + 1 } := by
  obtain ⟨cause, hnew⟩ : ∃ cause,
      Session.newVar name 0.0 1.0 0.0 .binary d.solvers.session =
        .error cause d.solvers.session := by
    cases hproblem : d.solvers.session.problem with
    | none => exact ⟨.noProblem, by simp only [newVar, bind_apply, requireProblem, hproblem]⟩
    | some problem =>
        exact ⟨.allocation (name ++ ": limit of " ++ toString limit ++ " blocks reached"), by
          simp only [newVar, bind_apply, requireProblem, hproblem, allocateVar, allocate, hlimit]⟩
  have hcall : Engine.newVar name 0.0 1.0 0.0 .binary d.solvers.engine =
      .error cause d.solvers.engine := by
    unfold Engine.newVar Engine.call
    rw [Faults.count_of_spared hspared, show d.solvers.engine.session = d.solvers.session from rfl]
    simp only [hnew]
    rfl
  have hrun : perform (.bool name) d = .error (.engine cause)
      { d with solvers.domains.bools := d.solvers.domains.bools + 1 } := by
    simp only [perform, map_apply, addBool, bind_apply, addLiteral, onDomains, onEngine, onSolvers,
      Solvers.onDomains, Solvers.onEngine, onPart, Domains.newBool, hcall, id]
  rw [Effect.after, hrun]

/-- So the numbers can be used up without a slot. -/
theorem reaches_of_exhausted {bridge : Option ConsId} {s : Site} (hreach : s.Reaches bridge d)
    {limit : Nat} (hlimit : s.draft.solvers.session.exhausted? = some limit)
    (hspared : s.draft.solvers.engine.faults.lookup .newVar = none) (n : Nat) :
    { s with draft.solvers.domains.bools := s.draft.solvers.domains.bools + n }.Reaches
      bridge d := by
  induction n with
  | zero => exact hreach
  | succ n ih =>
      let next : Site :=
        { s with draft.solvers.domains.bools := s.draft.solvers.domains.bools + n }
      have hrefused := after_addBool_of_exhausted (d := next.draft) hlimit hspared "x"
      have hstep : next.Step bridge { next with draft := after (perform (.bool "x")) next.draft } :=
        .add next (.bool "x")
      rw [hrefused] at hstep
      exact ih.tail hstep

/-- No block is left, all numbers that fit into a literal are used up by refused calls, and then
the limit is lifted for one boolean variable. -/
def crowdedSite : Site :=
  let s₁ : Site := Site.withLimit { draft := constantsDraft } (some 0)
  -- all but the number 0, which the constants have
  let s₂ : Site := { s₁ with
    draft.solvers.domains.bools := s₁.draft.solvers.domains.bools + 2147483647 }
  let s₃ : Site := s₂.withLimit none
  { s₃ with draft := after (perform (.bool "x")) s₃.draft }

/-- The literal of that variable is the constant true, over the variable of the constant false. -/
theorem literals_collide :
    (plainSolvers.session.Reachable ∧ plainSolvers.session.problem.isSome ∧
      addConstants ⟨{}, plainSolvers⟩ = .ok () constantsDraft ∧
      crowdedSite.Reaches none constantsDraft) ∧
    ∃ falsity x, crowdedSite.draft.registry.bool? .falsity = some falsity ∧ falsity.isPositive ∧
      crowdedSite.draft.registry.bool? ⟨2⟩ = some x ∧ x.isPositive ∧
      x.literal = Domains.trueLiteral ∧ x.literal.var = falsity.literal.var ∧
      ¬ crowdedSite.draft.registry.LiteralsApart := by
  have hlimited : Site.Reaches none constantsDraft
      (Site.withLimit { draft := constantsDraft } (some 0)) :=
    .single (.copies .zero (.setLimit _ (some 0)))
  have hlimit :
      (Site.withLimit { draft := constantsDraft } (some 0)).draft.solvers.session.exhausted? =
        some 3 := by decide +kernel
  have hcrowded := reaches_of_exhausted hlimited hlimit rfl 2147483647
  refine ⟨⟨Session.reachable_history _, by decide +kernel, rfl,
    .tail (.tail hcrowded (.copies .zero (.setLimit _ none))) (.add _ (.bool "x"))⟩, ?_⟩
  have hslot : ((crowdedSite.draft.registry.bool? ⟨2⟩).map fun slot =>
      (slot.isPositive, slot.literal)) = some (true, Domains.trueLiteral) := by decide +kernel
  have hfalsity : ((crowdedSite.draft.registry.bool? .falsity).map fun slot =>
      (slot.isPositive, slot.literal)) = some (true, Domains.falseLiteral) := by decide +kernel
  obtain ⟨x, hx, hslot⟩ := Option.map_eq_some_iff.mp hslot
  obtain ⟨falsity, hf, hfalsity⟩ := Option.map_eq_some_iff.mp hfalsity
  obtain ⟨hpositive, hliteral⟩ := Prod.mk.inj hslot
  obtain ⟨hpositive', hliteral'⟩ := Prod.mk.inj hfalsity
  have hvar : x.literal.var = falsity.literal.var := by
    rw [hliteral, hliteral']
    decide
  refine ⟨falsity, x, hf, hpositive', hx, hpositive, hliteral, hvar, fun hapart => ?_⟩
  exact absurd (hapart hx hpositive hf hpositive' hvar) (by decide)

end Draft

end JointModel
