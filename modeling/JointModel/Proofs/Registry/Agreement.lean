import JointModel.Proofs.Registry.Calls
import Mathlib.Logic.Relation

/-!
# Indicators and equality literals

Whether `x = value` is a constant, known already or new is decided twice: by the registry,
from the bounds and the table of the slot `x`, and by the CP store, from the bounds and the
literals of the domain behind it.  Both decide alike (`indicator_agrees`), and the slot
that the registry answers has the literal that the store answers.

## Strategy

What the engine does is of no account here, so nothing is assumed about it: at any time
another engine may take its place (`Draft.Step`).  The invariant (`Draft.Agreeing`) is about
the registry and the store alone.

* The bounds of a slot are those of its domain, and no two slots share a domain.
* An indicator in a table has the literal that the store keeps for its equality.  The
  converse fails: the store keeps the literal of an equality also if the slot for it could
  not be made.  The next attempt is answered the same literal, so it fits the first point.
-/

namespace JointModel

open Effect

namespace Draft

variable {d d' : Draft} {x : IntId} {value : Int}

/-! ## What is kept -/

/-- The registry and the store agree on bounds and on the indicators made so far. -/
structure Agreeing (d : Draft) : Prop where
  tabled : d.registry.Tabled
  bounded : d.registry.Bounded d.solvers.domains
  indicators : ∀ {v key}, d.registry.Indicates v key → ∃ slot, d.registry.bool? v = some slot ∧
    d.solvers.domains.equalities.lookup key = some slot.literal

/-- The draft `d'` agrees and has all slots of `d`. -/
structure Onward (d d' : Draft) : Prop where
  agreeing : d'.Agreeing
  bools : d.registry.Extends d'.registry
  ints : ∀ {y slot}, d.registry.int? y = some slot →
    ∃ table, d'.registry.int? y = some { slot with table }

theorem agreeing_empty (solvers : Solvers) : Agreeing ⟨{}, solvers⟩ where
  tabled := ⟨fun hx => by simp [Registry.int?] at hx, fun hx => by simp [Registry.int?] at hx⟩
  bounded := Registry.bounded_empty _
  indicators hv := by
    obtain ⟨x, slot, hx, -⟩ := hv
    simp [Registry.int?] at hx

/-- Integer slots are only given tables. -/
theorem ints_of_change {r r' : Registry} {y : IntId} {slot : IntSlot}
    (hchange : ∃ change : IntSlot → Option Nat,
      r'.int? y = (r.int? y).map fun slot => { slot with table := change slot })
    (hy : r.int? y = some slot) : ∃ table, r'.int? y = some { slot with table } := by
  obtain ⟨change, hchange⟩ := hchange
  exact ⟨change slot, by rw [hchange, hy, Option.map_some]⟩

theorem Agreeing.onward (h : d.Agreeing) : d.Onward d :=
  ⟨h, .refl _, fun hy => ⟨_, hy⟩⟩

theorem Onward.trans {d'' : Draft} (h : d.Onward d') (h' : d'.Onward d'') : d.Onward d'' := by
  refine ⟨h'.agreeing, h.bools.trans h'.bools, fun hy => ?_⟩
  obtain ⟨table, hy'⟩ := h.ints hy
  obtain ⟨table', hy''⟩ := h'.ints hy'
  exact ⟨table', hy''⟩

/-- The store may grow, and the engine does not matter. -/
theorem Agreeing.grow (h : d.Agreeing) (e : Engine) {s : Domains}
    (hgrows : d.solvers.domains.Grows s) : d.Onward { d with solvers := ⟨e, s⟩ } := by
  refine ⟨⟨h.tabled, h.bounded.mono hgrows (Registry.int?_of_ints rfl), fun {v key} hv => ?_⟩,
    .refl _, fun hy => ⟨_, hy⟩⟩
  obtain ⟨slot, hslot, hlookup⟩ := h.indicators hv
  exact ⟨slot, hslot, hgrows.lookup hlookup⟩

/-- New boolean slots, and negations that old ones get. -/
theorem Agreeing.of_extends (h : d.Agreeing) {r : Registry} (hextends : d.registry.Extends r)
    (hints : r.ints = d.registry.ints) (htables : r.tables = d.registry.tables) :
    d.Onward { d with registry := r } := by
  have hint? := Registry.int?_of_ints hints
  refine ⟨⟨h.tabled.congr hints htables, h.bounded.mono .refl hint?, fun {v key} hv => ?_⟩,
    hextends, ints_of_change (hint? _)⟩
  obtain ⟨slot, hslot, hlookup⟩ := h.indicators ((Registry.indicates_congr hints htables).mp hv)
  obtain ⟨polarity, hslot', -⟩ := hextends.slot hslot
  exact ⟨_, hslot', hlookup⟩

theorem Agreeing.withInt (h : d.Agreeing) {slot : IntSlot} (hle : slot.lb ≤ slot.ub)
    (hdomain : slot.domain = ⟨d.solvers.domains.bounds.size⟩) (htable : slot.table = none) :
    d.Onward { d.withDomain slot.lb slot.ub with registry := d.registry.withInt slot } := by
  refine ⟨⟨h.tabled.withInt htable, h.bounded.withInt hle hdomain, fun {v key} hv => ?_⟩,
    .of_bools rfl, fun {y old} hy => ⟨old.table, ?_⟩⟩
  · have hold := h.indicators ((Registry.indicates_withInt htable).mp hv)
    exact hold
  · have hlt : y.index < d.registry.ints.size := (Array.getElem?_eq_some_iff.mp hy).1
    rw [Registry.int?_withInt, if_neg (Nat.ne_of_lt hlt), hy]

theorem Agreeing.withIndicator (h : d.Agreeing) {slot : IntSlot}
    (hx : d.registry.int? x = some slot) (hnone : d.registry.indicator? x value = none)
    {v : BoolId} {new : BoolSlot} (hv : d.registry.bool? v = some new)
    (hlookup : d.solvers.domains.equalities.lookup (slot.domain, value) = some new.literal) :
    d.Onward { d with registry := d.registry.withIndicator x slot value v } := by
  have hbools := Registry.bools_withIndicator d.registry x slot value v
  have hint? := Registry.int?_withIndicator d.registry x slot value v
  refine ⟨⟨h.tabled.withIndicator x slot value v, h.bounded.mono .refl hint?,
    fun {w key} hw => ?_⟩, .of_bools hbools, ints_of_change (hint? _)⟩
  have hbool? : (d.registry.withIndicator x slot value v).bool? = d.registry.bool? := by
    funext w
    rw [Registry.bool?, Registry.bool?, hbools]
  dsimp only
  rw [hbool?]
  rcases (h.tabled.indicates_withIndicator hx hnone v).mp hw with hold | ⟨rfl, rfl⟩
  · exact h.indicators hold
  · exact ⟨new, hv, hlookup⟩

/-- A new indicator has the literal of its equality. -/
theorem Agreeing.withIndicatorSlot (h : d.Agreeing) (e : Engine) (handle : VarId)
    {slot : IntSlot} {literal : Literal} {s : Domains} (hx : d.registry.int? x = some slot)
    (hlower : slot.lb ≤ value) (hupper : value ≤ slot.ub) (hfree : slot.lb ≠ slot.ub)
    (hnone : d.registry.indicator? x value = none)
    (hrun : Domains.equal slot.domain value d.solvers.domains = .ok literal s) :
    d.Onward ⟨d.registry.withIndicatorSlot x slot value handle literal, ⟨e, s⟩⟩ := by
  obtain ⟨l, t, hequal, hlookup, -⟩ :=
    Domains.equal_of_bounds (h.bounded.bounds hx).1 hlower hupper hfree
  rw [hrun] at hequal
  cases hequal
  have hgrows : d.solvers.domains.Grows s :=
    (Domains.equal_ends d.solvers.domains slot.domain value).accepted hrun
  let new : BoolSlot :=
    ⟨handle, literal, .positive none, "[" ++ slot.name ++ " == " ++ toString value ++ "]"⟩
  have hgrown := h.grow e hgrows
  have hpushed := hgrown.agreeing.of_extends (Registry.extends_withBool _ new) rfl rfl
  have hnew : (d.registry.withBool new).bool? ⟨d.registry.bools.size⟩ = some new :=
    Registry.bool?_withBool_size _ _
  exact hgrown.trans (hpushed.trans (hpushed.agreeing.withIndicator hx hnone hnew hlookup))

/-- Whatever a call makes of the draft, both sides agree. -/
theorem Agreeing.onward_of_grows (h : d.Agreeing) (hgrows : d.Grows d') : d.Onward d' := by
  cases hgrows with
  | store e hgrows => exact h.grow e hgrows
  | bool e handle name =>
      have hgrown := h.grow e .bool
      exact hgrown.trans (hgrown.agreeing.of_extends (Registry.extends_withBool _ _) rfl rfl)
  | negation e handle hv hpolarity =>
      have hgrown := h.grow e .refl
      exact hgrown.trans
        (hgrown.agreeing.of_extends (Registry.extends_withNegation hv hpolarity _) rfl rfl)
  | @int e handle lb ub name hle =>
      let slot : IntSlot :=
        { handle, domain := ⟨d.solvers.domains.bounds.size⟩, lb, ub, name, table := none }
      have hbounds : slot.lb ≤ slot.ub := hle
      have hgrown := h.grow e .refl
      exact hgrown.trans (hgrown.agreeing.withInt hbounds rfl rfl)
  | indicator e handle hx hlower hupper hfree hnone hequal =>
      exact h.withIndicatorSlot e handle hx hlower hupper hfree hnone hequal

/-! ## Both sides of an indicator -/

/-- The slot `b` and the store say the same about `x = value`. -/
def Agrees (d : Draft) (x : IntId) (value : Int) (b : BoolId) : Prop :=
  ∃ slot indicator, d.registry.int? x = some slot ∧ d.registry.bool? b = some indicator ∧
    Domains.equal slot.domain value d.solvers.domains = .ok indicator.literal d.solvers.domains

/-- Of a value that a variable may or may not have, the store has the literal that the
indicator has. -/
theorem Agreeing.agrees_of_indicator? (h : d.Agreeing) {slot : IntSlot} {b : BoolId}
    (hx : d.registry.int? x = some slot) (hlower : slot.lb ≤ value) (hupper : value ≤ slot.ub)
    (hfree : slot.lb ≠ slot.ub) (hb : d.registry.indicator? x value = some b) :
    d.Agrees x value b := by
  have hindicates : d.registry.Indicates b (slot.domain, value) := ⟨x, slot, hx, rfl, hb⟩
  obtain ⟨indicator, hindicator, hlookup⟩ := h.indicators hindicates
  obtain ⟨l, s, hequal, hlookup', hstore⟩ :=
    Domains.equal_of_bounds (h.bounded.bounds hx).1 hlower hupper hfree
  refine ⟨slot, indicator, hx, hindicator, ?_⟩
  rcases hstore with rfl | ⟨hnone, -⟩
  · rw [hequal, Option.some.inj (hlookup'.symm.trans hlookup)]
  · cases hnone.symm.trans hlookup

theorem Agreeing.addIndicator (h : d.Agreeing) {slot : IntSlot}
    (hx : d.registry.int? x = some slot) (hlower : slot.lb ≤ value) (hupper : value ≤ slot.ub)
    (hfree : slot.lb ≠ slot.ub) (hnone : d.registry.indicator? x value = none) :
    Ends (Draft.addIndicator x slot value) d (fun b d' => d.Onward d' ∧ d'.Agrees x value b)
      fun _ d' => d.Onward d' := by
  refine (addIndicator_leaves x slot value d).mono (fun b d' hd' => ?_) fun _ d' hd' => ?_
  · obtain ⟨rfl, literal, s, handle, e, hequal, rfl⟩ := hd'
    have honward := h.withIndicatorSlot e handle hx hlower hupper hfree hnone hequal
    obtain ⟨table, hx'⟩ := honward.ints hx
    refine ⟨honward, honward.agreeing.agrees_of_indicator? hx' hlower hupper hfree ?_⟩
    have htabled : (d.registry.withBool ⟨handle, literal, .positive none,
        "[" ++ slot.name ++ " == " ++ toString value ++ "]"⟩).Tabled := h.tabled.congr rfl rfl
    rw [Registry.withIndicatorSlot, htabled.indicator?_withIndicator hx, if_pos ⟨rfl, rfl⟩]
  · obtain ⟨e, s, hgrows, rfl⟩ := hd'
    exact h.grow e hgrows

/-- A value out of bounds is a constant for both. -/
theorem Agreeing.agrees_falsity (h : d.Agreeing) (hseeded : d.registry.Seeded) {slot : IntSlot}
    (hx : d.registry.int? x = some slot) (hout : value < slot.lb ∨ value > slot.ub) :
    d.Agrees x value .falsity := by
  obtain ⟨handle, hfalsity⟩ := hseeded.falsity
  refine ⟨slot, _, hx, hfalsity, ?_⟩
  simp only [Domains.equal, (h.bounded.bounds hx).1, if_pos hout]

/-- The only value of a variable is a constant for both. -/
theorem Agreeing.agrees_truth (h : d.Agreeing) (hseeded : d.registry.Seeded) {slot : IntSlot}
    (hx : d.registry.int? x = some slot) (hin : ¬ (value < slot.lb ∨ value > slot.ub))
    (hfixed : slot.lb = slot.ub) : d.Agrees x value .truth := by
  obtain ⟨handle, htruth⟩ := hseeded.truth
  refine ⟨slot, _, hx, htruth, ?_⟩
  simp only [Domains.equal, (h.bounded.bounds hx).1, if_neg hin, if_pos hfixed]

theorem Agreeing.indicator (h : d.Agreeing) (hseeded : d.registry.Seeded) (x : IntId)
    (value : Int) : Ends (Draft.indicator x value) d
      (fun b d' => d.Onward d' ∧ d'.Agrees x value b) fun _ d' => d.Onward d' :=
  ends_indicator h.onward (fun _ hx hout => ⟨h.onward, h.agrees_falsity hseeded hx hout⟩)
    (fun _ hx hin hfixed => ⟨h.onward, h.agrees_truth hseeded hx hin hfixed⟩)
    (fun _ _ hx hlower hupper hfree hknown =>
      ⟨h.onward, h.agrees_of_indicator? hx hlower hupper hfree hknown⟩)
    fun _ hx hlower hupper hfree hnone => h.addIndicator hx hlower hupper hfree hnone

/-- Once the constants are made, both sides agree. -/
theorem addConstants_agreeing (solvers : Solvers) :
    Ends addConstants ⟨{}, solvers⟩ (fun _ d => d.Agreeing ∧ d.registry.Seeded)
      fun _ _ => True := by
  have hempty := agreeing_empty solvers
  unfold addConstants
  rw [ends_bind]
  refine (addLiteral_leaves "false" 0.0 Domains.falseLiteral _).mono (fun i d₁ hd₁ => ?_)
    fun _ _ _ => trivial
  obtain ⟨rfl, v, e, rfl⟩ := hd₁
  let falsity : BoolSlot := ⟨v, Domains.falseLiteral, .positive none, "false"⟩
  have h₁ := ((hempty.grow e .refl).agreeing.of_extends (Registry.extends_withBool _ falsity)
    rfl rfl).agreeing
  have hfalsity : (Registry.withBool {} falsity).bool? .falsity = some falsity := rfl
  rw [ends_bind]
  refine (negate_leaves hfalsity rfl).mono (fun _ d₂ hd₂ => ?_) fun _ _ _ => trivial
  obtain ⟨-, n, e', rfl⟩ := hd₂
  let truth : BoolSlot := ⟨n, Domains.falseLiteral.negate, .negated .falsity, "~" ++ "false"⟩
  have h₂ := ((h₁.grow e' .refl).agreeing.of_extends
    (Registry.extends_withNegation hfalsity rfl truth) rfl rfl).agreeing
  have hseeded : ((Registry.withBool {} falsity).withNegation .falsity truth).Seeded := by
    have hname : "~" ++ "false" = "~false" := by decide
    have hopposite : Domains.falseLiteral.negate = Domains.trueLiteral := by decide
    refine ⟨⟨v, rfl⟩, n, ?_⟩
    rw [← hname, ← hopposite]
    rfl
  rw [ends_bind]
  refine (addInt_grows 0 0 "zero" _).mono (fun _ d₃ hd₃ => ?_) fun _ _ _ => trivial
  have honward := h₂.onward_of_grows hd₃
  exact ⟨honward.agreeing, hseeded.extends honward.bools⟩

/-! ## In every state -/

/-- What can happen to a registry, its store and the engine beside them: a call that adds slots,
whether it goes through or not, a call on the store by somebody else, and anything at all to
the engine. -/
inductive Step : Draft → Draft → Prop
  | add (d : Draft) (c : Call) : Step d (after (perform c) d)
  | store (d : Draft) (c : Domains.Call) :
      Step d { d with solvers.domains := after (Domains.perform c) d.solvers.domains }
  | engine (d : Draft) (e : Engine) : Step d (d.withEngine e)

/-- The drafts that steps lead to. -/
def Reaches : Draft → Draft → Prop := Relation.ReflTransGen Step

/-- The step lemma: whatever happens, both sides keep agreeing. -/
theorem Step.onward (hstep : Step d d') (h : d.Agreeing) : d.Onward d' := by
  cases hstep with
  | add c => exact h.onward_of_grows (perform_grows c d).after
  | store c => exact h.grow _ (Domains.perform_ends c d.solvers.domains).after
  | engine e => exact h.grow e .refl

/-- The run lemma. -/
theorem Reaches.kept (hreach : Reaches d d') (h : d.Agreeing) (hseeded : d.registry.Seeded) :
    d'.Agreeing ∧ d'.registry.Seeded := by
  induction hreach with
  | refl => exact ⟨h, hseeded⟩
  | tail _ hstep ih =>
      have hnext := hstep.onward ih.1
      exact ⟨hnext.agreeing, ih.2.extends hnext.bools⟩

/-- The slot that the registry answers for `x = value` has the literal that the store answers
for it right afterwards, and the store does not change for it.  Both know the constants: a
value out of bounds is false for both, the only value of a variable true. -/
theorem indicator_agrees {solvers : Solvers} {d₀ : Draft} {slot : IntSlot} {b : BoolId}
    (hconstants : addConstants ⟨{}, solvers⟩ = .ok () d₀) (hreach : Reaches d₀ d)
    (hx : d.registry.int? x = some slot) (hrun : indicator x value d = .ok b d') :
    ∃ slot' bool, d'.registry.int? x = some slot' ∧ slot'.domain = slot.domain ∧
      d'.registry.bool? b = some bool ∧
      Domains.equal slot'.domain value d'.solvers.domains = .ok bool.literal d'.solvers.domains ∧
      (value < slot.lb ∨ value > slot.ub →
        b = .falsity ∧ bool.literal = Domains.falseLiteral ∧ d' = d) ∧
      (slot.lb = value → value = slot.ub →
        b = .truth ∧ bool.literal = Domains.trueLiteral ∧ d' = d) := by
  obtain ⟨hd₀, hseeded₀⟩ := (addConstants_agreeing solvers).accepted hconstants
  obtain ⟨hd, hseeded⟩ := hreach.kept hd₀ hseeded₀
  obtain ⟨honward, slot', bool, hx', hb, hequal⟩ :=
    (hd.indicator hseeded x value).accepted hrun
  obtain ⟨table, hx''⟩ := honward.ints hx
  have hslot' : slot' = { slot with table } := Option.some.inj (hx'.symm.trans hx'')
  have hseeded' : d'.registry.Seeded := hseeded.extends honward.bools
  refine ⟨slot', bool, hx', by rw [hslot'], hb, hequal, fun hout => ?_, fun hlb hub => ?_⟩
  · obtain ⟨rfl, rfl⟩ : .falsity = b ∧ d = d' := by
      simpa only [indicator, bind_apply, getInt, hx, if_pos hout, pure_apply,
        EStateM.Result.ok.injEq] using hrun
    obtain ⟨handle, hfalsity⟩ := hseeded'.falsity
    exact ⟨rfl, by rw [Option.some.inj (hb.symm.trans hfalsity)], rfl⟩
  · have hin : ¬ (value < slot.lb ∨ value > slot.ub) := by omega
    have hfixed : slot.isFixed = true := by simp [IntSlot.isFixed, hlb, hub]
    obtain ⟨rfl, rfl⟩ : .truth = b ∧ d = d' := by
      simpa only [indicator, bind_apply, getInt, hx, if_neg hin, if_pos hfixed, pure_apply,
        EStateM.Result.ok.injEq] using hrun
    obtain ⟨handle, htruth⟩ := hseeded'.truth
    exact ⟨rfl, by rw [Option.some.inj (hb.symm.trans htruth)], rfl⟩

/-- A store that was used before, and an engine without a problem. -/
def usedSolvers : Solvers :=
  { engine := { session := Session.history [.newProblem "hybrid"] }
    domains := after (Domains.perform (.newInt 0 9)) {} }

/-- An integer variable whose indicator was refused by the engine once the store had made its
literal, on another engine afterwards. -/
def refusedDraft : Draft :=
  let d₁ := after (perform (.virtualInt (-2) 2 "y")) (after addConstants ⟨{}, usedSolvers⟩)
  let d₂ := after (perform (.indicator ⟨1⟩ 2)) (d₁.withEngine {})
  d₂.withEngine d₁.solvers.engine

theorem reaches_refusedDraft : Reaches (after addConstants ⟨{}, usedSolvers⟩) refusedDraft :=
  .tail (.tail (.tail (.single (.add _ (.virtualInt (-2) 2 "y"))) (.engine _ {}))
    (.add _ (.indicator ⟨1⟩ 2))) (.engine _ _)

theorem indicator_agrees_refused :
    (addConstants ⟨{}, usedSolvers⟩ = .ok () (after addConstants ⟨{}, usedSolvers⟩) ∧
      refusedDraft.registry.bools.size = 2 ∧
      refusedDraft.solvers.domains.equalities.length = 1) ∧
    ∃ slot' bool, (after (indicator ⟨1⟩ 2) refusedDraft).registry.int? ⟨1⟩ = some slot' ∧
      (after (indicator ⟨1⟩ 2) refusedDraft).registry.bool? ⟨2⟩ = some bool ∧
      Domains.equal slot'.domain 2 (after (indicator ⟨1⟩ 2) refusedDraft).solvers.domains =
        .ok bool.literal (after (indicator ⟨1⟩ 2) refusedDraft).solvers.domains := by
  have hconstants :
      addConstants ⟨{}, usedSolvers⟩ = .ok () (after addConstants ⟨{}, usedSolvers⟩) := by rfl
  have hx : refusedDraft.registry.int? ⟨1⟩ = some ⟨none, ⟨2⟩, -2, 2, "y", none⟩ := by
    decide +kernel
  have hrun : indicator ⟨1⟩ 2 refusedDraft = .ok ⟨2⟩ (after (indicator ⟨1⟩ 2) refusedDraft) := by
    rfl
  obtain ⟨slot', bool, hx', -, hb, hequal, -⟩ :=
    indicator_agrees hconstants reaches_refusedDraft hx hrun
  exact ⟨⟨hconstants, by decide +kernel, by decide +kernel⟩, slot', bool, hx', hb, hequal⟩

end Draft

end JointModel
