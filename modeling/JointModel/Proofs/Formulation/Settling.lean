import JointModel.Proofs.Formulation.Release
import JointModel.Proofs.Registry.NewSlots
import JointModel.Proofs.Session.Members

/-!
# New entries for a formulation

`f.Settles s t` says that the session `t` is `s` together with one new entry for
every handle of `f`, each used once.  The handles stood for nothing in `s`, and all
other entries, the problem and the working copies are what they were.

A fork leads there slot by slot, so there is one lemma for every kind of slot that
is added.  Releasing the formulation leads back to `s` (`Settles.unsettle`).
-/

namespace JointModel

namespace Session

variable {s t : Session} {v n p : VarId} {entry : VarInfo}

/-- Every entry is still there, but it may be tied to an alias now. -/
def Carries (s t : Session) : Prop :=
  ∀ {v entry}, s.var? v = some entry → ∃ link, t.var? v = some { entry with link }

theorem Carries.refl (s : Session) : s.Carries s := fun {_ entry} hv => ⟨entry.link, hv⟩

theorem Adds.carries (h : s.Adds v entry t) : s.Carries t := fun {_ other} hw =>
  ⟨other.link, h.live_of_ne hw⟩

theorem Negates.carries (h : s.Negates p entry n t) : s.Carries t := by
  intro w other hw
  have hwn : w ≠ n := by
    rintro rfl
    rw [h.fresh] at hw
    cases hw
  rw [h.var?, if_neg hwn]
  by_cases hwp : w = p
  · rw [hwp, h.live] at hw
    cases hw
    exact ⟨.positive (some n), if_pos hwp⟩
  · exact ⟨other.link, by rw [if_neg hwp, hw]⟩

/-- A member of the problem joins the entries of a list.  Its creator has the first use,
and the problem takes the second one. -/
theorem Enrols.holds (h : s.Enrols v entry t) (hentry : entry.stake = ⟨1, .positive none⟩)
    {base : VarId → Option VarInfo} {list : List (VarId × Stake)}
    (hvars : Holds VarInfo.stake base s.var? list) :
    Holds VarInfo.stake base t.var? ((v, ⟨2, .positive none⟩) :: list) := by
  have huses : entry.uses = 1 := congrArg Stake.uses hentry
  have hlink : entry.link = .positive none := congrArg Stake.link hentry
  let used : VarInfo := { entry with uses := entry.uses + 1 }
  have hstake : used.stake = ⟨2, .positive none⟩ := by
    simp only [used, VarInfo.stake, huses, hlink]
  exact hstake ▸ hvars.add h.fresh h.var?

/-- An alias joins the entries of a list, and its partner learns of it. -/
theorem Negates.holds (h : s.Negates p entry n t) {base : VarId → Option VarInfo} {uses : Nat}
    {rest : List (VarId × Stake)}
    (hvars : Holds VarInfo.stake base s.var? ((p, ⟨uses, .positive none⟩) :: rest)) :
    Holds VarInfo.stake base t.var?
      ((n, ⟨0, .negation p⟩) :: (p, ⟨uses, .positive (some n)⟩) :: rest) := by
  have huses : entry.uses = uses := by
    obtain ⟨other, hother, hstake⟩ := hvars.graded List.mem_cons_self
    rw [h.live] at hother
    cases hother
    exact congrArg Stake.uses hstake
  let linked : VarInfo := { entry with link := .positive (some n) }
  have hlinked : Holds VarInfo.stake base (fun w => if w = p then some linked else s.var? w)
      ((p, linked.stake) :: rest) := hvars.change fun _ => rfl
  have hadded : Holds VarInfo.stake base t.var?
      ((n, (entry.negated p).stake) :: (p, linked.stake) :: rest) :=
    hlinked.add (by rw [if_neg h.ne, h.fresh]) h.var?
  rwa [show linked.stake = ⟨uses, .positive (some n)⟩ by simp [linked, VarInfo.stake, huses]]
    at hadded

theorem AddsCons.carries {c : ConsId} {info : ConsInfo} (h : s.AddsCons c info t) :
    s.Carries t := fun {_ entry} hv => ⟨entry.link, by rw [h.var?_eq, hv]⟩

end Session

namespace Formulation

open Session Registry

variable {f g : Formulation} {s t t' : Session} {v n p : VarId} {entry : VarInfo}

/-- The number of blocks that the entries of a formulation take. -/
def blocks (f : Formulation) : Nat := f.bridge.toList.length + f.registry.vars.length

/-- The session `t` is `s` together with new entries for all handles of the
formulation. -/
structure Settles (f : Formulation) (s t : Session) : Prop where
  sound : t.Sound
  aligned : f.registry.Aligned
  vars : Holds VarInfo.stake s.var? t.var? (f.registry.holdings 1)
  conss : Holds ConsInfo.uses s.cons? t.cons? (f.bridgeHoldings 1)
  allocations : t.allocations = s.allocations + f.blocks
  ledger : t.ledger = s.ledger
  frame : t.frame = s.frame

theorem Settles.holds (h : f.Settles s t) :
    Holds VarInfo.stake s.var? t.var? (f.registry.holdings 1 ++ []) ∧
      Holds ConsInfo.uses s.cons? t.cons? (f.bridgeHoldings 1 ++ []) := by
  rw [List.append_nil, List.append_nil]
  exact ⟨h.vars, h.conss⟩

theorem Settles.resident (h : f.Settles s t) : f.Resident 1 t :=
  .of_holds h.aligned h.holds.1 h.holds.2

/-! ## One entry after the other -/

theorem blocks_of_vars {r : Registry} (h : r.vars.Perm (v :: f.registry.vars)) :
    { f with registry := r }.blocks = f.blocks + 1 := by
  show f.bridge.toList.length + r.vars.length = f.bridge.toList.length + f.registry.vars.length + 1
  rw [h.length_eq, List.length_cons, Nat.add_assoc]

theorem vars_of_holdings {r r' : Registry} {stake : Stake} {uses : Nat}
    (h : (r'.holdings uses).Perm ((v, stake) :: r.holdings uses)) : r'.vars.Perm (v :: r.vars) := by
  have hkeys := h.map Prod.fst
  rwa [map_fst_holdings, List.map_cons, map_fst_holdings] at hkeys

/-- A new entry of its own. -/
theorem Settles.add (h : f.Settles s t) (hadds : t.Adds v entry t')
    (hentry : entry.stake = ⟨1, .positive none⟩) {r : Registry} (haligned : r.Aligned)
    (hholdings : (r.holdings 1).Perm ((v, ⟨1, .positive none⟩) :: f.registry.holdings 1)) :
    { f with registry := r }.Settles s t' where
  sound := hadds.sound h.sound (congrArg Stake.link hentry) (by
    rw [show entry.uses = 1 from congrArg Stake.uses hentry]
    exact Nat.one_pos)
  aligned := haligned
  vars := (hentry ▸ h.vars.add hadds.fresh hadds.var?).perm hholdings
  conss := hadds.cons?_eq ▸ h.conss
  allocations := by
    rw [hadds.allocations_eq, h.allocations, blocks_of_vars (vars_of_holdings hholdings),
      Nat.add_assoc]
  ledger := hadds.ledger_eq.trans h.ledger
  frame := hadds.frame_eq.trans h.frame

/-- A new alias. -/
theorem Settles.addAlias (h : f.Settles s t) (hnegates : t.Negates p entry n t')
    {r : Registry} (haligned : r.Aligned) {rest : List (VarId × Stake)}
    (hvars : r.vars.Perm (n :: f.registry.vars))
    (hbefore : (f.registry.holdings 1).Perm ((p, ⟨1, .positive none⟩) :: rest))
    (hafter : (r.holdings 1).Perm
      ((n, ⟨0, .negation p⟩) :: (p, ⟨1, .positive (some n)⟩) :: rest)) :
    { f with registry := r }.Settles s t' where
  sound := hnegates.sound h.sound
  aligned := haligned
  vars := (hnegates.holds (h.vars.perm hbefore.symm)).perm hafter
  conss := hnegates.cons?_eq ▸ h.conss
  allocations := by
    rw [hnegates.allocations_eq, h.allocations, blocks_of_vars hvars, Nat.add_assoc]
  ledger := hnegates.ledger_eq.trans h.ledger
  frame := hnegates.frame_eq.trans h.frame

/-- A new negated slot.  Whatever its handle is, its partner was there before and has no alias yet;
then the slot gets that alias. -/
theorem Settles.negatedSlot (h : f.Settles s t) {slot : BoolSlot} {q : BoolId}
    (hpolarity : slot.polarity = .negated q)
    (haligned : ∀ handle, (f.registry.withBool { slot with handle }).Aligned) :
    ∃ partner entry, f.registry.bool? q = some partner ∧ t.var? partner.handle = some entry ∧
      entry.link = .positive none ∧ ∀ {n t'}, t.Negates partner.handle entry n t' →
        { f with registry := f.registry.withBool { slot with handle := n } }.Settles s t' := by
  -- any handle will do to find the partner
  obtain ⟨partner, others, hq, hbefore, -⟩ :=
    holdings_withBool_negated (haligned slot.handle) hpolarity h.resident.distinct 1
  obtain ⟨entry, hv, hstake⟩ := h.resident.graded (hbefore.mem_iff.mpr List.mem_cons_self)
  refine ⟨partner, entry, hq, hv, congrArg Stake.link hstake, fun {n t'} hnegates => ?_⟩
  obtain ⟨partner', others', hq', hbefore', hafter'⟩ :=
    holdings_withBool_negated (haligned n) hpolarity h.resident.distinct 1
  rw [hq] at hq'
  cases hq'
  exact h.addAlias hnegates (haligned n) (vars_withBool _ _) hbefore' hafter'

/-- A new bridge. -/
theorem Settles.addBridge (h : f.Settles s t) {c : ConsId} {info : ConsInfo}
    (hadds : t.AddsCons c info t') (huses : info.uses = 1) (hbridge : f.bridge = none) :
    { f with bridge := some c }.Settles s t' where
  sound := hadds.sound h.sound (by rw [huses]; exact Nat.one_pos)
  aligned := h.aligned
  vars := hadds.var?_eq ▸ h.vars
  conss := by
    have hnew := h.conss.add hadds.fresh hadds.cons?
    rw [huses, bridgeHoldings, hbridge] at hnew
    exact hnew
  allocations := by
    rw [hadds.allocations_eq, h.allocations, blocks, blocks, hbridge]
    simp only [Option.toList_none, List.length_nil, Option.toList_some, List.length_singleton]
    omega
  ledger := hadds.ledger_eq.trans h.ledger
  frame := hadds.frame_eq.trans h.frame

/-- Slots without an entry make no difference. -/
theorem Settles.congr (h : f.Settles s t) {r : Registry} (hbools : r.bools = f.registry.bools)
    (hints : r.intVars = f.registry.intVars) : { f with registry := r }.Settles s t := by
  have haligned : r.Aligned :=
    h.aligned.of_prefix fun v _ => by rw [bool?, bool?, hbools]
  have hvars : r.vars = f.registry.vars := by rw [Registry.vars, Registry.vars, hbools, hints]
  refine ⟨h.sound, haligned, ?_, h.conss, ?_, h.ledger, h.frame⟩
  · rw [holdings_congr hbools hints]
    exact h.vars
  · rw [h.allocations, blocks, blocks, hvars]

/-- A formulation without slots needs no entries. -/
theorem settles_blank (h : s.Sound) (f : Formulation) : f.blank.Settles s s :=
  ⟨h, ⟨fun hv => by simp [blank, bool?] at hv, fun hv => by simp [blank, bool?] at hv,
    fun hv => by simp [blank, bool?] at hv⟩, .nil, .nil, rfl, rfl, rfl⟩

/-! ## Giving the entries up again -/

/-- Once the formulation is released, every handle stands for what it stood for
before. -/
theorem Settles.unsettle (h : f.Settles s t) (hreturned : f.Returned t t') :
    t'.var? = s.var? ∧ t'.cons? = s.cons? ∧ t'.frame = s.frame := by
  obtain ⟨hvars, hconss⟩ := hreturned.holds_others h.sound h.aligned h.holds.1 h.holds.2
  refine ⟨funext fun v => ?_, funext fun c => ?_, hreturned.frame.trans h.frame⟩
  · exact hvars.others (by simp)
  · exact hconss.others (by simp)

end Formulation

end JointModel
