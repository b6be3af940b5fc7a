import JointModel.Proofs.Formulation.WorkingCopies
import JointModel.Proofs.Model.Accounts
import Mathlib.Logic.Relation

/-!
# Working copies beside each other

Copies of a formulation are stacked by the session or kept detached, and copies of
copies are taken of either kind.  A `Pool` is a session with the detached copies that
live in it, and `Pool.Step` is whatever can happen to their number: a fork, which may
fail, of the primary formulation or of any copy that is alive, or a discard of any
detached copy or of the innermost one.

* No two copies share an entry, whichever of them was forked from which
  (`Session.Hosts`).  So the order of the discards makes no difference: a parent may
  go before its children.
* No discard is rejected, and once all copies are gone, every handle stands for what
  it stood for at the start (`discards_undo_forks`).

## Strategy

* `Hosts` is stated for a list of copies up to its order, so a detached copy from the
  middle of the list and the innermost one leave by the same lemma
  (`Session.Hosts.moveOut`).
* The entries of `tenants` belong to none of the copies.  They are there for the
  primary formulation while it grows; for this file they are empty.
-/

namespace JointModel

open Effect Formulation

namespace Session

variable {base s t : Session} {tenants : List (VarId × Stake)} {copies copies' : List Formulation}
  {f copy : Formulation}

/-- The entries of the session `s` are those of `base`, those of the tenants, and those
of the copies, and no two of these share a handle. -/
structure Hosts (base : Session) (tenants : List (VarId × Stake)) (copies : List Formulation)
    (s : Session) : Prop where
  sound : s.Sound
  paired : ∀ g ∈ copies, g.registry.Paired
  vars : Holds VarInfo.stake base.var? s.var? (copyHoldings copies ++ tenants)
  conss : Holds ConsInfo.uses base.cons? s.cons? (copyBridges copies)

theorem Hosts.refl (h : s.Sound) : s.Hosts [] [] s :=
  ⟨h, fun _ hg => absurd hg List.not_mem_nil, .nil, .nil⟩

theorem Hosts.perm (h : base.Hosts tenants copies s) (hperm : copies'.Perm copies) :
    base.Hosts tenants copies' s where
  sound := h.sound
  paired g hg := h.paired g (hperm.mem_iff.mp hg)
  vars := h.vars.perm ((hperm.flatMap_right _).append_right _)
  conss := h.conss.perm (hperm.flatMap_right _)

/-- Nothing but the entries matters. -/
theorem Hosts.of_views (h : base.Hosts tenants copies s) (ht : t.Sound) (hvars : t.var? = s.var?)
    (hconss : t.cons? = s.cons?) : base.Hosts tenants copies t :=
  ⟨ht, h.paired, hvars ▸ h.vars, hconss ▸ h.conss⟩

theorem Hosts.of_tables (h : base.Hosts tenants copies s) (hvars : t.vars = s.vars)
    (hconss : t.conss = s.conss) (hhooked : t.copies ≠ [] → t.hooked) :
    base.Hosts tenants copies t := by
  refine h.of_views (h.sound.of_tables hvars hconss hhooked) ?_ ?_
  · funext v
    rw [var?, var?, hvars]
  · funext c
    rw [cons?, cons?, hconss]

/-- A copy moves in. -/
theorem Hosts.moveIn (h : base.Hosts tenants copies s) (hpaired : copy.registry.Paired)
    (hsettles : copy.Settles s t) : base.Hosts tenants (copy :: copies) t where
  sound := hsettles.sound
  paired g hg := by
    rcases List.mem_cons.mp hg with rfl | hg
    · exact hpaired
    · exact h.paired g hg
  vars := by
    rw [copyHoldings, List.flatMap_cons, List.append_assoc]
    exact h.vars.trans hsettles.vars
  conss := h.conss.trans hsettles.conss

/-- The first copy with the others. -/
theorem Hosts.split (h : base.Hosts tenants (copy :: copies) s) :
    Holds VarInfo.stake base.var? s.var?
        (copy.registry.holdings 1 ++ (copyHoldings copies ++ tenants)) ∧
      Holds ConsInfo.uses base.cons? s.cons? (copy.bridgeHoldings 1 ++ copyBridges copies) := by
  have hvars := h.vars
  rw [copyHoldings, List.flatMap_cons, List.append_assoc] at hvars
  exact ⟨hvars, h.conss⟩

theorem Hosts.resident (h : base.Hosts tenants copies s) (hcopy : copy ∈ copies) :
    copy.Resident 1 s := by
  have hfirst := h.perm (List.perm_cons_erase hcopy).symm
  exact .of_holds (h.paired copy hcopy).aligned hfirst.split.1 hfirst.split.2

/-- A copy moves out. -/
theorem Hosts.moveOut (h : base.Hosts tenants (copy :: copies) s) (hreturned : copy.Returned s t) :
    base.Hosts tenants copies t := by
  obtain ⟨hvars, hconss⟩ := hreturned.holds_others h.sound
    (h.paired copy List.mem_cons_self).aligned h.split.1 h.split.2
  exact ⟨hreturned.sound, fun g hg => h.paired g (List.mem_cons_of_mem _ hg), hvars, hconss⟩

/-! ## Tenants -/

theorem Hosts.perm_tenants (h : base.Hosts tenants copies s) {tenants' : List (VarId × Stake)}
    (hperm : tenants'.Perm tenants) : base.Hosts tenants' copies s :=
  ⟨h.sound, h.paired, h.vars.perm (hperm.append_left _), h.conss⟩

/-- A member of the problem moves in. -/
theorem Hosts.enrol (h : base.Hosts tenants copies s) {v : VarId} {entry : VarInfo}
    (henrols : s.Enrols v entry t) (hentry : entry.stake = ⟨1, .positive none⟩) :
    base.Hosts ((v, ⟨2, .positive none⟩) :: tenants) copies t where
  sound := henrols.sound h.sound (congrArg Stake.link hentry)
  paired := h.paired
  vars := (henrols.holds hentry h.vars).perm List.perm_middle
  conss := henrols.cons?_eq ▸ h.conss

/-- A tenant gets an alias. -/
theorem Hosts.negate {p n : VarId} {entry : VarInfo} {uses : Nat} {rest : List (VarId × Stake)}
    (h : base.Hosts ((p, ⟨uses, .positive none⟩) :: rest) copies s)
    (hnegates : s.Negates p entry n t) :
    base.Hosts ((n, ⟨0, .negation p⟩) :: (p, ⟨uses, .positive (some n)⟩) :: rest) copies t where
  sound := hnegates.sound h.sound
  paired := h.paired
  vars := by
    have hfirst := hnegates.holds (h.vars.perm List.perm_middle.symm)
    refine hfirst.perm (List.perm_middle.trans ?_)
    exact List.perm_middle.cons _
  conss := hnegates.cons?_eq ▸ h.conss

/-! ## A registry among the tenants -/

section Registry

variable {r r' : Registry} {uses : Nat} {v : VarId} {entry : VarInfo} {b : BoolId} {slot new : BoolSlot}

theorem Hosts.nodup_vars (h : base.Hosts (r.holdings uses) copies s) : r.vars.Nodup := by
  have hdistinct := h.vars.distinct
  rw [List.map_append, List.nodup_append', Registry.map_fst_holdings] at hdistinct
  exact hdistinct.2.1

/-- The entry behind a slot is tied as the registry says. -/
theorem Hosts.slot_entry (h : base.Hosts (r.holdings uses) copies s) (hb : r.bool? b = some slot) :
    ∃ entry, s.var? slot.handle = some entry ∧ entry.link = r.link slot := by
  have hholding : (slot.handle, r.boolStake uses slot) ∈ r.holdings uses :=
    Registry.mem_holdings.mpr (.inl ⟨slot, Registry.mem_of_bool? hb, rfl, rfl⟩)
  obtain ⟨entry, hentry, hstake⟩ := h.vars.graded (List.mem_append_right _ hholding)
  exact ⟨entry, hentry, congrArg Stake.link hstake⟩

/-- The registry can be forked, with a bridge that was there from the start. -/
theorem Hosts.livesIn (h : base.Hosts (r.holdings uses) copies s) (hf : f.registry = r)
    (hbridge : ∀ {c}, f.bridge = some c → ∃ info, base.cons? c = some info) : f.LivesIn s where
  vars v hv := by
    rw [hf] at hv
    obtain ⟨m, hm⟩ := Registry.exists_holding_of_owned hv uses
    obtain ⟨entry, hentry, hstake⟩ := h.vars.graded (List.mem_append_right _ hm)
    exact ⟨entry, m, hentry, congrArg Stake.link hstake⟩
  bridge hc := by
    obtain ⟨info, hinfo⟩ := hbridge hc
    exact ⟨info, h.conss.kept hinfo⟩

/-- A new member of the problem gets a slot. -/
theorem Hosts.withMember (h : base.Hosts (r.holdings 2) (copies ++ s.copies) s)
    (henrols : s.Enrols v entry t) (hentry : entry.stake = ⟨1, .positive none⟩)
    (hholdings : (r'.holdings 2).Perm ((v, ⟨2, .positive none⟩) :: r.holdings 2)) :
    base.Hosts (r'.holdings 2) (copies ++ t.copies) t := by
  rw [henrols.copies_eq]
  exact (h.enrol henrols hentry).perm_tenants hholdings

/-- A new alias gets a slot, and its partner learns of it. -/
theorem Hosts.withNegation (h : base.Hosts (r.holdings 2) (copies ++ s.copies) s) (hr : r.Paired)
    (hb : r.bool? b = some slot) (hslot : slot.polarity = .positive none)
    (hnew : new.polarity = .negated b) (hnegates : s.Negates slot.handle entry new.handle t) :
    base.Hosts ((r.withNegation b new).holdings 2) (copies ++ t.copies) t := by
  obtain ⟨rest, hbefore, hafter⟩ :=
    Registry.holdings_withNegation hr hb hslot hnew h.nodup_vars 2
  rw [copies_eq_of_frame hnegates.frame_eq]
  exact ((h.perm_tenants hbefore.symm).negate hnegates).perm_tenants hafter

end Registry

/-! ## Who owns a handle -/

/-- Handles that belong to no copy. -/
def Foreign (copies : List Formulation) (v : VarId) : Prop :=
  ∀ g ∈ copies, v ∉ g.registry.vars

/-- What the tenants hold belongs to no copy. -/
theorem Hosts.foreign_of_tenant (h : base.Hosts tenants copies s) {v : VarId}
    (hv : v ∈ tenants.map Prod.fst) : Foreign copies v := by
  intro g hg hmem
  have hdistinct := h.vars.distinct
  rw [List.map_append, List.nodup_append'] at hdistinct
  refine hdistinct.2.2 ?_ hv
  rw [← Registry.map_fst_holdings g.registry 1] at hmem
  obtain ⟨⟨v, stake⟩, hholding, rfl⟩ := List.mem_map.mp hmem
  exact List.mem_map_of_mem (List.mem_flatMap.mpr ⟨g, hg, hholding⟩)

/-- After the copies are gone, only the entries from the start are left. -/
theorem Hosts.vacant (h : base.Hosts [] [] s) : s.var? = base.var? ∧ s.cons? = base.cons? :=
  ⟨funext fun _ => h.vars.others (by simp [copyHoldings]),
    funext fun _ => h.conss.others (by simp [copyBridges])⟩

end Session

/-! ## Pools -/

/-- A session with the detached copies that live in it, and how many copies were made
and discarded so far. -/
structure Pool where
  session : Session
  detached : List Formulation := []
  made : Nat := 0
  gone : Nat := 0

namespace Pool

open Session

variable {f source copy : Formulation} {p q start : Pool} {base : Session}
  {tenants : List (VarId × Stake)}

/-- All copies that are alive, the detached ones in front. -/
def copies (p : Pool) : List Formulation := p.detached ++ p.session.copies

/-- Forks a detached copy, in the reach of faults. -/
def fork (p : Pool) (source : Formulation) (faults : Faults) : Pool :=
  match source.fork ⟨p.session, faults⟩ with
  | .ok copy e => { p with session := e.session, detached := copy :: p.detached, made := p.made + 1 }
  | .error _ e => { p with session := e.session }

/-- Lets the session fork a copy from its innermost one, or else from `source`. -/
def push (p : Pool) (source : Formulation) : Pool :=
  match Session.forkCopy source p.session with
  | .ok _ s => { p with session := s, made := p.made + 1 }
  | .error _ s => { p with session := s }

/-- Discards a detached copy.  It counts as gone only if all its handles could be
released. -/
def discard (p : Pool) (copy : Formulation) : Pool :=
  match copy.release { session := p.session } with
  | .ok () e =>
    { p with session := e.session, detached := p.detached.erase copy, gone := p.gone + 1 }
  | .error _ e => { p with session := e.session, detached := p.detached.erase copy }

/-- Lets the session discard its innermost copy. -/
def pop (p : Pool) : Pool :=
  match Session.discardCopy p.session with
  | .ok true s => { p with session := s, gone := p.gone + 1 }
  | .ok false s | .error _ s => { p with session := s }

/-- What can happen to the working copies of the primary formulation `f`. -/
inductive Step (f : Formulation) : Pool → Pool → Prop
  | setLimit (p : Pool) (count : Option Nat) :
      Step f p { p with session := p.session.setLimit count }
  /-- The releases after a failure are out of reach of the faults. -/
  | fork {p : Pool} {source : Formulation} {faults : Faults} : source ∈ f :: p.copies →
      faults.lookup .releaseVar = none → faults.lookup .releaseCons = none →
      Step f p (p.fork source faults)
  | push {p : Pool} {source : Formulation} : source ∈ f :: p.copies → Step f p (p.push source)
  | discard {p : Pool} {copy : Formulation} : copy ∈ p.detached → Step f p (p.discard copy)
  | pop (p : Pool) : Step f p p.pop

/-! ## Forks -/

/-- The copies of a pool do not share entries, and the counts are right. -/
structure InOrder (base : Session) (tenants : List (VarId × Stake)) (p : Pool) : Prop where
  entries : base.Hosts tenants p.copies p.session
  counted : p.made = p.gone + p.copies.length

/-- What happens to the copies leaves the problem alone, and the hooks, and every entry
that belongs to none of them. -/
structure Spares (p q : Pool) : Prop where
  problem : q.session.problem = p.session.problem
  hooked : q.session.hooked = p.session.hooked
  vars : ∀ {v entry}, Foreign p.copies v → p.session.var? v = some entry →
    q.session.var? v = some entry

/-- Everything that can be forked is paired and alive. -/
theorem InOrder.forkable (h : p.InOrder base tenants) (hpaired : f.registry.Paired)
    (hlives : f.LivesIn p.session) (hsource : source ∈ f :: p.copies) :
    source.registry.Paired ∧ source.LivesIn p.session := by
  rcases List.mem_cons.mp hsource with rfl | hcopy
  · exact ⟨hpaired, hlives⟩
  · exact ⟨h.entries.paired source hcopy, livesIn_of_resident (h.entries.resident hcopy)⟩

/-- A fork adds one copy, or it fails and nothing moves. -/
theorem fork_hosted {s : Session} {copies : List Formulation} (h : base.Hosts tenants copies s)
    (hpaired : source.registry.Paired) (hlives : source.LivesIn s) {faults : Faults}
    (hvar : faults.lookup .releaseVar = none) (hcons : faults.lookup .releaseCons = none) :
    Ends source.fork ⟨s, faults⟩
      (fun copy e => base.Hosts tenants (copy :: copies) e.session ∧ e.session.frame = s.frame ∧
        ∀ {v entry}, s.var? v = some entry → e.session.var? v = some entry)
      fun _ e => base.Hosts tenants copies e.session ∧ e.session.frame = s.frame ∧
        e.session.var? = s.var? := by
  refine (fork_ends (e := ⟨s, faults⟩) hpaired h.sound hlives).mono (fun copy e hend => ?_)
    fun cause e hend => ?_
  · obtain ⟨-, hcaptured⟩ := hend
    have hsettles : copy.Settles s e.session := hcaptured.settles
    have hcopy : copy.registry.Paired :=
      hpaired.of_polarities (polarities_of_copies hcaptured.bools)
    exact ⟨h.moveIn hcopy hsettles, hsettles.frame, fun hv => hsettles.vars.kept hv⟩
  · obtain ⟨-, hrestored⟩ := hend
    obtain ⟨hrestored, -⟩ := hrestored hvar hcons
    exact ⟨h.of_views hrestored.sound hrestored.var? hrestored.cons?, hrestored.frame,
      hrestored.var?⟩

/-- Nobody moves in or out. -/
theorem InOrder.of_frame (h : p.InOrder base tenants) {s : Session}
    (hentries : base.Hosts tenants p.copies s) (hframe : s.frame = p.session.frame)
    (hvars : s.var? = p.session.var?) :
    { p with session := s }.InOrder base tenants ∧ p.Spares { p with session := s } := by
  have hcopies : { p with session := s }.copies = p.copies := by
    rw [Pool.copies, copies_eq_of_frame hframe]
    rfl
  refine ⟨⟨?_, ?_⟩, problem_eq_of_frame hframe, hooked_eq_of_frame hframe, fun _ hv => ?_⟩
  · rw [hcopies]
    exact hentries
  · rw [hcopies]
    exact h.counted
  · exact hvars ▸ hv

/-- A detached copy is forked, or nothing moves. -/
theorem fork_kept (h : p.InOrder base tenants) (hpaired : f.registry.Paired)
    (hlives : f.LivesIn p.session) (hsource : source ∈ f :: p.copies) {faults : Faults}
    (hvar : faults.lookup .releaseVar = none) (hcons : faults.lookup .releaseCons = none) :
    (p.fork source faults).InOrder base tenants ∧ p.Spares (p.fork source faults) := by
  obtain ⟨hpaired', hlives'⟩ := h.forkable hpaired hlives hsource
  have hfork := fork_hosted h.entries hpaired' hlives' hvar hcons
  cases hrun : source.fork ⟨p.session, faults⟩ with
  | ok copy e =>
      obtain ⟨hentries, hframe, hkept⟩ := hfork.accepted hrun
      have hcopies : copy :: p.detached ++ e.session.copies = copy :: p.copies := by
        rw [copies_eq_of_frame hframe]
        rfl
      simp only [Pool.fork, hrun]
      refine ⟨⟨?_, ?_⟩, problem_eq_of_frame hframe, hooked_eq_of_frame hframe, fun _ hv => hkept hv⟩
      · simp only [Pool.copies, hcopies]
        exact hentries
      · simp only [Pool.copies, hcopies]
        rw [h.counted, List.length_cons, Nat.add_assoc]
        rfl
  | error cause e =>
      obtain ⟨hentries, hframe, hvars⟩ := hfork.rejected hrun
      simp only [Pool.fork, hrun]
      exact h.of_frame hentries hframe hvars

/-- The session forks a copy, or nothing moves. -/
theorem push_kept (h : p.InOrder base tenants) (hpaired : f.registry.Paired)
    (hlives : f.LivesIn p.session) (hsource : source ∈ f :: p.copies) :
    (p.push source).InOrder base tenants ∧ p.Spares (p.push source) := by
  have hinnermost : p.session.innermost?.getD source ∈ f :: p.copies := by
    cases hcopies : p.session.copies with
    | nil => simpa [innermost?, hcopies] using hsource
    | cons copy rest => simp [innermost?, hcopies, Pool.copies]
  obtain ⟨hpaired', hlives'⟩ := h.forkable hpaired hlives hinnermost
  have hspared := Faults.spared_nil
  have hfork := fork_hosted h.entries hpaired' hlives' hspared.releaseVar hspared.releaseCons
  let kept (q : Pool) : Prop := q.InOrder base tenants ∧ p.Spares q
  have hends : Ends (forkCopy source) p.session
      (fun _ t => kept { p with session := t, made := p.made + 1 })
      fun _ t => kept { p with session := t } := by
    refine ends_forkCopy (fun _ _ => ⟨h, rfl, rfl, fun _ hv => hv⟩) fun _ hhooked =>
      hfork.mono (fun copy e hend => ?_) fun _ e hend => ?_
    · obtain ⟨hentries, hframe, hkept⟩ := hend
      have hperm : (p.detached ++ copy :: e.session.copies).Perm (copy :: p.copies) := by
        rw [copies_eq_of_frame hframe]
        exact List.perm_middle
      have hhooked' : e.session.hooked = true := (hooked_eq_of_frame hframe).trans hhooked
      refine ⟨⟨(hentries.perm hperm).of_tables rfl rfl fun _ => hhooked', ?_⟩,
        (problem_eq_of_frame hframe :), (hooked_eq_of_frame hframe :), fun _ hv => hkept hv⟩
      show p.made + 1 = p.gone + (p.detached ++ copy :: e.session.copies).length
      rw [hperm.length_eq, h.counted, List.length_cons, Nat.add_assoc]
    · obtain ⟨hentries, hframe, hvars⟩ := hend
      exact h.of_frame hentries hframe hvars
  unfold Pool.push
  cases hrun : forkCopy source p.session with
  | ok _ t => exact hends.accepted hrun
  | error _ t => exact hends.rejected hrun

/-! ## Discards -/

/-- A copy can be released, and then the others are left. -/
theorem release_hosted {s : Session} {copies : List Formulation}
    (h : base.Hosts tenants (copy :: copies) s) :
    ∃ t, copy.release { session := s } = .ok () { session := t } ∧ base.Hosts tenants copies t ∧
      t.frame = s.frame ∧ ∀ {v entry}, Foreign [copy] v → s.var? v = some entry →
        t.var? v = some entry := by
  have hresident := h.resident List.mem_cons_self
  obtain ⟨t, hrun, -, hreturned, -⟩ := release_accepted h.sound hresident
    (rfl : ([] : Faults).lookup .releaseVar = none) rfl
  refine ⟨t, hrun, h.moveOut hreturned, hreturned.frame, fun {v entry} hv hentry => ?_⟩
  rw [hreturned.var?_of_not_mem h.sound hresident (hv copy List.mem_cons_self), hentry]

/-- Any detached copy can be discarded. -/
theorem discard_kept (h : p.InOrder base tenants) (hcopy : copy ∈ p.detached) :
    (∃ t, copy.release { session := p.session } = .ok () { session := t }) ∧
      (p.discard copy).InOrder base tenants ∧ p.Spares (p.discard copy) := by
  have hperm : p.copies.Perm (copy :: (p.detached.erase copy ++ p.session.copies)) :=
    (List.perm_cons_erase hcopy).append_right _
  obtain ⟨t, hrun, hentries, hframe, hkept⟩ := release_hosted (h.entries.perm hperm.symm)
  have hcopies : t.copies = p.session.copies := copies_eq_of_frame hframe
  refine ⟨⟨t, hrun⟩, ?_⟩
  simp only [Pool.discard, hrun]
  refine ⟨⟨?_, ?_⟩, problem_eq_of_frame hframe, hooked_eq_of_frame hframe, ?_⟩
  · simp only [Pool.copies, hcopies]
    exact hentries
  · show p.made = p.gone + 1 + (p.detached.erase copy ++ t.copies).length
    rw [hcopies, h.counted, hperm.length_eq, List.length_cons]
    omega
  · refine fun {v entry} hv => hkept fun g hg => ?_
    rw [List.mem_singleton.mp hg]
    exact hv copy (List.mem_append_left _ hcopy)

/-- The innermost copy can be discarded, if there is one. -/
theorem pop_kept (h : p.InOrder base tenants) :
    (∃ more t, discardCopy p.session = .ok more t ∧ (more = true ↔ p.session.copies ≠ [])) ∧
      p.pop.InOrder base tenants ∧ p.Spares p.pop := by
  unfold Pool.pop
  cases hcopies : p.session.copies with
  | nil =>
      rw [discardCopy_of_none hcopies]
      exact ⟨⟨false, p.session, rfl, by simp⟩, h, rfl, rfl, fun _ hv => hv⟩
  | cons copy rest =>
      have hhooked : p.session.hooked = true := h.entries.sound.hooked (by simp [hcopies])
      have hperm : p.copies.Perm (copy :: (p.detached ++ rest)) := by
        rw [Pool.copies, hcopies]
        exact List.perm_middle
      -- the copy is off the stack before it is released
      let short : Session := { p.session with copies := rest }
      have hshort : base.Hosts tenants (copy :: (p.detached ++ rest)) short :=
        (h.entries.perm hperm.symm).of_tables rfl rfl fun _ => hhooked
      obtain ⟨t, hrelease, hentries, hframe, hkept⟩ := release_hosted hshort
      have hrest : t.copies = rest := copies_eq_of_frame hframe
      have hrun : discardCopy p.session =
          .ok true { t with ledger.discards := t.ledger.discards + 1 } := by
        rw [discardCopy_of_copies hhooked hcopies, Engine.onSession, onPart]
        simp only [short] at hrelease
        rw [hrelease]
      rw [hrun]
      refine ⟨⟨true, _, rfl, by simp⟩, ⟨?_, ?_⟩, (problem_eq_of_frame hframe :),
        (hooked_eq_of_frame hframe :), ?_⟩
      · rw [← hrest] at hentries
        exact hentries.of_tables rfl rfl hentries.sound.hooked
      · show p.made = p.gone + 1 + (p.detached ++ t.copies).length
        rw [hrest, h.counted, hperm.length_eq, List.length_cons]
        omega
      · refine fun {v entry} hv => hkept fun g hg => ?_
        rw [List.mem_singleton.mp hg]
        exact hv copy (hperm.mem_iff.mpr List.mem_cons_self)

/-! ## Whatever happens to the copies -/

/-- The step lemma: the pool stays in order. -/
theorem Step.kept (hstep : Step f p q) (h : p.InOrder base tenants) (hpaired : f.registry.Paired)
    (hlives : f.LivesIn p.session) : q.InOrder base tenants ∧ p.Spares q := by
  cases hstep with
  | setLimit count =>
      exact ⟨⟨h.entries.of_tables rfl rfl h.entries.sound.hooked, h.counted⟩, rfl, rfl,
        fun _ hv => hv⟩
  | fork hsource hvar hcons => exact fork_kept h hpaired hlives hsource hvar hcons
  | push hsource => exact push_kept h hpaired hlives hsource
  | discard hcopy => exact (discard_kept h hcopy).2
  | pop => exact (pop_kept h).2

/-- What is alive at the start stays alive. -/
theorem InOrder.livesIn (h : p.InOrder base tenants) (hlives : f.LivesIn base) :
    f.LivesIn p.session where
  vars v hv := by
    obtain ⟨entry, m, hentry, hlink⟩ := hlives.vars v hv
    exact ⟨entry, m, h.entries.vars.kept hentry, hlink⟩
  bridge hc := by
    obtain ⟨info, hinfo⟩ := hlives.bridge hc
    exact ⟨info, h.entries.conss.kept hinfo⟩

/-- The pools that steps lead to from a session without copies. -/
def Reaches (p : Pool) (f : Formulation) (s : Session) : Prop :=
  Relation.ReflTransGen (Step f) { session := s } p

/-- The run lemma: every pool is in order, and the problem is what it was. -/
theorem Reaches.kept {s : Session} (hreach : p.Reaches f s) (hpaired : f.registry.Paired)
    (hsound : s.Sound) (hlives : f.LivesIn s) (hcopies : s.copies = []) :
    p.InOrder s [] ∧ p.session.problem = s.problem := by
  induction hreach with
  | refl =>
      refine ⟨⟨?_, ?_⟩, rfl⟩
      · rw [Pool.copies, hcopies]
        exact .refl hsound
      · rw [Pool.copies, hcopies]
        rfl
  | tail _ hstep ih =>
      obtain ⟨horder, hproblem⟩ := ih
      obtain ⟨horder', hspares⟩ := hstep.kept horder hpaired (horder.livesIn hlives)
      exact ⟨horder', hspares.problem.trans hproblem⟩

end Pool

/-! ## Discards undo forks -/

namespace Formulation

variable {f : Formulation} {s : Session}

/-- Whatever was forked and discarded since the session `s`, no discard is rejected, and
once all copies that were made are gone, every handle stands for what it stood for in
`s`, and the problem and the stack of copies are those of `s`. -/
theorem discards_undo_forks (hbuilt : f.Built) (hs : s.Reachable) (hcopies : s.copies = [])
    (hlives : f.LivesIn s) {p : Pool} (hreach : p.Reaches f s) :
    (∀ copy ∈ p.detached,
      ∃ t, copy.release { session := p.session } = .ok () { session := t }) ∧
    (∃ more t, Session.discardCopy p.session = .ok more t ∧
      (more = true ↔ p.session.copies ≠ [])) ∧
    (p.made = p.gone → p.detached = [] ∧ p.session.var? = s.var? ∧ p.session.cons? = s.cons? ∧
      p.session.problem = s.problem ∧ p.session.copies = s.copies) := by
  obtain ⟨horder, hproblem⟩ := hreach.kept hbuilt.paired hs.sound hlives hcopies
  refine ⟨fun copy hcopy => (Pool.discard_kept horder hcopy).1, (Pool.pop_kept horder).1,
    fun hgone => ?_⟩
  have hnone : p.copies = [] := by
    have hcounted := horder.counted
    exact List.length_eq_zero_iff.mp (by omega)
  have hentries := horder.entries
  rw [hnone] at hentries
  obtain ⟨hdetached, hstack⟩ := List.append_eq_nil_iff.mp hnone
  exact ⟨hdetached, hentries.vacant.1, hentries.vacant.2, hproblem, hstack.trans hcopies.symm⟩

/-- The session of a new model that is ready to fork working copies. -/
def seedSession : Session := { Session.history seedCalls with hooked := true }

theorem LivesIn.hooked (h : f.LivesIn s) : f.LivesIn { s with hooked := true } :=
  ⟨h.vars, h.bridge⟩

theorem reachable_hooked (h : s.Reachable) : Session.Reachable { s with hooked := true } :=
  h.call .installHooks

/-- A detached copy. -/
def parentPool : Pool := Pool.fork { session := seedSession } seed []

/-- Beside it, a copy of that copy. -/
def childPool : Pool := parentPool.fork (parentPool.detached.headD seed) []

/-- The first copy is gone before the one that was forked from it. -/
def orphanPool : Pool := childPool.discard (parentPool.detached.headD seed)

/-- The other copy is gone too. -/
def emptyPool : Pool := orphanPool.discard (orphanPool.detached.headD seed)

theorem reaches_emptyPool : emptyPool.Reaches seed seedSession := by
  have hparent : Pool.Step seed { session := seedSession }
      (Pool.fork { session := seedSession } seed []) := .fork (by simp) rfl rfl
  have hchild : Pool.Step seed parentPool
      (parentPool.fork (parentPool.detached.headD seed) []) := .fork (by decide +kernel) rfl rfl
  have horphan : Pool.Step seed childPool
      (childPool.discard (parentPool.detached.headD seed)) := .discard (by decide +kernel)
  have hempty : Pool.Step seed orphanPool
      (orphanPool.discard (orphanPool.detached.headD seed)) := .discard (by decide +kernel)
  exact (((Relation.ReflTransGen.single hparent).tail hchild).tail horphan).tail hempty

theorem discards_undo_forks_seed :
    (seed.Built ∧ seedSession.Reachable ∧ seedSession.copies = [] ∧ seed.LivesIn seedSession ∧
      emptyPool.Reaches seed seedSession ∧ emptyPool.made = 2 ∧ emptyPool.gone = 2) ∧
    emptyPool.session.var? = seedSession.var? ∧ emptyPool.session.cons? = seedSession.cons? := by
  have hreachable : seedSession.Reachable := reachable_hooked (Session.reachable_history seedCalls)
  have hlives : seed.LivesIn seedSession := livesIn_seed.hooked
  have hcopies : seedSession.copies = [] := by decide +kernel
  have hmade : emptyPool.made = 2 := by decide +kernel
  have hgone : emptyPool.gone = 2 := by decide +kernel
  obtain ⟨-, -, hback⟩ :=
    discards_undo_forks built_seed hreachable hcopies hlives reaches_emptyPool
  obtain ⟨-, hvars, hconss, -⟩ := hback (hmade.trans hgone.symm)
  exact ⟨⟨built_seed, hreachable, hcopies, hlives, reaches_emptyPool, hmade, hgone⟩, hvars, hconss⟩

end Formulation

end JointModel
