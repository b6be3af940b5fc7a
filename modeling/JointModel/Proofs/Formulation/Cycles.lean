import JointModel.Proofs.Session.Safety
import JointModel.Proofs.Session.TableSizes
import JointModel.Proofs.Session.Turnover
import JointModel.Proofs.Session.Untouched

/-!
# Forking and discarding over and over

A cycle forks a formulation and releases the copy again.  It leads back to the entries that the
session had before, so the next cycle finds the same entries, and needs as many numbers as the
first one did (`Unwinds`).  As numbers are used again, the tables stay as large as the first cycle
left them (`tables_at_peak`).

The handles of the formulation need not be its own: they may be stale, and then stand for nothing
or for entries of others.  A fork is rejected at a handle that stands for nothing.  If one stands
for an alias, what is captured for it is an alias, too, and cannot be released (`Doomed`).  So in
a cycle that is completed, every slot took one entry (`Accounted`).
-/

namespace JointModel

open Effect Relation

namespace Session

variable {s t : Session} {v n : VarId} {entry : VarInfo}

/-! ## Aliases -/

/-- The handle stands for the negation of another variable. -/
def IsAlias (s : Session) (n : VarId) : Prop :=
  ∃ entry p, s.var? n = some entry ∧ entry.link = .negation p

theorem IsAlias.not_positive (h : s.IsAlias n) : ¬ s.Positive n := by
  rintro ⟨entry, m, hn, hlink⟩
  obtain ⟨other, p, hn', hlink'⟩ := h
  rw [hn] at hn'
  cases hn'
  rw [hlink] at hlink'
  cases hlink'

theorem Negates.isAlias (h : s.Negates v entry n t) : t.IsAlias n :=
  ⟨entry.negated v, v, by rw [h.var?, if_pos rfl], rfl⟩

/-- The outcomes of a copy: a new entry, or an alias if an alias was to be copied. -/
theorem ends_copyVar (h : s.Sound) (v : VarId) {P : VarId → Session → Prop}
    {Q : EngineError → Session → Prop}
    (hadds : ∀ {entry : VarInfo} {w t}, s.Adds w entry.copied t → P w t)
    (halias : ∀ {n t}, t.vars.Sound → t.IsAlias n → P n t)
    (hrejected : ∀ cause t, Q cause t) : Ends (copyVar v) s P Q := by
  cases hv : s.var? v with
  | none =>
      exact ends_of_rejected (e := .invalidVar v) (t := s) (by simp [copyVar, getVar, hv])
        (hrejected _ _)
  | some entry =>
      cases hlink : entry.link with
      | positive m =>
          exact (copyVar_ends h.vars hv hlink).mono (fun w t ht => hadds ht.2)
            fun cause t _ => hrejected cause t
      | negation p =>
          obtain ⟨-, partner, hp, -⟩ := h.linked.positive hv hlink
          refine (copyVar_alias_ends h.vars hv hlink hp).mono (fun n t ht => ?_)
            fun cause t _ => hrejected cause t
          obtain ⟨target, u, -, hnegates⟩ := ht
          exact halias hnegates.table hnegates.isAlias

/-- While a copy is captured, an alias remains one. -/
theorem capturing_isAlias (n : VarId) : Capturing fun s => s.vars.Sound ∧ s.IsAlias n := by
  have hgained : ∀ {α : Type} {act : Run α}, (∀ start, Keeps (Gained start) act) →
      Keeps (fun s => s.vars.Sound ∧ s.IsAlias n) act := by
    intro α act hact s hs
    obtain ⟨hsound, negated, p, hn, hlink⟩ := hs
    have hkept : ∀ t, Gained s.var? t → t.vars.Sound ∧ t.IsAlias n := fun t ht =>
      ⟨ht.table, negated, p, (survives_of_gains ht.gains p).negation hn hlink, hlink⟩
    exact (hact s.var? s (gained_refl hsound)).mono (fun _ t ht => hkept t ht)
      fun _ t ht => hkept t ht
  exact
    { copyVar := fun v => hgained fun start => (capturing_gained start).copyVar v
      negateVar := fun v => hgained fun start => (capturing_gained start).negateVar v
      copyCons := fun c => hgained fun start => (capturing_gained start).copyCons c }

/-- Releases make no entries. -/
theorem releasing_not_positive (v : VarId) : Releasing fun s => ¬ s.Positive v where
  releaseVar w := Keeps.bind (fun _ hs => hs) fun _ s hs => by
    refine ends_dropVarUse w (fun entry m _ _ => ?_) (fun entry m hw hlink _ => ?_) fun _ => hs
    · rintro ⟨other, k, hv, hother⟩
      rw [var?_freeVar] at hv
      split at hv
      · cases hv
      · exact hs ⟨other, k, hv, hother⟩
    · rintro ⟨other, k, hv, hother⟩
      rw [var?_modifyUses hw (· - 1)] at hv
      split at hv
      · next hvw => exact hs ⟨entry, m, hvw ▸ hw, hlink⟩
      · exact hs ⟨other, k, hv, hother⟩
  releaseCons c := Keeps.bind (fun _ hs => hs) fun _ s hs =>
    ends_dropConsUse c (fun _ _ => hs) (fun _ _ _ => hs) fun _ => hs

/-! ## Sizes -/

/-- While a copy is captured, tables grow as far as they have to. -/
theorem storing_fills (s : Session) :
    Storing fun t => s.vars.Fills t.vars ∧ s.conss.Fills t.conss where
  rest ht hvars hconss := by rwa [hvars, hconss]
  insertVar entry ht := ⟨ht.1.insert entry, ht.2⟩
  modifyVar i change ht := ⟨ht.1.modify i change, ht.2⟩
  insertCons entry ht := ⟨ht.1, ht.2.insert entry⟩

/-- Releases leave the numbers in the tables. -/
theorem releasing_sizes (vars conss : Nat) :
    Releasing fun s => s.vars.size = vars ∧ s.conss.size = conss where
  releaseVar w := Keeps.bind (fun _ hs => hs) fun _ s hs => by
    refine ends_dropVarUse w (fun entry m _ _ => ?_) (fun _ _ _ _ _ => ?_) fun _ => hs
    · refine ⟨?_, hs.2⟩
      cases m <;> simpa only [freeVar, HandleTable.size_remove] using hs.1
    · exact ⟨by rw [HandleTable.size_modify, hs.1], hs.2⟩
  releaseCons c := Keeps.bind (fun _ hs => hs) fun _ s hs =>
    ends_dropConsUse c (fun _ _ => ⟨hs.1, by rw [freeCons, HandleTable.size_remove, hs.2]⟩)
      (fun _ _ _ => ⟨hs.1, by rw [HandleTable.size_modify, hs.2]⟩) fun _ => hs

theorem setOf_live_vars (s : Session) :
    {v | s.var? v ≠ none} = VarId.mk '' {i | s.vars.get? i ≠ none} := by
  ext v
  exact ⟨fun hv => ⟨v.index, hv, rfl⟩, by rintro ⟨i, hi, rfl⟩; exact hi⟩

theorem setOf_live_conss (s : Session) :
    {c | s.cons? c ≠ none} = ConsId.mk '' {i | s.conss.get? i ≠ none} := by
  ext c
  exact ⟨fun hc => ⟨c.index, hc, rfl⟩, by rintro ⟨i, hi, rfl⟩; exact hi⟩

/-- As many entries of variables are live as there are handles that stand for one. -/
theorem liveCount_vars (s : Session) : s.vars.liveCount = {v | s.var? v ≠ none}.ncard := by
  rw [setOf_live_vars, Set.ncard_image_of_injective _ fun _ _ h => congrArg VarId.index h,
    HandleTable.liveCount_eq_ncard]

theorem liveCount_conss (s : Session) : s.conss.liveCount = {c | s.cons? c ≠ none}.ncard := by
  rw [setOf_live_conss, Set.ncard_image_of_injective _ fun _ _ h => congrArg ConsId.index h,
    HandleTable.liveCount_eq_ncard]

theorem finite_live_vars (s : Session) : {v | s.var? v ≠ none}.Finite := by
  rw [setOf_live_vars]
  exact s.vars.finite_live.image _

theorem finite_live_conss (s : Session) : {c | s.cons? c ≠ none}.Finite := by
  rw [setOf_live_conss]
  exact s.conss.finite_live.image _

/-- The same handles stand for the same entries. -/
def SameEntries (s t : Session) : Prop := t.var? = s.var? ∧ t.cons? = s.cons?

/-- The tables are as large. -/
def SameSizes (s t : Session) : Prop :=
  t.vars.size = s.vars.size ∧ t.conss.size = s.conss.size

/-! ## Working copies -/

/-- The copy on top of the stack was forked. -/
theorem exists_fork_of_forkCopy {source : Formulation} {depth : Nat}
    (h : forkCopy source s = .ok depth t) :
    ∃ copy e, (s.innermost?.getD source).fork { session := s } = .ok copy e ∧
      t = { e.session with
        copies := copy :: e.session.copies, ledger.forks := e.session.ledger.forks + 1 } := by
  refine (ends_forkCopy (P := fun _ t => ∃ copy e,
    (s.innermost?.getD source).fork { session := s } = .ok copy e ∧ t = { e.session with
      copies := copy :: e.session.copies, ledger.forks := e.session.ledger.forks + 1 })
    (Q := fun _ _ => True) (fun _ _ => trivial) fun _ _ => ?_).accepted h
  cases hrun : (s.innermost?.getD source).fork { session := s } with
  | ok copy e => exact ends_of_accepted hrun ⟨copy, e, rfl, rfl⟩
  | error cause e => exact ends_of_rejected hrun trivial

/-- The copy on top of the stack was released. -/
theorem exists_release_of_discardCopy (h : discardCopy s = .ok true t) :
    ∃ copy rest u, s.copies = copy :: rest ∧
      Engine.onSession copy.release { s with copies := rest } = .ok () u ∧
      t = { u with ledger.discards := u.ledger.discards + 1 } := by
  refine (ends_discardCopy (P := fun more t => more = true → ∃ copy rest u,
    s.copies = copy :: rest ∧ Engine.onSession copy.release { s with copies := rest } = .ok () u ∧
    t = { u with ledger.discards := u.ledger.discards + 1 }) (Q := fun _ _ => True)
    (fun _ hmore => by cases hmore) fun copy rest _ hcopies => ?_).accepted h rfl
  cases hrun : Engine.onSession copy.release { s with copies := rest } with
  | ok _ u => exact ends_of_accepted hrun fun _ => ⟨copy, rest, u, hcopies, hrun, rfl⟩
  | error cause u => exact ends_of_rejected hrun trivial

end Session

namespace Formulation

open Session Registry

variable {f copy : Formulation} {s t u : Session} {e : Engine} {a : Assembly}
  {conss : List ConsId} {bools : List BoolSlot} {ints : List IntSlot}

/-! ## Releases that go through -/

/-- If a release goes through, all that the formulation owned were entries of their own. -/
theorem ownedAlive_of_release (h : Engine.onSession f.release s = .ok () t) : f.OwnedAlive s := by
  intro v hv
  by_contra hdead
  have hkeeps := releasing_not_positive v
  have hends : Ends (Engine.onSession f.release) s (fun _ _ => v ∉ f.registry.ownedVars)
      fun _ _ => True := by
    rw [onSession_release, ends_bind]
    refine (Keeps.forM hkeeps.releaseCons s hdead).mono (fun _ u hu => ?_) fun _ _ _ => trivial
    refine (ends_forM (I := fun done t => v ∉ done ∧ ¬ t.Positive v)
      (fun done w rest _ t ht => ?_) ⟨List.not_mem_nil, hu⟩).mono (fun _ _ ht => ht.1)
      fun _ _ ht => ht
    by_cases hvw : v = w
    · obtain ⟨cause, hrejected⟩ := releaseVar_of_not_positive (hvw ▸ ht.2)
      exact ends_of_rejected hrejected trivial
    · refine (hkeeps.releaseVar w t ht.2).mono (fun _ _ hlast => ⟨?_, hlast⟩) fun _ _ _ => trivial
      simp [ht.1, hvw]
  exact hends.accepted h hv

/-! ## What a fork takes -/

/-- The assembly is through with these parts of a formulation, and each of them took one entry of
the session `s`, unless it is a virtual slot. -/
structure Accounted (s : Session) (conss : List ConsId) (bools : List BoolSlot)
    (ints : List IntSlot) (a : Assembly) : Prop where
  settles : a.formulation.Settles s a.engine.session
  faults : a.engine.faults = []
  conss : a.formulation.bridge.toList.length = conss.length
  polarities : a.formulation.registry.bools.toList.map BoolSlot.polarity =
    bools.map BoolSlot.polarity
  handles : a.formulation.registry.intVars.length = (ints.filterMap IntSlot.handle).length

/-- The assembly owns an alias, so what it puts together cannot be released. -/
def Doomed (a : Assembly) : Prop :=
  ∃ v ∈ a.formulation.registry.ownedVars, a.engine.session.vars.Sound ∧ a.engine.session.IsAlias v

theorem Assembly.ends_onEngine {α : Type} {op : Operation} {act : Session.Run α}
    {Q : α → Assembly → Prop} {E : EngineError → Assembly → Prop} (hfaults : a.engine.faults = []) :
    Ends (Assembly.onEngine (Engine.call op act)) a Q E ↔
      Ends act a.engine.session (fun x t => Q x { a with engine := { session := t } })
        fun cause t => E cause { a with engine := { session := t } } := by
  rw [Assembly.onEngine, ends_onPart, Engine.ends_call hfaults]
  rfl

theorem accounted_start (hs : s.Sound) (f : Formulation) :
    Accounted s [] [] [] ⟨{ session := s }, f.blank⟩ :=
  ⟨settles_blank hs f, rfl, rfl, rfl, rfl⟩

theorem captureBridge_accounted (h : Accounted s [] [] [] a) (c : ConsId) :
    Ends (Assembly.captureBridge c) a (fun _ a' => Accounted s [c] [] [] a') fun _ _ => True := by
  have hnone : a.formulation.bridge = none := by simpa using h.conss
  unfold Assembly.captureBridge
  rw [ends_bind]
  refine (Assembly.ends_onEngine h.faults).mpr
    (ends_copyCons h.settles.sound.conss c (fun info d t _ hadds => ?_) fun _ => trivial)
  exact ⟨h.settles.addBridge hadds rfl hnone, rfl, rfl, h.polarities, h.handles⟩

/-- The handle of a boolean slot is a new entry, or an alias that was captured for an alias. -/
theorem captureBoolHandle_accounted (hpaired : f.registry.Paired)
    (h : Accounted s conss bools [] a) {slot : BoolSlot} {rest : List BoolSlot}
    (hsplit : f.registry.bools.toList = bools ++ slot :: rest) :
    Ends (Assembly.captureBoolHandle slot) a
      (fun handle a' => ∃ t, a' = { a with engine := { session := t } } ∧
        ({ a.formulation with
            registry := a.formulation.registry.withBool { slot with handle } }.Settles s t ∨
          slot.isPositive ∧ t.vars.Sound ∧ t.IsAlias handle))
      fun _ _ => True := by
  have haligned := aligned_withBool hpaired h.polarities hsplit
  obtain ⟨m, hpolarity⟩ | ⟨p, hpolarity⟩ :
      (∃ m, slot.polarity = .positive m) ∨ ∃ p, slot.polarity = .negated p := by
    cases slot.polarity <;> simp
  · have hpositive : slot.isPositive = true := BoolSlot.isPositive_of_positive hpolarity
    have hsettles : ∀ {w t} {entry : VarInfo}, a.engine.session.Adds w entry.copied t →
        { a.formulation with
          registry := a.formulation.registry.withBool { slot with handle := w } }.Settles s t :=
      fun {w _ _} hadds => h.settles.add hadds rfl (haligned w)
        (holdings_withBool_positive (haligned w) hpolarity 1)
    simp only [Assembly.captureBoolHandle, hpolarity]
    rw [← hpolarity]
    exact (Assembly.ends_onEngine h.faults).mpr (ends_copyVar h.settles.sound slot.handle
      (fun hadds => ⟨_, rfl, .inl (hsettles hadds)⟩)
      (fun hsound halias => ⟨_, rfl, .inr ⟨hpositive, hsound, halias⟩⟩) fun _ _ => trivial)
  · obtain ⟨partner, entry, hp, hv, hlink, hsettles⟩ := h.settles.negatedSlot hpolarity haligned
    simp only [Assembly.captureBoolHandle, hpolarity]
    rw [← hpolarity, ends_bind, ends_get, hp, Option.getD_some]
    exact (Assembly.ends_onEngine h.faults).mpr ((negateVar_ends h.settles.sound.vars hv hlink).mono
      (fun _ _ ht => ⟨_, rfl, .inl (hsettles ht.2)⟩) fun _ _ _ => trivial)

theorem captureBool_accounted (hpaired : f.registry.Paired) (h : Accounted s conss bools [] a)
    {slot : BoolSlot} {rest : List BoolSlot}
    (hsplit : f.registry.bools.toList = bools ++ slot :: rest) :
    Ends (Assembly.captureBool slot) a
      (fun _ a' => Accounted s conss (bools ++ [slot]) [] a' ∨ Doomed a') fun _ _ => True := by
  unfold Assembly.captureBool
  rw [ends_bind]
  refine (captureBoolHandle_accounted hpaired h hsplit).mono (fun handle a' ha' => ?_)
    fun _ _ _ => trivial
  obtain ⟨t, rfl, hsettles | ⟨hpositive, hsound, halias⟩⟩ := ha'
  · refine .inl ⟨hsettles, rfl, h.conss, ?_, h.handles⟩
    simp [h.polarities]
  · refine .inr ⟨handle, mem_ownedVars.mpr (.inl ⟨{ slot with handle }, ?_, hpositive, rfl⟩),
      hsound, halias⟩
    simp

theorem captureInt_accounted (h : Accounted s conss bools ints a) (slot : IntSlot) :
    Ends (Assembly.captureInt slot) a
      (fun _ a' => Accounted s conss bools (ints ++ [slot]) a' ∨ Doomed a') fun _ _ => True := by
  unfold Assembly.captureInt Assembly.captureIntHandle
  rw [ends_bind]
  cases hhandle : slot.handle with
  | none =>
      let r := a.formulation.registry.withInt { slot with handle := none }
      have hints : r.intVars = a.formulation.registry.intVars := by
        rw [intVars_withInt, Option.toList_none, List.append_nil]
      refine .inl ⟨h.settles.congr rfl hints, h.faults, h.conss, h.polarities, ?_⟩
      show r.intVars.length = _
      rw [hints, h.handles]
      simp [hhandle]
  | some v =>
      dsimp only
      rw [ends_map]
      refine (Assembly.ends_onEngine h.faults).mpr (ends_copyVar h.settles.sound v
        (fun {_ w _} hadds => ?_) (fun {n _} hsound halias => ?_) fun _ _ => trivial)
      · refine .inl ⟨h.settles.add hadds rfl (aligned_withInt h.settles.aligned
          { slot with handle := some w }) (holdings_withInt _ _ 1), rfl, h.conss, h.polarities, ?_⟩
        show (a.formulation.registry.withInt { slot with handle := some w }).intVars.length = _
        rw [intVars_withInt, List.length_append, h.handles]
        simp [hhandle]
      · refine .inr ⟨n, mem_ownedVars.mpr (.inr ?_), hsound, halias⟩
        show n ∈ (a.formulation.registry.withInt { slot with handle := some n }).intVars
        rw [intVars_withInt]
        simp

/-! ### Doomed assemblies -/

theorem keeps_doomed {act : Assembly.Step Unit}
    (howned : ∀ v, Keeps (fun a : Assembly => v ∈ a.formulation.registry.ownedVars) act)
    (halias : ∀ {P : Engine → Prop}, Engine.Capturing P →
      Keeps (fun a : Assembly => P a.engine) act) : Keeps Doomed act := by
  rintro a ⟨v, hv, hsound, hn⟩
  have hkeeps := (howned v).and (halias (capturing_isAlias v).engine)
  exact (hkeeps a ⟨hv, hsound, hn⟩).mono (fun _ _ ha' => ⟨v, ha'⟩) fun _ _ ha' => ⟨v, ha'⟩

theorem keeps_doomed_captureBool (slot : BoolSlot) : Keeps Doomed (Assembly.captureBool slot) := by
  refine keeps_doomed (fun v => ?_) fun hP => Assembly.keeps_captureBool hP slot
  refine (keeps_registry_captureBoolHandle (P := fun r => v ∈ r.ownedVars) slot).bind
    fun handle a hv => ?_
  rcases mem_ownedVars.mp hv with ⟨other, hother, hpositive, hhandle⟩ | hv
  · exact mem_ownedVars.mpr (.inl ⟨other, by simp [hother], hpositive, hhandle⟩)
  · exact mem_ownedVars.mpr (.inr hv)

theorem keeps_doomed_captureInt (slot : IntSlot) : Keeps Doomed (Assembly.captureInt slot) := by
  refine keeps_doomed (fun v => ?_) fun hP => Assembly.keeps_captureInt hP slot
  refine (keeps_registry_captureIntHandle (P := fun r => v ∈ r.ownedVars) slot).bind
    fun handle a hv => ?_
  rcases mem_ownedVars.mp hv with hv | hv
  · exact mem_ownedVars.mpr (.inl hv)
  · refine mem_ownedVars.mpr (.inr ?_)
    show v ∈ (a.formulation.registry.withInt { slot with handle }).intVars
    rw [intVars_withInt]
    exact List.mem_append_left _ hv

/-! ### The whole fork -/

/-- Every part that a fork captures takes one entry, unless the copy cannot be released. -/
theorem capture_accounted (hpaired : f.registry.Paired) (hs : s.Sound) :
    Ends (Assembly.capture f) ⟨{ session := s }, f.blank⟩
      (fun _ a => Accounted s f.bridge.toList f.registry.bools.toList f.registry.ints.toList a ∨
        Doomed a)
      fun _ _ => True := by
  unfold Assembly.capture
  rw [ends_bind]
  have hbridge : Ends (f.bridge.toList.forM Assembly.captureBridge) ⟨{ session := s }, f.blank⟩
      (fun _ a => Accounted s f.bridge.toList [] [] a) fun _ _ => True := by
    cases f.bridge with
    | none => exact accounted_start hs f
    | some c =>
        rw [Option.toList_some, List.forM_eq_forM, List.forM_cons, ends_bind]
        exact (captureBridge_accounted (accounted_start hs f) c).mono (fun _ _ ha => ha)
          fun _ _ _ => trivial
  refine hbridge.mono (fun _ a ha => ?_) fun _ _ _ => trivial
  rw [ends_bind]
  have hbools : Ends (f.registry.bools.toList.forM Assembly.captureBool) a
      (fun _ a => Accounted s f.bridge.toList f.registry.bools.toList [] a ∨ Doomed a)
      fun _ _ => True := by
    refine ends_forM (I := fun done a => Accounted s f.bridge.toList done [] a ∨ Doomed a)
      (fun done slot rest hsplit a ha => ?_) (.inl ha)
    rcases ha with ha | ha
    · exact captureBool_accounted hpaired ha hsplit
    · exact (keeps_doomed_captureBool slot a ha).mono (fun _ _ ha => .inr ha) fun _ _ _ => trivial
  refine hbools.mono (fun _ a ha => ?_) fun _ _ _ => trivial
  refine ends_forM
    (I := fun done a => Accounted s f.bridge.toList f.registry.bools.toList done a ∨ Doomed a)
    (fun done slot rest hsplit a ha => ?_) ha
  rcases ha with ha | ha
  · exact captureInt_accounted ha slot
  · exact (keeps_doomed_captureInt slot a ha).mono (fun _ _ ha => .inr ha) fun _ _ _ => trivial

/-- A fork of which the copy can be released took one entry for every handle. -/
theorem settles_of_fork (hpaired : f.registry.Paired) (hs : s.Sound)
    (hfork : f.fork { session := s } = .ok copy e) (halive : copy.OwnedAlive e.session) :
    copy.Settles s e.session ∧ copy.registry.vars.length = f.registry.vars.length ∧
      copy.bridge.toList.length = f.bridge.toList.length := by
  rcases (capture_accounted hpaired hs).accepted (captured_of_fork hfork) with h | h
  · have hbools := congrArg List.length h.polarities
    rw [List.length_map, List.length_map] at hbools
    refine ⟨h.settles, ?_, h.conss⟩
    rw [Registry.vars, Registry.vars, List.length_append, List.length_append, List.length_map,
      List.length_map, hbools, h.handles, intVars]
  · obtain ⟨v, hv, -, halias⟩ := h
    exact absurd (halive v hv) halias.not_positive

/-- The tables grow as far as they must for the entries of the copy. -/
theorem sizes_of_fork (hs : s.Sound) (hfork : f.fork { session := s } = .ok copy e)
    (hsettles : copy.Settles s e.session) :
    e.session.vars.size = max s.vars.size (s.vars.liveCount + copy.registry.vars.length) ∧
      e.session.conss.size = max s.conss.size (s.conss.liveCount + copy.bridge.toList.length) := by
  obtain ⟨hfills, hfillsConss⟩ :=
    (Assembly.keeps_capture (storing_fills s).capturing.engine f ⟨{ session := s }, f.blank⟩
      ⟨HandleTable.fills_refl hs.vars, HandleTable.fills_refl hs.conss⟩).accepted
      (captured_of_fork hfork)
  have hholdings := congrArg List.length (map_fst_holdings copy.registry 1)
  rw [List.length_map] at hholdings
  constructor
  · rw [hfills.size, liveCount_vars, liveCount_vars, hsettles.vars.ncard_live s.finite_live_vars,
      hholdings]
  · rw [hfillsConss.size, liveCount_conss, liveCount_conss,
      hsettles.conss.ncard_live s.finite_live_conss, bridgeHoldings, List.length_map]

/-- If a session has the entries that the copy settled in, its release leads back. -/
theorem Settles.back {w : Session} (h : copy.Settles s w) (hu : u.Sound) (hvar? : u.var? = w.var?)
    (hcons? : u.cons? = w.cons?) (hrelease : Engine.onSession copy.release u = .ok () t) :
    t.Sound ∧ s.SameEntries t := by
  have hholds := h.holds
  rw [← hvar?, ← hcons?] at hholds
  obtain ⟨v, hrun, -, hreturned, -⟩ := release_accepted hu
    (.of_holds h.aligned hholds.1 hholds.2) Faults.spared_nil.releaseVar
    Faults.spared_nil.releaseCons
  obtain ⟨e, hrun', rfl⟩ := Engine.exists_of_onSession hrelease
  rw [hrun] at hrun'
  cases hrun'
  obtain ⟨hvars, hconss⟩ := hreturned.holds_others hu h.aligned hholds.1 hholds.2
  refine ⟨hreturned.sound, funext fun v => ?_, funext fun c => ?_⟩
  · exact hvars.others (by simp)
  · exact hconss.others (by simp)

/-! ## Cycles -/

/-- Forks a copy of the formulation and releases it again. -/
def churn (f : Formulation) : Session.Run Unit := do
  let copy ← Engine.onSession f.fork
  Engine.onSession copy.release

/-- A copy of the formulation is forked and released again, on its own or on the stack of working
copies. -/
inductive Cycle (f : Formulation) (s t : Session) : Prop
  | detached : f.churn s = .ok () t → Cycle f s t
  | stacked {source : Formulation} {depth : Nat} {u : Session} : s.innermost?.getD source = f →
      forkCopy source s = .ok depth u → discardCopy u = .ok true t → Cycle f s t

theorem exists_fork_of_churn (h : f.churn s = .ok () t) :
    ∃ copy u, Engine.onSession f.fork s = .ok copy u ∧
      Engine.onSession copy.release u = .ok () t := by
  rw [churn, bind_apply] at h
  cases hfork : Engine.onSession f.fork s with
  | ok copy u =>
      rw [hfork] at h
      exact ⟨copy, u, rfl, h⟩
  | error cause u =>
      rw [hfork] at h
      cases h

/-- The session `t` has the entries of `s`, and its tables are as large as they must be for the
entries of a copy on top of those. -/
structure Unwinds (f : Formulation) (s t : Session) : Prop where
  sound : t.Sound
  entries : s.SameEntries t
  vars : t.vars.size = max s.vars.size (s.vars.liveCount + f.registry.vars.length)
  conss : t.conss.size = max s.conss.size (s.conss.liveCount + f.bridge.toList.length)

/-- Between the fork and the release, nothing happens to the tables. -/
theorem unwinds_of_fork (hpaired : f.registry.Paired) (hs : s.Sound)
    (hfork : f.fork { session := s } = .ok copy e)
    (hrelease : Engine.onSession copy.release u = .ok () t) (hu : u.Sound)
    (hvars : u.vars = e.session.vars) (hconss : u.conss = e.session.conss) : f.Unwinds s t := by
  have hvar? : u.var? = e.session.var? := by
    funext v
    rw [Session.var?, Session.var?, hvars]
  have hcons? : u.cons? = e.session.cons? := by
    funext c
    rw [Session.cons?, Session.cons?, hconss]
  have halive : copy.OwnedAlive e.session := by
    intro v hv
    obtain ⟨entry, m, hlive, hlink⟩ := ownedAlive_of_release hrelease v hv
    exact ⟨entry, m, hvar? ▸ hlive, hlink⟩
  obtain ⟨hsettles, hlength, hlengthConss⟩ := settles_of_fork hpaired hs hfork halive
  obtain ⟨hsound, hback⟩ := hsettles.back hu hvar? hcons? hrelease
  -- the tables keep the size that the fork gave them
  obtain ⟨hsize, hsizeConss⟩ := sizes_of_fork hs hfork hsettles
  obtain ⟨hkept, hkeptConss⟩ := (keeps_onSession_release (releasing_sizes _ _) copy u
    ⟨congrArg HandleTable.size hvars, congrArg HandleTable.size hconss⟩).accepted hrelease
  exact ⟨hsound, hback, by rw [hkept, hsize, hlength], by rw [hkeptConss, hsizeConss, hlengthConss]⟩

theorem Cycle.unwinds (h : f.Cycle s t) (hpaired : f.registry.Paired) (hs : s.Sound) :
    f.Unwinds s t := by
  cases h with
  | detached hchurn =>
      obtain ⟨copy, u, hfork, hrelease⟩ := exists_fork_of_churn hchurn
      have hu : u.Sound := (keeps_onSession_fork durable_sound f s hs).accepted hfork
      obtain ⟨e, hrun, rfl⟩ := Engine.exists_of_onSession hfork
      exact unwinds_of_fork hpaired hs hrun hrelease hu rfl rfl
  | @stacked source depth u hparent hfork hdiscard =>
      have hu : u.Sound := (keeps_forkCopy source s hs).accepted hfork
      obtain ⟨copy, e, hrun, rfl⟩ := exists_fork_of_forkCopy hfork
      obtain ⟨copy', rest, w, hcopies, hrelease, rfl⟩ := exists_release_of_discardCopy hdiscard
      cases hcopies
      rw [hparent] at hrun
      have hunwinds : f.Unwinds s w := by
        refine unwinds_of_fork hpaired hs hrun hrelease ?_ rfl rfl
        exact hu.of_tables rfl rfl fun _ => hu.hooked (List.cons_ne_nil _ _)
      exact ⟨hunwinds.sound.of_tables rfl rfl hunwinds.sound.hooked, hunwinds.entries,
        hunwinds.vars, hunwinds.conss⟩

/-- Once a cycle has gone through, another one from the same entries finds room in the tables. -/
theorem Unwinds.again {u' : Session} (h : f.Unwinds s t) (hpaired : f.registry.Paired)
    (hu : u.Sound) (hentries : s.SameEntries u) (hvars : t.vars.size ≤ u.vars.size)
    (hconss : t.conss.size ≤ u.conss.size) (hcycle : f.Cycle u u') : u.SameSizes u' := by
  have hunwinds := hcycle.unwinds hpaired hu
  rw [h.vars] at hvars
  rw [h.conss] at hconss
  constructor
  · rw [hunwinds.vars, liveCount_vars, hentries.1, ← liveCount_vars]
    exact max_eq_left ((le_max_right _ _).trans hvars)
  · rw [hunwinds.conss, liveCount_conss, hentries.2, ← liveCount_conss]
    exact max_eq_left ((le_max_right _ _).trans hconss)

/-- All further cycles end with the entries and the sizes of the first one. -/
theorem unwinds_of_cycles (hpaired : f.registry.Paired) (hs : s.Sound) (hfirst : f.Cycle s t)
    (hmore : ReflTransGen f.Cycle t u) : u.Sound ∧ s.SameEntries u ∧ t.SameSizes u := by
  have ht := hfirst.unwinds hpaired hs
  induction hmore with
  | refl => exact ⟨ht.sound, ht.entries, rfl, rfl⟩
  | tail _ hcycle ih =>
      obtain ⟨hu, hentries, hvars, hconss⟩ := ih
      have hu' := hcycle.unwinds hpaired hu
      obtain ⟨hvars', hconss'⟩ := ht.again hpaired hu hentries hvars.ge hconss.ge hcycle
      exact ⟨hu'.sound, ⟨hu'.entries.1.trans hentries.1, hu'.entries.2.trans hentries.2⟩,
        hvars'.trans hvars, hconss'.trans hconss⟩

end Formulation

namespace Session

/-- After any events, each table has as many numbers as there were entries alive in it at one time,
counted after every elementary step.  So forking and discarding a formulation over and over leaves
the tables as large as the first cycle did.  Whatever happens in between, another cycle from the
same entries does not make them larger. -/
theorem tables_at_peak (limit : Option Nat) (events : List Event) :
    (∃ past, Course limit events (happened limit events :: past)) ∧
    (∀ past, Course limit events (happened limit events :: past) →
      IsGreatest (counts (·.vars.liveCount) (happened limit events :: past))
        (happened limit events).vars.size ∧
      IsGreatest (counts (·.conss.liveCount) (happened limit events :: past))
        (happened limit events).conss.size) ∧
    ∀ (f : Formulation) (t : Session), f.Built → f.Cycle (happened limit events) t →
      (∀ u, ReflTransGen f.Cycle t u → (happened limit events).SameEntries u ∧ t.SameSizes u) ∧
      ∀ more u, (happened limit events).SameEntries (t.afterAll more) →
        f.Cycle (t.afterAll more) u → (t.afterAll more).SameSizes u := by
  have hs := sound_happened limit events
  refine ⟨exists_course limit events, fun past hcourse => ?_, fun f t hbuilt hfirst => ?_⟩
  · exact ⟨hcourse.atPeak.vars, hcourse.atPeak.conss⟩
  · have ht := hfirst.unwinds hbuilt.paired hs
    refine ⟨fun u hmore => (Formulation.unwinds_of_cycles hbuilt.paired hs hfirst hmore).2,
      fun more u hentries hcycle => ?_⟩
    obtain ⟨hsound, hthreaded⟩ := soundlyThreaded_afterAll ht.sound more
    obtain ⟨hvars, hconss⟩ := hthreaded.size_le ht.sound
    exact ht.again hbuilt.paired hsound hentries hvars hconss hcycle

/-- A session with the entries of a new model. -/
def seededSession : Session := happened none (Formulation.seedCalls.map Event.call)

/-- The same session after one cycle. -/
def churnedSession : Session := after Formulation.seed.churn seededSession

theorem cycle_of_accepts {f : Formulation} {s : Session} (h : accepts f.churn s = true) :
    f.Cycle s (after f.churn s) := by
  obtain ⟨_, t, hrun⟩ := exists_of_accepts h
  exact .detached (by rw [hrun, after, hrun])

/-- The entries of a new model take three numbers, and with those of a copy six.  Another copy
needs no more, be it the next one or a later one under another limit. -/
theorem tables_at_peak_seed :
    (∃ past, Course none (Formulation.seedCalls.map Event.call) (seededSession :: past) ∧
      IsGreatest (counts (·.vars.liveCount) (seededSession :: past)) 3) ∧
    Formulation.seed.Built ∧ Formulation.seed.Cycle seededSession churnedSession ∧
    churnedSession.vars.size = 6 ∧
    (∃ u, Formulation.seed.Cycle churnedSession u ∧ seededSession.SameEntries u ∧
      churnedSession.SameSizes u) ∧
    ∃ u, seededSession.SameEntries (churnedSession.afterAll [.setLimit (some 4)]) ∧
      Formulation.seed.Cycle (churnedSession.afterAll [.setLimit (some 4)]) u ∧
      (churnedSession.afterAll [.setLimit (some 4)]).SameSizes u := by
  obtain ⟨⟨past, hcourse⟩, hpeak, hcycles⟩ :=
    tables_at_peak none (Formulation.seedCalls.map Event.call)
  have hsize : seededSession.vars.size = 3 := by decide +kernel
  have hfirst : Formulation.seed.Cycle seededSession churnedSession :=
    cycle_of_accepts (by decide +kernel)
  obtain ⟨hagain, hlater⟩ := hcycles Formulation.seed churnedSession Formulation.built_seed hfirst
  have hsecond := cycle_of_accepts (f := Formulation.seed) (s := churnedSession) (by decide +kernel)
  have hlast := cycle_of_accepts (f := Formulation.seed)
    (s := churnedSession.afterAll [.setLimit (some 4)]) (by decide +kernel)
  have hlimit : ∀ s t, SameEntries s t → s.SameEntries (t.afterAll [.setLimit (some 4)]) :=
    fun _ _ h => h
  have hentries := hlimit _ _ (hagain churnedSession .refl).1
  refine ⟨⟨past, hcourse, ?_⟩, Formulation.built_seed, hfirst, by decide +kernel,
    ⟨_, hsecond, hagain _ (.single hsecond)⟩, _, hentries, hlast, hlater _ _ hentries hlast⟩
  rw [← hsize]
  exact (hpeak past hcourse).1

end Session

end JointModel
