import JointModel.Proofs.Formulation.Settling
import JointModel.Proofs.Session.Reachable
import Mathlib.Data.List.Forall2

/-!
# Forking a formulation

A fork walks through the bridge and the slots of a formulation.  `Captured` is the
invariant of its three loops: the slots so far are copied one to one, each entry
behind an owned handle is a copy of the entry that the source knows, and the session
is the old one together with the entries of what was assembled (`Settles`).  A step
can only be rejected because no block is left or because a fault strikes, and then
the invariant holds of what was assembled before (`Blocked`).

`capture_ends` puts the loops together.

## Strategy

* The partner of a negated slot comes before it, so its new handle is known, and no
  other slot made it an alias: the slot is the only one that its partner mentions.
  Both follow from the pairs of the source (`Aligned.of_prefix`).
* The source stays untouched because only handles that stood for nothing are new.
-/

namespace JointModel

open Effect

namespace Formulation

open Session Registry

variable {f : Formulation} {s t t' : Session} {e : Engine} {v w : VarId} {c d : ConsId}

/-! ## Copies of single parts -/

/-- What a formulation owns is alive: its handles stand for entries of their own. -/
structure LivesIn (f : Formulation) (s : Session) : Prop where
  vars : ∀ v ∈ f.registry.ownedVars,
    ∃ entry m, s.var? v = some entry ∧ entry.link = .positive m
  bridge : ∀ {c}, f.bridge = some c → ∃ info, s.cons? c = some info

/-- The entry of `w` in `t` is a copy of the entry of `v` in `s`. -/
def CopiesVar (s t : Session) (v w : VarId) : Prop :=
  ∃ entry link, s.var? v = some entry ∧ t.var? w = some { entry.copied with link }

/-- The constraint `d` of `t` is a copy of the constraint `c` of `s`. -/
def CopiesCons (s t : Session) (c d : ConsId) : Prop :=
  ∃ info, s.cons? c = some info ∧ t.cons? d = some { info with uses := 1 }

/-- A boolean slot of a copy: the source slot with another handle. -/
structure CopiesBool (s t : Session) (slot slot' : BoolSlot) : Prop where
  same : slot' = { slot with handle := slot'.handle }
  entry : slot.isPositive → CopiesVar s t slot.handle slot'.handle

/-- An integer slot of a copy.  It is virtual if the source slot is. -/
structure CopiesInt (s t : Session) (slot slot' : IntSlot) : Prop where
  same : slot' = { slot with handle := slot'.handle }
  entry : Option.Rel (CopiesVar s t) slot.handle slot'.handle

theorem CopiesVar.carry (h : CopiesVar s t v w) (hcarries : t.Carries t') : CopiesVar s t' v w := by
  obtain ⟨entry, link, hv, hw⟩ := h
  obtain ⟨link', hw'⟩ := hcarries hw
  exact ⟨entry, link', hv, hw'⟩

theorem CopiesBool.carry {slot slot' : BoolSlot} (h : CopiesBool s t slot slot')
    (hcarries : t.Carries t') : CopiesBool s t' slot slot' :=
  ⟨h.same, fun hpositive => (h.entry hpositive).carry hcarries⟩

theorem CopiesInt.carry {slot slot' : IntSlot} (h : CopiesInt s t slot slot')
    (hcarries : t.Carries t') : CopiesInt s t' slot slot' := by
  have hentry := h.entry
  refine ⟨h.same, ?_⟩
  generalize slot.handle = old, slot'.handle = new at hentry ⊢
  cases hentry with
  | none => exact .none
  | some hvar => exact .some (hvar.carry hcarries)

/-! ## The invariant -/

/-- The assembly is through with these constraints and slots of the formulation
`f`, and it was started on the engine `e`. -/
structure Captured (f : Formulation) (e : Engine) (conss : List ConsId) (bools : List BoolSlot)
    (ints : List IntSlot) (a : Assembly) : Prop where
  settles : a.formulation.Settles e.session a.engine.session
  conss : List.Forall₂ (CopiesCons e.session a.engine.session) conss a.formulation.bridge.toList
  bools : List.Forall₂ (CopiesBool e.session a.engine.session) bools
    a.formulation.registry.bools.toList
  ints : List.Forall₂ (CopiesInt e.session a.engine.session) ints
    a.formulation.registry.ints.toList
  tables : a.formulation.registry.tables = f.registry.tables
  objective : a.formulation.objective = f.objective
  faults : a.engine.faults.Within e.faults
  /-- Whatever was allocated on the way is within the limit. -/
  room : ∀ limit, e.session.limit = some limit →
    a.engine.session.allocations ≤ max limit e.session.allocations

/-- The assembly stopped short of a copy of `f`, because no block was left or
because a fault struck. -/
structure Blocked (f : Formulation) (e : Engine) (cause : EngineError) (a : Assembly) : Prop where
  settles : a.formulation.Settles e.session a.engine.session
  faults : a.engine.faults.Within e.faults
  short : a.formulation.blocks < f.blocks
  reason : ((∃ detail, cause = .allocation detail) ∧
      ∃ limit, e.session.limit = some limit ∧
        limit ≤ e.session.allocations + a.formulation.blocks) ∨
    ∃ op, cause = Engine.injected op ∧ e.faults.lookup op ≠ none

variable {conss : List ConsId} {bools bools' : List BoolSlot} {ints ints' : List IntSlot}
  {a : Assembly} {cause : EngineError}

theorem Captured.start (h : e.session.Sound) (f : Formulation) :
    Captured f e [] [] [] ⟨e, f.blank⟩ where
  settles := settles_blank h f
  conss := .nil
  bools := .nil
  ints := .nil
  tables := rfl
  objective := rfl
  faults := .refl e.faults
  room _ _ := Nat.le_max_right _ _

/-- Every step of an assembly is one call through the engine.  If it is rejected, the
session stays as it is. -/
theorem onEngine_ends {α : Type} {op : Operation} {act : Session.Run α}
    {Q : α → Session → Prop} (h : Ends act a.engine.session
      (fun x t => a.engine.session.HasRoom ∧ Q x t)
      fun cause t => t = a.engine.session ∧ a.engine.session.Exhausted cause) :
    Ends (Assembly.onEngine (Engine.call op act)) a
      (fun x a' => ∃ e', a' = { a with engine := e' } ∧ a.engine.session.HasRoom ∧
        Q x e'.session ∧ e'.faults.Within a.engine.faults)
      fun cause a' => ∃ e', a' = { a with engine := e' } ∧ e'.session = a.engine.session ∧
        e'.faults.Within a.engine.faults ∧
        (a.engine.session.Exhausted cause ∨
          ∃ op, cause = Engine.injected op ∧ a.engine.faults.lookup op ≠ none) := by
  rw [Assembly.onEngine, ends_onPart]
  refine (Engine.call_ends h).mono (fun x e' he' => ?_) fun cause e' he' => ?_
  · exact ⟨e', rfl, he'.1.1, he'.1.2, he'.2⟩
  · obtain ⟨hend | ⟨hcause, hsame, hstruck⟩, hwithin⟩ := he'
    · exact ⟨e', rfl, hend.1, hwithin, .inl hend.2⟩
    · exact ⟨e', rfl, hsame, hwithin, .inr ⟨op, hcause, by simp [hstruck]⟩⟩

/-- What a rejected step leaves. -/
theorem Captured.blocked (h : Captured f e conss bools ints a) {a' : Assembly}
    (hshort : a.formulation.blocks < f.blocks)
    (hend : ∃ e', a' = { a with engine := e' } ∧ e'.session = a.engine.session ∧
      e'.faults.Within a.engine.faults ∧
      (a.engine.session.Exhausted cause ∨
        ∃ op, cause = Engine.injected op ∧ a.engine.faults.lookup op ≠ none)) :
    Blocked f e cause a' := by
  obtain ⟨e', rfl, hsession, hwithin, hcause⟩ := hend
  refine ⟨?_, h.faults.trans hwithin, hshort, ?_⟩
  · simp only [hsession]
    exact h.settles
  · rcases hcause with ⟨⟨limit, hlimit, hle⟩, hdetail⟩ | ⟨op, hinjected, hlookup⟩
    · rw [limit_eq_of_frame h.settles.frame] at hlimit
      exact .inl ⟨hdetail, limit, hlimit, h.settles.allocations ▸ hle⟩
    · exact .inr ⟨op, hinjected, fun hnone => hlookup (h.faults op hnone)⟩

/-- One more block is within the limit. -/
theorem Captured.room_succ (h : Captured f e conss bools ints a)
    (hroom : a.engine.session.HasRoom) (hallocations :
      t.allocations = a.engine.session.allocations + 1) {limit : Nat}
    (hlimit : e.session.limit = some limit) : t.allocations ≤ max limit e.session.allocations := by
  rw [hallocations]
  exact le_max_of_le_left (hroom limit ((limit_eq_of_frame h.settles.frame).trans hlimit))

/-- The copies of slots differ from them in their handles only. -/
theorem map_of_copies {α : Type} {field : BoolSlot → α}
    (hfield : ∀ slot handle, field { slot with handle } = field slot)
    (h : List.Forall₂ (CopiesBool s t) bools bools') : bools'.map field = bools.map field := by
  induction h with
  | nil => rfl
  | cons hslot _ ih => rw [List.map_cons, List.map_cons, ih, hslot.same, hfield]

theorem polarities_of_copies (h : List.Forall₂ (CopiesBool s t) bools bools') :
    bools'.map BoolSlot.polarity = bools.map BoolSlot.polarity :=
  map_of_copies (fun _ _ => rfl) h

/-- Slots that are so far polarized as those of `f` are aligned with the next one, whatever handle
that gets. -/
theorem aligned_withBool (hpaired : f.registry.Paired) {r : Registry}
    (hpolarities : r.bools.toList.map BoolSlot.polarity = bools.map BoolSlot.polarity)
    {slot : BoolSlot} {rest : List BoolSlot}
    (hsplit : f.registry.bools.toList = bools ++ slot :: rest) (handle : VarId) :
    (r.withBool { slot with handle }).Aligned := by
  refine hpaired.aligned.of_prefix fun v hv => ?_
  have hnew : (r.withBool { slot with handle }).bools.toList.map BoolSlot.polarity =
      (bools ++ [slot]).map BoolSlot.polarity := by
    simp only [withBool, Array.toList_push, List.map_append, hpolarities, List.map_cons,
      List.map_nil]
  have hsource : f.registry.bools.toList.map BoolSlot.polarity =
      (bools ++ [slot]).map BoolSlot.polarity ++ rest.map BoolSlot.polarity := by
    rw [hsplit, ← List.map_append, List.append_assoc, List.singleton_append]
  have hlt : v.index < ((bools ++ [slot]).map BoolSlot.polarity).length := by
    rw [← hnew, List.length_map, Array.length_toList]
    exact hv
  simp only [bool?, ← Array.getElem?_toList, ← List.getElem?_map]
  rw [hnew, hsource, List.getElem?_append_left hlt]

/-- What was assembled so far is aligned with the next slot. -/
theorem Captured.aligned_withBool (h : Captured f e conss bools ints a)
    (hpaired : f.registry.Paired) {slot : BoolSlot} {rest : List BoolSlot}
    (hsplit : f.registry.bools.toList = bools ++ slot :: rest) (handle : VarId) :
    (a.formulation.registry.withBool { slot with handle }).Aligned :=
  Formulation.aligned_withBool hpaired (polarities_of_copies h.bools) hsplit handle

theorem length_of_copies {ints' : List IntSlot} (h : List.Forall₂ (CopiesInt s t) ints ints') :
    (ints'.filterMap IntSlot.handle).length = (ints.filterMap IntSlot.handle).length := by
  induction h with
  | nil => rfl
  | @cons slot slot' _ _ hslot _ ih =>
      have hentry := hslot.entry
      rw [List.filterMap_cons, List.filterMap_cons]
      generalize slot.handle = old, slot'.handle = new at hentry ⊢
      cases hentry with
      | none => exact ih
      | some _ => rw [List.length_cons, List.length_cons, ih]

theorem blocks_eq (f : Formulation) : f.blocks = f.bridge.toList.length +
    (f.registry.bools.toList.length + (f.registry.ints.toList.filterMap IntSlot.handle).length) := by
  rw [blocks, Registry.vars, List.length_append, List.length_map, intVars]

theorem Captured.blocks_eq (h : Captured f e conss bools ints a) : a.formulation.blocks =
    conss.length + (bools.length + (ints.filterMap IntSlot.handle).length) := by
  rw [Formulation.blocks_eq, h.conss.length_eq, h.bools.length_eq, length_of_copies h.ints]

/-! ## One step after the other -/

theorem captureBridge_ends (hlives : f.LivesIn e.session) (h : Captured f e [] [] [] a)
    (hbridge : f.bridge = some c) :
    Ends (Assembly.captureBridge c) a (fun _ a' => Captured f e [c] [] [] a')
      fun cause a' => Blocked f e cause a' := by
  have hnone : a.formulation.bridge = none := by
    cases hbridge' : a.formulation.bridge with
    | none => rfl
    | some d =>
        have hconss := h.conss
        rw [hbridge'] at hconss
        cases hconss
  obtain ⟨info, hc⟩ := hlives.bridge hbridge
  have hc' : a.engine.session.cons? c = some info := by
    rw [h.settles.conss.others, hc]
    simp [bridgeHoldings, hnone]
  have hshort : a.formulation.blocks < f.blocks := by
    rw [h.blocks_eq, blocks_eq, hbridge]
    simp only [List.length_nil, List.filterMap_nil, Option.toList_some, List.length_singleton]
    omega
  unfold Assembly.captureBridge
  rw [ends_bind]
  refine (onEngine_ends (copyCons_ends h.settles.sound.conss hc')).mono (fun d a' ha' => ?_)
    fun cause a' ha' => h.blocked hshort ha'
  obtain ⟨e', rfl, hroom, hadds, hwithin⟩ := ha'
  rw [ends_modify]
  exact
    { settles := h.settles.addBridge hadds rfl hnone
      conss := .cons ⟨info, hc, by rw [hadds.cons?, if_pos rfl]⟩ .nil
      bools := h.bools.imp fun _ _ hslot => hslot.carry hadds.carries
      ints := h.ints.imp fun _ _ hslot => hslot.carry hadds.carries
      tables := h.tables
      objective := h.objective
      faults := h.faults.trans hwithin
      room := fun limit hlimit => h.room_succ hroom hadds.allocations_eq hlimit }

/-- The assembly knows a new boolean slot. -/
theorem Captured.addBool (h : Captured f e conss bools [] a) {slot : BoolSlot} {handle : VarId}
    {e' : Engine}
    (hsettles : { a.formulation with
      registry := a.formulation.registry.withBool { slot with handle } }.Settles
        e.session e'.session)
    (hcarries : a.engine.session.Carries e'.session)
    (hcons : e'.session.cons? = a.engine.session.cons?)
    (hentry : slot.isPositive → CopiesVar e.session e'.session slot.handle handle)
    (hroom : a.engine.session.HasRoom)
    (hallocations : e'.session.allocations = a.engine.session.allocations + 1)
    (hwithin : e'.faults.Within a.engine.faults) :
    Captured f e conss (bools ++ [slot]) [] ⟨e', { a.formulation with
      registry := a.formulation.registry.withBool { slot with handle } }⟩ where
  settles := hsettles
  conss := h.conss.imp fun _ _ ⟨info, hc, hd⟩ => ⟨info, hc, by rw [hcons, hd]⟩
  bools := by
    have hnew : List.Forall₂ (CopiesBool e.session e'.session) [slot] [{ slot with handle }] :=
      .cons ⟨rfl, hentry⟩ .nil
    rw [withBool, Array.toList_push]
    exact List.rel_append (h.bools.imp fun _ _ hslot => hslot.carry hcarries) hnew
  ints := h.ints.imp fun _ _ hslot => hslot.carry hcarries
  tables := h.tables
  objective := h.objective
  faults := h.faults.trans hwithin
  room _ hlimit := h.room_succ hroom hallocations hlimit

/-- A step at a boolean slot finds a block to be taken for it. -/
theorem Captured.short_bool (h : Captured f e f.bridge.toList bools [] a) {slot : BoolSlot}
    {rest : List BoolSlot} (hsplit : f.registry.bools.toList = bools ++ slot :: rest) :
    a.formulation.blocks < f.blocks := by
  rw [h.blocks_eq, Formulation.blocks_eq, hsplit, List.length_append, List.length_cons]
  simp only [List.filterMap_nil, List.length_nil]
  omega

/-- The entry of a positive slot is copied. -/
theorem capturePositive_ends (hpaired : f.registry.Paired) (hlives : f.LivesIn e.session)
    (h : Captured f e f.bridge.toList bools [] a) {slot : BoolSlot} {rest : List BoolSlot}
    (hsplit : f.registry.bools.toList = bools ++ slot :: rest) {m : Option BoolId}
    (hpolarity : slot.polarity = .positive m) :
    Ends (Assembly.captureBoolHandle slot) a
      (fun handle a' => ∃ e', a' = { a with engine := e' } ∧
        Captured f e f.bridge.toList (bools ++ [slot]) [] ⟨e', { a.formulation with
          registry := a.formulation.registry.withBool { slot with handle } }⟩)
      fun cause a' => Blocked f e cause a' := by
  have hpositive : slot.isPositive = true := BoolSlot.isPositive_of_positive hpolarity
  have howned : slot.handle ∈ f.registry.ownedVars :=
    mem_ownedVars.mpr (.inl ⟨slot, by simp [hsplit], hpositive, rfl⟩)
  obtain ⟨entry, n, hv, hlink⟩ := hlives.vars _ howned
  have hv' : a.engine.session.var? slot.handle = some entry := h.settles.vars.kept hv
  simp only [Assembly.captureBoolHandle, hpolarity]
  refine (onEngine_ends (copyVar_ends h.settles.sound.vars hv' hlink)).mono (fun w a' ha' => ?_)
    fun cause a' ha' => h.blocked (h.short_bool hsplit) ha'
  obtain ⟨e', rfl, hroom, hadds, hwithin⟩ := ha'
  have haligned := h.aligned_withBool hpaired hsplit w
  have hsettles := h.settles.add hadds rfl haligned
    (holdings_withBool_positive haligned hpolarity 1)
  have hentry : CopiesVar e.session e'.session slot.handle w :=
    ⟨entry, .positive none, hv, by rw [hadds.var?, if_pos rfl]; rfl⟩
  refine ⟨e', rfl, ?_⟩
  rw [← hpolarity]
  exact h.addBool hsettles hadds.carries hadds.cons?_eq (fun _ => hentry) hroom
    hadds.allocations_eq hwithin

/-- A negated slot is found as the negation of its partner in the copy. -/
theorem captureNegated_ends (hpaired : f.registry.Paired)
    (h : Captured f e f.bridge.toList bools [] a) {slot : BoolSlot} {rest : List BoolSlot}
    (hsplit : f.registry.bools.toList = bools ++ slot :: rest) {p : BoolId}
    (hpolarity : slot.polarity = .negated p) :
    Ends (Assembly.captureBoolHandle slot) a
      (fun handle a' => ∃ e', a' = { a with engine := e' } ∧
        Captured f e f.bridge.toList (bools ++ [slot]) [] ⟨e', { a.formulation with
          registry := a.formulation.registry.withBool { slot with handle } }⟩)
      fun cause a' => Blocked f e cause a' := by
  have hnegated : ¬ slot.isPositive := by simp [BoolSlot.isPositive_of_negated hpolarity]
  obtain ⟨partner, entry, hp, hv, hlink, hsettles⟩ :=
    h.settles.negatedSlot hpolarity (h.aligned_withBool hpaired hsplit)
  simp only [Assembly.captureBoolHandle, hpolarity]
  rw [ends_bind, ends_get, hp, Option.getD_some]
  refine (onEngine_ends (negateVar_ends h.settles.sound.vars hv hlink)).mono (fun w a' ha' => ?_)
    fun cause a' ha' => h.blocked (h.short_bool hsplit) ha'
  obtain ⟨e', rfl, hroom, hnegates, hwithin⟩ := ha'
  refine ⟨e', rfl, ?_⟩
  rw [← hpolarity]
  exact h.addBool (hsettles hnegates) hnegates.carries hnegates.cons?_eq
    (fun hpositive => absurd hpositive hnegated) hroom hnegates.allocations_eq hwithin

theorem captureBoolHandle_ends (hpaired : f.registry.Paired) (hlives : f.LivesIn e.session)
    (h : Captured f e f.bridge.toList bools [] a) {slot : BoolSlot} {rest : List BoolSlot}
    (hsplit : f.registry.bools.toList = bools ++ slot :: rest) :
    Ends (Assembly.captureBoolHandle slot) a
      (fun handle a' => ∃ e', a' = { a with engine := e' } ∧
        Captured f e f.bridge.toList (bools ++ [slot]) [] ⟨e', { a.formulation with
          registry := a.formulation.registry.withBool { slot with handle } }⟩)
      fun cause a' => Blocked f e cause a' := by
  obtain ⟨m, hpolarity⟩ | ⟨p, hpolarity⟩ :
      (∃ m, slot.polarity = .positive m) ∨ ∃ p, slot.polarity = .negated p := by
    cases slot.polarity <;> simp
  · exact capturePositive_ends hpaired hlives h hsplit hpolarity
  · exact captureNegated_ends hpaired h hsplit hpolarity

theorem captureBool_ends (hpaired : f.registry.Paired) (hlives : f.LivesIn e.session)
    (h : Captured f e f.bridge.toList bools [] a) {slot : BoolSlot} {rest : List BoolSlot}
    (hsplit : f.registry.bools.toList = bools ++ slot :: rest) :
    Ends (Assembly.captureBool slot) a
      (fun _ a' => Captured f e f.bridge.toList (bools ++ [slot]) [] a')
      fun cause a' => Blocked f e cause a' := by
  unfold Assembly.captureBool
  rw [ends_bind]
  refine (captureBoolHandle_ends hpaired hlives h hsplit).mono (fun handle a' ha' => ?_)
    fun _ _ ha' => ha'
  obtain ⟨e', rfl, hcaptured⟩ := ha'
  exact hcaptured

/-- The assembly knows a new integer slot. -/
theorem Captured.addInt (h : Captured f e conss bools ints a) {slot : IntSlot}
    {handle : Option VarId} {e' : Engine}
    (hsettles : { a.formulation with
      registry := a.formulation.registry.withInt { slot with handle } }.Settles
        e.session e'.session)
    (hcarries : a.engine.session.Carries e'.session)
    (hcons : e'.session.cons? = a.engine.session.cons?)
    (hentry : Option.Rel (CopiesVar e.session e'.session) slot.handle handle)
    (hroom : ∀ limit, e.session.limit = some limit →
      e'.session.allocations ≤ max limit e.session.allocations)
    (hwithin : e'.faults.Within a.engine.faults) :
    Captured f e conss bools (ints ++ [slot]) ⟨e', { a.formulation with
      registry := a.formulation.registry.withInt { slot with handle } }⟩ where
  settles := hsettles
  conss := h.conss.imp fun _ _ ⟨info, hc, hd⟩ => ⟨info, hc, by rw [hcons, hd]⟩
  bools := h.bools.imp fun _ _ hslot => hslot.carry hcarries
  ints := by
    have hnew : List.Forall₂ (CopiesInt e.session e'.session) [slot] [{ slot with handle }] :=
      .cons ⟨rfl, hentry⟩ .nil
    rw [withInt, Array.toList_push]
    exact List.rel_append (h.ints.imp fun _ _ hslot => hslot.carry hcarries) hnew
  tables := h.tables
  objective := h.objective
  faults := h.faults.trans hwithin
  room := hroom

theorem aligned_withInt {r : Registry} (h : r.Aligned) (slot : IntSlot) : (r.withInt slot).Aligned :=
  h.of_prefix fun _ _ => rfl

theorem captureInt_ends (hlives : f.LivesIn e.session)
    (h : Captured f e f.bridge.toList f.registry.bools.toList ints a) {slot : IntSlot}
    {rest : List IntSlot} (hsplit : f.registry.ints.toList = ints ++ slot :: rest) :
    Ends (Assembly.captureInt slot) a
      (fun _ a' => Captured f e f.bridge.toList f.registry.bools.toList (ints ++ [slot]) a')
      fun cause a' => Blocked f e cause a' := by
  unfold Assembly.captureInt Assembly.captureIntHandle
  rw [ends_bind]
  obtain hhandle | ⟨v, hhandle⟩ : slot.handle = none ∨ ∃ v, slot.handle = some v := by
    cases slot.handle <;> simp
  · simp only [hhandle]
    rw [ends_pure, ends_modify]
    let r := a.formulation.registry.withInt { slot with handle := none }
    have hints : r.intVars = a.formulation.registry.intVars := by
      rw [intVars_withInt, Option.toList_none, List.append_nil]
    have hsettles : { a.formulation with registry := r }.Settles e.session a.engine.session :=
      h.settles.congr rfl hints
    exact h.addInt hsettles (Carries.refl _) rfl (by rw [hhandle]; exact .none) h.room (.refl _)
  · have hshort : a.formulation.blocks < f.blocks := by
      rw [h.blocks_eq, blocks_eq, hsplit, List.filterMap_append, List.filterMap_cons, hhandle,
        List.length_append, List.length_cons]
      omega
    have howned : v ∈ f.registry.ownedVars := by
      refine mem_ownedVars.mpr (.inr (List.mem_filterMap.mpr ⟨slot, ?_, hhandle⟩))
      simp [hsplit]
    obtain ⟨entry, n, hv, hlink⟩ := hlives.vars _ howned
    have hv' : a.engine.session.var? v = some entry := h.settles.vars.kept hv
    simp only [hhandle]
    rw [ends_map]
    refine (onEngine_ends (copyVar_ends h.settles.sound.vars hv' hlink)).mono (fun w a' ha' => ?_)
      fun cause a' ha' => h.blocked hshort ha'
    obtain ⟨e', rfl, hroom, hadds, hwithin⟩ := ha'
    rw [ends_modify]
    have hsettles := h.settles.add hadds rfl (aligned_withInt h.settles.aligned
      { slot with handle := some w }) (holdings_withInt _ _ 1)
    have hentry : CopiesVar e.session e'.session v w :=
      ⟨entry, .positive none, hv, by rw [hadds.var?, if_pos rfl]; rfl⟩
    exact h.addInt hsettles hadds.carries hadds.cons?_eq (by rw [hhandle]; exact .some hentry)
      (fun limit hlimit => h.room_succ hroom hadds.allocations_eq hlimit) hwithin

/-! ## The whole fork -/

/-- A copy is assembled completely, or the assembly is blocked. -/
theorem capture_ends (hpaired : f.registry.Paired) (hsound : e.session.Sound)
    (hlives : f.LivesIn e.session) :
    Ends (Assembly.capture f) ⟨e, f.blank⟩
      (fun _ a => Captured f e f.bridge.toList f.registry.bools.toList f.registry.ints.toList a)
      fun cause a => Blocked f e cause a := by
  unfold Assembly.capture
  rw [ends_bind]
  have hbridge : Ends (f.bridge.toList.forM Assembly.captureBridge) ⟨e, f.blank⟩
      (fun _ a => Captured f e f.bridge.toList [] [] a) fun cause a => Blocked f e cause a := by
    refine ends_forM (I := fun done a => Captured f e done [] [] a)
      (fun done c rest hsplit a ha => ?_) (Captured.start hsound f)
    -- the loop runs once or not at all
    cases hbridge : f.bridge with
    | none => simp [hbridge] at hsplit
    | some d =>
        rw [hbridge, Option.toList_some, List.singleton_eq_append_iff] at hsplit
        obtain ⟨rfl, hsplit⟩ | ⟨-, hsplit⟩ := hsplit
        · cases hsplit
          exact captureBridge_ends hlives ha hbridge
        · cases hsplit
  refine hbridge.mono (fun _ a ha => ?_) fun _ _ ha => ha
  rw [ends_bind]
  have hbools := ends_forM (I := fun done a => Captured f e f.bridge.toList done [] a)
    (fun done slot rest hsplit a ha => captureBool_ends hpaired hlives ha hsplit) ha
  refine hbools.mono (fun _ a ha => ?_) fun _ _ ha => ha
  exact ends_forM (I := fun done a => Captured f e f.bridge.toList f.registry.bools.toList done a)
    (fun done slot rest hsplit a ha => captureInt_ends hlives ha hsplit) ha

/-- What a fork put together until it ended, accepted or not. -/
def assembled (f : Formulation) (e : Engine) : Formulation :=
  (after (Assembly.capture f) ⟨e, f.blank⟩).formulation

/-- After a failed fork everything is released again: every handle stands for what
it stood for before, and the releases are counted. -/
structure Restored (g : Formulation) (s t : Session) : Prop where
  sound : t.Sound
  var? : t.var? = s.var?
  cons? : t.cons? = s.cons?
  frame : t.frame = s.frame
  varReleases : t.ledger.varReleases = s.ledger.varReleases + g.registry.ownedVars.length
  consReleases : t.ledger.consReleases = s.ledger.consReleases + g.bridge.toList.length

theorem fork_of_captured (hrun : Assembly.capture f ⟨e, f.blank⟩ = .ok () a) :
    f.fork e = .ok (f.assembled e) a.engine := by
  simp only [fork, assembled, Effect.after, hrun]

theorem fork_of_blocked (hrun : Assembly.capture f ⟨e, f.blank⟩ = .error cause a) :
    f.fork e = .error cause (after a.formulation.abandon a.engine) := by
  simp only [fork, Effect.after, hrun]
  cases a.formulation.abandon a.engine <;> rfl

theorem captured_of_fork {copy : Formulation} {e' : Engine} (h : f.fork e = .ok copy e') :
    Assembly.capture f ⟨e, f.blank⟩ = .ok () ⟨e', copy⟩ := by
  cases hrun : Assembly.capture f ⟨e, f.blank⟩ with
  | ok _ a =>
      simp only [fork, hrun] at h
      cases h
      rfl
  | error cause a =>
      rw [fork_of_blocked hrun] at h
      cases h

/-- Out of reach of faults, no release of what a blocked assembly put together is
rejected, and everything is as before. -/
theorem Blocked.released (h : Blocked f e cause a) (hvar : e.faults.lookup .releaseVar = none)
    (hcons : e.faults.lookup .releaseCons = none) :
    ∃ t, a.formulation.release a.engine = .ok () ⟨t, a.engine.faults⟩ ∧
      a.formulation.abandon a.engine = .ok () ⟨t, a.engine.faults⟩ ∧
      Restored a.formulation e.session t := by
  obtain ⟨t, hrelease, habandon, hreturned, hvars, hconss⟩ := release_accepted h.settles.sound
    h.settles.resident (h.faults _ hvar) (h.faults _ hcons)
  obtain ⟨hvar?, hcons?, hframe⟩ := h.settles.unsettle hreturned
  rw [h.settles.ledger] at hvars hconss
  exact ⟨t, hrelease, habandon, hreturned.sound, hvar?, hcons?, hframe, hvars, hconss⟩

theorem Blocked.restored (h : Blocked f e cause a) (hvar : e.faults.lookup .releaseVar = none)
    (hcons : e.faults.lookup .releaseCons = none) :
    Restored a.formulation e.session (after a.formulation.abandon a.engine).session ∧
      (after a.formulation.abandon a.engine).faults.Within e.faults := by
  obtain ⟨t, -, habandon, hrestored⟩ := h.released hvar hcons
  have hafter : after a.formulation.abandon a.engine = ⟨t, a.engine.faults⟩ := by
    rw [Effect.after, habandon]
  rw [hafter]
  exact ⟨hrestored, h.faults⟩

/-- A fork leads to a complete copy, or it is rejected and, if the releases are
out of reach of faults, everything is as before. -/
theorem fork_ends (hpaired : f.registry.Paired) (hsound : e.session.Sound)
    (hlives : f.LivesIn e.session) :
    Ends f.fork e
      (fun copy e' => copy = f.assembled e ∧ Captured f e f.bridge.toList f.registry.bools.toList
        f.registry.ints.toList ⟨e', copy⟩)
      fun cause e' => (∃ a, a.formulation = f.assembled e ∧ Blocked f e cause a) ∧
        (e.faults.lookup .releaseVar = none → e.faults.lookup .releaseCons = none →
          Restored (f.assembled e) e.session e'.session ∧ e'.faults.Within e.faults) := by
  have hcapture := capture_ends hpaired hsound hlives
  cases hrun : Assembly.capture f ⟨e, f.blank⟩ with
  | ok _ a =>
      have hassembled : f.assembled e = a.formulation := by rw [assembled, Effect.after, hrun]
      refine ends_of_accepted (fork_of_captured hrun) ⟨rfl, ?_⟩
      rw [hassembled]
      exact hcapture.accepted hrun
  | error cause a =>
      have hassembled : f.assembled e = a.formulation := by rw [assembled, Effect.after, hrun]
      have hblocked : Blocked f e cause a := hcapture.rejected hrun
      refine ends_of_rejected (fork_of_blocked hrun) ⟨⟨a, hassembled.symm, hblocked⟩, ?_⟩
      rw [hassembled]
      exact hblocked.restored

end Formulation

end JointModel
