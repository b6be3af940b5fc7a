import JointModel.Proofs.Session.Reachable
import Mathlib.Logic.Relation

/-!
# How entries come and go

Handles are used again, so a handle that is alive in two states need not stand for the same
variable in both.  Within one call it does: a call makes entries first and frees entries later
(`perform_evolves`), so what it has freed is not made anew.  Hence a handle that is alive after
every call stands for the same variable all the time (`KeepsLive.survives`): what the entry says
stays what it is, and once it has an alias it keeps it.

## Strategy

* `Gains` and `Loses` list the steps that a call takes on the map from handles to entries.  The
  calls by which a copy is captured only gain, and those by which it is released only lose; a
  fork that is rolled back does both, in this order.
* `Survives` says what becomes of a single handle.  It holds across every step that leaves the
  handle alive, by one case for each kind of step.
-/

namespace JointModel

open Effect Relation

/-- What an entry says about its variable: all but its uses and its link. -/
def VarInfo.nature (entry : VarInfo) : VarInfo :=
  { entry with uses := 0, link := .positive none }

/-- A positive entry is used more or less often, and it may have got an alias. -/
structure VarInfo.Becomes (entry entry' : VarInfo) : Prop where
  nature : entry'.nature = entry.nature
  link : entry'.link = entry.link ∨
    entry.link = .positive none ∧ ∃ n, entry'.link = .positive (some n)

theorem VarInfo.Becomes.refl (entry : VarInfo) : entry.Becomes entry := ⟨rfl, .inl rfl⟩

theorem VarInfo.Becomes.trans {first second third : VarInfo} (h : first.Becomes second)
    (h' : second.Becomes third) : first.Becomes third := by
  refine ⟨h'.nature.trans h.nature, ?_⟩
  rcases h.link with hsame | ⟨hnone, n, hsome⟩
  · rw [← hsame]
    exact h'.link
  · rcases h'.link with hsame' | ⟨hnone', -⟩
    · exact .inr ⟨hnone, n, hsame'.trans hsome⟩
    · cases hsome.symm.trans hnone'

theorem VarInfo.Becomes.positive {entry entry' : VarInfo} (h : entry.Becomes entry')
    {m : Option VarId} (hlink : entry.link = .positive m) : ∃ m', entry'.link = .positive m' := by
  rcases h.link with hsame | ⟨-, n, hsome⟩
  · exact ⟨m, hsame.trans hlink⟩
  · exact ⟨some n, hsome⟩

/-! ## Steps -/

/-- What handles stand for. -/
abbrev Entries := VarId → Option VarInfo

/-- An entry is made, or one is used more often. -/
inductive Gains (entries entries' : Entries) : Prop
  | add {v : VarId} {entry : VarInfo} : entries v = none → entry.link = .positive none →
      0 < entry.uses → (∀ w, entries' w = if w = v then some entry else entries w) →
      Gains entries entries'
  | negate {v n : VarId} {entry : VarInfo} : entries v = some entry →
      entry.link = .positive none → entries n = none →
      (∀ w, entries' w =
        if w = n then some (entry.negated v)
        else if w = v then some { entry with link := .positive (some n) }
        else entries w) → Gains entries entries'
  | use {v : VarId} {entry : VarInfo} {m : Option VarId} {uses : Nat} : entries v = some entry →
      entry.link = .positive m → 0 < uses →
      (∀ w, entries' w = if w = v then some { entry with uses } else entries w) →
      Gains entries entries'

/-- An entry is used less often, or it is freed together with its alias. -/
inductive Loses (entries entries' : Entries) : Prop
  | drop {v : VarId} {entry : VarInfo} {m : Option VarId} {uses : Nat} : entries v = some entry →
      entry.link = .positive m → 0 < uses →
      (∀ w, entries' w = if w = v then some { entry with uses } else entries w) →
      Loses entries entries'
  | free {v : VarId} {entry : VarInfo} {m : Option VarId} : entries v = some entry →
      entry.link = .positive m →
      (∀ w, entries' w = if w = v ∨ some w = m then none else entries w) →
      Loses entries entries'

section Steps

variable {entries mid entries' : Entries} {p : VarId}

theorem Gains.linked (h : Gains entries entries') (hl : Linked entries) : Linked entries' := by
  cases h with
  | add fresh hlink huses hentries => exact hl.add fresh hentries hlink huses
  | negate hv hlink fresh hentries => exact hl.negate hv hlink fresh hentries
  | use hv hlink huses hentries => exact hl.setUses hv hlink huses hentries

theorem Loses.linked (h : Loses entries entries') (hl : Linked entries) : Linked entries' := by
  cases h with
  | drop hv hlink huses hentries => exact hl.setUses hv hlink huses hentries
  | free hv hlink hentries => exact hl.free hv hlink hentries

/-- An alias that was not there before says what its partner says, negated. -/
theorem Gains.alias_of_alias (h : Gains entries entries') {n : VarId} {negated : VarInfo}
    (hn : entries' n = some negated) (hback : negated.link = .negation p) :
    entries n = some negated ∨
      ∃ entry, entries' p = some entry ∧ negated = entry.negated p := by
  cases h with
  | add fresh hlink huses hentries =>
      rw [hentries] at hn
      split at hn
      · cases hn
        cases hlink.symm.trans hback
      · exact .inl hn
  | @negate v k entry hv hlink fresh hentries =>
      rw [hentries] at hn
      split at hn
      · cases hn
        cases hback
        have hne : p ≠ k := by
          rintro rfl
          cases fresh.symm.trans hv
        refine .inr ⟨{ entry with link := .positive (some k) }, ?_, rfl⟩
        rw [hentries, if_neg hne, if_pos rfl]
      · split at hn
        · cases hn
          cases hback
        · exact .inl hn
  | use hv hlink huses hentries =>
      rw [hentries] at hn
      split at hn
      · cases hn
        cases hlink.symm.trans hback
      · exact .inl hn

theorem Loses.alias_of_alias (h : Loses entries entries') {n : VarId} {negated : VarInfo}
    (hn : entries' n = some negated) (hback : negated.link = .negation p) :
    entries n = some negated := by
  cases h with
  | drop hv hlink huses hentries =>
      rw [hentries] at hn
      split at hn
      · cases hn
        cases hlink.symm.trans hback
      · exact hn
  | free hv hlink hentries =>
      rw [hentries] at hn
      split at hn
      · cases hn
      · exact hn

theorem Loses.live (h : Loses entries entries') (hp : entries' p ≠ none) : entries p ≠ none := by
  intro hdead
  refine hp ?_
  cases h with
  | @drop v entry m uses hv hlink huses hentries =>
      have hne : p ≠ v := by
        rintro rfl
        cases hv.symm.trans hdead
      rw [hentries, if_neg hne, hdead]
  | free hv hlink hentries =>
      rw [hentries]
      split
      · rfl
      · exact hdead

/-! ## What survives -/

/-- If the handle `p` is positive, it stands for the same variable, and so does its alias if
there is one. -/
structure Survives (p : VarId) (entries entries' : Entries) : Prop where
  entry : ∀ {entry m}, entries p = some entry → entry.link = .positive m →
    ∃ entry', entries' p = some entry' ∧ entry.Becomes entry'
  negation : ∀ {n negated}, entries n = some negated → negated.link = .negation p →
    entries' n = some negated

theorem Survives.refl (p : VarId) (entries : Entries) : Survives p entries entries :=
  ⟨fun hp _ => ⟨_, hp, .refl _⟩, fun hn _ => hn⟩

theorem Survives.trans (h : Survives p entries mid) (h' : Survives p mid entries') :
    Survives p entries entries' := by
  refine ⟨fun hp hlink => ?_, fun hn hlink => h'.negation (h.negation hn hlink) hlink⟩
  obtain ⟨entry₁, hp₁, hbecomes⟩ := h.entry hp hlink
  obtain ⟨m', hlink₁⟩ := hbecomes.positive hlink
  obtain ⟨entry₂, hp₂, hbecomes'⟩ := h'.entry hp₁ hlink₁
  exact ⟨entry₂, hp₂, hbecomes.trans hbecomes'⟩

/-- Another number of uses. -/
theorem survives_of_uses {v : VarId} {entry : VarInfo} {m : Option VarId} {uses : Nat}
    (hv : entries v = some entry) (hlink : entry.link = .positive m)
    (hentries : ∀ w, entries' w = if w = v then some { entry with uses } else entries w)
    (p : VarId) : Survives p entries entries' := by
  constructor
  · intro other k hp _
    by_cases hpv : p = v
    · subst hpv
      cases hv.symm.trans hp
      exact ⟨{ entry with uses }, by rw [hentries, if_pos rfl], rfl, .inl rfl⟩
    · exact ⟨other, by rw [hentries, if_neg hpv, hp], .refl _⟩
  · intro n negated hn hback
    have hne : n ≠ v := by
      rintro rfl
      cases hv.symm.trans hn
      cases hlink.symm.trans hback
    rw [hentries, if_neg hne, hn]

/-- What is gained takes nothing away. -/
theorem Gains.survives (h : Gains entries entries') (p : VarId) : Survives p entries entries' := by
  cases h with
  | @add v entry fresh hlink huses hentries =>
      have keep : ∀ {w other}, entries w = some other → entries' w = some other := by
        intro w other hw
        have hne : w ≠ v := by
          rintro rfl
          cases fresh.symm.trans hw
        rw [hentries, if_neg hne, hw]
      exact ⟨fun hp _ => ⟨_, keep hp, .refl _⟩, fun hn _ => keep hn⟩
  | @negate v n entry hv hlink fresh hentries =>
      have hne : ∀ {w other}, entries w = some other → w ≠ n := by
        rintro w other hw rfl
        cases fresh.symm.trans hw
      constructor
      · intro other m hp hm
        by_cases hpv : p = v
        · subst hpv
          cases hv.symm.trans hp
          refine ⟨{ entry with link := .positive (some n) }, ?_, rfl, .inr ⟨hlink, n, rfl⟩⟩
          rw [hentries, if_neg (hne hp), if_pos rfl]
        · refine ⟨other, ?_, .refl _⟩
          rw [hentries, if_neg (hne hp), if_neg hpv, hp]
      · intro k negated hk hback
        have hkv : k ≠ v := by
          rintro rfl
          cases hv.symm.trans hk
          cases hlink.symm.trans hback
        rw [hentries, if_neg (hne hk), if_neg hkv, hk]
  | use hv hlink huses hentries => exact survives_of_uses hv hlink hentries p

/-- What is lost is another variable, if this one is alive afterwards. -/
theorem Loses.survives (h : Loses entries entries') (hl : Linked entries) (hp : entries' p ≠ none) :
    Survives p entries entries' := by
  cases h with
  | drop hv hlink huses hentries => exact survives_of_uses hv hlink hentries p
  | @free v entry m hv hlink hentries =>
      have hother : ¬ (p = v ∨ some p = m) := by
        intro hfreed
        rw [hentries, if_pos hfreed] at hp
        exact hp rfl
      constructor
      · intro other k hlive _
        exact ⟨other, by rw [hentries, if_neg hother, hlive], .refl _⟩
      · intro n negated hn hback
        rw [hentries, if_neg, hn]
        rintro (rfl | rfl)
        · cases hv.symm.trans hn
          cases hlink.symm.trans hback
        · -- the alias of `v` belongs to `v` only
          obtain ⟨negated', hn', hback', -⟩ := hl.negation hv hlink
          cases hn.symm.trans hn'
          cases hback.symm.trans hback'
          exact hother (.inl rfl)

/-- Entries are made first, and freed later. -/
def Evolves (entries entries' : Entries) : Prop :=
  ∃ mid, ReflTransGen Gains entries mid ∧ ReflTransGen Loses mid entries'

theorem Evolves.refl (entries : Entries) : Evolves entries entries := ⟨entries, .refl, .refl⟩

theorem evolves_of_gains (h : ReflTransGen Gains entries entries') : Evolves entries entries' :=
  ⟨entries', h, .refl⟩

theorem Evolves.tail (h : Evolves entries mid) (hloses : Loses mid entries') :
    Evolves entries entries' := by
  obtain ⟨most, hgains, hlost⟩ := h
  exact ⟨most, hgains, hlost.tail hloses⟩

theorem linked_of_gains (h : ReflTransGen Gains entries entries') (hl : Linked entries) :
    Linked entries' := by
  induction h with
  | refl => exact hl
  | tail _ hstep ih => exact hstep.linked ih

theorem survives_of_gains (h : ReflTransGen Gains entries entries') (p : VarId) :
    Survives p entries entries' := by
  induction h with
  | refl => exact .refl p entries
  | tail _ hstep ih => exact ih.trans (hstep.survives p)

theorem Evolves.survives (h : Evolves entries entries') (hl : Linked entries)
    (hp : entries' p ≠ none) : Survives p entries entries' := by
  obtain ⟨most, hgains, hloses⟩ := h
  have hmost : Linked most := linked_of_gains hgains hl
  -- a handle that is alive in the end was alive after each loss
  have hlost : Linked entries' ∧ Survives p most entries' := by
    induction hloses with
    | refl => exact ⟨hmost, .refl p most⟩
    | tail _ hstep ih =>
        obtain ⟨hmid, hsurvives'⟩ := ih (hstep.live hp)
        exact ⟨hstep.linked hmid, hsurvives'.trans (hstep.survives hmid hp)⟩
  exact (survives_of_gains hgains p).trans hlost.2

end Steps

namespace Session

variable {s t : Session} {start : Entries} {v n p : VarId} {entry : VarInfo}

/-! ## Calls that make entries -/

/-- Entries were made since `start`, and none was freed. -/
structure Gained (start : Entries) (s : Session) : Prop where
  table : s.vars.Sound
  gains : ReflTransGen Gains start s.var?

theorem gained_refl (h : s.vars.Sound) : Gained s.var? s := ⟨h, .refl⟩

theorem Gained.adds (h : Gained start s) (hadds : s.Adds v entry t)
    (hlink : entry.link = .positive none) (huses : 0 < entry.uses) : Gained start t :=
  ⟨hadds.table, h.gains.tail (.add hadds.fresh hlink huses hadds.var?)⟩

theorem Gained.negates (h : Gained start s) (hnegates : s.Negates v entry n t) : Gained start t :=
  ⟨hnegates.table, h.gains.tail (.negate hnegates.live hnegates.link hnegates.fresh hnegates.var?)⟩

theorem Gained.useVar (h : Gained start s) (hv : s.var? v = some entry) {m : Option VarId}
    (hlink : entry.link = .positive m) : Gained start (s.useVar v) :=
  ⟨h.table.modify _ _,
    h.gains.tail (.use hv hlink (Nat.succ_pos _) (var?_modifyUses hv (· + 1)))⟩

theorem keeps_gained_newVar (start : Entries) (name : String) (lb ub obj : Float) (kind : VarKind) :
    Keeps (Gained start) (newVar name lb ub obj kind) := fun _ hs =>
  ends_newVar hs.table name lb ub obj kind (fun _ _ ht => hs.adds ht rfl Nat.one_pos) fun _ => hs

theorem keeps_gained_enrolVar (start : Entries) (v : VarId) :
    Keeps (Gained start) (enrolVar v) := fun _ hs =>
  ends_enrolVar v (fun _ _ _ hv hlink _ => ⟨(hs.useVar hv hlink).table, (hs.useVar hv hlink).gains⟩)
    (fun _ _ _ hv hlink => hs.useVar hv hlink) fun _ => hs

theorem keeps_gained_negateVar (start : Entries) (v : VarId) :
    Keeps (Gained start) (negateVar v) := fun _ hs =>
  ends_negateVar hs.table v (fun _ _ _ _ => hs) (fun _ _ _ ht => hs.negates ht) fun _ => hs

theorem keeps_gained_copyEntry (start : Entries) (entry : VarInfo) :
    Keeps (Gained start) (copyEntry entry) := fun _ hs =>
  (copyEntry_ends hs.table entry).mono (fun _ _ ht => hs.adds ht.2 rfl Nat.one_pos)
    fun _ _ ht => ht.1 ▸ hs

theorem keeps_gained_copyVar (start : Entries) (v : VarId) :
    Keeps (Gained start) (copyVar v) := by
  refine (keeps_getVar v).bind fun entry => ?_
  cases entry.link with
  | positive m => exact keeps_gained_copyEntry start entry
  | negation p =>
      exact (keeps_getVar p).bind fun partner =>
        (keeps_gained_copyEntry start partner).bind (keeps_gained_negateVar start)

/-- A copy is captured by calls that make entries. -/
theorem capturing_gained (start : Entries) : Capturing (Gained start) where
  copyVar := keeps_gained_copyVar start
  negateVar := keeps_gained_negateVar start
  copyCons c := (keeps_getCons c).bind fun entry s hs => by
    unfold allocateCons
    rw [ends_bind]
    exact (allocate_ends s entry.name).mono (fun _ t ht => ht.2 ▸ ⟨hs.table, hs.gains⟩)
      fun _ t ht => ht.1 ▸ hs

/-! ## Calls that free entries -/

/-- Entries may have been freed since `start`, too. -/
def Evolved (start : Entries) (s : Session) : Prop := Evolves start s.var?

theorem Gained.evolved (h : Gained start s) : Evolved start s := evolves_of_gains h.gains

theorem keeps_evolved_dropVarUse (start : Entries) (v : VarId) :
    Keeps (Evolved start) (dropVarUse v) := fun s hs =>
  ends_dropVarUse v (fun _ m hv hlink => hs.tail (.free hv hlink fun w => var?_freeVar s v w m))
    (fun _ _ hv hlink huses =>
      hs.tail (.drop hv hlink (Nat.sub_pos_of_lt huses) (var?_modifyUses hv (· - 1))))
    fun _ => hs

theorem keeps_evolved_dropConsUse (start : Entries) (c : ConsId) :
    Keeps (Evolved start) (dropConsUse c) := by
  refine (keeps_getCons c).bind fun entry => ?_
  split <;> exact fun _ hs => hs

/-- A formulation is released by calls that free entries. -/
theorem releasing_evolved (start : Entries) : Releasing (Evolved start) where
  releaseVar v := Keeps.bind (fun _ hs => hs) fun _ => keeps_evolved_dropVarUse start v
  releaseCons c := Keeps.bind (fun _ hs => hs) fun _ => keeps_evolved_dropConsUse start c

theorem keeps_evolved_discardCopy (start : Entries) : Keeps (Evolved start) discardCopy :=
  fun s hs => ends_discardCopy (fun _ => hs) fun copy rest _ _ =>
    Formulation.keeps_onSession_release (releasing_evolved start) copy { s with copies := rest } hs

theorem indifferent_evolved (start : Entries) : Indifferent (Evolved start) where
  settings _ hs := hs
  problem _ hs := hs
  handlers _ hs := hs

theorem keeps_evolved_close (start : Entries) : Keeps (Evolved start) close := by
  have hmembers : ∀ problem, Keeps (Evolved start) (dropMembers problem) := fun problem =>
    (Keeps.forM (keeps_evolved_dropConsUse start)).bind fun _ =>
      Keeps.forM (keeps_evolved_dropVarUse start)
  exact keeps_get.bind fun _ => (keeps_discardCopies (keeps_evolved_discardCopy start) _).bind
    fun _ => ((indifferent_evolved start).dropProblem hmembers).bind fun _ _ hs => hs

/-- A fork makes entries; one that is rolled back frees entries after that. -/
theorem evolved_forkCopy (h : s.vars.Sound) (source : Formulation) :
    Ends (forkCopy source) s (fun _ t => Evolved s.var? t) fun _ t => Evolved s.var? t := by
  refine ends_forkCopy (fun _ _ => .refl _) fun _ _ => ?_
  have hphases := Formulation.ends_fork_of_phases (capturing_gained s.var?).engine
    (releasing_evolved s.var?).engine (fun e he => he.evolved) (s.innermost?.getD source)
    (e := { session := s }) (gained_refl h)
  exact hphases.mono (fun _ _ he => he.evolved) fun _ _ he => he

/-! ## All calls -/

theorem keeps_evolved_allocateCons (start : Entries) (info : ConsInfo) :
    Keeps (Evolved start) (allocateCons info) := by
  refine Keeps.bind (fun s hs => ?_) fun _ _ hs => hs
  exact (allocate_ends s info.name).mono (fun _ t ht => ht.2 ▸ hs) fun _ t ht => ht.1 ▸ hs

theorem evolved_perform (h : s.vars.Sound) (c : Call) :
    Ends (perform c) s (fun _ t => Evolved s.var? t) fun _ t => Evolved s.var? t := by
  have hsame : Evolved s.var? s := .refl _
  have gained : ∀ {α : Type} {act : Run α} {answer : α → Answer}, Keeps (Gained s.var?) act →
      Ends (answer <$> act) s (fun _ t => Evolved s.var? t) fun _ t => Evolved s.var? t :=
    fun hact => (hact.map s (gained_refl h)).mono (fun _ _ ht => ht.evolved) fun _ _ ht => ht.evolved
  have evolved : ∀ {α : Type} {act : Run α} {answer : α → Answer}, Keeps (Evolved s.var?) act →
      Ends (answer <$> act) s (fun _ t => Evolved s.var? t) fun _ t => Evolved s.var? t :=
    fun hact => hact.map s hsame
  cases c with
  | changeSetting setting => exact evolved ((indifferent_evolved _).changeSetting setting)
  | newProblem name => exact evolved ((indifferent_evolved _).newProblem name)
  | setSense sense => exact evolved ((indifferent_evolved _).modifyProblem _)
  | setIntegral => exact evolved ((indifferent_evolved _).modifyProblem _)
  | newVar name lb ub obj kind => exact gained (keeps_gained_newVar _ name lb ub obj kind)
  | enrolVar v => exact gained (keeps_gained_enrolVar _ v)
  | negateVar v => exact gained (keeps_gained_negateVar _ v)
  | copyVar v => exact gained (keeps_gained_copyVar _ v)
  | releaseVar v => exact evolved ((releasing_evolved _).releaseVar v)
  | addHandler name => exact evolved ((indifferent_evolved _).addHandler name)
  | newCons handler name =>
      exact evolved ((keeps_requireHandler handler).bind fun _ =>
        keeps_requireProblem.bind fun _ => keeps_evolved_allocateCons _ _)
  | enrolCons c =>
      exact evolved ((keeps_getCons c).bind fun _ =>
        Keeps.bind (fun _ hs => hs) fun _ => (indifferent_evolved _).modifyProblem _)
  | copyCons c => exact evolved ((keeps_getCons c).bind fun _ => keeps_evolved_allocateCons _ _)
  | releaseCons c => exact evolved ((releasing_evolved _).releaseCons c)
  | installHooks => exact evolved fun _ hs => hs
  | forkCopy source => exact ends_map.mpr (evolved_forkCopy h source)
  | discardCopy => exact evolved (keeps_evolved_discardCopy _)
  | close => exact evolved (keeps_evolved_close _)

/-- Whatever a call has freed, it does not make anew. -/
theorem perform_evolves (h : s.vars.Sound) (c : Call) :
    Evolves s.var? (after (perform c) s).var? := (evolved_perform h c).after

/-! ## Lasting handles -/

/-- Calls and changes of the limit lead from `s` to a session, and `p` is alive after each of
them. -/
inductive KeepsLive (p : VarId) (s : Session) : Session → Prop
  | refl : KeepsLive p s s
  | call {t : Session} (c : Call) : KeepsLive p s t →
      ((after (perform c) t).var? p).isSome → KeepsLive p s (after (perform c) t)
  | setLimit {t : Session} (count : Option Nat) : KeepsLive p s t →
      KeepsLive p s (t.setLimit count)

theorem KeepsLive.reachable (h : s.KeepsLive p t) (hs : s.Reachable) : t.Reachable := by
  induction h with
  | refl => exact hs
  | call c _ _ ih => exact ih.call c
  | setLimit count _ ih => exact ih.setLimit count

/-- As long as a handle is alive it stands for the same variable. -/
theorem KeepsLive.survives (h : s.KeepsLive p t) (hs : s.Reachable) : Survives p s.var? t.var? := by
  induction h with
  | refl => exact .refl p _
  | call c hlive hp ih =>
      have ht := (hlive.reachable hs).sound
      refine ih.trans ((perform_evolves ht.vars c).survives ht.linked ?_)
      exact Option.isSome_iff_ne_none.mp hp
  | setLimit count _ ih => exact ih

end Session

end JointModel
