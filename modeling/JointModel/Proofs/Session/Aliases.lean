import JointModel.Proofs.Session.Balance
import JointModel.Proofs.Session.Turnover

/-!
# Negations and copies of variables

An alias is made when a variable is first negated, and made once more, in the new working copy,
when the alias is copied; both may happen long after the variable was created.  Still negation is
an involution, and it commutes with copying (`negation_commutes`), whatever happens in between
and whatever handles are used again, as long as the positive variables concerned stay alive.

## Strategy

* `Mirrored`: every alias says what its partner says, negated.  Entries that come and go keep
  this, by what survives of a handle that stays alive.
* `Tied`: the two handles of a variable and of its alias.  They stay tied, and while they are
  each one is the negation of the other.
* `Denotes`: what a handle stands for, in terms of its positive variable.  Negation changes the
  polarity and copying changes the space, so both orders lead to handles that denote the same.
-/

namespace JointModel

open Effect

/-! ## Aliases mirror their partners -/

/-- Every alias says what its partner says, negated. -/
structure Mirrored (entries : Entries) : Prop where
  negated_eq : ∀ {n negated p entry}, entries n = some negated → negated.link = .negation p →
    entries p = some entry → negated = entry.negated p

section Mirrored

variable {entries entries' : Entries}

/-- Only the nature of the partner matters. -/
theorem VarInfo.Becomes.negated_eq {entry entry' : VarInfo} (h : entry.Becomes entry') (p : VarId) :
    entry'.negated p = entry.negated p :=
  (congrArg (fun nature => nature.negated p) h.nature :)

theorem Mirrored.of_survives (hm : Mirrored entries) (hl : Linked entries)
    (hsurvives : ∀ p, entries' p ≠ none → Survives p entries entries')
    (hnew : ∀ {n negated p}, entries' n = some negated → negated.link = .negation p →
      entries n = some negated ∨ ∃ entry, entries' p = some entry ∧ negated = entry.negated p) :
    Mirrored entries' := by
  refine ⟨fun {n negated p entry} hn hback hp => ?_⟩
  rcases hnew hn hback with hold | ⟨other, hp', hmirror⟩
  · -- the partner was there before, too, and said the same
    obtain ⟨-, before, hbefore, hlink⟩ := hl.positive hold hback
    have hlive : entries' p ≠ none := by
      rw [hp]
      exact Option.some_ne_none entry
    obtain ⟨now, hnow, hbecomes⟩ := (hsurvives p hlive).entry hbefore hlink
    cases hp.symm.trans hnow
    exact (hm.negated_eq hold hback hbefore).trans (hbecomes.negated_eq p).symm
  · cases hp.symm.trans hp'
    exact hmirror

theorem Gains.mirrored (h : Gains entries entries') (hl : Linked entries) (hm : Mirrored entries) :
    Mirrored entries' :=
  hm.of_survives hl (fun p _ => h.survives p) h.alias_of_alias

theorem Loses.mirrored (h : Loses entries entries') (hl : Linked entries) (hm : Mirrored entries) :
    Mirrored entries' :=
  hm.of_survives hl (fun _ hp => h.survives hl hp) fun hn hback => .inl (h.alias_of_alias hn hback)

theorem Evolves.mirrored (h : Evolves entries entries') (hl : Linked entries)
    (hm : Mirrored entries) : Mirrored entries' := by
  obtain ⟨most, hgains, hloses⟩ := h
  have hgained : Linked most ∧ Mirrored most := by
    clear hloses
    induction hgains with
    | refl => exact ⟨hl, hm⟩
    | tail _ hstep ih => exact ⟨hstep.linked ih.1, hstep.mirrored ih.1 ih.2⟩
  have hlost : Linked entries' ∧ Mirrored entries' := by
    induction hloses with
    | refl => exact hgained
    | tail _ hstep ih => exact ⟨hstep.linked ih.1, hstep.mirrored ih.1 ih.2⟩
  exact hlost.2

end Mirrored

namespace Session

variable {s t u : Session} {v w p n c : VarId} {entry : VarInfo}

theorem Reachable.mirrored (h : s.Reachable) : Mirrored s.var? := by
  induction h with
  | fresh limit => exact ⟨fun hn => by simp [var?] at hn⟩
  | call c hs ih => exact (perform_evolves hs.sound.vars c).mirrored hs.sound.linked ih
  | setLimit count _ ih => exact ih

theorem Reachable.of_negateVar (hs : s.Reachable) (hrun : negateVar v s = .ok n t) :
    t.Reachable := by
  have h := hs.call (.negateVar v)
  rwa [show after (perform (.negateVar v)) s = t by simp [after, perform, map_apply, hrun]] at h

theorem Reachable.of_copyVar (hs : s.Reachable) (hrun : copyVar v s = .ok c t) : t.Reachable := by
  have h := hs.call (.copyVar v)
  rwa [show after (perform (.copyVar v)) s = t by simp [after, perform, map_apply, hrun]] at h

theorem positiveOf_of_positive (hv : s.var? v = some entry) {m : Option VarId}
    (hlink : entry.link = .positive m) : s.positiveOf v = v := by
  simp [positiveOf, hv, hlink]

theorem positiveOf_of_negation (hv : s.var? v = some entry) (hlink : entry.link = .negation p) :
    s.positiveOf v = p := by
  simp [positiveOf, hv, hlink]

/-! ## The handles of a variable and of its alias -/

/-- `p` is a positive variable, and `n` is its alias. -/
structure Tied (s : Session) (p n : VarId) : Prop where
  positive : ∃ entry, s.var? p = some entry ∧ entry.link = .positive (some n)
  negation : ∃ negated, s.var? n = some negated ∧ negated.link = .negation p

theorem Tied.ne (h : s.Tied p n) : p ≠ n := by
  rintro rfl
  obtain ⟨entry, hp, hlink⟩ := h.positive
  obtain ⟨negated, hn, hback⟩ := h.negation
  cases hp.symm.trans hn
  cases hlink.symm.trans hback

theorem Tied.negateVar_positive (h : s.Tied p n) : negateVar p s = .ok n s := by
  obtain ⟨entry, hp, hlink⟩ := h.positive
  exact negateVar_of_linked hp (.inl hlink)

theorem Tied.negateVar_negation (h : s.Tied p n) : negateVar n s = .ok p s := by
  obtain ⟨negated, hn, hback⟩ := h.negation
  exact negateVar_of_linked hn (.inr hback)

theorem Tied.positiveOf_positive (h : s.Tied p n) : s.positiveOf p = p := by
  obtain ⟨entry, hp, hlink⟩ := h.positive
  exact positiveOf_of_positive hp hlink

theorem Tied.positiveOf_negation (h : s.Tied p n) : s.positiveOf n = p := by
  obtain ⟨negated, hn, hback⟩ := h.negation
  exact positiveOf_of_negation hn hback

theorem Tied.lasts (h : s.Tied p n) (hs : s.Reachable) (hlive : s.KeepsLive p t) : t.Tied p n := by
  obtain ⟨entry, hp, hlink⟩ := h.positive
  obtain ⟨negated, hn, hback⟩ := h.negation
  have hsurvives := hlive.survives hs
  obtain ⟨entry', hp', hbecomes⟩ := hsurvives.entry hp hlink
  refine ⟨⟨entry', hp', ?_⟩, negated, hsurvives.negation hn hback, hback⟩
  rcases hbecomes.link with hsame | ⟨hnone, -⟩
  · exact hsame.trans hlink
  · cases hlink.symm.trans hnone

theorem tied_of_link (hs : s.Reachable) (hp : s.var? p = some entry)
    (hlink : entry.link = .positive (some n)) : s.Tied p n := by
  obtain ⟨negated, hn, hback, -⟩ := hs.sound.linked.negation hp hlink
  exact ⟨⟨entry, hp, hlink⟩, negated, hn, hback⟩

theorem tied_of_alias (hs : s.Reachable) {negated : VarInfo} (hn : s.var? n = some negated)
    (hback : negated.link = .negation p) : s.Tied p n := by
  obtain ⟨-, entry, hp, hlink⟩ := hs.sound.linked.positive hn hback
  exact ⟨⟨entry, hp, hlink⟩, negated, hn, hback⟩

theorem Negates.tied (h : s.Negates v entry n t) : t.Tied v n where
  positive := ⟨_, by rw [h.var?, if_neg h.ne.symm, if_pos rfl], rfl⟩
  negation := ⟨_, by rw [h.var?, if_pos rfl], rfl⟩

theorem tied_of_negateVar (hs : s.Reachable) (hrun : negateVar v s = .ok n t) :
    t.Tied v n ∨ t.Tied n v := by
  have hends : Ends (negateVar v) s (fun n t => t.Tied v n ∨ t.Tied n v) fun _ _ => True := by
    refine ends_negateVar hs.sound.vars v (fun entry n hv hlink => ?_)
      (fun _ _ _ ht => .inl ht.tied) fun _ => trivial
    rcases hlink with hlink | hback
    · exact .inl (tied_of_link hs hv hlink)
    · exact .inr (tied_of_alias hs hv hback)
  exact hends.accepted hrun

/-- A negation stays what it is as long as the positive variable is alive. -/
theorem negateVar_lasts (hs : s.Reachable) (hrun : negateVar v s = .ok n t)
    (hlive : t.KeepsLive (t.positiveOf v) u) :
    n ≠ v ∧ negateVar v u = .ok n u ∧ negateVar n u = .ok v u := by
  have ht : t.Reachable := hs.of_negateVar hrun
  rcases tied_of_negateVar hs hrun with htied | htied
  · rw [htied.positiveOf_positive] at hlive
    have hlasts := htied.lasts ht hlive
    exact ⟨htied.ne.symm, hlasts.negateVar_positive, hlasts.negateVar_negation⟩
  · rw [htied.positiveOf_negation] at hlive
    have hlasts := htied.lasts ht hlive
    exact ⟨htied.ne, hlasts.negateVar_negation, hlasts.negateVar_positive⟩

/-! ## What a handle stands for -/

/-- The handle `v` stands for a variable of the given nature, or for its negation. -/
inductive Denotes (s : Session) (v : VarId) (nature : VarInfo) : (negated : Bool) → Prop
  | positive {entry : VarInfo} {m : Option VarId} : s.var? v = some entry →
      entry.link = .positive m → entry.nature = nature → Denotes s v nature false
  | negation {p : VarId} {entry : VarInfo} : s.Tied p v → s.var? p = some entry →
      entry.nature = nature → Denotes s v nature true

variable {nature : VarInfo} {negated : Bool}

/-- Every live handle stands for something. -/
theorem exists_denotes (hs : s.Reachable) (hv : (s.var? v).isSome) :
    ∃ nature negated, s.Denotes v nature negated := by
  obtain ⟨entry, hv⟩ := Option.isSome_iff_exists.mp hv
  cases hlink : entry.link with
  | positive m => exact ⟨_, _, .positive hv hlink rfl⟩
  | negation p =>
      have htied := tied_of_alias hs hv hlink
      obtain ⟨partner, hp, -⟩ := htied.positive
      exact ⟨_, _, .negation htied hp rfl⟩

theorem Denotes.lasts (h : s.Denotes v nature negated) (hs : s.Reachable)
    (hlive : s.KeepsLive (s.positiveOf v) t) : t.Denotes v nature negated := by
  cases h with
  | positive hv hlink hnature =>
      rw [positiveOf_of_positive hv hlink] at hlive
      obtain ⟨entry', hv', hbecomes⟩ := (hlive.survives hs).entry hv hlink
      obtain ⟨m', hlink'⟩ := hbecomes.positive hlink
      exact .positive hv' hlink' (hbecomes.nature.trans hnature)
  | negation htied hp hnature =>
      rw [htied.positiveOf_negation] at hlive
      obtain ⟨entry, hp', hlink⟩ := htied.positive
      cases hp.symm.trans hp'
      obtain ⟨entry', hp', hbecomes⟩ := (hlive.survives hs).entry hp hlink
      exact .negation (htied.lasts hs hlive) hp' (hbecomes.nature.trans hnature)

theorem Negates.denotes (h : s.Negates v entry n t) : t.Denotes n entry.nature true := by
  have hv : t.var? v = some { entry with link := .positive (some n) } := by
    rw [h.var?, if_neg h.ne.symm, if_pos rfl]
  exact .negation h.tied hv rfl

theorem Adds.denotes (h : s.Adds v entry t) {m : Option VarId} (hlink : entry.link = .positive m) :
    t.Denotes v entry.nature false :=
  .positive (by rw [h.var?, if_pos rfl]) hlink rfl

/-- Negation changes the polarity. -/
theorem Denotes.negateVar (h : s.Denotes v nature negated) (hs : s.Reachable)
    (hrun : negateVar v s = .ok n t) : t.Denotes n nature (!negated) := by
  cases h with
  | positive hv hlink hnature =>
      have hends : Ends (Session.negateVar v) s (fun n t => t.Denotes n nature true)
          fun _ _ => True := by
        refine ends_negateVar hs.sound.vars v (fun other n hv' hlinked => ?_)
          (fun other n t ht => ?_) fun _ => trivial
        · cases hv.symm.trans hv'
          rcases hlinked with hsome | hback
          · exact .negation (tied_of_link hs hv hsome) hv hnature
          · cases hlink.symm.trans hback
        · cases hv.symm.trans ht.live
          exact hnature ▸ ht.denotes
      exact hends.accepted hrun
  | negation htied hp hnature =>
      cases htied.negateVar_negation.symm.trans hrun
      obtain ⟨entry, hp', hlink⟩ := htied.positive
      cases hp.symm.trans hp'
      exact .positive hp hlink hnature

/-- Copying changes the space. -/
theorem Denotes.copyVar (h : s.Denotes v nature negated) (hs : s.Reachable)
    (hrun : copyVar v s = .ok c t) : t.Denotes c nature.copied.nature negated := by
  cases h with
  | positive hv hlink hnature =>
      have hadds := ((copyVar_ends hs.sound.vars hv hlink).accepted hrun).2
      exact hnature ▸ hadds.denotes rfl
  | negation htied hp hnature =>
      obtain ⟨image, hv, hback⟩ := htied.negation
      obtain ⟨target, u, hadds, hnegates⟩ :=
        (copyVar_alias_ends hs.sound.vars hv hback hp).accepted hrun
      exact hnature ▸ hnegates.denotes

/-! ## Negation commutes with copying -/

/-- `v` in `s` and `w` in `t` stand for the same in a working copy: name, bounds, objective
coefficient, kind and space agree, and both are aliases or none is. -/
def Alike (s : Session) (v : VarId) (t : Session) (w : VarId) : Prop :=
  ∃ entry entry', s.var? v = some entry ∧ t.var? w = some entry' ∧
    entry.nature = entry'.nature ∧ entry.link.isPositive = entry'.link.isPositive ∧
    entry.space = .copy

theorem Denotes.alike (h : s.Denotes v nature negated) (h' : t.Denotes w nature negated)
    (hs : s.Reachable) (ht : t.Reachable) (hcopy : nature.space = .copy) : s.Alike v t w := by
  cases h with
  | @positive entry m hv hlink hnature =>
      obtain ⟨hw, hlink', hnature'⟩ := h'
      refine ⟨entry, _, hv, hw, hnature.trans hnature'.symm, ?_, ?_⟩
      · rw [hlink, hlink']
        rfl
      · rw [← hcopy, ← hnature]
        rfl
  | @negation p entry htied hp hnature =>
      obtain _ | @⟨q, entry', htied', hq, hnature'⟩ := h'
      obtain ⟨image, hv, hback⟩ := htied.negation
      obtain ⟨image', hw, hback'⟩ := htied'.negation
      have hmirror : image = entry.negated p := hs.mirrored.negated_eq hv hback hp
      have hmirror' : image' = entry'.negated q := ht.mirrored.negated_eq hw hback' hq
      refine ⟨image, image', hv, hw, ?_, ?_, ?_⟩
      · subst hmirror hmirror'
        exact congrArg (fun nature => (nature.negated p).nature) (hnature.trans hnature'.symm)
      · rw [hback, hback']
        rfl
      · rw [hmirror, ← hcopy, ← hnature]
        rfl

/-- `second` was called, in the end, for what `first` answers for `v`.  Both calls may come at any
time, as long as the positive variables of `v` and of the first answer are alive until then. -/
inductive InTurn (first second : VarId → Run VarId) (s : Session) (v a : VarId) (t : Session) : Prop
  | intro {before between after : Session} {c : VarId} :
      s.KeepsLive (s.positiveOf v) before → first v before = .ok c between →
      between.KeepsLive (between.positiveOf c) after → second c after = .ok a t →
      InTurn first second s v a t

theorem inTurn_of_bind {first second : VarId → Run VarId} {a : VarId}
    (hrun : (first v >>= second) s = .ok a t) : InTurn first second s v a t := by
  rw [bind_apply] at hrun
  cases hfirst : first v s with
  | ok c between =>
      rw [hfirst] at hrun
      exact .intro .refl hfirst .refl hrun
  | error cause between =>
      rw [hfirst] at hrun
      cases hrun

theorem Denotes.negated_copy (h : s.Denotes v nature negated) (hs : s.Reachable) {a : VarId}
    (hrun : InTurn Session.copyVar Session.negateVar s v a t) :
    t.Reachable ∧ t.Denotes a nature.copied.nature (!negated) := by
  obtain ⟨hbefore, hcopy, hbetween, hnegate⟩ := hrun
  have hreachable := (hbefore.reachable hs).of_copyVar hcopy
  have hdenotes := ((h.lasts hs hbefore).copyVar (hbefore.reachable hs) hcopy).lasts hreachable
    hbetween
  have hlate := hbetween.reachable hreachable
  exact ⟨hlate.of_negateVar hnegate, hdenotes.negateVar hlate hnegate⟩

theorem Denotes.copied_negation (h : s.Denotes v nature negated) (hs : s.Reachable) {b : VarId}
    (hrun : InTurn Session.negateVar Session.copyVar s v b t) :
    t.Reachable ∧ t.Denotes b nature.copied.nature (!negated) := by
  obtain ⟨hbefore, hnegate, hbetween, hcopy⟩ := hrun
  have hreachable := (hbefore.reachable hs).of_negateVar hnegate
  have hdenotes := ((h.lasts hs hbefore).negateVar (hbefore.reachable hs) hnegate).lasts hreachable
    hbetween
  have hlate := hbetween.reachable hreachable
  exact ⟨hlate.of_copyVar hcopy, hdenotes.copyVar hlate hcopy⟩

/-- The copy `n` of an alias is an alias, too.  Its partner is new and used once, and the entries
that there were have not changed. -/
structure CopiesAlias (s : Session) (n : VarId) (t : Session) : Prop where
  fresh : s.var? n = none
  partner : ∃ target entry, s.var? target = none ∧ t.Tied target n ∧
    t.var? target = some entry ∧ entry.space = .copy ∧ entry.uses = 1
  others : ∀ w, (s.var? w).isSome → t.var? w = s.var? w

theorem copyVar_copiesAlias (hs : s.Reachable) {image : VarInfo} (hv : s.var? v = some image)
    (hback : image.link = .negation p) (hrun : copyVar v s = .ok n t) : s.CopiesAlias n t := by
  obtain ⟨entry, hp, -⟩ := (tied_of_alias hs hv hback).positive
  obtain ⟨target, u, hadds, hnegates⟩ :=
    (copyVar_alias_ends hs.sound.vars hv hback hp).accepted hrun
  have hne : n ≠ target := hnegates.ne
  have hfresh : s.var? n = none := by
    rw [← hnegates.fresh, hadds.var?, if_neg hne]
  refine ⟨hfresh, ⟨target, { entry.copied with link := .positive (some n) }, hadds.fresh,
    hnegates.tied, ?_, rfl, rfl⟩, fun w hw => ?_⟩
  · rw [hnegates.var?, if_neg hne.symm, if_pos rfl]
  · have hwn : w ≠ n := by
      rintro rfl
      rw [hfresh] at hw
      cases hw
    have hwt : w ≠ target := by
      rintro rfl
      rw [hadds.fresh] at hw
      cases hw
    rw [hnegates.var?, if_neg hwn, if_neg hwt, hadds.var?, if_neg hwt]

/-- The negation of a copy and the copy of a negation are alike, and so are their negations. -/
theorem alike_of_inTurn (hs : s.Reachable) (hv : (s.var? v).isSome) {a b : VarId}
    (ha : InTurn copyVar negateVar s v a t) (hb : InTurn negateVar copyVar s v b u) :
    t.Alike a u b ∧ ∀ a' t' b' u', negateVar a t = .ok a' t' → negateVar b u = .ok b' u' →
      t'.Alike a' u' b' := by
  obtain ⟨nature, negated, hdenotes⟩ := exists_denotes hs hv
  obtain ⟨ht, hdenotes_a⟩ := hdenotes.negated_copy hs ha
  obtain ⟨hu, hdenotes_b⟩ := hdenotes.copied_negation hs hb
  refine ⟨hdenotes_a.alike hdenotes_b ht hu rfl, fun a' t' b' u' ha' hb' => ?_⟩
  exact (hdenotes_a.negateVar ht ha').alike (hdenotes_b.negateVar hu hb') (ht.of_negateVar ha')
    (hu.of_negateVar hb') rfl

/-- Negation of a live handle is an involution without fixed points and stays what it is; the
negation of a copy and a copy of the negation are alike; the copy of an alias is the alias of a
new variable. -/
theorem negation_commutes (hs : s.Reachable) (hv : s.var? v = some entry) :
    (∀ n t, negateVar v s = .ok n t → n ≠ v ∧ ∀ u, t.KeepsLive (t.positiveOf v) u →
      negateVar v u = .ok n u ∧ negateVar n u = .ok v u) ∧
    (∀ a t b u, InTurn copyVar negateVar s v a t → InTurn negateVar copyVar s v b u →
      t.Alike a u b ∧
        ∀ a' t' b' u', negateVar a t = .ok a' t' → negateVar b u = .ok b' u' →
          t'.Alike a' u' b') ∧
    (∀ p n t, entry.link = .negation p → copyVar v s = .ok n t → s.CopiesAlias n t) := by
  refine ⟨fun n t hrun => ⟨?_, fun u hlive => ?_⟩, fun a t b u ha hb => ?_,
    fun p n t hback hrun => copyVar_copiesAlias hs hv hback hrun⟩
  · exact (negateVar_lasts hs hrun .refl).1
  · exact (negateVar_lasts hs hrun hlive).2
  · exact alike_of_inTurn hs (Option.isSome_of_eq_some hv) ha hb

/-- A session with a variable and its alias. -/
def pairSession : Session :=
  history [.newProblem "p", .newVar "x" 0 1 0 .binary, .negateVar ⟨0⟩]

/-- The same one after another variable was created. -/
def laterSession : Session := after (perform (.newVar "y" 0 1 0 .binary)) pairSession

theorem negation_commutes_pair :
    (negateVar ⟨1⟩ laterSession = .ok ⟨0⟩ laterSession ∧
      negateVar ⟨0⟩ laterSession = .ok ⟨1⟩ laterSession) ∧
    (after (copyVar ⟨1⟩ >>= negateVar) laterSession).Alike ⟨3⟩
      (after (negateVar ⟨1⟩ >>= copyVar) pairSession) ⟨2⟩ ∧
    pairSession.CopiesAlias ⟨3⟩ (after (copyVar ⟨1⟩) pairSession) := by
  have hreachable : pairSession.Reachable := reachable_history _
  have hlater : pairSession.KeepsLive (pairSession.positiveOf ⟨1⟩) laterSession :=
    .call _ .refl rfl
  obtain ⟨hnegates, halike, hcopies⟩ := negation_commutes (v := ⟨1⟩) hreachable rfl
  refine ⟨(hnegates ⟨0⟩ pairSession rfl).2 laterSession hlater, ?_, hcopies ⟨0⟩ ⟨3⟩ _ rfl rfl⟩
  have hcopied : copyVar ⟨1⟩ laterSession = .ok ⟨4⟩ (after (copyVar ⟨1⟩) laterSession) := rfl
  have hnegated : InTurn copyVar negateVar pairSession ⟨1⟩ ⟨3⟩
      (after (copyVar ⟨1⟩ >>= negateVar) laterSession) := .intro hlater hcopied .refl rfl
  exact (halike _ _ _ _ hnegated (inTurn_of_bind rfl)).1

end Session

end JointModel
