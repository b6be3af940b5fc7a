import JointModel.Proofs.Engine
import JointModel.Proofs.Session.Invariant

/-!
# Giving uses back

`remaining vs` is the map from handles to entries once every handle of the list
`vs` gave back a use for each time that it stands there: an entry without uses
is gone, and its alias is gone with it.  If no handle of the list stands there
more often than its entry is used (`Affords`), all of them can give their uses
back, and nothing but the entries changes (`forM_dropVarUse`).

Releases differ from that only in what they enter in the ledger
(`forM_releaseVar`), and out of reach of faults the engine passes them on
(`forM_spared`).
-/

namespace JointModel

namespace Session

open Effect

variable {s t : Session} {v w : VarId} {entry : VarInfo} {done rest vs : List VarId}

/-! ## Variables -/

/-- What a handle stands for once a list of handles gave back one use each. -/
def remaining (s : Session) (vs : List VarId) (w : VarId) : Option VarInfo :=
  (s.var? w).bind fun entry =>
    match entry.link with
    | .positive _ =>
      if entry.uses ≤ vs.count w then none else some { entry with uses := entry.uses - vs.count w }
    | .negation p => if (s.var? p).elim 0 VarInfo.uses ≤ vs.count p then none else some entry

/-- Every handle of the list is owned and used at least as often as it stands
there. -/
def Affords (s : Session) (vs : List VarId) : Prop :=
  ∀ v ∈ vs, ∃ entry n, s.var? v = some entry ∧ entry.link = .positive n ∧ vs.count v ≤ entry.uses

/-- `t` is `s` after the handles `vs` gave back one use each. -/
structure DropsVars (s : Session) (vs : List VarId) (t : Session) : Prop where
  sound : t.Sound
  var? : ∀ w, t.var? w = s.remaining vs w
  rest : t = { s with vars := t.vars, ledger.varReleases := t.ledger.varReleases }

theorem remaining_of_positive (hw : s.var? w = some entry) {n : Option VarId}
    (hlink : entry.link = .positive n) (vs : List VarId) :
    s.remaining vs w = if entry.uses ≤ vs.count w then none
      else some { entry with uses := entry.uses - vs.count w } := by
  simp only [remaining, hw, Option.bind_some, hlink]

theorem remaining_of_negation (hw : s.var? w = some entry) (hlink : entry.link = .negation v)
    (vs : List VarId) :
    s.remaining vs w = if (s.var? v).elim 0 VarInfo.uses ≤ vs.count v then none
      else some entry := by
  simp only [remaining, hw, Option.bind_some, hlink]

theorem remaining_of_dead (hw : s.var? w = none) (vs : List VarId) : s.remaining vs w = none := by
  simp only [remaining, hw, Option.bind_none]

theorem remaining_nil (h : s.Sound) : s.remaining [] w = s.var? w := by
  cases hw : s.var? w with
  | none => exact remaining_of_dead hw []
  | some entry =>
      cases hlink : entry.link with
      | positive n =>
          have hused : 0 < entry.uses := h.linked.used hw hlink
          rw [remaining_of_positive hw hlink, List.count_nil, if_neg (by omega)]
          rfl
      | negation p =>
          obtain ⟨-, partner, hp, hback⟩ := h.linked.positive hw hlink
          have hused : 0 < partner.uses := h.linked.used hp hback
          rw [remaining_of_negation hw hlink, hp, List.count_nil, if_neg]
          simp only [Option.elim_some]
          omega

/-- Handles that are no longer in the list and are not tied to one that is keep
what they stand for. -/
theorem remaining_append_of_ne (h : s.Sound) (hv : s.var? v = some entry) {n : Option VarId}
    (hlink : entry.link = .positive n) (hwv : w ≠ v) (hwn : some w ≠ n) :
    s.remaining (done ++ [v]) w = s.remaining done w := by
  have hcount : ∀ {u}, u ≠ v → (done ++ [v]).count u = done.count u := by
    intro u hu
    rw [List.count_append, List.count_cons_of_ne (Ne.symm hu), List.count_nil, Nat.add_zero]
  cases hw : s.var? w with
  | none => rw [remaining_of_dead hw, remaining_of_dead hw]
  | some other =>
      cases hother : other.link with
      | positive m =>
          rw [remaining_of_positive hw hother, remaining_of_positive hw hother, hcount hwv]
      | negation p =>
          have hpv : p ≠ v := by
            rintro rfl
            obtain ⟨-, partner, hp, hback⟩ := h.linked.positive hw hother
            rw [hv] at hp
            cases hp
            rw [hlink] at hback
            exact hwn (Link.positive.inj hback).symm
          rw [remaining_of_negation hw hother, remaining_of_negation hw hother, hcount hpv]

/-- One more handle gives back a use. -/
theorem DropsVars.step (h : s.Sound) (hdone : s.DropsVars done t) (hv : s.var? v = some entry)
    {n : Option VarId} (hlink : entry.link = .positive n) (huses : done.count v < entry.uses) :
    ∃ u, dropVarUse v t = .ok () u ∧ s.DropsVars (done ++ [v]) u ∧ u.ledger = t.ledger := by
  have hcount : (done ++ [v]).count v = done.count v + 1 := by simp
  have htv : t.var? v = some { entry with uses := entry.uses - done.count v } := by
    rw [hdone.var?, remaining_of_positive hv hlink, if_neg (by omega)]
  have hnew : s.remaining (done ++ [v]) v = if entry.uses ≤ done.count v + 1 then none
      else some { entry with uses := entry.uses - (done.count v + 1) } := by
    rw [remaining_of_positive hv hlink, hcount]
  -- the alias of `v` shares the fate of `v`
  have halias : ∀ {w}, some w = n → s.remaining (done ++ [v]) w =
      if entry.uses ≤ done.count v + 1 then none else t.var? w := by
    intro w hwn
    obtain ⟨negated, hw, hback, -⟩ := h.linked.negation hv (by rw [hlink, ← hwn])
    rw [hdone.var?, remaining_of_negation hw hback, remaining_of_negation hw hback, hv, hcount]
    have hstays : ¬ entry.uses ≤ done.count v := by omega
    rw [Option.elim_some, if_neg hstays]
  have hother : ∀ {w}, w ≠ v → some w ≠ n → s.remaining (done ++ [v]) w = t.var? w := by
    intro w hwv hwn
    rw [hdone.var?, remaining_append_of_ne h hv hlink hwv hwn]
  -- the last use frees the entry and its alias, any other one is only counted
  by_cases hlast : entry.uses ≤ done.count v + 1
  · refine ⟨_, dropVarUse_last htv hlink (by simp only; omega), ⟨?_, ?_, ?_⟩, rfl⟩
    · exact hdone.sound.freeVar htv hlink
    · intro w
      rw [var?_freeVar]
      by_cases hwv : w = v
      · rw [if_pos (.inl hwv), hwv, hnew, if_pos hlast]
      · by_cases hwn : some w = n
        · rw [if_pos (.inr hwn), halias hwn, if_pos hlast]
        · rw [if_neg (by simp [hwv, hwn]), hother hwv hwn]
    · rw [hdone.rest]
      rfl
  · refine ⟨_, dropVarUse_more htv hlink (by simp only; omega), ⟨?_, ?_, ?_⟩, rfl⟩
    · exact hdone.sound.modifyUses htv hlink (· - 1) (by simp only; omega)
    · intro w
      rw [var?_modify]
      by_cases hwv : w = v
      · rw [if_pos hwv, hwv, hnew, if_neg hlast, htv, Option.map_some]
        congr 2
      · rw [if_neg hwv]
        by_cases hwn : some w = n
        · rw [halias hwn, if_neg hlast]
        · rw [hother hwv hwn]
    · rw [hdone.rest]

theorem Affords.of_split (h : s.Affords vs) (hsplit : vs = done ++ v :: rest) :
    ∃ entry n, s.var? v = some entry ∧ entry.link = .positive n ∧ done.count v < entry.uses := by
  obtain ⟨entry, n, hv, hlink, hle⟩ := h v (by simp [hsplit])
  have hcount : vs.count v = done.count v + (rest.count v + 1) := by
    rw [hsplit, List.count_append, List.count_cons_self]
  exact ⟨entry, n, hv, hlink, by omega⟩

/-- If no handle of the list stands there more often than its entry is used, all
of them can give their uses back. -/
theorem forM_dropVarUse (h : s.Sound) (hvs : s.Affords vs) :
    ∃ t, vs.forM dropVarUse s = .ok ⟨⟩ t ∧ s.DropsVars vs t ∧ t.ledger = s.ledger := by
  -- once the loop is through with `done`, a handle stands for what remains after `done`
  refine forM_accepted (I := fun done t => s.DropsVars done t ∧ t.ledger = s.ledger)
    (fun done v rest hsplit t ht => ?_) ⟨⟨h, fun w => (remaining_nil h).symm, rfl⟩, rfl⟩
  obtain ⟨hdone, hledger⟩ := ht
  obtain ⟨entry, n, hv, hlink, huses⟩ := hvs.of_split hsplit
  obtain ⟨u, hrun, hu, hsame⟩ := hdone.step h hv hlink huses
  exact ⟨u, hrun, hu, hsame.trans hledger⟩

/-- The same for releases, each of which is counted. -/
theorem forM_releaseVar (h : s.Sound) (hvs : s.Affords vs) :
    ∃ t, vs.forM releaseVar s = .ok ⟨⟩ t ∧ s.DropsVars vs t ∧
      t.ledger.varReleases = s.ledger.varReleases + vs.length := by
  refine forM_accepted (I := fun done t => s.DropsVars done t ∧
      t.ledger.varReleases = s.ledger.varReleases + done.length)
    (fun done v rest hsplit t ht => ?_) ⟨⟨h, fun w => (remaining_nil h).symm, rfl⟩, rfl⟩
  obtain ⟨hdone, hledger⟩ := ht
  obtain ⟨entry, n, hv, hlink, huses⟩ := hvs.of_split hsplit
  -- the call is counted before it looks at the entry
  have hcounted : s.DropsVars done { t with ledger.varReleases := t.ledger.varReleases + 1 } :=
    ⟨hdone.sound.of_tables rfl rfl hdone.sound.hooked, hdone.var?, by rw [hdone.rest]⟩
  obtain ⟨u, hrun, hu, hsame⟩ := hcounted.step h hv hlink huses
  refine ⟨u, hrun, hu, ?_⟩
  rw [hsame, hledger, List.length_append, List.length_singleton, Nat.add_assoc]

/-! ## Constraints -/

variable {c d : ConsId} {info : ConsInfo} {cs gone : List ConsId}

/-- What a handle stands for once a list of handles gave back one use each. -/
def remainingCons (s : Session) (cs : List ConsId) (c : ConsId) : Option ConsInfo :=
  (s.cons? c).bind fun info =>
    if info.uses ≤ cs.count c then none else some { info with uses := info.uses - cs.count c }

/-- Every constraint of the list is used at least as often as it stands
there. -/
def AffordsCons (s : Session) (cs : List ConsId) : Prop :=
  ∀ c ∈ cs, ∃ info, s.cons? c = some info ∧ cs.count c ≤ info.uses

/-- `t` is `s` after the constraints `cs` gave back one use each. -/
structure DropsConss (s : Session) (cs : List ConsId) (t : Session) : Prop where
  sound : t.Sound
  cons? : ∀ d, t.cons? d = s.remainingCons cs d
  rest : t = { s with conss := t.conss, ledger.consReleases := t.ledger.consReleases }

theorem remainingCons_of_some (hc : s.cons? c = some info) (cs : List ConsId) :
    s.remainingCons cs c = if info.uses ≤ cs.count c then none
      else some { info with uses := info.uses - cs.count c } := by
  simp only [remainingCons, hc, Option.bind_some]

theorem remainingCons_nil (h : s.Sound) : s.remainingCons [] c = s.cons? c := by
  cases hc : s.cons? c with
  | none => simp only [remainingCons, hc, Option.bind_none]
  | some info =>
      have hused : 0 < info.uses := h.usedCons hc
      rw [remainingCons_of_some hc, List.count_nil, if_neg (by omega)]
      rfl

theorem remainingCons_of_not_mem (h : s.Sound) (hc : c ∉ cs) :
    s.remainingCons cs c = s.cons? c := by
  rw [← remainingCons_nil h, remainingCons, remainingCons, List.count_eq_zero_of_not_mem hc,
    List.count_nil]

theorem DropsConss.step (hdone : s.DropsConss gone t) (hc : s.cons? c = some info)
    (huses : gone.count c < info.uses) :
    ∃ u, dropConsUse c t = .ok () u ∧ s.DropsConss (gone ++ [c]) u ∧ u.ledger = t.ledger := by
  have hcount : (gone ++ [c]).count c = gone.count c + 1 := by simp
  have htc : t.cons? c = some { info with uses := info.uses - gone.count c } := by
    rw [hdone.cons?, remainingCons_of_some hc, if_neg (by omega)]
  have hnew : s.remainingCons (gone ++ [c]) c = if info.uses ≤ gone.count c + 1 then none
      else some { info with uses := info.uses - (gone.count c + 1) } := by
    rw [remainingCons_of_some hc, hcount]
  have hother : ∀ {d}, d ≠ c → s.remainingCons (gone ++ [c]) d = t.cons? d := by
    intro d hd
    rw [hdone.cons?, remainingCons, remainingCons, List.count_append,
      List.count_cons_of_ne (Ne.symm hd), List.count_nil, Nat.add_zero]
  by_cases hlast : info.uses ≤ gone.count c + 1
  · refine ⟨_, dropConsUse_last htc (by simp only; omega), ⟨?_, ?_, ?_⟩, rfl⟩
    · exact hdone.sound.freeCons htc
    · intro d
      rw [cons?_freeCons]
      by_cases hd : d = c
      · rw [if_pos hd, hd, hnew, if_pos hlast]
      · rw [if_neg hd, hother hd]
    · rw [hdone.rest]
      rfl
  · refine ⟨_, dropConsUse_more htc (by simp only; omega), ⟨?_, ?_, ?_⟩, rfl⟩
    · exact hdone.sound.modifyConsUses htc (· - 1) (by simp only; omega)
    · intro d
      rw [cons?_modify]
      by_cases hd : d = c
      · rw [if_pos hd, hd, hnew, if_neg hlast, htc, Option.map_some]
        congr 2
      · rw [if_neg hd, hother hd]
    · rw [hdone.rest]

theorem AffordsCons.of_split (h : s.AffordsCons cs) {later : List ConsId}
    (hsplit : cs = gone ++ c :: later) :
    ∃ info, s.cons? c = some info ∧ gone.count c < info.uses := by
  obtain ⟨info, hc, hle⟩ := h c (by simp [hsplit])
  have hcount : cs.count c = gone.count c + (later.count c + 1) := by
    rw [hsplit, List.count_append, List.count_cons_self]
  exact ⟨info, hc, by omega⟩

theorem forM_dropConsUse (h : s.Sound) (hcs : s.AffordsCons cs) :
    ∃ t, cs.forM dropConsUse s = .ok ⟨⟩ t ∧ s.DropsConss cs t ∧ t.ledger = s.ledger := by
  refine forM_accepted (I := fun gone t => s.DropsConss gone t ∧ t.ledger = s.ledger)
    (fun gone c later hsplit t ht => ?_) ⟨⟨h, fun d => (remainingCons_nil h).symm, rfl⟩, rfl⟩
  obtain ⟨hgone, hledger⟩ := ht
  obtain ⟨info, hc, huses⟩ := hcs.of_split hsplit
  obtain ⟨u, hrun, hu, hsame⟩ := hgone.step hc huses
  exact ⟨u, hrun, hu, hsame.trans hledger⟩

theorem forM_releaseCons (h : s.Sound) (hcs : s.AffordsCons cs) :
    ∃ t, cs.forM releaseCons s = .ok ⟨⟩ t ∧ s.DropsConss cs t ∧
      t.ledger.consReleases = s.ledger.consReleases + cs.length := by
  refine forM_accepted (I := fun gone t => s.DropsConss gone t ∧
      t.ledger.consReleases = s.ledger.consReleases + gone.length)
    (fun gone c later hsplit t ht => ?_) ⟨⟨h, fun d => (remainingCons_nil h).symm, rfl⟩, rfl⟩
  obtain ⟨hgone, hledger⟩ := ht
  obtain ⟨info, hc, huses⟩ := hcs.of_split hsplit
  have hcounted : s.DropsConss gone { t with ledger.consReleases := t.ledger.consReleases + 1 } :=
    ⟨hgone.sound.of_tables rfl rfl hgone.sound.hooked, hgone.cons?, by rw [hgone.rest]⟩
  obtain ⟨u, hrun, hu, hsame⟩ := hcounted.step hc huses
  refine ⟨u, hrun, hu, ?_⟩
  rw [hsame, hledger, List.length_append, List.length_singleton, Nat.add_assoc]

/-! ## Variables and constraints -/

/-- `t` is `s` after all of these handles gave back one use each. -/
structure GaveBack (s : Session) (vs : List VarId) (cs : List ConsId) (t : Session) : Prop where
  sound : t.Sound
  var? : ∀ v, t.var? v = s.remaining vs v
  cons? : ∀ c, t.cons? c = s.remainingCons cs c
  allocations : t.allocations = s.allocations
  frame : t.frame = s.frame

theorem DropsConss.var?_eq (h : s.DropsConss cs t) : t.var? = s.var? := by
  rw [h.rest]
  rfl

/-- Constraints that gave back their uses leave the uses of variables alone. -/
theorem DropsConss.affords (h : s.DropsConss cs t) (hvs : s.Affords vs) : t.Affords vs := by
  intro v hv
  rw [h.var?_eq]
  exact hvs v hv

theorem gaveBack_of_drops {u : Session} (hconss : s.DropsConss cs u) (hvars : u.DropsVars vs t) :
    s.GaveBack vs cs t := by
  refine ⟨hvars.sound, fun v => ?_, fun c => ?_, ?_, ?_⟩
  · rw [hvars.var?]
    simp only [remaining, hconss.var?_eq]
  · rw [← hconss.cons?, hvars.rest]
    rfl
  · rw [hvars.rest, hconss.rest]
  · rw [hvars.rest, hconss.rest]
    rfl

end Session

/-! ## Through the engine -/

namespace Engine

open Effect

variable {α : Type}

/-- A loop whose calls are accepted on the session, and that the engine passes
on, leads to the same session. -/
theorem forM_spared {act : α → Session.Run PUnit} {call : α → Run PUnit} {faults : Faults}
    {xs : List α} {s t : Session}
    (hcall : ∀ x s t, act x s = .ok ⟨⟩ t → call x ⟨s, faults⟩ = .ok ⟨⟩ ⟨t, faults⟩)
    (hrun : xs.forM act s = .ok ⟨⟩ t) : xs.forM call ⟨s, faults⟩ = .ok ⟨⟩ ⟨t, faults⟩ := by
  induction xs generalizing s with
  | nil =>
      cases hrun
      rfl
  | cons x xs ih =>
      rw [List.forM_eq_forM, List.forM_cons, bind_apply] at hrun ⊢
      cases hx : act x s with
      | error cause u => simp [hx] at hrun
      | ok _ u =>
          rw [hx] at hrun
          rw [hcall x s u hx]
          exact ih hrun

end Engine

end JointModel
