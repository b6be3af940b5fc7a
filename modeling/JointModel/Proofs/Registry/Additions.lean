import JointModel.Proofs.Registry.NewSlots
import JointModel.Proofs.Sequences

/-!
# What the calls that add slots do

Each call that adds a slot proceeds through a fixed sequence of calls on the engine.  If
they all go through, the session has one entry more and the registry the slot for it; if
not, the registry is as it was, and so is the session but for its counts.  A new domain
of the CP store stays made in either case.

Taking back a variable that the problem refused is a release, so releases are assumed
to be out of reach of faults.
-/

namespace JointModel

open Effect

namespace Engine

/-- A new variable becomes a member of the problem, or its use is taken back. -/
theorem proceeds_enrolOrRelease {e : Engine} {s : Session} {v : VarId} {entry : VarInfo}
    (hs : s.Sound) (hadds : s.Adds v entry e.session) (hentry : entry.stake = ⟨1, .positive none⟩)
    (hproblem : s.problem.isSome) (hspared : e.faults.lookup .releaseVar = none) :
    Proceeds [.enrolVar] (enrolOrRelease v) e (fun _ e' => s.Enrols v entry e'.session)
      fun e' => s.Unchanged e'.session := by
  have hlink : entry.link = .positive none := congrArg Stake.link hentry
  have huses : entry.uses = 1 := congrArg Stake.uses hentry
  have hv : e.session.var? v = some entry := by rw [hadds.var?, if_pos rfl]
  obtain ⟨problem, hproblem⟩ := Option.isSome_iff_exists.mp hproblem
  have hproblem' : e.session.problem = some problem :=
    (Session.problem_eq_of_frame hadds.frame_eq).trans hproblem
  have henrol : Proceeds [.enrolVar] (enrolVar v) e (fun _ e' => s.Enrols v entry e'.session)
      fun e' => e'.session = e.session :=
    proceeds_call (R := fun t => t = e.session) (Session.enrolVar_accepted hv hlink hproblem')
      rfl rfl rfl (hadds.enrols hproblem) rfl
  unfold Engine.Proceeds JointModel.Proceeds enrolOrRelease
  rw [ends_tryCatch]
  refine Ends.mono henrol (fun _ _ he' => he') fun cause e' he' => ?_
  -- the fault struck, so the release is made on the session before the call
  obtain ⟨⟨cause', hcause, hhalts⟩, hsession⟩ := he'
  have hwithin : e'.faults.Within e.faults := hhalts.faults
  rw [← hsession] at hadds
  obtain ⟨t, hrelease, hunchanged⟩ := hadds.undo hs hlink huses
  have hrun : releaseVar v e' = .ok () { e' with session := t } := by
    rw [releaseVar, call_of_spared (hwithin _ hspared), hrelease]
  rw [ends_bind]
  exact ends_of_accepted hrun ⟨⟨cause', hcause, hwithin, hhalts.reason⟩, hunchanged⟩

end Engine

theorem Solvers.proceeds_onEngine {α : Type} {ops : List Operation} {act : Engine.Run α}
    {s : Solvers} {Q : α → Solvers → Prop} {R : Solvers → Prop}
    (h : Engine.Proceeds ops act s.engine (fun a e => Q a { s with engine := e })
      fun e => R { s with engine := e }) :
    Proceeds (fun s : Solvers => s.engine) id ops (Solvers.onEngine act) s Q R :=
  proceeds_onPart rfl (fun _ => rfl) (fun _ => rfl) h

namespace Draft

variable {α : Type} {d : Draft} {ops : List Operation} {name : String} {lb ub obj : Float}
  {kind : VarKind}

/-- A call on a draft proceeds through the calls `ops`. -/
abbrev Proceeds (ops : List Operation) (act : Run α) (d : Draft) (Q : α → Draft → Prop)
    (R : Draft → Prop) : Prop :=
  JointModel.Proceeds (fun d => d.solvers.engine) ModelError.engine ops act d Q R

/-- The draft with another engine. -/
def withEngine (d : Draft) (e : Engine) : Draft := { d with solvers.engine := e }

theorem proceeds_onEngine {act : Engine.Run α} {Q : α → Draft → Prop} {R : Draft → Prop}
    (h : Engine.Proceeds ops act d.solvers.engine (fun a e => Q a (d.withEngine e))
      fun e => R (d.withEngine e)) : Proceeds ops (onEngine act) d Q R :=
  proceeds_onPart rfl (fun _ => rfl) (fun _ => rfl) (Solvers.proceeds_onEngine h)

/-- A draft in which slots can be added. -/
structure Ready (d : Draft) : Prop where
  sound : d.solvers.session.Sound
  problem : d.solvers.session.problem.isSome
  spared : d.solvers.engine.faults.lookup .releaseVar = none

/-- A call left nothing behind in the draft but counts. -/
def Stays (d d' : Draft) : Prop :=
  ∃ e, d.solvers.session.Unchanged e.session ∧ d' = d.withEngine e

/-- A new variable is made a member of the problem, and then a slot is appended. -/
theorem proceeds_newMember (hd : d.Ready) {next : VarId → Run α} {Q : α → Draft → Prop}
    (hnext : ∀ v e, d.solvers.session.Enrols v (.new name lb ub obj kind) e.session →
      ∃ a d', next v (d.withEngine e) = .ok a d' ∧ d'.solvers.engine = e ∧ Q a d') :
    Proceeds [.newVar, .enrolVar]
      (onEngine (Engine.newVar name lb ub obj kind) >>= fun v =>
        onEngine (Engine.enrolOrRelease v) >>= fun _ => next v) d Q d.Stays := by
  let s := d.solvers.session
  have hnew : Proceeds [.newVar] (onEngine (Engine.newVar name lb ub obj kind)) d
      (fun v d' => ∃ e, s.Adds v (.new name lb ub obj kind) e.session ∧ d' = d.withEngine e)
      d.Stays := by
    refine proceeds_onEngine (Proceeds.mono (Engine.proceeds_call_new
      (Q := fun v t => s.Adds v (.new name lb ub obj kind) t) (R := fun t => t = s) ?_ rfl rfl)
      (fun v e _ hv => ⟨e, hv, rfl⟩) fun e _ he => ⟨e, he ▸ .refl hd.sound, rfl⟩)
    refine (Session.newVar_ends hd.sound.vars hd.problem name lb ub obj kind).mono
      (fun v t ht => ?_) fun _ _ ht => ht
    exact ⟨ht.1, ht.2.allocations_eq, Session.limit_eq_of_frame ht.2.frame_eq, ht.2⟩
  refine (proceeds_bind hnew fun v d' hpasses hadds => ?_ :)
  obtain ⟨e, hadds, rfl⟩ := hadds
  have henrol : Proceeds [.enrolVar] (onEngine (Engine.enrolOrRelease v)) (d.withEngine e)
      (fun _ d' => ∃ e, s.Enrols v (.new name lb ub obj kind) e.session ∧ d' = d.withEngine e)
      d.Stays :=
    proceeds_onEngine (Proceeds.mono (Engine.proceeds_enrolOrRelease hd.sound hadds rfl hd.problem
      (hpasses.within _ hd.spared)) (fun _ e _ he => ⟨e, he, rfl⟩) fun e _ he => ⟨e, he, rfl⟩)
  refine (proceeds_bind henrol fun _ d' _ henrols => ?_ :)
  obtain ⟨e, henrols, rfl⟩ := henrols
  obtain ⟨a, d', hrun, hengine, hQ⟩ := hnext v e henrols
  exact proceeds_of_accepted hrun hengine hQ

/-! ## Single slots -/

theorem proceeds_addLiteral (hd : d.Ready) (name : String) (ub : Float) (literal : Literal) :
    Proceeds [.newVar, .enrolVar] (addLiteral name ub literal) d
      (fun i d' => i = ⟨d.registry.bools.size⟩ ∧ ∃ v e,
        d.solvers.session.Enrols v (.new name 0.0 ub 0.0 .binary) e.session ∧
        d' = { d.withEngine e with
          registry := d.registry.withBool ⟨v, literal, .positive none, name⟩ }) d.Stays :=
  proceeds_newMember hd fun v e henrols =>
    ⟨_, _, rfl, rfl, rfl, v, e, henrols, rfl⟩

/-- A slot without a negation gets one. -/
theorem proceeds_negate (hd : d.Ready) {v : BoolId} {slot : BoolSlot} {entry : VarInfo}
    (hslot : d.registry.bool? v = some slot) (hpolarity : slot.polarity = .positive none)
    (hentry : d.solvers.session.var? slot.handle = some entry)
    (hlink : entry.link = .positive none) :
    Proceeds [.negateVar] (negate v) d
      (fun i d' => i = ⟨d.registry.bools.size⟩ ∧ ∃ n e,
        d.solvers.session.Negates slot.handle entry n e.session ∧
        d' = { d.withEngine e with
          registry := d.registry.withNegation v
            ⟨n, slot.literal.negate, .negated v, "~" ++ slot.name⟩ }) d.Stays := by
  let s := d.solvers.session
  have hget : getBool v d = .ok slot d := by simp only [getBool, hslot]
  have hnew : Proceeds [.negateVar] (onEngine (Engine.negateVar slot.handle)) d
      (fun n d' => ∃ e, s.Negates slot.handle entry n e.session ∧ d' = d.withEngine e)
      d.Stays := by
    refine proceeds_onEngine (Proceeds.mono (Engine.proceeds_call_new
      (Q := fun n t => s.Negates slot.handle entry n t) (R := fun t => t = s) ?_ rfl rfl)
      (fun n e _ hn => ⟨e, hn, rfl⟩) fun e _ he => ⟨e, he ▸ .refl hd.sound, rfl⟩)
    refine (Session.negateVar_ends hd.sound.vars hentry hlink).mono (fun n t ht => ?_)
      fun _ _ ht => ht
    exact ⟨ht.1, ht.2.allocations_eq, Session.limit_eq_of_frame ht.2.frame_eq, ht.2⟩
  unfold negate
  refine proceeds_bind_of_accepted hget rfl ?_
  simp only [hpolarity]
  refine (proceeds_bind hnew fun n d' _ hnegates => ?_ :)
  obtain ⟨e, hnegates, rfl⟩ := hnegates
  exact proceeds_of_accepted rfl rfl ⟨rfl, n, e, hnegates, rfl⟩

/-- A draft with one more domain in its CP store. -/
def withDomain (d : Draft) (lb ub : Int) : Draft :=
  { d with solvers.domains.bounds := d.solvers.domains.bounds.push (lb, ub) }

theorem onDomains_newInt {lb ub : Int} (hle : lb ≤ ub) (d : Draft) :
    onDomains (Domains.newInt lb ub) d =
      .ok ⟨d.solvers.domains.bounds.size⟩ (d.withDomain lb ub) := by
  simp only [onDomains, onSolvers, Solvers.onDomains, onPart, Domains.newInt,
    if_neg (Int.not_lt.mpr hle)]
  rfl

theorem proceeds_addInt (hd : d.Ready) {lb ub : Int} (hbounds : lb ≤ ub) (name : String) :
    Proceeds [.newVar, .enrolVar] (addInt lb ub name) d
      (fun i d' => i = ⟨d.registry.ints.size⟩ ∧ ∃ v e,
        d.solvers.session.Enrols v (.new name (Float.ofInt lb) (Float.ofInt ub) 0.0 .integer)
          e.session ∧
        d' = { (d.withDomain lb ub).withEngine e with
          registry := d.registry.withInt
            { handle := some v, domain := ⟨d.solvers.domains.bounds.size⟩, lb, ub, name
              table := none } }) (d.withDomain lb ub).Stays := by
  have hnot : ¬ lb > ub := Int.not_lt.mpr hbounds
  have hrequire : requireBounds lb ub d = .ok () d := by simp only [requireBounds, if_neg hnot]
  unfold addInt
  refine proceeds_bind_of_accepted hrequire rfl
    (proceeds_bind_of_accepted (onDomains_newInt hbounds d) rfl ?_)
  have hd' : (d.withDomain lb ub).Ready := ⟨hd.sound, hd.problem, hd.spared⟩
  exact proceeds_newMember hd' fun v e henrols => ⟨_, _, rfl, rfl, rfl, v, e, henrols, rfl⟩

/-! ## Slots that may be there already -/

/-- A negation is made only for a slot that has none. -/
theorem ends_negate {v : BoolId} {Q : BoolId → Draft → Prop} {E : ModelError → Draft → Prop}
    (hunknown : E (.unknownBool v) d) (hknown : ∀ negation, Q negation d)
    (hnew : ∀ slot, d.registry.bool? v = some slot → slot.polarity = .positive none →
      Ends (negate v) d Q E) : Ends (negate v) d Q E := by
  cases hv : d.registry.bool? v with
  | none =>
      have hrun : negate v d = .error (.unknownBool v) d := by
        simp only [negate, bind_apply, getBool, hv]
      exact ends_of_rejected hrun hunknown
  | some slot =>
      have hget : getBool v d = .ok slot d := by simp only [getBool, hv]
      cases hpolarity : slot.polarity with
      | negated p =>
          have hrun : negate v d = .ok p d := by
            simp only [negate, bind_apply, hget, hpolarity, pure_apply]
          exact ends_of_accepted hrun (hknown p)
      | positive m =>
          cases m with
          | some m =>
              have hrun : negate v d = .ok m d := by
                simp only [negate, bind_apply, hget, hpolarity, pure_apply]
              exact ends_of_accepted hrun (hknown m)
          | none => exact hnew slot hv hpolarity

/-- An indicator of a known variable is made only for a value that the variable may or may not
have, and only once. -/
theorem ends_indicator_cases {x : IntId} {value : Int} {Q : BoolId → Draft → Prop}
    {E : ModelError → Draft → Prop} (hunknown : d.registry.int? x = none → E (.unknownInt x) d)
    (hout : ∀ slot, d.registry.int? x = some slot → value < slot.lb ∨ value > slot.ub →
      Q .falsity d)
    (hfixed : ∀ slot, d.registry.int? x = some slot → ¬ (value < slot.lb ∨ value > slot.ub) →
      slot.lb = slot.ub → Q .truth d)
    (hknown : ∀ slot b, d.registry.int? x = some slot → slot.lb ≤ value → value ≤ slot.ub →
      slot.lb ≠ slot.ub → d.registry.indicator? x value = some b → Q b d)
    (hnew : ∀ slot, d.registry.int? x = some slot → slot.lb ≤ value → value ≤ slot.ub →
      slot.lb ≠ slot.ub → d.registry.indicator? x value = none →
      Ends (addIndicator x slot value) d Q E) : Ends (indicator x value) d Q E := by
  unfold indicator
  rw [ends_bind]
  cases hx : d.registry.int? x with
  | none =>
      have hget : getInt x d = .error (.unknownInt x) d := by simp only [getInt, hx]
      exact ends_of_rejected hget (hunknown hx)
  | some slot =>
      have hget : getInt x d = .ok slot d := by simp only [getInt, hx]
      refine ends_of_accepted hget ?_
      split
      · next hvalue => exact hout slot hx hvalue
      · next hvalue =>
          split
          · next hsame => exact hfixed slot hx hvalue (by simpa [IntSlot.isFixed] using hsame)
          · next hdiffer =>
              have hfree : slot.lb ≠ slot.ub := by simpa [IntSlot.isFixed] using hdiffer
              rw [ends_bind]
              refine ends_of_accepted (get_apply d) ?_
              cases hindicator : d.registry.indicator? x value with
              | some b => exact hknown slot b hx (by omega) (by omega) hfree hindicator
              | none => exact hnew slot hx (by omega) (by omega) hfree hindicator

/-- The same for a rejection that holds anyway if the variable is unknown. -/
theorem ends_indicator {x : IntId} {value : Int} {Q : BoolId → Draft → Prop}
    {E : ModelError → Draft → Prop} (hunknown : E (.unknownInt x) d)
    (hout : ∀ slot, d.registry.int? x = some slot → value < slot.lb ∨ value > slot.ub →
      Q .falsity d)
    (hfixed : ∀ slot, d.registry.int? x = some slot → ¬ (value < slot.lb ∨ value > slot.ub) →
      slot.lb = slot.ub → Q .truth d)
    (hknown : ∀ slot b, d.registry.int? x = some slot → slot.lb ≤ value → value ≤ slot.ub →
      slot.lb ≠ slot.ub → d.registry.indicator? x value = some b → Q b d)
    (hnew : ∀ slot, d.registry.int? x = some slot → slot.lb ≤ value → value ≤ slot.ub →
      slot.lb ≠ slot.ub → d.registry.indicator? x value = none →
      Ends (addIndicator x slot value) d Q E) : Ends (indicator x value) d Q E :=
  ends_indicator_cases (fun _ => hunknown) hout hfixed hknown hnew

end Draft

end JointModel
