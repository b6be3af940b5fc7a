import JointModel.Proofs.Registry.Calls

/-!
# Slots stay what they are

An index of a slot is given out once and for all.  `r.Continues r'` says what that means
for a registry `r'` that came out of `r`: every slot is there under its index, with its
name, its handles and its bounds.  A positive slot may have got a negation, an integer slot
a table, and tables may have got entries, but nothing that was noted is changed.

Every call that adds slots leads to such a registry (`Draft.Grows.continues`).  In the
session such a call leaves every entry what it is, but for its uses and its tie to an alias
(`Draft.perform_carries`).

## Strategy

`Draft.Grows` lists what a call can make of a registry, so there is one lemma for each kind
of new slot.  The session is followed through the calls on the engine that a call proceeds
through.
-/

namespace JointModel

open Effect

namespace Registry

variable {r r' r'' : Registry} {v : BoolId} {slot new : BoolSlot} {x : IntId} {int : IntSlot}
  {value : Int}

/-- The slots of `r` are slots of `r'`, under the same indices. -/
structure Continues (r r' : Registry) : Prop where
  bools : ∀ {v slot}, r.bool? v = some slot → ∃ slot', r'.bool? v = some slot' ∧
    slot'.handle = slot.handle ∧ slot'.literal = slot.literal ∧ slot'.name = slot.name ∧
    (slot'.polarity = slot.polarity ∨ slot.polarity = .positive none ∧
      ∃ n, slot'.polarity = .positive (some n) ∧ r.bool? n = none ∧ (r'.bool? n).isSome)
  ints : ∀ {x slot}, r.int? x = some slot → ∃ slot', r'.int? x = some slot' ∧
    slot'.handle = slot.handle ∧ slot'.domain = slot.domain ∧ slot'.lb = slot.lb ∧
    slot'.ub = slot.ub ∧ slot'.name = slot.name ∧
    (slot.table ≠ none → slot'.table = slot.table)
  tables : ∀ {table : Nat} {entries : Indicators} {value : Int} {b : BoolId},
    r.tables[table]? = some entries → entries.lookup value = some b →
    ∃ entries' : Indicators, r'.tables[table]? = some entries' ∧ entries'.lookup value = some b

theorem Continues.refl (r : Registry) : r.Continues r where
  bools hv := ⟨_, hv, rfl, rfl, rfl, .inl rfl⟩
  ints hx := ⟨_, hx, rfl, rfl, rfl, rfl, rfl, fun _ => rfl⟩
  tables htable hlookup := ⟨_, htable, hlookup⟩

theorem Continues.trans (h : r.Continues r') (h' : r'.Continues r'') : r.Continues r'' where
  bools {v slot} hv := by
    obtain ⟨slot', hv', hhandle, hliteral, hname, hpolarity⟩ := h.bools hv
    obtain ⟨slot'', hv'', hhandle', hliteral', hname', hpolarity'⟩ := h'.bools hv'
    refine ⟨slot'', hv'', hhandle'.trans hhandle, hliteral'.trans hliteral, hname'.trans hname, ?_⟩
    rcases hpolarity with hsame | ⟨hnone, n, hsome, hfresh, hn⟩
    · rcases hpolarity' with hsame' | ⟨hnone, n, hsome, hfresh, hn⟩
      · exact .inl (hsame'.trans hsame)
      · refine .inr ⟨hsame.symm.trans hnone, n, hsome, ?_, hn⟩
        -- a slot of `r` would still be there
        cases hold : r.bool? n with
        | none => rfl
        | some old =>
            obtain ⟨old', hold', -⟩ := h.bools hold
            cases hfresh.symm.trans hold'
    · rcases hpolarity' with hsame' | ⟨hnone', -⟩
      · obtain ⟨slot₁, hslot₁⟩ := Option.isSome_iff_exists.mp hn
        obtain ⟨slot₂, hslot₂, -⟩ := h'.bools hslot₁
        exact .inr ⟨hnone, n, hsame'.trans hsome, hfresh, Option.isSome_of_eq_some hslot₂⟩
      · cases hsome.symm.trans hnone'
  ints {x slot} hx := by
    obtain ⟨slot', hx', hhandle, hdomain, hlb, hub, hname, htable⟩ := h.ints hx
    obtain ⟨slot'', hx'', hhandle', hdomain', hlb', hub', hname', htable'⟩ := h'.ints hx'
    refine ⟨slot'', hx'', hhandle'.trans hhandle, hdomain'.trans hdomain, hlb'.trans hlb,
      hub'.trans hub, hname'.trans hname, fun hsome => ?_⟩
    have hfirst := htable hsome
    exact (htable' (by rwa [hfirst])).trans hfirst
  tables htable hlookup := by
    obtain ⟨entries', htable', hlookup'⟩ := h.tables htable hlookup
    exact h'.tables htable' hlookup'

/-- An indicator that was asked for stands for its value ever after. -/
theorem Continues.indicator? (h : r.Continues r') {b : BoolId}
    (hindicator : r.indicator? x value = some b) : r'.indicator? x value = some b := by
  cases hx : r.int? x with
  | none =>
      rw [indicator?_of_unknown hx] at hindicator
      cases hindicator
  | some slot =>
      rw [indicator?_of_int? hx] at hindicator
      obtain ⟨table, htable, hlookup⟩ := Option.bind_eq_some_iff.mp hindicator
      obtain ⟨entries, hentries, hvalue⟩ := Option.bind_eq_some_iff.mp hlookup
      obtain ⟨slot', hx', -, -, -, -, -, hsame⟩ := h.ints hx
      obtain ⟨entries', hentries', hvalue'⟩ := h.tables hentries hvalue
      have htable' : slot'.table = some table :=
        (hsame (by rw [htable]; exact Option.some_ne_none table)).trans htable
      rw [indicator?_of_int? hx', htable', Option.bind_some, hentries', Option.bind_some, hvalue']

/-- No handle is lost. -/
theorem Continues.mem_vars (h : r.Continues r') {w : VarId} (hw : w ∈ r.vars) : w ∈ r'.vars := by
  rcases List.mem_append.mp hw with hbool | hint
  · obtain ⟨slot, hslot, rfl⟩ := List.mem_map.mp hbool
    obtain ⟨v, hv⟩ := exists_bool?_of_mem hslot
    obtain ⟨slot', hv', hhandle, -⟩ := h.bools hv
    exact List.mem_append_left _ (hhandle ▸ List.mem_map_of_mem (mem_of_bool? hv'))
  · obtain ⟨slot, hslot, hhandle⟩ := List.mem_filterMap.mp hint
    obtain ⟨i, hi⟩ := List.mem_iff_getElem?.mp hslot
    have hx : r.int? ⟨i⟩ = some slot := by rw [int?, ← hi, Array.getElem?_toList]
    obtain ⟨slot', hx', hhandle', -⟩ := h.ints hx
    have hw' := mem_ownedVars_of_int? hx' (hhandle'.trans hhandle)
    exact r'.ownedVars_sublist.mem hw'

/-! ## New slots -/

theorem continues_withBool (r : Registry) (new : BoolSlot) : r.Continues (r.withBool new) where
  bools hv := ⟨_, bool?_withBool_of_some hv new, rfl, rfl, rfl, .inl rfl⟩
  ints hx := ⟨_, hx, rfl, rfl, rfl, rfl, rfl, fun _ => rfl⟩
  tables htable hlookup := ⟨_, htable, hlookup⟩

theorem continues_withNegation (hv : r.bool? v = some slot) (hslot : slot.polarity = .positive none)
    (new : BoolSlot) : r.Continues (r.withNegation v new) where
  bools {w old} hw := by
    have hne : w.index ≠ r.bools.size := Nat.ne_of_lt (lt_size_of_bool? hw)
    by_cases hwv : w = v
    · subst hwv
      cases hv.symm.trans hw
      have hfresh : r.bool? ⟨r.bools.size⟩ = none := Array.getElem?_eq_none (Nat.le_refl _)
      have hnew : (r.withNegation w new).bool? ⟨r.bools.size⟩ = some new := by
        rw [bool?_withNegation hv, if_pos rfl]
      refine ⟨{ slot with polarity := .positive (some ⟨r.bools.size⟩) }, ?_, rfl, rfl, rfl,
        .inr ⟨hslot, _, rfl, hfresh, Option.isSome_of_eq_some hnew⟩⟩
      rw [bool?_withNegation hv, if_neg hne, if_pos rfl]
    · refine ⟨old, ?_, rfl, rfl, rfl, .inl rfl⟩
      rw [bool?_withNegation hv, if_neg hne, if_neg hwv, hw]
  ints hx := ⟨_, hx, rfl, rfl, rfl, rfl, rfl, fun _ => rfl⟩
  tables htable hlookup := ⟨_, htable, hlookup⟩

theorem continues_withInt (r : Registry) (new : IntSlot) : r.Continues (r.withInt new) where
  bools hv := ⟨_, hv, rfl, rfl, rfl, .inl rfl⟩
  ints {x old} hx := by
    have hlt : x.index < r.ints.size := (Array.getElem?_eq_some_iff.mp hx).1
    refine ⟨old, ?_, rfl, rfl, rfl, rfl, rfl, fun _ => rfl⟩
    rw [int?_withInt, if_neg (Nat.ne_of_lt hlt), hx]
  tables htable hlookup := ⟨_, htable, hlookup⟩

/-- A new table changes the slot that gets it and no other. -/
theorem continues_withTable (hx : r.int? x = some int) (hnone : int.table = none) :
    r.Continues (r.withTable x) where
  bools hv := ⟨_, hv, rfl, rfl, rfl, .inl rfl⟩
  ints {y old} hy := by
    have hy' := int?_withTable r x y
    split at hy'
    · next hxy =>
        subst hxy
        cases hx.symm.trans hy
        rw [hx, Option.map_some] at hy'
        exact ⟨_, hy', rfl, rfl, rfl, rfl, rfl, fun hsome => absurd hnone hsome⟩
    · exact ⟨old, hy'.trans hy, rfl, rfl, rfl, rfl, rfl, fun _ => rfl⟩
  tables {table entries value b} htable hlookup := by
    have hlt : table < r.tables.size := (Array.getElem?_eq_some_iff.mp htable).1
    refine ⟨entries, ?_, hlookup⟩
    rw [tables_withTable, Array.getElem?_push, if_neg (Nat.ne_of_lt hlt), htable]

/-- An entry for another value overwrites none. -/
theorem continues_insertAt {table : Nat} (b : BoolId)
    (hnone : ∀ {entries : Indicators}, r.tables[table]? = some entries →
      entries.lookup value = none) :
    r.Continues (r.insertAt table value b) where
  bools hv := ⟨_, hv, rfl, rfl, rfl, .inl rfl⟩
  ints hx := ⟨_, hx, rfl, rfl, rfl, rfl, rfl, fun _ => rfl⟩
  tables {table' entries k b'} htable hlookup := by
    simp only [insertAt, Array.getElem?_modify]
    by_cases hsame : table = table'
    · subst hsame
      have hk : k ≠ value := by
        rintro rfl
        cases (hnone htable).symm.trans hlookup
      refine ⟨Indicators.insert value b entries, by rw [if_pos rfl, htable, Option.map_some], ?_⟩
      rw [Indicators.lookup_insert, if_neg hk, hlookup]
    · exact ⟨entries, by rw [if_neg hsame, htable], hlookup⟩

theorem continues_withIndicator (hx : r.int? x = some int) (hnone : r.indicator? x value = none)
    (b : BoolId) : r.Continues (r.withIndicator x int value b) := by
  unfold withIndicator
  cases htable : int.table with
  | some table =>
      refine continues_insertAt b fun {entries} hentries => ?_
      rw [indicator?_of_int? hx, htable, Option.bind_some, hentries, Option.bind_some] at hnone
      exact hnone
  | none =>
      refine (continues_withTable hx htable).trans (continues_insertAt b fun {entries} hentries => ?_)
      -- the new table has no entries
      rw [tables_withTable, Array.getElem?_push, if_pos rfl] at hentries
      cases hentries
      rfl

end Registry

namespace Draft

variable {d d' : Draft}

/-- Whatever a call does, the slots of the registry stay. -/
theorem Grows.continues (h : d.Grows d') : d.registry.Continues d'.registry := by
  cases h with
  | store => exact .refl _
  | bool => exact Registry.continues_withBool _ _
  | negation e handle hv hpolarity => exact Registry.continues_withNegation hv hpolarity _
  | int => exact Registry.continues_withInt _ _
  | @indicator e handle x slot value literal s hx _ _ _ hnone _ =>
      rw [Registry.withIndicatorSlot]
      refine (Registry.continues_withBool _ _).trans (Registry.continues_withIndicator ?_ ?_ _)
      · exact hx
      · exact hnone

end Draft

/-! ## The entries behind the slots -/

/-- To negate a variable ties its entry to an alias, at most. -/
theorem Session.negateVar_carries {s : Session} (h : s.vars.Sound) (v : VarId) :
    Ends (negateVar v) s (fun _ t => s.Carries t) fun _ t => s.Carries t := by
  cases hv : s.var? v with
  | none =>
      refine ends_of_rejected (e := .invalidVar v) (t := s) ?_ (Carries.refl s)
      simp only [negateVar, bind_apply, getVar, hv]
  | some entry =>
      cases hlink : entry.link with
      | negation p =>
          exact ends_of_accepted (negateVar_of_linked hv (.inr hlink)) (Carries.refl s)
      | positive n =>
          cases n with
          | some n =>
              exact ends_of_accepted (negateVar_of_linked hv (.inl hlink)) (Carries.refl s)
          | none =>
              refine (negateVar_ends h hv hlink).mono (fun _ _ ht => ht.2.carries)
                fun _ _ ht => ?_
              rw [ht.1]
              exact Carries.refl s

namespace Draft

variable {d d' : Draft}

/-- Every entry of the session is still there, and it says what it said but for its tie to
an alias. -/
structure Carries (d d' : Draft) : Prop where
  session : d.solvers.session.Carries d'.solvers.session

theorem Carries.refl (d : Draft) : d.Carries d := ⟨Session.Carries.refl _⟩

theorem Stays.carries (h : d.Stays d') : d.Carries d' := by
  obtain ⟨e, hunchanged, rfl⟩ := h
  refine ⟨fun {v entry} hv => ⟨entry.link, ?_⟩⟩
  show e.session.var? v = _
  rw [hunchanged.var?, hv]

theorem addLiteral_carries (hd : d.Ready) (name : String) (ub : Float) (literal : Literal) :
    Ends (addLiteral name ub literal) d (fun _ d' => d.Carries d') fun _ d' => d.Carries d' := by
  refine Ends.mono (proceeds_addLiteral hd name ub literal) (fun _ d' hd' => ?_)
    fun _ _ hd' => hd'.2.carries
  obtain ⟨-, -, v, e, henrols, rfl⟩ := hd'
  exact ⟨fun {_ entry} hw => ⟨entry.link, henrols.live_of_ne hw⟩⟩

theorem addBool_carries (hd : d.Ready) (name : String) :
    Ends (addBool name) d (fun _ d' => d.Carries d') fun _ d' => d.Carries d' := by
  have hnew : onDomains Domains.newBool d = .ok d.solvers.domains.freshLiteral
      { d with solvers.domains.bools := d.solvers.domains.bools + 1 } := rfl
  unfold addBool
  rw [ends_bind]
  have hd' : Ready { d with solvers.domains.bools := d.solvers.domains.bools + 1 } :=
    ⟨hd.sound, hd.problem, hd.spared⟩
  exact ends_of_accepted hnew ((addLiteral_carries hd' _ _ _).mono
    (fun _ _ hd' => ⟨hd'.session⟩) fun _ _ hd' => ⟨hd'.session⟩)

theorem negate_carries (hd : d.Ready) (v : BoolId) :
    Ends (negate v) d (fun _ d' => d.Carries d') fun _ d' => d.Carries d' := by
  refine ends_negate (.refl d) (fun _ => .refl d) fun slot hv hpolarity => ?_
  have hget : getBool v d = .ok slot d := by simp only [getBool, hv]
  unfold negate
  rw [ends_bind]
  refine ends_of_accepted hget ?_
  simp only [hpolarity]
  rw [ends_bind, onEngine, onSolvers, ends_onPart, Solvers.onEngine, ends_onPart]
  refine (Engine.call_ends (Session.negateVar_carries hd.sound.vars slot.handle)).mono
    (fun n e he => ?_) fun cause e he => ?_
  · exact ⟨he.1⟩
  · rcases he.1 with hcarries | ⟨-, hsame, -⟩
    · exact ⟨hcarries⟩
    · exact ⟨fun {w entry} hw => ⟨entry.link, (congrArg (fun s => s.var? w) hsame).trans hw⟩⟩

theorem addInt_carries (hd : d.Ready) (lb ub : Int) (name : String) :
    Ends (addInt lb ub name) d (fun _ d' => d.Carries d') fun _ d' => d.Carries d' := by
  by_cases hbounds : lb ≤ ub
  · refine Ends.mono (proceeds_addInt hd hbounds name) (fun _ d' hd' => ?_) fun _ d' hd' => ?_
    · obtain ⟨-, -, v, e, henrols, rfl⟩ := hd'
      exact ⟨fun {_ entry} hw => ⟨entry.link, henrols.live_of_ne hw⟩⟩
    · exact ⟨hd'.2.carries.session⟩
  · refine ends_of_rejected (e := .invalidDomain lb ub) (t := d) ?_ (.refl d)
    simp only [addInt, bind_apply, requireBounds, if_pos (Int.not_le.mp hbounds)]

theorem addVirtualInt_carries (lb ub : Int) (name : String) (d : Draft) :
    Ends (addVirtualInt lb ub name) d (fun _ d' => d.Carries d') fun _ d' => d.Carries d' := by
  unfold addVirtualInt
  rw [ends_bind]
  refine (requireBounds_ends d lb ub).mono (fun _ d' hd' => ?_) fun _ d' hd' => hd'.1 ▸ .refl d
  obtain ⟨rfl, hle⟩ := hd'
  rw [ends_bind]
  exact ends_of_accepted (onDomains_newInt hle d') ⟨Session.Carries.refl _⟩

theorem indicator_carries (hd : d.Ready) (x : IntId) (value : Int) :
    Ends (indicator x value) d (fun _ d' => d.Carries d') fun _ d' => d.Carries d' := by
  refine ends_indicator (.refl d) (fun _ _ _ => .refl d) (fun _ _ _ _ => .refl d)
    (fun _ _ _ _ _ _ _ => .refl d) fun slot _ _ _ _ _ => ?_
  unfold addIndicator
  rw [ends_bind, onDomains, onSolvers, ends_onPart, Solvers.onDomains, ends_onPart]
  refine ends_of_forall (fun literal s => ?_) fun _ s => ⟨Session.Carries.refl _⟩
  rw [ends_bind]
  have hd' : Ready { d with solvers.domains := s } := ⟨hd.sound, hd.problem, hd.spared⟩
  refine (addLiteral_carries hd' _ _ _).mono (fun b d₁ hd₁ => ?_) fun _ _ hd₁ => ⟨hd₁.session⟩
  exact ends_of_accepted (noteIndicator x slot value b d₁) ⟨hd₁.session⟩

/-- Whatever a call does, the entries stay. -/
theorem perform_carries (hd : d.Ready) (c : Call) :
    Ends (perform c) d (fun _ d' => d.Carries d') fun _ d' => d.Carries d' := by
  cases c with
  | bool name => exact ends_map.mpr (addBool_carries hd name)
  | negate v => exact ends_map.mpr (negate_carries hd v)
  | int lb ub name => exact ends_map.mpr (addInt_carries hd lb ub name)
  | virtualInt lb ub name => exact ends_map.mpr (addVirtualInt_carries lb ub name d)
  | indicator v value => exact ends_map.mpr (indicator_carries hd v value)

end Draft

end JointModel
