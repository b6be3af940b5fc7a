import JointModel.Proofs.Registry.Negations

/-!
# Indicators are unique

A variable that may or may not have a value has one slot for it, whenever it is asked for,
and no two such pairs of a variable and a value share a slot (`Draft.indicators_unique`).

It holds because of what the tables look like (`Registry.IndicatorsSound`).  Every table
belongs to one variable that is not fixed, and is not empty.  Its keys are values of the
variable, in ascending order, and stand beside positive slots that are named for the variable
and the value.  No slot is noted twice.

## Strategy

A new indicator takes two steps in the registry: the variable may need a table, and then the
slot is noted.  Between the two the table is empty, so this one condition is left out of
`Registry.Noted`, which both steps keep; `Registry.IndicatorsSound` adds it at the end.  All
other calls leave the tables alone (`IndicatorsSound.carry`).
-/

namespace JointModel

open Effect

/-! ## One table -/

namespace Indicators

variable {value key : Int} {b c : BoolId} {table : Indicators}

theorem mem_insert (h : (key, c) ∈ insert value b table) :
    key = value ∧ c = b ∨ (key, c) ∈ table := by
  induction table with
  | nil => exact .inl (by simpa [insert] using h)
  | cons entry rest ih =>
      obtain ⟨k, old⟩ := entry
      simp only [insert] at h
      split at h
      · rcases List.mem_cons.mp h with hnew | hold
        · exact .inl (by simpa using hnew)
        · exact .inr hold
      · split at h
        · rcases List.mem_cons.mp h with hnew | hold
          · exact .inl (by simpa using hnew)
          · exact .inr (List.mem_cons_of_mem _ hold)
        · rcases List.mem_cons.mp h with hhead | hrest
          · exact .inr (hhead ▸ List.mem_cons_self)
          · exact (ih hrest).imp_right (List.mem_cons_of_mem _)

theorem insert_ne_nil (value : Int) (b : BoolId) (table : Indicators) :
    insert value b table ≠ [] := by
  cases table with
  | nil => exact List.cons_ne_nil _ _
  | cons entry rest =>
      obtain ⟨k, old⟩ := entry
      simp only [insert]
      split
      · exact List.cons_ne_nil _ _
      · split <;> exact List.cons_ne_nil _ _

/-- The keys of a table are in strictly ascending order. -/
def Ascending (table : Indicators) : Prop := table.Pairwise fun e f => e.1 < f.1

theorem Ascending.insert (h : table.Ascending) (value : Int) (b : BoolId) :
    (Indicators.insert value b table).Ascending := by
  induction table with
  | nil => exact List.pairwise_singleton _ _
  | cons entry rest ih =>
      obtain ⟨k, old⟩ := entry
      obtain ⟨hhead, hrest⟩ := List.pairwise_cons.mp h
      simp only [Indicators.insert]
      split
      · next hlt =>
          refine List.pairwise_cons.mpr ⟨fun f hf => ?_, h⟩
          rcases List.mem_cons.mp hf with rfl | hf
          · exact hlt
          · exact Int.lt_trans hlt (hhead f hf)
      · next hnot =>
          split
          · next heq =>
              obtain rfl : value = k := by simpa using heq
              exact List.pairwise_cons.mpr ⟨hhead, hrest⟩
          · next hne =>
              have hne : value ≠ k := by simpa using hne
              refine List.pairwise_cons.mpr ⟨fun f hf => ?_, ih hrest⟩
              obtain ⟨key, c⟩ := f
              rcases mem_insert hf with ⟨rfl, -⟩ | hold
              · show k < key
                omega
              · exact hhead _ hold

theorem mem_of_lookup (h : table.lookup key = some b) : (key, b) ∈ table := by
  obtain ⟨l₁, l₂, rfl, -⟩ := List.lookup_eq_some_iff.mp h
  exact List.mem_append_right _ List.mem_cons_self

end Indicators

/-! ## All tables -/

namespace Registry

variable {r r' : Registry} {x y : IntId} {slot : IntSlot} {value v w key key' : Int}
  {b c : BoolId} {table table' : Nat}

/-- The table notes `b` for a value. -/
def Notes (r : Registry) (table : Nat) (key : Int) (b : BoolId) : Prop :=
  ∃ entries, r.tables[table]? = some entries ∧ (key, b) ∈ entries

/-- The slot `b` is a positive one that is named for a variable and a value. -/
def StandsFor (r : Registry) (b : BoolId) (name : String) (value : Int) : Prop :=
  b ≠ .falsity ∧ ∃ bool, r.bool? b = some bool ∧ bool.isPositive ∧
    bool.name = "[" ++ name ++ " == " ++ toString value ++ "]"

/-- What is noted in the tables is in order. -/
structure Noted (r : Registry) : Prop where
  tabled : r.Tabled
  owner : ∀ {table : Nat} {entries : Indicators}, r.tables[table]? = some entries →
    ∃ x slot, r.int? x = some slot ∧ slot.table = some table ∧ slot.lb ≠ slot.ub
  ascending : ∀ {table : Nat} {entries : Indicators}, r.tables[table]? = some entries →
    entries.Ascending
  stands : ∀ {x slot table key b}, r.int? x = some slot → slot.table = some table →
    r.Notes table key b → slot.lb ≤ key ∧ key ≤ slot.ub ∧ r.StandsFor b slot.name key
  distinct : ∀ {table table' key key' b}, r.Notes table key b → r.Notes table' key' b →
    table = table' ∧ key = key'

/-- The tables of a registry are sound: each belongs to one variable that is not fixed, has
indicators of values of that variable only, and at least one, and no slot is an indicator
twice. -/
structure IndicatorsSound (r : Registry) : Prop extends r.Noted where
  nonempty : ∀ {table : Nat} {entries : Indicators}, r.tables[table]? = some entries → entries ≠ []

theorem indicatorsSound_of_no_tables (htabled : r.Tabled) (htables : r.tables = #[]) :
    r.IndicatorsSound := by
  have hnone : ∀ {table : Nat} {entries : Indicators}, r.tables[table]? ≠ some entries := by
    intro table entries
    simp [htables]
  exact {
    tabled := htabled
    owner := fun h => absurd h hnone
    ascending := fun h => absurd h hnone
    stands := fun _ _ ⟨_, h, _⟩ => absurd h hnone
    distinct := fun ⟨_, h, _⟩ => absurd h hnone
    nonempty := fun h => absurd h hnone }

theorem StandsFor.persists (h : r.StandsFor b slot.name value) (hpersists : r.Persists r') :
    r'.StandsFor b slot.name value := by
  obtain ⟨hne, bool, hb, hpositive, hname⟩ := h
  obtain ⟨bool', hb', hpositive', hname'⟩ := hpersists.positive hb hpositive
  exact ⟨hne, bool', hb', hpositive', hname'.trans hname⟩

theorem Notes.bool? (h : r.Noted) (hnotes : r.Notes table key b) :
    ∃ bool, r.bool? b = some bool := by
  obtain ⟨entries, htable, -⟩ := id hnotes
  obtain ⟨x, slot, hx, howned, -⟩ := h.owner htable
  obtain ⟨-, -, -, bool, hb, -⟩ := h.stands hx howned hnotes
  exact ⟨bool, hb⟩

/-- A table that was looked up in notes what was found. -/
theorem notes_of_indicator? (h : r.indicator? x value = some b) : ∃ slot table,
    r.int? x = some slot ∧ slot.table = some table ∧ r.Notes table value b := by
  cases hx : r.int? x with
  | none =>
      rw [indicator?_of_unknown hx] at h
      cases h
  | some slot =>
      rw [indicator?_of_int? hx] at h
      obtain ⟨table, htable, hlookup⟩ := Option.bind_eq_some_iff.mp h
      obtain ⟨entries, hentries, hvalue⟩ := Option.bind_eq_some_iff.mp hlookup
      exact ⟨slot, table, rfl, htable, entries, hentries, Indicators.mem_of_lookup hvalue⟩

/-- No slot stands for two pairs of a variable and a value. -/
theorem Noted.indicator?_injective (h : r.Noted) (hb : r.indicator? x v = some b)
    (hb' : r.indicator? y w = some b) : x = y ∧ v = w := by
  obtain ⟨slot, table, hx, htable, hnotes⟩ := notes_of_indicator? hb
  obtain ⟨other, table', hy, htable', hnotes'⟩ := notes_of_indicator? hb'
  obtain ⟨rfl, hsame⟩ := h.distinct hnotes hnotes'
  exact ⟨h.tabled.owner hx hy htable htable', hsame⟩

/-! ## Tables stay -/

/-- What leaves the tables alone and lets the slots persist keeps the tables sound. -/
theorem IndicatorsSound.carry (h : r.IndicatorsSound) (hpersists : r.Persists r')
    (htabled : r'.Tabled) (htables : r'.tables = r.tables)
    (hints : ∀ {x slot}, r.int? x = some slot →
      ∃ slot', r'.int? x = some slot' ∧ slot'.table = slot.table) : r'.IndicatorsSound := by
  have hnotes : ∀ {table key b}, r'.Notes table key b → r.Notes table key b := by
    rintro table key b ⟨entries, htable, hmem⟩
    exact ⟨entries, htables ▸ htable, hmem⟩
  -- a slot and the older one of which it is the continuation
  have hsame : ∀ {x slot slot'}, r.int? x = some slot → r'.int? x = some slot' →
      slot'.table = slot.table ∧ slot'.lb = slot.lb ∧ slot'.ub = slot.ub ∧
        slot'.name = slot.name := by
    intro x slot slot' hx hx'
    obtain ⟨slot₁, hx₁, htable⟩ := hints hx
    obtain ⟨slot₂, hx₂, -, hlb, hub, hname⟩ := hpersists.ints hx
    cases hx'.symm.trans hx₁
    cases hx'.symm.trans hx₂
    exact ⟨htable, hlb, hub, hname⟩
  refine { tabled := htabled, owner := ?owner, ascending := ?ascending, stands := ?stands,
           distinct := ?distinct, nonempty := ?nonempty }
  case owner =>
    intro table entries htable
    rw [htables] at htable
    obtain ⟨x, slot, hx, howned, hfree⟩ := h.owner htable
    obtain ⟨slot', hx', -⟩ := hints hx
    obtain ⟨htable', hlb, hub, -⟩ := hsame hx hx'
    exact ⟨x, slot', hx', htable'.trans howned, by rwa [hlb, hub]⟩
  case ascending => exact fun htable => h.ascending (htables ▸ htable)
  case stands =>
    intro x slot' table key b hx' htable' hnoted
    have hold := hnotes hnoted
    obtain ⟨entries, htable, -⟩ := id hold
    obtain ⟨y, slot, hy, howned, -⟩ := h.owner htable
    obtain ⟨slot'', hy', -⟩ := hints hy
    have howned' : slot''.table = some table := (hsame hy hy').1.trans howned
    obtain rfl : x = y := htabled.owner hx' hy' htable' howned'
    obtain ⟨-, hlb, hub, hname⟩ := hsame hy hx'
    obtain ⟨hlower, hupper, hstands⟩ := h.stands hy howned hold
    rw [hlb, hub, hname]
    exact ⟨hlower, hupper, hstands.persists hpersists⟩
  case distinct => exact fun hb hb' => h.distinct (hnotes hb) (hnotes hb')
  case nonempty => exact fun htable => h.nonempty (htables ▸ htable)

/-! ## A new indicator -/

theorem getElem?_tables_withTable {entries : Indicators}
    (htable : (r.withTable x).tables[table]? = some entries) :
    table = r.tables.size ∧ entries = [] ∨ r.tables[table]? = some entries := by
  rw [tables_withTable, Array.getElem?_push] at htable
  split at htable
  · next hsize => exact .inl ⟨hsize, (Option.some.inj htable).symm⟩
  · exact .inr htable

theorem getElem?_tables_insertAt {entries' : Indicators}
    (htable : (r.insertAt table value b).tables[table']? = some entries') :
    ∃ entries, r.tables[table']? = some entries ∧ (table' ≠ table ∧ entries' = entries ∨
      table' = table ∧ entries' = Indicators.insert value b entries) := by
  rw [Registry.insertAt, Array.getElem?_modify] at htable
  split at htable
  · next hsame =>
      obtain ⟨entries, hold, rfl⟩ := Option.map_eq_some_iff.mp htable
      exact ⟨entries, hold, .inr ⟨hsame.symm, rfl⟩⟩
  · next hother => exact ⟨entries', htable, .inl ⟨fun hsame => hother hsame.symm, rfl⟩⟩

theorem notes_of_insertAt (h : (r.insertAt table value b).Notes table' key c) :
    table' = table ∧ key = value ∧ c = b ∨ r.Notes table' key c := by
  obtain ⟨entries', hentries', hmem⟩ := h
  obtain ⟨entries, hentries, ⟨-, rfl⟩ | ⟨rfl, rfl⟩⟩ := getElem?_tables_insertAt hentries'
  · exact .inr ⟨entries', hentries, hmem⟩
  · rcases Indicators.mem_insert hmem with ⟨rfl, rfl⟩ | hold
    · exact .inl ⟨rfl, rfl, rfl⟩
    · exact .inr ⟨entries, hentries, hold⟩

/-- Only the table in which a slot is noted may have been empty before. -/
theorem nonempty_insertAt (h : ∀ {table' : Nat} {entries : Indicators}, table' ≠ table →
      r.tables[table']? = some entries → entries ≠ []) {entries' : Indicators}
    (htable : (r.insertAt table value b).tables[table']? = some entries') : entries' ≠ [] := by
  obtain ⟨entries, hentries, ⟨hne, rfl⟩ | ⟨-, rfl⟩⟩ := getElem?_tables_insertAt htable
  · exact h hne hentries
  · exact Indicators.insert_ne_nil value b entries

theorem notes_of_withTable (h : (r.withTable x).Notes table key b) : r.Notes table key b := by
  obtain ⟨entries, htable, hmem⟩ := h
  rcases getElem?_tables_withTable htable with ⟨-, rfl⟩ | hold
  · cases hmem
  · exact ⟨entries, hold, hmem⟩

/-- A variable that is not fixed gets a table. -/
theorem Noted.withTable (h : r.Noted) (hx : r.int? x = some slot) (hnone : slot.table = none)
    (hfree : slot.lb ≠ slot.ub) : (r.withTable x).Noted := by
  have hx' : (r.withTable x).int? x = some { slot with table := some r.tables.size } := by
    rw [int?_withTable, if_pos rfl, hx, Option.map_some]
  have hother : ∀ {y other}, r.int? y = some other → other.table ≠ none →
      (r.withTable x).int? y = some other := by
    intro y other hy htable
    have hne : x ≠ y := by
      rintro rfl
      cases hx.symm.trans hy
      exact htable hnone
    rw [int?_withTable, if_neg hne, hy]
  refine { tabled := h.tabled.withTable x, owner := ?owner, ascending := ?ascending,
           stands := ?stands, distinct := ?distinct }
  case owner =>
    intro table entries htable
    rcases getElem?_tables_withTable htable with ⟨rfl, -⟩ | hold
    · exact ⟨x, _, hx', rfl, hfree⟩
    · obtain ⟨y, other, hy, howned, hfree'⟩ := h.owner hold
      exact ⟨y, other, hother hy (by simp [howned]), howned, hfree'⟩
  case ascending =>
    intro table entries htable
    rcases getElem?_tables_withTable htable with ⟨-, rfl⟩ | hold
    · exact List.Pairwise.nil
    · exact h.ascending hold
  case stands =>
    intro y other table key b hy howned hnoted
    have hold := notes_of_withTable hnoted
    obtain ⟨entries, htable, -⟩ := id hold
    obtain ⟨z, old, hz, howned', -⟩ := h.owner htable
    have hz' := hother hz (by simp [howned'])
    obtain rfl : y = z := (h.tabled.withTable x).owner hy hz' howned howned'
    cases hy.symm.trans hz'
    have hstands := h.stands hz howned' hold
    exact hstands
  case distinct =>
    exact fun hb hb' => h.distinct (notes_of_withTable hb) (notes_of_withTable hb')

/-- A slot that stands for a value and is not noted yet is noted in the table of the
variable. -/
theorem Noted.insertAt (h : r.Noted) (hx : r.int? x = some slot) (htable : slot.table = some table)
    (hlower : slot.lb ≤ value) (hupper : value ≤ slot.ub) (hstands : r.StandsFor b slot.name value)
    (hfresh : ∀ {table' key}, ¬ r.Notes table' key b) : (r.insertAt table value b).Noted := by
  refine { tabled := h.tabled.insertAt table value b, owner := ?owner, ascending := ?ascending,
           stands := ?stands, distinct := ?distinct }
  case owner =>
    intro table' entries' hentries'
    obtain ⟨entries, hentries, -⟩ := getElem?_tables_insertAt hentries'
    have howner := h.owner hentries
    exact howner
  case ascending =>
    intro table' entries' hentries'
    obtain ⟨entries, hentries, ⟨-, rfl⟩ | ⟨-, rfl⟩⟩ := getElem?_tables_insertAt hentries'
    · exact h.ascending hentries
    · exact (h.ascending hentries).insert value b
  case stands =>
    intro y other table' key c hy howned hnoted
    rcases notes_of_insertAt hnoted with ⟨rfl, rfl, rfl⟩ | hold
    · obtain rfl : y = x := h.tabled.owner hy hx howned htable
      cases hx.symm.trans hy
      exact ⟨hlower, hupper, hstands⟩
    · have hstands' := h.stands hy howned hold
      exact hstands'
  case distinct =>
    intro table₁ table₂ key₁ key₂ c h₁ h₂
    rcases notes_of_insertAt h₁ with ⟨rfl, rfl, rfl⟩ | hold₁
    · rcases notes_of_insertAt h₂ with ⟨rfl, rfl, -⟩ | hold₂
      · exact ⟨rfl, rfl⟩
      · exact absurd hold₂ hfresh
    · rcases notes_of_insertAt h₂ with ⟨rfl, rfl, rfl⟩ | hold₂
      · exact absurd hold₁ hfresh
      · exact h.distinct hold₁ hold₂

theorem IndicatorsSound.withIndicator (h : r.IndicatorsSound) (hx : r.int? x = some slot)
    (hlower : slot.lb ≤ value) (hupper : value ≤ slot.ub) (hfree : slot.lb ≠ slot.ub)
    (hstands : r.StandsFor b slot.name value) (hfresh : ∀ {table key}, ¬ r.Notes table key b) :
    (r.withIndicator x slot value b).IndicatorsSound := by
  unfold Registry.withIndicator
  cases htable : slot.table with
  | some table =>
      exact ⟨h.toNoted.insertAt hx htable hlower hupper hstands hfresh,
        nonempty_insertAt fun _ hentries => h.nonempty hentries⟩
  | none =>
      have hx' : (r.withTable x).int? x = some { slot with table := some r.tables.size } := by
        rw [int?_withTable, if_pos rfl, hx, Option.map_some]
      have hnoted := h.toNoted.withTable hx htable hfree
      refine ⟨hnoted.insertAt hx' rfl hlower hupper hstands fun hnotes =>
        hfresh (notes_of_withTable hnotes), nonempty_insertAt fun hne hentries => ?_⟩
      rcases getElem?_tables_withTable hentries with ⟨hsize, -⟩ | hold
      · exact absurd hsize hne
      · exact h.nonempty hold

/-- A new slot that stands for a value is noted for it. -/
theorem IndicatorsSound.withIndicatorSlot (h : r.IndicatorsSound) (hseeded : r.Seeded)
    (hx : r.int? x = some slot) (hlower : slot.lb ≤ value) (hupper : value ≤ slot.ub)
    (hfree : slot.lb ≠ slot.ub) (handle : VarId) (literal : Literal) :
    (r.withIndicatorSlot x slot value handle literal).IndicatorsSound := by
  let new : BoolSlot :=
    ⟨handle, literal, .positive none, "[" ++ slot.name ++ " == " ++ toString value ++ "]"⟩
  have hpushed : (r.withBool new).IndicatorsSound :=
    h.carry (continues_withBool r new).persists (h.tabled.congr rfl rfl) rfl
      fun hx => ⟨_, hx, rfl⟩
  have hstands : (r.withBool new).StandsFor ⟨r.bools.size⟩ slot.name value :=
    ⟨hseeded.size_ne, new, bool?_withBool_size r new, rfl, rfl⟩
  refine hpushed.withIndicator hx hlower hupper hfree hstands fun {table key} hnotes => ?_
  -- what is noted already is an older slot
  have hold : r.Notes table key ⟨r.bools.size⟩ := hnotes
  obtain ⟨bool, hb⟩ := hold.bool? h.toNoted
  exact Nat.lt_irrefl _ (lt_size_of_bool? hb)

end Registry

/-! ## In every state -/

namespace Draft

variable {d d' d₀ : Draft} {x : IntId} {value : Int} {b : BoolId}

theorem Grows.indicatorsSound (h : d.Grows d') (hseeded : d.registry.Seeded)
    (hd : d.registry.IndicatorsSound) : d'.registry.IndicatorsSound := by
  have hpersists := h.continues.persists
  cases h with
  | store => exact hd
  | bool | negation =>
      exact hd.carry hpersists (hd.tabled.congr rfl rfl) rfl fun hx => ⟨_, hx, rfl⟩
  | int =>
      refine hd.carry hpersists (hd.tabled.withInt rfl) rfl fun {y old} hy => ⟨old, ?_, rfl⟩
      have hlt : y.index < d.registry.ints.size := (Array.getElem?_eq_some_iff.mp hy).1
      rw [Registry.int?_withInt, if_neg (Nat.ne_of_lt hlt), hy]
  | indicator e handle hx hlower hupper hfree =>
      exact hd.withIndicatorSlot hseeded hx hlower hupper hfree handle _

/-- The step lemma. -/
theorem Advance.indicatorsSound (h : Advance d d') (hseeded : d.registry.Seeded)
    (hd : d.registry.IndicatorsSound) : d'.registry.IndicatorsSound := by
  obtain ⟨c, rfl⟩ | hrehandled := h.cases_registry
  · exact (perform_grows c d).after.indicatorsSound hseeded hd
  · refine hd.carry hrehandled.persists (hd.tabled.rehandled hrehandled) hrehandled.tables
      fun hx => ?_
    obtain ⟨handle, hx'⟩ := hrehandled.int? hx
    exact ⟨_, hx', rfl⟩

/-- The run lemma. -/
theorem Advances.indicatorsSound (h : Advances d d') (hseeded : d.registry.Seeded)
    (hd : d.registry.IndicatorsSound) : d'.registry.IndicatorsSound := by
  induction h with
  | refl => exact hd
  | tail hreach hstep ih => exact hstep.indicatorsSound (Advances.seeded hreach hseeded) ih

/-- The constants need no tables. -/
theorem keeps_tables_addLiteral {tables : Array Indicators} (name : String) (ub : Float)
    (literal : Literal) :
    Keeps (fun d : Draft => d.registry.tables = tables) (addLiteral name ub literal) :=
  Keeps.bind (keeps_onSolvers (P := fun r => r.tables = tables) _) fun _ =>
    Keeps.bind (keeps_onSolvers (P := fun r => r.tables = tables) _) fun _ _ hd => hd

theorem keeps_tables_addInt {tables : Array Indicators} (lb ub : Int) (name : String) :
    Keeps (fun d : Draft => d.registry.tables = tables) (addInt lb ub name) :=
  Keeps.bind (keeps_requireBounds lb ub) fun _ =>
    Keeps.bind (keeps_onSolvers (P := fun r => r.tables = tables) _) fun _ =>
      Keeps.bind (keeps_onSolvers (P := fun r => r.tables = tables) _) fun _ =>
        Keeps.bind (keeps_onSolvers (P := fun r => r.tables = tables) _) fun _ _ hd => hd

theorem keeps_tables_negate {tables : Array Indicators} (v : BoolId) :
    Keeps (fun d : Draft => d.registry.tables = tables) (negate v) := by
  intro d hd
  refine ends_negate hd (fun _ => hd) fun slot hv hpolarity => ?_
  refine (negate_leaves hv hpolarity).mono (fun _ d' hd' => ?_) fun _ d' hd' => ?_
  · obtain ⟨-, n, e, rfl⟩ := hd'
    exact hd
  · obtain ⟨e, rfl⟩ := hd'
    exact hd

theorem addConstants_indicatorsSound {solvers : Solvers}
    (hconstants : addConstants ⟨{}, solvers⟩ = .ok () d₀) : d₀.registry.IndicatorsSound := by
  have htables : Keeps (fun d : Draft => d.registry.tables = #[]) addConstants :=
    Keeps.bind (keeps_tables_addLiteral _ _ _) fun falsity =>
      Keeps.bind (keeps_tables_negate falsity) fun _ =>
        Keeps.bind (keeps_tables_addInt 0 0 "zero") fun _ => keeps_pure _
  exact Registry.indicatorsSound_of_no_tables
    ((addConstants_agreeing solvers).accepted hconstants).1.tabled
    ((htables _ rfl).accepted hconstants)

/-! ## What is answered -/

/-- The variable may or may not have the value, as far as its bounds say. -/
def Open (d : Draft) (x : IntId) (value : Int) : Prop :=
  ∃ slot, d.registry.int? x = some slot ∧ slot.lb ≤ value ∧ value ≤ slot.ub ∧ slot.lb ≠ slot.ub

/-- What a call answers for such a pair is what the tables say afterwards. -/
theorem indicator?_of_indicator (htabled : d.registry.Tabled) (hopen : d.Open x value)
    (hrun : indicator x value d = .ok b d') : d'.registry.indicator? x value = some b := by
  obtain ⟨slot, hx, hlower, hupper, hfree⟩ := hopen
  have hends : Ends (indicator x value) d
      (fun b d' => d'.registry.indicator? x value = some b) fun _ _ => True := by
    refine ends_indicator trivial (fun slot' hx' hout => ?_) (fun slot' hx' _ hfixed => ?_)
      (fun _ _ _ _ _ _ hknown => hknown) fun slot' hx' _ _ _ _ => ?_
    · cases hx.symm.trans hx'
      omega
    · cases hx.symm.trans hx'
      exact absurd hfixed hfree
    · refine (addIndicator_leaves x slot' value d).mono (fun b d' hd' => ?_) fun _ _ _ => trivial
      obtain ⟨rfl, literal, s, handle, e, -, rfl⟩ := hd'
      have hpushed : (d.registry.withBool ⟨handle, literal, .positive none,
          "[" ++ slot'.name ++ " == " ++ toString value ++ "]"⟩).Tabled := htabled.congr rfl rfl
      rw [Registry.withIndicatorSlot, hpushed.indicator?_withIndicator hx', if_pos ⟨rfl, rfl⟩]
  exact hends.accepted hrun

/-- An indicator that is known is answered without any change. -/
theorem indicator_of_known (hopen : d.Open x value)
    (hknown : d.registry.indicator? x value = some b) : indicator x value d = .ok b d := by
  obtain ⟨slot, hx, hlower, hupper, hfree⟩ := hopen
  have hin : ¬ (value < slot.lb ∨ value > slot.ub) := by omega
  have hfixed : slot.isFixed = false := by simpa [IntSlot.isFixed] using hfree
  simp [indicator, bind_apply, getInt, hx, hin, hfixed, hknown]

/-- The tables are sound in all that a registry can turn into, and two calls, at any two
moments, answer the same slot if and only if they ask for the same value of the same
variable. -/
theorem indicators_unique {solvers : Solvers} (hconstants : addConstants ⟨{}, solvers⟩ = .ok () d₀)
    (hreach : Advances d₀ d) : d.registry.IndicatorsSound ∧
      ∀ {x v b d₁}, d.Open x v → indicator x v d = .ok b d₁ →
      ∀ {d₂ y w c d₃}, Advances d₁ d₂ → d₂.Open y w → indicator y w d₂ = .ok c d₃ →
        (b = c ↔ x = y ∧ v = w) := by
  obtain ⟨-, hseeded₀⟩ := addConstants_seeded hconstants
  have hseeded := hreach.seeded hseeded₀
  have hsound := hreach.indicatorsSound hseeded₀ (addConstants_indicatorsSound hconstants)
  refine ⟨hsound, fun {x v b d₁} hopen hrun {d₂ y w c d₃} hlater hopen' hrun' => ?_⟩
  have hgrows := (indicator_grows x v d).accepted hrun
  have hgrows' := (indicator_grows y w d₂).accepted hrun'
  have hseeded₁ := hseeded.persists hgrows.continues.persists
  have hsound₂ := hlater.indicatorsSound hseeded₁ (hgrows.indicatorsSound hseeded hsound)
  -- the first answer still stands after the second call
  have hfirst := (hlater.persists.trans hgrows'.continues.persists).indicators
    (indicator?_of_indicator hsound.tabled hopen hrun)
  have hsecond := indicator?_of_indicator hsound₂.tabled hopen' hrun'
  constructor
  · rintro rfl
    have hsound₃ := hgrows'.indicatorsSound (hlater.seeded hseeded₁) hsound₂
    exact hsound₃.indicator?_injective hfirst hsecond
  · rintro ⟨rfl, rfl⟩
    exact Option.some.inj (hfirst.symm.trans hsecond)

/-- An indicator of a virtual variable whose bounds are those of another one. -/
def indicatedDraft : Draft :=
  let d₁ := after (perform (.virtualInt 0 3 "y")) (after (perform (.int 0 3 "x")) constantsDraft)
  after (perform (.indicator ⟨2⟩ 3)) d₁

/-- The draft on a working copy that knows one indicator more. -/
def indicatedCopy : Draft := (after (indicator ⟨1⟩ 3) indicatedDraft).onCopy

theorem indicators_unique_copy :
    (addConstants ⟨{}, plainSolvers⟩ = .ok () constantsDraft ∧
      indicator ⟨1⟩ 3 indicatedDraft = .ok ⟨3⟩ (after (indicator ⟨1⟩ 3) indicatedDraft) ∧
      indicator ⟨2⟩ 3 indicatedCopy = .ok ⟨2⟩ indicatedCopy) ∧
    indicatedDraft.registry.IndicatorsSound ∧
    ((⟨3⟩ : BoolId) = ⟨2⟩ ↔ (⟨1⟩ : IntId) = ⟨2⟩ ∧ (3 : Int) = 3) := by
  have hconstants : addConstants ⟨{}, plainSolvers⟩ = .ok () constantsDraft := by rfl
  have hreach : Advances constantsDraft indicatedDraft :=
    .tail (.tail (.single (.step (.add _ (.int 0 3 "x"))))
      (.step (.add _ (.virtualInt 0 3 "y")))) (.step (.add _ (.indicator ⟨2⟩ 3)))
  have hx : indicatedDraft.registry.int? ⟨1⟩ = some ⟨some ⟨3⟩, ⟨1⟩, 0, 3, "x", none⟩ := by
    decide +kernel
  have hy : indicatedCopy.registry.int? ⟨2⟩ = some ⟨none, ⟨2⟩, 0, 3, "y", some 0⟩ := by
    decide +kernel
  have hknown : indicatedCopy.registry.indicator? ⟨2⟩ 3 = some ⟨2⟩ := by decide +kernel
  have hopen : indicatedDraft.Open ⟨1⟩ 3 := ⟨_, hx, by decide, by decide, by decide⟩
  have hopen' : indicatedCopy.Open ⟨2⟩ 3 := ⟨_, hy, by decide, by decide, by decide⟩
  have hrun : indicator ⟨1⟩ 3 indicatedDraft =
      .ok ⟨3⟩ (after (indicator ⟨1⟩ 3) indicatedDraft) := by rfl
  have hrun' := indicator_of_known hopen' hknown
  obtain ⟨hsound, hunique⟩ := indicators_unique hconstants hreach
  exact ⟨⟨hconstants, hrun, hrun'⟩, hsound, hunique hopen hrun (advances_onCopy _) hopen' hrun'⟩

end Draft

end JointModel
