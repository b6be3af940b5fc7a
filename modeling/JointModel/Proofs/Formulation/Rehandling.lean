import JointModel.Proofs.Formulation.Forking
import JointModel.Proofs.Registry.Tables

/-!
# Copies up to handles

A fork finds every handle anew and leaves the rest of the slots as it is.  So a copy has the
slots of its source up to handles (`Registry.Rehandled`), whatever engine it was forked on and
whatever the engine made of the handles (`fork_rehandled`).

The pairs of slots, the tables and the indicators do not depend on handles, so a copy has
those of its source.
-/

namespace JointModel

open Effect

/-! ## Up to handles -/

/-- A boolean slot without its handle. -/
def BoolSlot.bare (slot : BoolSlot) : BoolSlot := { slot with handle := ⟨0⟩ }

/-- An integer slot without its handle. -/
def IntSlot.bare (slot : IntSlot) : IntSlot := { slot with handle := none }

namespace Registry

variable {r r' : Registry} {v : BoolId} {slot : BoolSlot} {x : IntId} {int : IntSlot}

/-- The registry `r'` is `r` with other handles. -/
structure Rehandled (r r' : Registry) : Prop where
  bools : ∀ v, (r'.bool? v).map BoolSlot.bare = (r.bool? v).map BoolSlot.bare
  ints : ∀ x, (r'.int? x).map IntSlot.bare = (r.int? x).map IntSlot.bare
  tables : r'.tables = r.tables

theorem Rehandled.symm (h : r.Rehandled r') : r'.Rehandled r :=
  ⟨fun v => (h.bools v).symm, fun x => (h.ints x).symm, h.tables.symm⟩

theorem Rehandled.bool? (h : r.Rehandled r') (hv : r.bool? v = some slot) :
    ∃ handle, r'.bool? v = some { slot with handle } := by
  have hsame := h.bools v
  rw [hv, Option.map_some] at hsame
  obtain ⟨slot', hv', hbare⟩ := Option.map_eq_some_iff.mp hsame
  obtain ⟨handle, literal, polarity, name⟩ := slot'
  cases hbare
  exact ⟨handle, hv'⟩

theorem Rehandled.int? (h : r.Rehandled r') (hx : r.int? x = some int) :
    ∃ handle, r'.int? x = some { int with handle } := by
  have hsame := h.ints x
  rw [hx, Option.map_some] at hsame
  obtain ⟨int', hx', hbare⟩ := Option.map_eq_some_iff.mp hsame
  obtain ⟨handle, domain, lb, ub, name, table⟩ := int'
  cases hbare
  exact ⟨handle, hx'⟩

theorem Rehandled.indicator? (h : r.Rehandled r') (x : IntId) (value : Int) :
    r'.indicator? x value = r.indicator? x value := by
  cases hx : r.int? x with
  | none =>
      have hx' : r'.int? x = none := by
        have hsame := h.ints x
        rw [hx, Option.map_none] at hsame
        exact Option.map_eq_none_iff.mp hsame
      rw [indicator?_of_unknown hx, indicator?_of_unknown hx']
  | some int =>
      obtain ⟨handle, hx'⟩ := h.int? hx
      rw [indicator?_of_int? hx, indicator?_of_int? hx', h.tables]

/-- Whether slots are paired does not depend on their handles. -/
theorem Paired.of_polarities {r r' : Registry} (h : r.Paired)
    (hsame : r'.bools.toList.map BoolSlot.polarity = r.bools.toList.map BoolSlot.polarity) :
    r'.Paired := by
  have hmap : ∀ v : BoolId,
      (r'.bool? v).map BoolSlot.polarity = (r.bool? v).map BoolSlot.polarity := by
    intro v
    simp only [bool?, ← Array.getElem?_toList, ← List.getElem?_map, hsame]
  have hsize : r'.bools.size = r.bools.size := by
    simpa only [List.length_map, Array.length_toList] using congrArg List.length hsame
  have haligned : r'.Aligned := h.aligned.of_prefix fun v _ => hmap v
  refine ⟨haligned.negated, fun {v slot n} hv hn => ?_⟩
  have hsource := hmap v
  rw [hv, Option.map_some] at hsource
  obtain ⟨source, hsource, hpolarity⟩ := Option.map_eq_some_iff.mp hsource.symm
  obtain ⟨negated, hnegated, -⟩ := h.positive hsource (hpolarity.trans hn)
  have hcopied := hmap n
  rw [hnegated, Option.map_some] at hcopied
  obtain ⟨slot', hslot', -⟩ := Option.map_eq_some_iff.mp hcopied
  exact ⟨slot', hslot', (haligned.positive hv hn).2 hslot'⟩

/-- The pairs do not depend on the handles. -/
theorem Paired.rehandled (h : r.Paired) (hrehandled : r.Rehandled r') : r'.Paired := by
  refine h.of_polarities (List.ext_getElem? fun i => ?_)
  have hsame := congrArg (Option.map BoolSlot.polarity) (hrehandled.bools ⟨i⟩)
  rw [Option.map_map, Option.map_map] at hsame
  rw [List.getElem?_map, List.getElem?_map, Array.getElem?_toList, Array.getElem?_toList]
  exact hsame

/-- Neither do the tables. -/
theorem Tabled.rehandled (h : r.Tabled) (hrehandled : r.Rehandled r') : r'.Tabled := by
  constructor
  · intro x slot table hx htable
    obtain ⟨handle, hold⟩ := hrehandled.symm.int? hx
    rw [hrehandled.tables]
    exact h.inRange hold htable
  · intro x y slot other table hx hy htable htable'
    obtain ⟨handle, hold⟩ := hrehandled.symm.int? hx
    obtain ⟨handle', hold'⟩ := hrehandled.symm.int? hy
    exact h.owner hold hold' htable htable'

end Registry

/-! ## Forks -/

namespace Formulation

open Registry

variable {f copy : Formulation} {e e' : Engine} {a : Assembly} {bools : List BoolSlot}
  {ints : List IntSlot}

theorem keeps_formulation_onEngine {α : Type} {P : Formulation → Prop} (act : Engine.Run α) :
    Keeps (fun a : Assembly => P a.formulation) (Assembly.onEngine act) := by
  intro a ha
  rw [Assembly.onEngine, ends_onPart]
  exact ends_of_forall (fun _ _ => ha) fun _ _ => ha

theorem keeps_registry_captureBridge {P : Registry → Prop} (c : ConsId) :
    Keeps (fun a : Assembly => P a.formulation.registry) (Assembly.captureBridge c) :=
  Keeps.bind (keeps_formulation_onEngine (P := fun f => P f.registry) _) fun _ _ ha => ha

theorem keeps_registry_captureBoolHandle {P : Registry → Prop} (slot : BoolSlot) :
    Keeps (fun a : Assembly => P a.formulation.registry) (Assembly.captureBoolHandle slot) := by
  unfold Assembly.captureBoolHandle
  cases slot.polarity with
  | positive m => exact keeps_formulation_onEngine (P := fun f => P f.registry) _
  | negated p =>
      exact Keeps.bind keeps_get fun _ =>
        keeps_formulation_onEngine (P := fun f => P f.registry) _

theorem keeps_registry_captureIntHandle {P : Registry → Prop} (slot : IntSlot) :
    Keeps (fun a : Assembly => P a.formulation.registry) (Assembly.captureIntHandle slot) := by
  unfold Assembly.captureIntHandle
  cases slot.handle with
  | none => exact keeps_pure none
  | some v => exact (keeps_formulation_onEngine (P := fun f => P f.registry) _).map

/-- The registry `r` has been put together from these slots of `f`, up to handles. -/
structure Gathered (f : Formulation) (bools : List BoolSlot) (ints : List IntSlot)
    (r : Registry) : Prop where
  bools : r.bools.toList.map BoolSlot.bare = bools.map BoolSlot.bare
  ints : r.ints.toList.map IntSlot.bare = ints.map IntSlot.bare
  tables : r.tables = f.registry.tables

theorem Gathered.rehandled {r : Registry}
    (h : Gathered f f.registry.bools.toList f.registry.ints.toList r) :
    f.registry.Rehandled r where
  bools v := by
    simp only [Registry.bool?, ← Array.getElem?_toList, ← List.getElem?_map, h.bools]
  ints x := by
    simp only [Registry.int?, ← Array.getElem?_toList, ← List.getElem?_map, h.ints]
  tables := h.tables

theorem captureBool_gathered (slot : BoolSlot)
    (ha : Gathered f bools ints a.formulation.registry) :
    Ends (Assembly.captureBool slot) a
      (fun _ a => Gathered f (bools ++ [slot]) ints a.formulation.registry) fun _ _ => True := by
  unfold Assembly.captureBool
  rw [ends_bind]
  refine (keeps_registry_captureBoolHandle slot a ha).mono (fun handle a ha => ?_)
    fun _ _ _ => trivial
  have hpushed : (a.formulation.registry.bools.push { slot with handle }).toList.map
      BoolSlot.bare = (bools ++ [slot]).map BoolSlot.bare := by
    simp only [Array.toList_push, List.map_append, ha.bools, List.map_cons, List.map_nil,
      BoolSlot.bare]
  exact ⟨hpushed, ha.ints, ha.tables⟩

theorem captureInt_gathered (slot : IntSlot)
    (ha : Gathered f bools ints a.formulation.registry) :
    Ends (Assembly.captureInt slot) a
      (fun _ a => Gathered f bools (ints ++ [slot]) a.formulation.registry) fun _ _ => True := by
  unfold Assembly.captureInt
  rw [ends_bind]
  refine (keeps_registry_captureIntHandle slot a ha).mono (fun handle a ha => ?_)
    fun _ _ _ => trivial
  have hpushed : (a.formulation.registry.ints.push { slot with handle }).toList.map
      IntSlot.bare = (ints ++ [slot]).map IntSlot.bare := by
    simp only [Array.toList_push, List.map_append, ha.ints, List.map_cons, List.map_nil,
      IntSlot.bare]
  exact ⟨ha.bools, hpushed, ha.tables⟩

theorem capture_gathered (f : Formulation) (e : Engine) :
    Ends (Assembly.capture f) ⟨e, f.blank⟩ (fun _ a =>
      Gathered f f.registry.bools.toList f.registry.ints.toList a.formulation.registry)
      fun _ _ => True := by
  have hblank : Gathered f [] [] f.blank.registry := ⟨rfl, rfl, rfl⟩
  unfold Assembly.capture
  rw [ends_bind]
  have hbridge : Keeps (fun a : Assembly => Gathered f [] [] a.formulation.registry)
      (f.bridge.toList.forM Assembly.captureBridge) :=
    Keeps.forM (keeps_registry_captureBridge (P := Gathered f [] []))
  refine (hbridge _ hblank).mono (fun _ a ha => ?_) fun _ _ _ => trivial
  rw [ends_bind]
  refine (ends_forM (I := fun done (a : Assembly) => Gathered f done [] a.formulation.registry)
    (fun _ slot _ _ _ ha => captureBool_gathered slot ha) ha).mono (fun _ a ha => ?_)
    fun _ _ _ => trivial
  exact ends_forM
    (I := fun done (a : Assembly) => Gathered f f.registry.bools.toList done a.formulation.registry)
    (fun _ slot _ _ _ ha => captureInt_gathered slot ha) ha

/-- A copy has the slots of its source, whatever the engine made of their handles. -/
theorem fork_rehandled (h : f.fork e = .ok copy e') : f.registry.Rehandled copy.registry :=
  ((capture_gathered f e).accepted (captured_of_fork h)).rehandled

end Formulation

end JointModel
