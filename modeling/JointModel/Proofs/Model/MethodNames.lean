import JointModel.Model.Method
import Mathlib.Data.List.DropRight
import Mathlib.Data.List.Forall2

/-!
# Names of methods

A text names a method if it is the name of the method between blanks, with each letter in either
case (`Method.Spells`).  These are the texts that `Method.parse` reads; it rejects every other one
and hands it back as it was given (`parse_accepts_exactly`).

The blanks and the letters that have two cases are listed one by one (`Text.whiteSpace`,
`Text.letters`), and `isBlank` and `Char.toLower` are compared with the lists.  A text can be taken
apart in one way only: a name has no blank of its own, so `strip` leaves the word between the
blanks (`strip_padded`), and two names differ even in small letters (`name_injective`).
-/

namespace JointModel

namespace Text

/-! ## Blanks around a word -/

/-- The characters with the Unicode property `White_Space`. -/
def whiteSpace : List Char :=
  ['\t', '\n', '\x0b', '\x0c', '\r', ' ', '\u0085', '\u00a0', '\u1680', '\u2000', '\u2001',
    '\u2002', '\u2003', '\u2004', '\u2005', '\u2006', '\u2007', '\u2008', '\u2009', '\u200a',
    '\u2028', '\u2029', '\u202f', '\u205f', '\u3000']

theorem isBlank_iff {c : Char} : isBlank c = true ↔ c ∈ whiteSpace := by
  have hnumbers : whiteSpace.map Char.toNat =
      List.range' 0x0009 5 ++ [0x0020, 0x0085, 0x00A0, 0x1680] ++ List.range' 0x2000 11 ++
        [0x2028, 0x2029, 0x202F, 0x205F, 0x3000] := by decide
  have hmem : c ∈ whiteSpace ↔ c.toNat ∈ whiteSpace.map Char.toNat := by
    refine ⟨List.mem_map_of_mem, fun h => ?_⟩
    obtain ⟨d, hd, hcd⟩ := List.mem_map.mp h
    rwa [← Char.toNat_inj.mp hcd]
  rw [hmem, hnumbers]
  simp only [isBlank, Bool.or_eq_true, Bool.and_eq_true, decide_eq_true_eq, beq_iff_eq,
    List.mem_append, List.mem_range'_1, List.mem_cons, List.not_mem_nil, or_false]
  omega

/-- The text is made of blanks, or empty. -/
def AllBlank (s : String) : Prop := ∀ c ∈ s.toList, c ∈ whiteSpace

instance (s : String) : Decidable (AllBlank s) := List.decidableBAll (· ∈ whiteSpace) s.toList

theorem dropWhile_isBlank {cs : List Char} (hcs : ∀ c ∈ cs, isBlank c = false) :
    cs.dropWhile isBlank = cs := by
  refine List.dropWhile_eq_self_iff.mpr fun hlength => ?_
  rw [hcs _ (List.getElem_mem hlength)]
  exact Bool.false_ne_true

theorem stripChars_padded {before word after : List Char} (hbefore : ∀ c ∈ before, isBlank c = true)
    (hword : ∀ c ∈ word, isBlank c = false) (hafter : ∀ c ∈ after, isBlank c = true) :
    stripChars (before ++ word ++ after) = word := by
  have hback : ((word ++ after).reverse.dropWhile isBlank).reverse = word := by
    rw [List.reverse_append,
      List.dropWhile_append_of_pos fun c hc => hafter c (List.mem_reverse.mp hc),
      dropWhile_isBlank fun c hc => hword c (List.mem_reverse.mp hc), List.reverse_reverse]
  rw [stripChars, List.append_assoc, List.dropWhile_append_of_pos hbefore]
  cases word with
  | nil =>
      rw [List.nil_append, List.dropWhile_eq_nil_iff.mpr hafter]
      rfl
  | cons c cs =>
      have hc : ¬ isBlank c = true := Bool.eq_false_iff.mp (hword c List.mem_cons_self)
      rwa [List.cons_append, List.dropWhile_cons_of_neg hc]

/-- A word without blanks is what is left of it between blanks. -/
theorem strip_padded {before word after : String} (hbefore : AllBlank before)
    (hword : ∀ c ∈ word.toList, c ∉ whiteSpace) (hafter : AllBlank after) :
    strip (before ++ word ++ after) = word := by
  rw [strip, String.toList_append, String.toList_append,
    stripChars_padded (fun c hc => isBlank_iff.mpr (hbefore c hc))
      (fun c hc => Bool.eq_false_iff.mpr (mt isBlank_iff.mp (hword c hc)))
      (fun c hc => isBlank_iff.mpr (hafter c hc)),
    String.ofList_toList]

/-- Only blanks are taken off. -/
theorem exists_padding (s : String) :
    ∃ before after, AllBlank before ∧ AllBlank after ∧ s = before ++ strip s ++ after := by
  let rest := s.toList.dropWhile isBlank
  have hstrip : (strip s).toList = rest.rdropWhile isBlank := String.toList_ofList
  refine ⟨String.ofList (s.toList.takeWhile isBlank), String.ofList (rest.rtakeWhile isBlank),
    fun c hc => ?_, fun c hc => ?_, String.toList_inj.mp ?_⟩
  · rw [String.toList_ofList] at hc
    exact isBlank_iff.mp (List.mem_takeWhile_imp hc)
  · rw [String.toList_ofList] at hc
    exact isBlank_iff.mp (List.mem_rtakeWhile_imp hc)
  · rw [String.toList_append, String.toList_append, String.toList_ofList, String.toList_ofList,
      hstrip, List.append_assoc, List.rdropWhile_append_rtakeWhile,
      List.takeWhile_append_dropWhile]

/-! ## The two cases of a letter -/

/-- The letters of ASCII, each as a capital and as a small letter. -/
def letters : List (Char × Char) :=
  "ABCDEFGHIJKLMNOPQRSTUVWXYZ".toList.zip "abcdefghijklmnopqrstuvwxyz".toList

theorem mem_letters_iff {c d : Char} :
    (c, d) ∈ letters ↔ 65 ≤ c.toNat ∧ c.toNat ≤ 90 ∧ d.toNat = c.toNat + 32 := by
  constructor
  · intro h
    have hall : ∀ p ∈ letters, 65 ≤ p.1.toNat ∧ p.1.toNat ≤ 90 ∧ p.2.toNat = p.1.toNat + 32 := by
      decide
    exact hall _ h
  · rintro ⟨hfirst, hlast, hd⟩
    have hall : ∀ i < 26, (Char.ofNat (65 + i), Char.ofNat (97 + i)) ∈ letters := by decide
    obtain ⟨i, hc⟩ := Nat.exists_eq_add_of_le hfirst
    have hletter := hall i (by omega)
    rwa [← hc, show 97 + i = d.toNat by omega, Char.ofNat_toNat, Char.ofNat_toNat] at hletter

theorem toNat_toLower (c : Char) :
    c.toLower.toNat = if 65 ≤ c.toNat ∧ c.toNat ≤ 90 then c.toNat + 32 else c.toNat := by
  have hcapital : (c.val ≥ 'A'.val ∧ c.val ≤ 'Z'.val) ↔ 65 ≤ c.toNat ∧ c.toNat ≤ 90 := by
    simp only [ge_iff_le, UInt32.le_iff_toNat_le]
    exact Iff.rfl
  unfold Char.toLower
  split
  · next hc =>
      obtain ⟨hfirst, hlast⟩ := hcapital.mp hc
      rw [if_pos ⟨hfirst, hlast⟩]
      exact (UInt32.toNat_add _ _).trans (Nat.mod_eq_of_lt (show c.toNat + 32 < 2 ^ 32 by omega))
  · next hc => rw [if_neg (mt hcapital.mpr hc)]

/-- One character, or one letter of ASCII in its two cases. -/
def SameLetter (c d : Char) : Prop := c = d ∨ (c, d) ∈ letters ∨ (d, c) ∈ letters

theorem sameLetter_iff {c d : Char} : SameLetter c d ↔ c.toLower = d.toLower := by
  rw [SameLetter, mem_letters_iff, mem_letters_iff, ← Char.toNat_inj, ← Char.toNat_inj,
    toNat_toLower, toNat_toLower]
  split_ifs <;> omega

/-- Two texts that differ in the case of letters of ASCII only. -/
def CaseVariant (s t : String) : Prop := List.Forall₂ SameLetter s.toList t.toList

theorem caseVariant_iff {s t : String} :
    CaseVariant s t ↔ s.toList.map Char.toLower = t.toList.map Char.toLower := by
  rw [CaseVariant, ← List.forall₂_eq_eq_eq, List.forall₂_map_left_iff, List.forall₂_map_right_iff]
  exact ⟨fun h => h.imp fun _ _ => sameLetter_iff.mp, fun h => h.imp fun _ _ => sameLetter_iff.mpr⟩

instance (s t : String) : Decidable (CaseVariant s t) := decidable_of_iff _ caseVariant_iff.symm

end Text

namespace Method

open Text

/-! ## Names -/

theorem sameIgnoringCase_iff {s t : String} : sameIgnoringCase s t = true ↔ CaseVariant t s := by
  rw [sameIgnoringCase, beq_iff_eq, caseVariant_iff, eq_comm]

theorem name_injective {m m' : Method} (h : m.name.toList = m'.name.toList) : m = m' := by
  cases m <;> cases m' <;> revert h <;> decide

/-- A name is made of small letters. -/
theorem small_of_mem_name {m : Method} {c : Char} (hc : c ∈ m.name.toList) :
    97 ≤ c.toNat ∧ c.toNat ≤ 122 := by
  have hall : m.name.toList.all (fun c => 97 ≤ c.toNat ∧ c.toNat ≤ 122) = true := by
    cases m <;> decide
  exact decide_eq_true_iff.mp (List.all_eq_true.mp hall c hc)

variable {m : Method} {word text : String}

theorem caseVariant_name_iff :
    CaseVariant word m.name ↔ word.toList.map Char.toLower = m.name.toList := by
  have hsmall : m.name.toList.map Char.toLower = m.name.toList := by cases m <;> decide
  rw [caseVariant_iff, hsmall]

/-- In whichever case it is written, a name is made of letters of ASCII. -/
theorem letter_of_mem_variant (hword : CaseVariant word m.name) {c : Char} (hc : c ∈ word.toList) :
    65 ≤ c.toNat ∧ c.toNat ≤ 90 ∨ 97 ≤ c.toNat ∧ c.toNat ≤ 122 := by
  have hmem : c.toLower ∈ m.name.toList :=
    caseVariant_name_iff.mp hword ▸ List.mem_map_of_mem hc
  have hsmall := small_of_mem_name hmem
  rw [toNat_toLower] at hsmall
  split_ifs at hsmall <;> omega

theorem not_mem_whiteSpace_of_mem_variant (hword : CaseVariant word m.name) {c : Char}
    (hc : c ∈ word.toList) : c ∉ whiteSpace := by
  have hletter := letter_of_mem_variant hword hc
  rw [← isBlank_iff]
  simp only [isBlank, Bool.or_eq_true, Bool.and_eq_true, decide_eq_true_eq, beq_iff_eq]
  omega

/-! ## Texts that name a method -/

/-- The text is the name of the method, each letter in either case, between blanks. -/
inductive Spells (m : Method) : String → Prop
  | padded {before word after : String} : AllBlank before → CaseVariant word m.name →
      AllBlank after → Spells m (before ++ word ++ after)

/-- However a text is taken apart, the word in it is the stripped text. -/
theorem spells_iff : m.Spells text ↔ CaseVariant (strip text) m.name := by
  constructor
  · rintro ⟨hbefore, hword, hafter⟩
    rwa [strip_padded hbefore (fun _ => not_mem_whiteSpace_of_mem_variant hword) hafter]
  · intro hword
    obtain ⟨before, after, hbefore, hafter, htext⟩ := exists_padding text
    rw [htext]
    exact .padded hbefore hword hafter

/-- A text names one method at most. -/
theorem Spells.unique {m' : Method} (h : m.Spells text) (h' : m'.Spells text) : m = m' :=
  name_injective ((caseVariant_name_iff.mp (spells_iff.mp h)).symm.trans
    (caseVariant_name_iff.mp (spells_iff.mp h')))

theorem Spells.blank_or_ascii (h : m.Spells text) {c : Char} (hc : c ∈ text.toList) :
    c ∈ whiteSpace ∨ c.toNat < 128 := by
  obtain ⟨hbefore, hword, hafter⟩ := h
  simp only [String.toList_append, List.mem_append] at hc
  rcases hc with (hc | hc) | hc
  · exact .inl (hbefore c hc)
  · have hletter := letter_of_mem_variant hword hc
    exact .inr (by omega)
  · exact .inl (hafter c hc)

/-! ## Reading -/

/-- The methods are searched in order, but no text names two of them. -/
theorem parse_eq_ok_iff : parse text = .ok m ↔ m.Spells text := by
  have hsearch : ∀ {m : Method}, sameIgnoringCase m.name (strip text) = true ↔ m.Spells text :=
    sameIgnoringCase_iff.trans spells_iff.symm
  unfold parse
  split
  · next m' hfind =>
      have hfound := List.find?_some hfind
      have hspells : m'.Spells text := hsearch.mp hfound
      refine ⟨fun h => Except.ok.inj h ▸ hspells, fun h => ?_⟩
      rw [hspells.unique h]
  · next hfind =>
      have hnone := List.find?_eq_none.mp hfind m m.mem_all
      exact ⟨nofun, fun h => absurd (hsearch.mpr h) hnone⟩

theorem eq_unknownMethod_of_parse {e : ModelError} (h : parse text = .error e) :
    e = .unknownMethod text := by
  unfold parse at h
  split at h
  · cases h
  · cases h
    rfl

theorem parse_eq_error_iff {e : ModelError} :
    parse text = .error e ↔ e = .unknownMethod text ∧ ∀ m : Method, ¬ m.Spells text := by
  constructor
  · intro h
    refine ⟨eq_unknownMethod_of_parse h, fun m hm => ?_⟩
    cases h.symm.trans (parse_eq_ok_iff.mpr hm)
  · rintro ⟨rfl, hnone⟩
    cases h : parse text with
    | ok m => exact absurd (parse_eq_ok_iff.mp h) (hnone m)
    | error e => rw [eq_unknownMethod_of_parse h]

/-- A text is read as the method that it names, of which there is at most one, and a text that
names no method comes back in the error as it was given.  So the name of a method is read back
between any blanks and in any case of its letters, and no text is read that has a character
beyond ASCII which is not a blank. -/
theorem parse_accepts_exactly :
    (∀ text (m : Method), parse text = .ok m ↔ m.Spells text) ∧
    (∀ text (m m' : Method), m.Spells text → m'.Spells text → m = m') ∧
    (∀ text e, parse text = .error e ↔
      e = .unknownMethod text ∧ ∀ m : Method, ¬ m.Spells text) ∧
    (∀ (m : Method) before word after, AllBlank before → CaseVariant word m.name →
      AllBlank after → parse (before ++ word ++ after) = .ok m) ∧
    ∀ text, ∀ c ∈ text.toList, 128 ≤ c.toNat → c ∉ whiteSpace →
      parse text = .error (.unknownMethod text) := by
  refine ⟨fun _ _ => parse_eq_ok_iff, fun _ _ _ h h' => h.unique h',
    fun _ _ => parse_eq_error_iff, fun m before word after hbefore hword hafter => ?_,
    fun text c hc hbeyond hblank => ?_⟩
  · exact parse_eq_ok_iff.mpr (.padded hbefore hword hafter)
  · refine parse_eq_error_iff.mpr ⟨rfl, fun m hm => ?_⟩
    exact (hm.blank_or_ascii hc).elim hblank (Nat.not_lt.mpr hbeyond)

/-- A name among wide blanks is read in letters of both cases, and is not read with a dotless i,
the capital of which is a letter of ASCII. -/
theorem parse_accepts_exactly_padded :
    AllBlank "\u3000\t" ∧ CaseVariant "LbBd" "lbbd" ∧ AllBlank "\u2028" ∧
    parse ("\u3000\t" ++ "LbBd" ++ "\u2028") = .ok .benders ∧
    '\u0131' ∈ " m\u0131p".toList ∧ 128 ≤ '\u0131'.toNat ∧ '\u0131' ∉ whiteSpace ∧
    parse " m\u0131p" = .error (.unknownMethod " m\u0131p") := by
  have hbefore : AllBlank "\u3000\t" := by decide
  have hword : CaseVariant "LbBd" "lbbd" := by decide
  have hafter : AllBlank "\u2028" := by decide
  have hmem : '\u0131' ∈ " m\u0131p".toList := by decide
  have hbeyond : 128 ≤ '\u0131'.toNat := by decide
  have hblank : '\u0131' ∉ whiteSpace := by decide
  obtain ⟨-, -, -, hread, hrejected⟩ := parse_accepts_exactly
  exact ⟨hbefore, hword, hafter, hread .benders _ _ _ hbefore hword hafter, hmem, hbeyond, hblank,
    hrejected _ _ hmem hbeyond hblank⟩

end Method

end JointModel
