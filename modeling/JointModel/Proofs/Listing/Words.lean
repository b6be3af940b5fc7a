import JointModel.Session.Listing
import JointModel.Proofs.Decimal.Reading

/-!
# Lines and words

`textLines` splits a text into its lines and `words` a line into its words.  Both give back what
was put together (`textLines_join_unbroken`, `words_indented`) if no line holds a line break and
no word a space.

The lines of an LP text that tell something about variables consist of words with an indent
(`boundsLine_eq`, `objectiveLine_eq`).  Their words hold neither spaces nor line breaks, whatever
the variables are called: names are clean, and written doubles have characters of their own.  A
name tells the handle (`varName_inj`), as no digit is an underscore, and its variable's own name
up to the characters that it replaces (`cleanName_eq_iff`).
-/

namespace JointModel.Listing

open Decimal

/-! ## Pieces between separators -/

/-- What stands between the separators of a text. -/
def pieces (separator : Char) (text : String) : List String :=
  (text.toList.splitOn separator).map String.ofList

/-- Pieces that do not hold the separator are told apart. -/
theorem pieces_intercalate {separator : Char} {ps : List String} (hne : ps ≠ [])
    (hps : ∀ p ∈ ps, separator ∉ p.toList) :
    pieces separator ((String.ofList [separator]).intercalate ps) = ps := by
  have hsplit := List.splitOn_intercalate separator
    (List.forall_mem_map.mpr hps) (mt List.map_eq_nil_iff.mp hne)
  rw [pieces, String.toList_intercalate, String.toList_ofList, hsplit, List.map_map]
  exact (List.map_congr_left fun p _ => String.ofList_toList).trans (List.map_id ps)

/-- The lines of a text in which every line ends with a line break. -/
def textLines (text : String) : List String := (pieces '\n' text).dropLast

theorem pieces_append (separator : Char) (text text' : String) :
    pieces separator (text ++ String.ofList [separator] ++ text') =
      pieces separator text ++ pieces separator text' := by
  simp only [pieces, String.toList_append, String.toList_ofList, List.append_assoc,
    List.cons_append, List.nil_append, List.splitOn_append_cons_self, List.map_append]

theorem pieces_ne_nil (separator : Char) (text : String) : pieces separator text ≠ [] :=
  mt List.map_eq_nil_iff.mp (List.splitOn_ne_nil _ _)

/-- A text without the separator is one piece. -/
theorem pieces_of_not_mem {separator : Char} {text : String} (h : separator ∉ text.toList) :
    pieces separator text = [text] := by
  rw [pieces, List.splitOn, List.splitOnP_eq_singleton fun c hc => ?_, List.map_singleton,
    String.ofList_toList]
  refine beq_false_of_ne ?_
  rintro rfl
  exact h hc

/-- Every separator makes a piece more. -/
theorem length_pieces (separator : Char) (text : String) :
    (pieces separator text).length = text.toList.count separator + 1 := by
  rw [pieces, List.length_map]
  induction text.toList with
  | nil => rfl
  | cons c cs ih =>
      rw [List.splitOn, List.splitOnP_cons_eq_if_modifyHead, ← List.splitOn, List.count_cons]
      split_ifs with hc
      · rw [List.length_cons, ih]
      · rw [List.length_modifyHead, ih]

/-- A line with a line break comes back as several. -/
theorem textLines_join (lines : List String) :
    textLines (String.join (lines.map (· ++ "\n"))) = lines.flatMap (pieces '\n') := by
  induction lines with
  | nil => rfl
  | cons line lines ih =>
      have hpieces := pieces_append '\n' line (String.join (lines.map (· ++ "\n")))
      rw [textLines, List.map_cons, String.join_cons, hpieces,
        List.dropLast_append_of_ne_nil (pieces_ne_nil _ _), ← textLines, ih, List.flatMap_cons]

theorem textLines_join_unbroken {lines : List String}
    (hlines : ∀ line ∈ lines, '\n' ∉ line.toList) :
    textLines (String.join (lines.map (· ++ "\n"))) = lines := by
  rw [textLines_join]
  refine (List.flatMap_congr fun line hline => pieces_of_not_mem (hlines line hline)).trans ?_
  exact List.flatMap_singleton' lines

/-! ## Words -/

/-- The words of a line behind its indent. -/
def words (line : String) : List String := (pieces ' ' line).tail

/-- A line of words with an indent. -/
def indented (ws : List String) : String := " " ++ " ".intercalate ws

/-- The text has neither a space nor a line break. -/
def IsWord (w : String) : Prop := ' ' ∉ w.toList ∧ '\n' ∉ w.toList

instance (w : String) : Decidable (IsWord w) := inferInstanceAs (Decidable (_ ∧ _))

theorem indented_eq {ws : List String} (hne : ws ≠ []) :
    indented ws = " ".intercalate ("" :: ws) := by
  rw [String.intercalate_cons_of_ne_nil hne, String.empty_append, indented]

theorem words_indented {ws : List String} (hne : ws ≠ []) (hws : ∀ w ∈ ws, IsWord w) :
    words (indented ws) = ws := by
  have hpieces : pieces ' ' (" ".intercalate ("" :: ws)) = "" :: ws :=
    pieces_intercalate (by simp)
      (List.forall_mem_cons.mpr ⟨List.not_mem_nil, fun w hw => (hws w hw).1⟩)
  rw [words, indented_eq hne, hpieces, List.tail_cons]

theorem not_mem_indented {ws : List String} (hws : ∀ w ∈ ws, IsWord w) :
    '\n' ∉ (indented ws).toList := by
  have hwords : '\n' ∉ (" ".intercalate ws).toList := by
    induction ws with
    | nil => exact List.not_mem_nil
    | cons w ws ih =>
        obtain ⟨hw, hws⟩ := List.forall_mem_cons.mp hws
        cases ws with
        | nil => simpa using hw.2
        | cons w' ws => simpa [String.intercalate_cons_cons] using ⟨hw.2, by simpa using ih hws⟩
  simpa [indented] using hwords

/-- A text of characters of words. -/
theorem isWord_of_forall {w : String} {p : Char → Bool} (hspace : p ' ' = false)
    (hbreak : p '\n' = false) (hw : ∀ c ∈ w.toList, p c = true) : IsWord w := by
  refine ⟨fun hc => ?_, fun hc => ?_⟩
  · exact Bool.false_ne_true (hspace.symm.trans (hw _ hc))
  · exact Bool.false_ne_true (hbreak.symm.trans (hw _ hc))

theorem isWord_render {layout : Layout} (hpositional : layout.positional = none)
    (hpoint : layout.pointZero = false) (x : Float) : IsWord (layout.render x) :=
  isWord_of_forall rfl rfl fun _ hc => isNumberChar_of_mem_render hpositional hpoint x hc

/-! ## Names -/

theorem isNameChar_iff {c : Char} :
    isNameChar c = true ↔
      'A' ≤ c ∧ c ≤ 'Z' ∨ 'a' ≤ c ∧ c ≤ 'z' ∨ '0' ≤ c ∧ c ≤ '9' ∨ c = '_' := by
  have hupper : c.isUpper = true ↔ 'A' ≤ c ∧ c ≤ 'Z' := by simp [Char.isUpper, Char.le_def]
  have hlower : c.isLower = true ↔ 'a' ≤ c ∧ c ≤ 'z' := by simp [Char.isLower, Char.le_def]
  have hdigit : c.isDigit = true ↔ '0' ≤ c ∧ c ≤ '9' := by simp [Char.isDigit, Char.le_def]
  simp only [isNameChar, Char.isAlphanum, Char.isAlpha, Bool.or_eq_true, beq_iff_eq, hupper,
    hlower, hdigit, or_assoc]

theorem isNameChar_of_mem_cleanName {name : String} {c : Char}
    (hc : c ∈ (cleanName name).toList) : isNameChar c = true := by
  rw [cleanName, String.toList_ofList, List.mem_map] at hc
  obtain ⟨d, -, rfl⟩ := hc
  split
  · assumption
  · rfl

theorem isDigit_of_mem_toString {n : ℕ} {c : Char} (hc : c ∈ (toString n).toList) :
    c.isDigit = true := by
  rw [Nat.toString_eq_repr, Nat.toList_repr] at hc
  exact Nat.isDigit_of_mem_toDigits (by decide) (by decide) hc

theorem isNameChar_of_mem_varName {name : String} {v : VarId} {c : Char}
    (hc : c ∈ (varName name v).toList) : isNameChar c = true := by
  simp only [varName, String.toList_append, List.mem_append] at hc
  rcases hc with (hc | hc) | hc
  · exact isNameChar_of_mem_cleanName hc
  · obtain rfl : c = '_' := by simpa using hc
    rfl
  · simp [isNameChar, Char.isAlphanum, isDigit_of_mem_toString hc]

theorem isWord_varName (name : String) (v : VarId) : IsWord (varName name v) :=
  isWord_of_forall rfl rfl fun _ hc => isNameChar_of_mem_varName hc

/-- Texts with one separator are equal only if both sides of the last one are. -/
theorem append_cons_inj_of_last {α : Type*} {a : α} {xs ys xs' ys' : List α} (hys : a ∉ ys)
    (hys' : a ∉ ys') (h : xs ++ a :: ys = xs' ++ a :: ys') : xs = xs' ∧ ys = ys' := by
  obtain ⟨zs, rfl, hzs⟩ | ⟨zs, rfl, hzs⟩ := List.append_eq_append_iff.mp h
  · cases zs with
    | nil => exact ⟨(List.append_nil _).symm, (List.cons.inj hzs).2⟩
    | cons z zs =>
        rw [(List.cons.inj hzs).2] at hys
        simp at hys
  · cases zs with
    | nil => exact ⟨List.append_nil _, (List.cons.inj hzs).2.symm⟩
    | cons z zs =>
        rw [(List.cons.inj hzs).2] at hys'
        simp at hys'

/-- The name of a variable tells its handle and its clean name. -/
theorem varName_inj {name name' : String} {v v' : VarId} :
    varName name v = varName name' v' ↔ cleanName name = cleanName name' ∧ v = v' := by
  refine ⟨fun h => ?_, fun ⟨hname, hv⟩ => by rw [varName, varName, hname, hv]⟩
  have hdigits : ∀ n : ℕ, '_' ∉ (toString n).toList := fun n hc =>
    Bool.false_ne_true (isDigit_of_mem_toString hc)
  have htext := congrArg String.toList h
  simp only [varName, String.toList_append, List.append_assoc] at htext
  obtain ⟨hname, hindex⟩ := append_cons_inj_of_last (hdigits v.index) (hdigits v'.index) htext
  refine ⟨String.toList_inj.mp hname, ?_⟩
  cases v
  cases v'
  exact congrArg VarId.mk (Nat.repr_inj.mp (String.toList_inj.mp hindex))

/-- Two characters that look alike in a name: the same one, or two that are neither letters nor
digits of ASCII, for each of which an underscore stands. -/
def LookAlike (c d : Char) : Prop :=
  c = d ∨ c.isAlphanum = false ∧ d.isAlphanum = false

/-- The character that stands for one in a name. -/
theorem shown_eq (c : Char) :
    (if isNameChar c then c else '_') = if c.isAlphanum then c else '_' := by
  simp only [isNameChar, Bool.or_eq_true, beq_iff_eq]
  split_ifs with hc halpha halpha
  · rfl
  · exact hc.resolve_left halpha
  · exact absurd (.inl halpha) hc
  · rfl

theorem lookAlike_iff {c d : Char} :
    LookAlike c d ↔
      (if isNameChar c then c else '_') = (if isNameChar d then d else '_') := by
  rw [shown_eq, shown_eq, LookAlike]
  split_ifs with hc hd hd
  · exact ⟨fun h => h.resolve_right fun h => Bool.false_ne_true (h.1.symm.trans hc), .inl⟩
  · refine ⟨fun h => absurd h ?_, fun h => absurd (h ▸ hc) (by decide)⟩
    rintro (rfl | ⟨hfalse, -⟩)
    exacts [hd hc, Bool.false_ne_true (hfalse.symm.trans hc)]
  · refine ⟨fun h => absurd h ?_, fun h => absurd (h.symm ▸ hd) (by decide)⟩
    rintro (rfl | ⟨-, hfalse⟩)
    exacts [hc hd, Bool.false_ne_true (hfalse.symm.trans hd)]
  · exact ⟨fun _ => rfl, fun _ => .inr ⟨Bool.eq_false_of_not_eq_true hc,
      Bool.eq_false_of_not_eq_true hd⟩⟩

theorem cleanName_eq_iff {name name' : String} :
    cleanName name = cleanName name' ↔ List.Forall₂ LookAlike name.toList name'.toList := by
  rw [cleanName, cleanName, String.ofList_inj, ← List.forall₂_eq_eq_eq,
    List.forall₂_map_left_iff, List.forall₂_map_right_iff]
  exact ⟨fun h => h.imp fun _ _ => lookAlike_iff.mpr, fun h => h.imp fun _ _ => lookAlike_iff.mp⟩

/-- Equal names are names of one variable, under names of its own that look alike character by
character; and they are made of letters and digits of ASCII and of underscores. -/
theorem varName_identifies (name name' : String) (v v' : VarId) :
    (varName name v = varName name' v' ↔ v = v' ∧ cleanName name = cleanName name') ∧
    (cleanName name = cleanName name' ↔ List.Forall₂ LookAlike name.toList name'.toList) ∧
    ∀ c ∈ (varName name v).toList,
      'A' ≤ c ∧ c ≤ 'Z' ∨ 'a' ≤ c ∧ c ≤ 'z' ∨ '0' ≤ c ∧ c ≤ '9' ∨ c = '_' :=
  ⟨varName_inj.trans and_comm, cleanName_eq_iff,
    fun _ hc => isNameChar_iff.mp (isNameChar_of_mem_varName hc)⟩

example : varName "x_1" ⟨2⟩ = varName "x 1" ⟨2⟩ ∧ varName "x_1" ⟨2⟩ ≠ varName "x" ⟨12⟩ := by decide

/-! ## Lines of words -/

/-- The words of the bounds of a variable. -/
def boundsWords (member : VarId × VarInfo) : List String :=
  if member.2.lb == member.2.ub then [memberName member, "=", Layout.plain.render member.2.lb]
  else [Layout.plain.render member.2.lb, "<=", memberName member, "<=",
    Layout.plain.render member.2.ub]

theorem boundsLine_eq (member : VarId × VarInfo) :
    boundsLine member = indented (boundsWords member) := by
  unfold boundsLine boundsWords indented
  dsimp only
  rw [← String.toList_inj]
  split_ifs
  · simp [String.intercalate_cons_cons]
  · simp [String.intercalate_cons_cons]

theorem isWord_of_mem_boundsWords {member : VarId × VarInfo} {w : String}
    (hw : w ∈ boundsWords member) : IsWord w := by
  have hname : IsWord (memberName member) := isWord_varName _ _
  have hvalue : ∀ x, IsWord (Layout.plain.render x) := isWord_render rfl rfl
  have heq : IsWord "=" := by decide
  have hle : IsWord "<=" := by decide
  unfold boundsWords at hw
  split_ifs at hw <;> simp only [List.mem_cons, List.not_mem_nil, or_false] at hw
  · rcases hw with rfl | rfl | rfl
    exacts [hname, heq, hvalue _]
  · rcases hw with rfl | rfl | rfl | rfl | rfl
    exacts [hvalue _, hle, hname, hle, hvalue _]

theorem words_boundsLine (member : VarId × VarInfo) :
    words (boundsLine member) = boundsWords member := by
  have hne : boundsWords member ≠ [] := by
    unfold boundsWords
    split_ifs <;> exact List.cons_ne_nil _ _
  rw [boundsLine_eq, words_indented hne fun _ => isWord_of_mem_boundsWords]

/-- The terms of the objective: coefficients with names. -/
def terms (vars : List (VarId × VarInfo)) : List (String × String) :=
  vars.filterMap fun member =>
    if member.2.obj == 0.0 then none
    else some (Layout.signed.render member.2.obj, memberName member)

/-- The words of the objective. -/
def objectiveWords (vars : List (VarId × VarInfo)) : List String :=
  "obj:" :: if (terms vars).isEmpty then ["0"] else (terms vars).flatMap fun t => [t.1, t.2]

theorem filterMap_objectiveTerm? (vars : List (VarId × VarInfo)) :
    vars.filterMap objectiveTerm? = (terms vars).map fun t => t.1 ++ " " ++ t.2 := by
  rw [terms, List.map_filterMap]
  congr 1
  funext member
  unfold objectiveTerm?
  split_ifs <;> rfl

theorem intercalate_pairs (ts : List (String × String)) :
    " ".intercalate (ts.map fun t => t.1 ++ " " ++ t.2) =
      " ".intercalate (ts.flatMap fun t => [t.1, t.2]) := by
  induction ts with
  | nil => rfl
  | cons t ts ih =>
      cases ts with
      | nil => simp [String.intercalate_cons_cons]
      | cons t' ts =>
          have hne : ((t' :: ts).flatMap fun t => [t.1, t.2]) ≠ [] := by simp
          have hwords : ((t :: t' :: ts).flatMap fun t => [t.1, t.2]) =
              t.1 :: t.2 :: (t' :: ts).flatMap fun t => [t.1, t.2] := rfl
          rw [List.map_cons, String.intercalate_cons_of_ne_nil (by simp), ih, hwords,
            String.intercalate_cons_cons, String.intercalate_cons_of_ne_nil hne]
          simp only [String.append_assoc]

theorem objectiveLine_eq (vars : List (VarId × VarInfo)) :
    objectiveLine vars = indented (objectiveWords vars) := by
  unfold objectiveLine objectiveWords indented
  dsimp only
  rw [filterMap_objectiveTerm?, intercalate_pairs, List.isEmpty_map]
  split_ifs with hempty
  · rfl
  · have hne : ((terms vars).flatMap fun t => [t.1, t.2]) ≠ [] := by
      obtain ⟨t, ts, hts⟩ := List.exists_cons_of_ne_nil (mt List.isEmpty_iff.mpr hempty)
      simp [hts]
    rw [String.intercalate_cons_of_ne_nil hne, ← String.append_assoc]
    rfl

theorem isWord_of_mem_terms {vars : List (VarId × VarInfo)} {t : String × String}
    (ht : t ∈ terms vars) : IsWord t.1 ∧ IsWord t.2 := by
  obtain ⟨member, -, hmember⟩ := List.mem_filterMap.mp ht
  split_ifs at hmember
  cases hmember
  exact ⟨isWord_render rfl rfl _, isWord_varName _ _⟩

theorem isWord_of_mem_objectiveWords {vars : List (VarId × VarInfo)} {w : String}
    (hw : w ∈ objectiveWords vars) : IsWord w := by
  rcases List.mem_cons.mp hw with rfl | hw
  · decide
  · split_ifs at hw
    · rw [List.mem_singleton.mp hw]
      decide
    · obtain ⟨t, ht, hw⟩ := List.mem_flatMap.mp hw
      rcases List.mem_pair.mp hw with rfl | rfl
      exacts [(isWord_of_mem_terms ht).1, (isWord_of_mem_terms ht).2]

theorem words_objectiveLine (vars : List (VarId × VarInfo)) :
    words (objectiveLine vars) = objectiveWords vars := by
  rw [objectiveLine_eq]
  exact words_indented (List.cons_ne_nil _ _) fun _ => isWord_of_mem_objectiveWords

/-- The objective tells its terms. -/
theorem terms_eq_of_objectiveWords {vars vars' : List (VarId × VarInfo)}
    (h : objectiveWords vars = objectiveWords vars') : terms vars = terms vars' := by
  have hpairs : ∀ {ts ts' : List (String × String)},
      (ts.flatMap fun t => [t.1, t.2]) = ts'.flatMap (fun t => [t.1, t.2]) → ts = ts' := by
    intro ts
    induction ts with
    | nil =>
        rintro (_ | ⟨t', ts'⟩) hts
        · rfl
        · cases hts
    | cons t ts ih =>
        rintro (_ | ⟨t', ts'⟩) hts
        · cases hts
        · simp only [List.flatMap_cons, List.cons_append, List.nil_append, List.cons.injEq] at hts
          rw [Prod.ext hts.1 hts.2.1, ih hts.2.2]
  -- The zero that stands for an empty objective is one word, terms are two words each.
  have hzero : ∀ ts : List (String × String), ["0"] ≠ ts.flatMap fun t => [t.1, t.2] := by
    rintro (_ | ⟨t, ts⟩) hts <;> simp at hts
  have hwords := (List.cons.inj h).2
  split_ifs at hwords with hempty hempty' hempty'
  · rw [List.isEmpty_iff.mp hempty, List.isEmpty_iff.mp hempty']
  · exact absurd hwords (hzero _)
  · exact absurd hwords.symm (hzero _)
  · exact hpairs hwords

/-- The names of the members of one kind. -/
def kindNames (kind : VarKind) (vars : List (VarId × VarInfo)) : List String :=
  (vars.filter (·.2.kind == kind)).map memberName

theorem isWord_of_mem_kindNames {kind : VarKind} {vars : List (VarId × VarInfo)} {w : String}
    (hw : w ∈ kindNames kind vars) : IsWord w := by
  obtain ⟨member, -, rfl⟩ := List.mem_map.mp hw
  exact isWord_varName _ _

end JointModel.Listing
