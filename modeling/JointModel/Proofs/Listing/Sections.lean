import JointModel.Proofs.Listing.Words

/-!
# Sections

An LP text is a sequence of sections behind a few comments.  `linesUnder` finds the lines under a
title (`linesUnder_lines`), since the lines of a section start with a space or are comments, and no
title does.  So no name, however it is chosen, can be taken for a title.

The sections of the discrete variables are there unless they would be empty, and name the members
of their kind (`namesUnder_text`).
-/

namespace JointModel.Listing

/-! ## Blocks -/

/-- The line belongs to a section or is a comment, and is no title. -/
def isBody (line : String) : Bool :=
  line.toList.head? == some ' ' || line.toList.head? == some '\\'

/-- The lines under a title, up to the next title. -/
def linesUnder (title : String) (lines : List String) : Option (List String) :=
  match lines.dropWhile (· != title) with
  | [] => none
  | _ :: rest => some (rest.takeWhile isBody)

/-- A title with the lines under it. -/
abbrev Block := String × List String

/-- The title is one, and the lines under it are none. -/
def Block.Titled (b : Block) : Prop := isBody b.1 = false ∧ ∀ line ∈ b.2, isBody line = true

/-- The lines of a sequence of sections. -/
def blockLines (blocks : List Block) : List String := blocks.flatMap fun b => b.1 :: b.2

theorem takeWhile_isBody {body : List String} (hbody : ∀ line ∈ body, isBody line = true)
    {blocks : List Block} (hblocks : ∀ b ∈ blocks, b.Titled) :
    (body ++ blockLines blocks).takeWhile isBody = body := by
  rw [List.takeWhile_append_of_pos hbody]
  cases blocks with
  | nil => exact List.append_nil body
  | cons b blocks =>
      have htitle := (hblocks b List.mem_cons_self).1
      rw [blockLines, List.flatMap_cons, List.cons_append,
        List.takeWhile_cons_of_neg (by rw [htitle]; exact Bool.false_ne_true), List.append_nil]

theorem bne_title_of_isBody {title : String} (htitle : isBody title = false) {body : List String}
    (hbody : ∀ line ∈ body, isBody line = true) : ∀ line ∈ body, (line != title) = true := by
  intro line hline
  refine bne_iff_ne.mpr ?_
  rintro rfl
  exact Bool.false_ne_true (htitle.symm.trans (hbody _ hline))

/-- Behind any lines that are no titles, the lines under a title are found. -/
theorem linesUnder_blockLines {title : String} (htitle : isBody title = false)
    {body : List String} (hbody : ∀ line ∈ body, isBody line = true)
    {blocks : List Block} (hblocks : ∀ b ∈ blocks, b.Titled) :
    linesUnder title (body ++ blockLines blocks) = blocks.lookup title := by
  induction blocks generalizing body with
  | nil =>
      have hdrop := List.dropWhile_eq_nil_iff.mpr (bne_title_of_isBody htitle hbody)
      simp [linesUnder, blockLines, hdrop]
  | cons b blocks ih =>
      have hskip := bne_title_of_isBody htitle hbody
      obtain ⟨hb, hblocks⟩ := List.forall_mem_cons.mp hblocks
      have hlines : blockLines (b :: blocks) = b.1 :: (b.2 ++ blockLines blocks) := rfl
      rw [List.lookup_cons]
      by_cases heq : title = b.1
      · have hstop : ¬ (b.1 != title) = true := by simp [heq]
        have hfound : (body ++ blockLines (b :: blocks)).dropWhile (· != title) =
            b.1 :: (b.2 ++ blockLines blocks) := by
          rw [List.dropWhile_append_of_pos hskip, hlines, List.dropWhile_cons, if_neg hstop]
        rw [beq_iff_eq.mpr heq]
        simp only [linesUnder, hfound, takeWhile_isBody hb.2 hblocks]
      · have hpassed : (body ++ blockLines (b :: blocks)).dropWhile (· != title) =
            (b.2 ++ blockLines blocks).dropWhile (· != title) := by
          rw [List.dropWhile_append_of_pos hskip, hlines, List.dropWhile_cons,
            if_pos (bne_iff_ne.mpr (Ne.symm heq))]
        rw [linesUnder, hpassed, ← linesUnder, ih hb.2 hblocks, beq_false_of_ne heq]

/-! ## The text of a listing -/

theorem isBody_indented (ws : List String) : isBody (indented ws) = true := by
  simp [isBody, indented]

theorem isBody_comment (rest : String) : isBody ("\\ " ++ rest) = true := by
  simp [isBody]

theorem isBody_consLine (cons : ConsInfo) : isBody (consLine cons) = true := by
  simp only [consLine, String.append_assoc]
  exact isBody_comment _

/-- The section of the members of one kind, if there are any. -/
def kindBlock (title : String) (kind : VarKind) (vars : List (VarId × VarInfo)) : List Block :=
  if (kindNames kind vars).isEmpty then [] else [(title, [indented (kindNames kind vars)])]

theorem kindLines_eq (title : String) (kind : VarKind) (vars : List (VarId × VarInfo)) :
    kindLines title kind vars = blockLines (kindBlock title kind vars) := by
  unfold kindLines kindBlock kindNames
  dsimp only
  split_ifs <;> rfl

/-- The sections of a listing. -/
def blocks (l : Listing) : List Block :=
  [(senseLine l.sense, [objectiveLine l.vars]), ("Subject To", l.conss.map consLine),
      ("Bounds", l.vars.map boundsLine)] ++
    kindBlock "Binaries" .binary l.vars ++ kindBlock "Generals" .integer l.vars ++ [("End", [])]

/-- The names that the user of a listing is free to choose hold no line break, those of the
variables apart. -/
structure Unbroken (l : Listing) : Prop where
  name : '\n' ∉ l.name.toList
  conss : ∀ cons ∈ l.conss, '\n' ∉ cons.name.toList ∧ '\n' ∉ cons.handler.toList

section Listing

variable (l : Listing)

theorem lines_eq : l.lines = l.headLines ++ blockLines l.blocks := by
  simp [lines, blocks, blockLines, kindLines_eq]

theorem isBody_of_mem_headLines {line : String} (hline : line ∈ l.headLines) :
    isBody line = true := by
  rcases List.mem_cons.mp hline with rfl | hline
  · exact isBody_comment ("Problem name: " ++ l.name)
  · split_ifs at hline
    · rw [List.mem_singleton.mp hline]
      exact isBody_comment "Objective is integral"
    · cases hline

theorem titled_of_mem_kindBlock {title : String} (htitle : isBody title = false) {kind : VarKind}
    {b : Block} (hb : b ∈ kindBlock title kind l.vars) : b.Titled := by
  unfold kindBlock at hb
  split_ifs at hb
  · cases hb
  · rw [List.mem_singleton.mp hb]
    exact ⟨htitle, by simp [isBody_indented]⟩

theorem titled_of_mem_blocks {b : Block} (hb : b ∈ l.blocks) : b.Titled := by
  simp only [blocks, List.mem_append, List.mem_cons, List.not_mem_nil, or_false] at hb
  rcases hb with (((rfl | rfl | rfl) | hb) | hb) | rfl
  · have hsense : isBody (senseLine l.sense) = false := by cases l.sense <;> decide
    exact ⟨hsense, by simp [objectiveLine_eq, isBody_indented]⟩
  · have htitle : isBody "Subject To" = false := by decide
    exact ⟨htitle, List.forall_mem_map.mpr fun cons _ => isBody_consLine cons⟩
  · have htitle : isBody "Bounds" = false := by decide
    refine ⟨htitle, List.forall_mem_map.mpr fun member _ => ?_⟩
    rw [boundsLine_eq]
    exact isBody_indented _
  · exact titled_of_mem_kindBlock l (by decide) hb
  · exact titled_of_mem_kindBlock l (by decide) hb
  · exact ⟨by decide, fun _ hline => (List.not_mem_nil hline).elim⟩

/-- The comments at the beginning are found. -/
theorem takeWhile_lines : l.lines.takeWhile isBody = l.headLines := by
  rw [lines_eq]
  exact takeWhile_isBody (fun _ => isBody_of_mem_headLines l) fun _ => titled_of_mem_blocks l

/-- The sections are found. -/
theorem linesUnder_lines {title : String} (htitle : isBody title = false) :
    linesUnder title l.lines = l.blocks.lookup title := by
  rw [lines_eq]
  exact linesUnder_blockLines htitle (fun _ => isBody_of_mem_headLines l)
    fun _ => titled_of_mem_blocks l

variable {l}

theorem not_mem_of_mem_kindLines {title : String} (htitle : '\n' ∉ title.toList) {kind : VarKind}
    {line : String} (hline : line ∈ kindLines title kind l.vars) : '\n' ∉ line.toList := by
  rw [kindLines_eq, kindBlock] at hline
  split_ifs at hline
  · cases hline
  · rcases List.mem_pair.mp hline with rfl | rfl
    exacts [htitle, not_mem_indented fun _ => isWord_of_mem_kindNames]

/-- No line of the text is broken. -/
theorem Unbroken.not_mem_of_mem_lines (hl : l.Unbroken) {line : String} (hline : line ∈ l.lines) :
    '\n' ∉ line.toList := by
  simp only [lines, headLines, List.mem_append, List.mem_cons, List.mem_map, List.not_mem_nil,
    or_false] at hline
  rcases hline with ((((((((rfl | hline) | rfl | rfl | rfl) | ⟨cons, hcons, rfl⟩) | rfl) |
    ⟨member, -, rfl⟩) | hline) | hline) | rfl)
  · simpa using hl.name
  · split_ifs at hline
    · rw [List.mem_singleton.mp hline]
      decide
    · cases hline
  · cases l.sense <;> decide
  · rw [objectiveLine_eq]
    exact not_mem_indented fun _ => isWord_of_mem_objectiveWords
  · decide
  · simpa [consLine] using hl.conss cons hcons
  · decide
  · rw [boundsLine_eq]
    exact not_mem_indented fun _ => isWord_of_mem_boundsWords
  · exact not_mem_of_mem_kindLines (by decide) hline
  · exact not_mem_of_mem_kindLines (by decide) hline
  · decide

/-- The lines of a text are found. -/
theorem Unbroken.textLines_text (hl : l.Unbroken) : textLines l.text = l.lines :=
  textLines_join_unbroken fun _ => hl.not_mem_of_mem_lines

end Listing

/-- The names under a title, if there is a section with that title. -/
def namesUnder (title text : String) : Option (List String) :=
  (linesUnder title (textLines text)).map fun lines => lines.flatMap words

theorem lookup_kindBlock (title : String) (kind : VarKind) (vars : List (VarId × VarInfo)) :
    (kindBlock title kind vars).lookup title =
      if (kindNames kind vars).isEmpty then none else some [indented (kindNames kind vars)] := by
  unfold kindBlock
  split_ifs
  · rfl
  · rw [List.lookup_cons, beq_self_eq_true]

theorem lookup_kindBlock_of_ne {title title' : String} (hne : title' ≠ title) (kind : VarKind)
    (vars : List (VarId × VarInfo)) : (kindBlock title kind vars).lookup title' = none := by
  unfold kindBlock
  split_ifs
  · rfl
  · rw [List.lookup_cons, beq_false_of_ne hne, List.lookup_nil]

theorem lookup_conss (l : Listing) :
    l.blocks.lookup "Subject To" = some (l.conss.map consLine) := by
  have hsense : ("Subject To" == senseLine l.sense) = false := by cases l.sense <;> decide
  simp [blocks, List.lookup_cons, hsense]

theorem lookup_bounds (l : Listing) :
    l.blocks.lookup "Bounds" = some (l.vars.map boundsLine) := by
  have hsense : ("Bounds" == senseLine l.sense) = false := by cases l.sense <;> decide
  simp [blocks, List.lookup_cons, hsense]

theorem lookup_binaries (l : Listing) :
    l.blocks.lookup "Binaries" = (kindBlock "Binaries" .binary l.vars).lookup "Binaries" := by
  have hsense : ("Binaries" == senseLine l.sense) = false := by cases l.sense <;> decide
  have hother : (kindBlock "Generals" .integer l.vars).lookup "Binaries" = none :=
    lookup_kindBlock_of_ne (by decide) _ _
  simp [blocks, List.lookup_append, List.lookup_cons, hsense, hother]

theorem lookup_generals (l : Listing) :
    l.blocks.lookup "Generals" = (kindBlock "Generals" .integer l.vars).lookup "Generals" := by
  have hsense : ("Generals" == senseLine l.sense) = false := by cases l.sense <;> decide
  have hother : (kindBlock "Binaries" .binary l.vars).lookup "Generals" = none :=
    lookup_kindBlock_of_ne (by decide) _ _
  simp [blocks, List.lookup_append, List.lookup_cons, hsense, hother]

/-- A section of names is there unless it would be empty, and holds them. -/
theorem Unbroken.namesUnder_text {l : Listing} (hl : l.Unbroken) {title : String} {kind : VarKind}
    (htitle : isBody title = false)
    (hlookup : l.blocks.lookup title = (kindBlock title kind l.vars).lookup title) :
    namesUnder title l.text = Option.guard (!·.isEmpty) (kindNames kind l.vars) := by
  rw [namesUnder, hl.textLines_text, linesUnder_lines l htitle, hlookup, lookup_kindBlock]
  cases hnames : kindNames kind l.vars with
  | nil => rfl
  | cons name names =>
      have hwords : words (indented (name :: names)) = name :: names :=
        words_indented (List.cons_ne_nil _ _) fun _ hw => isWord_of_mem_kindNames (hnames ▸ hw)
      simp [hwords, Option.guard]

theorem Unbroken.getD_namesUnder_text {l : Listing} (hl : l.Unbroken) {title : String}
    {kind : VarKind} (htitle : isBody title = false)
    (hlookup : l.blocks.lookup title = (kindBlock title kind l.vars).lookup title) :
    (namesUnder title l.text).getD [] = kindNames kind l.vars := by
  rw [hl.namesUnder_text htitle hlookup]
  cases kindNames kind l.vars <;> rfl

end JointModel.Listing
