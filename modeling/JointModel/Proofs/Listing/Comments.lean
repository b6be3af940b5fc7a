import JointModel.Proofs.Listing.Content

/-!
# Comments

An LP text has comments in two places: at its beginning, where it tells the name of the problem,
and under "Subject To", where one stands for each constraint (`Commented`).  The names of the
variables are cleaned, but those of the problem, of the constraints and of their handlers are
written as they are.  A line break in one of them ends the comment, and what follows it is a line
of its own.

So the comments are in order if and only if there is none, and otherwise every line break makes a
line more (`Session.commented_iff`).

## Strategy

* What is written between two line breaks is a line, whatever it is (`textLines_join`).  All lines
  but the comments are whole, so the places of the comments are known (`textLines_text`).
* A title stands nowhere else if the lines are whole, so only those places are to be looked at.
-/

namespace JointModel

namespace Listing

/-- The line is a comment. -/
def isComment (line : String) : Bool := line.toList.head? == some '\\'

/-- The comments of an LP text are where they belong: nothing else stands before the direction of
optimization, or between the constraints and the bounds, and there are as many as there should. -/
structure Commented (problem : Problem) (text : String) : Prop where
  head : ∀ {before after title}, textLines text = before ++ title :: after →
    title = "Minimize" ∨ title = "Maximize" →
    (∀ line ∈ before, isComment line = true) ∧ before.length = if problem.integral then 2 else 1
  conss : ∀ {before between after},
    textLines text = before ++ "Subject To" :: (between ++ "Bounds" :: after) →
    (∀ line ∈ between, isComment line = true) ∧ between.length = problem.conss.size

/-- The number of line breaks. -/
def breaks (name : String) : ℕ := name.toList.count '\n'

theorem breaks_eq_zero_iff {name : String} : breaks name = 0 ↔ '\n' ∉ name.toList :=
  List.count_eq_zero

theorem breaks_append (name name' : String) : breaks (name ++ name') = breaks name + breaks name' := by
  rw [breaks, String.toList_append, List.count_append, breaks, breaks]

/-- The line breaks that the names of constraints and handlers bring in. -/
def consBreaks (conss : List ConsInfo) : ℕ :=
  (conss.map fun cons => breaks cons.name + breaks cons.handler).sum

/-- The lines behind the title of the bounds. -/
def closing (l : Listing) : List String :=
  l.vars.map boundsLine ++ kindLines "Binaries" .binary l.vars ++
    kindLines "Generals" .integer l.vars ++ ["End"]

section Listing

variable (l : Listing)

theorem lines_eq_closing : l.lines = l.headLines ++ senseLine l.sense :: objectiveLine l.vars ::
    "Subject To" :: (l.conss.map consLine ++ "Bounds" :: l.closing) := by
  simp only [lines, closing, List.append_assoc, List.cons_append, List.nil_append]

/-! ## Whole lines and broken ones -/

theorem isComment_of_mem_headLines {line : String} (hline : line ∈ l.headLines) :
    isComment line = true := by
  rcases List.mem_cons.mp hline with rfl | hline
  · simp [isComment]
  · split_ifs at hline
    · rw [List.mem_singleton.mp hline]
      decide
    · cases hline

theorem isComment_consLine (cons : ConsInfo) : isComment (consLine cons) = true := by
  simp [isComment, consLine]

theorem eq_or_isBody_of_mem_kindLines {title : String} {kind : VarKind} {line : String}
    (hline : line ∈ kindLines title kind l.vars) : line = title ∨ isBody line = true := by
  rw [kindLines_eq, kindBlock] at hline
  split_ifs at hline
  · cases hline
  · rcases List.mem_pair.mp hline with rfl | rfl
    exacts [.inl rfl, .inr (isBody_indented _)]

/-- The lines behind the title of the bounds are titles of other sections, or no titles. -/
theorem isBody_or_mem_of_mem_closing {line : String} (hline : line ∈ l.closing) :
    isBody line = true ∨ line ∈ ["Binaries", "Generals", "End"] := by
  simp only [closing, List.mem_append, List.mem_map, List.mem_singleton] at hline
  rcases hline with ((⟨member, -, rfl⟩ | hline) | hline) | rfl
  · rw [boundsLine_eq]
    exact .inl (isBody_indented _)
  · rcases eq_or_isBody_of_mem_kindLines l hline with rfl | hbody
    exacts [.inr (by simp), .inl hbody]
  · rcases eq_or_isBody_of_mem_kindLines l hline with rfl | hbody
    exacts [.inr (by simp), .inl hbody]
  · exact .inr (by simp)

/-- They are whole, whatever the names are. -/
theorem not_mem_of_mem_closing {line : String} (hline : line ∈ l.closing) : '\n' ∉ line.toList := by
  -- the listing without the names that are not cleaned has the same lines there
  let bare : Listing := { l with name := "", conss := [] }
  have hbare : bare.Unbroken := ⟨List.not_mem_nil, fun _ hcons => absurd hcons List.not_mem_nil⟩
  have hmem : line ∈ bare.lines := by
    rw [lines_eq_closing]
    simp [show bare.closing = l.closing from rfl, hline]
  exact hbare.not_mem_of_mem_lines hmem

theorem pieces_senseLine (sense : Sense) : pieces '\n' (senseLine sense) = [senseLine sense] :=
  pieces_of_not_mem (by cases sense <;> decide)

theorem pieces_objectiveLine : pieces '\n' (objectiveLine l.vars) = [objectiveLine l.vars] := by
  refine pieces_of_not_mem ?_
  rw [objectiveLine_eq]
  exact not_mem_indented fun _ => isWord_of_mem_objectiveWords

/-- Of the lines that were written, only the comments come back as several. -/
theorem textLines_text : textLines l.text =
    l.headLines.flatMap (pieces '\n') ++ senseLine l.sense :: objectiveLine l.vars ::
      "Subject To" :: ((l.conss.flatMap fun cons => pieces '\n' (consLine cons)) ++
        "Bounds" :: l.closing) := by
  have hclosing : l.closing.flatMap (pieces '\n') = l.closing :=
    (List.flatMap_congr fun _ hline => pieces_of_not_mem (not_mem_of_mem_closing l hline)).trans
      (List.flatMap_singleton' _)
  have htitle : pieces '\n' "Subject To" = ["Subject To"] := pieces_of_not_mem (by decide)
  have hbounds : pieces '\n' "Bounds" = ["Bounds"] := pieces_of_not_mem (by decide)
  rw [text, textLines_join, lines_eq_closing]
  simp only [List.flatMap_append, List.flatMap_cons, List.flatMap_map, pieces_senseLine,
    pieces_objectiveLine, htitle, hbounds, hclosing, List.cons_append, List.nil_append]

/-- A line break in the name of the problem makes a line more at the beginning. -/
theorem length_headLines : (l.headLines.flatMap (pieces '\n')).length =
    breaks l.name + if l.integral then 2 else 1 := by
  have hname : (pieces '\n' ("\\ Problem name: " ++ l.name)).length = breaks l.name + 1 := by
    have hprefix : breaks "\\ Problem name: " = 0 := by decide
    rw [length_pieces, ← breaks, breaks_append, hprefix, Nat.zero_add]
  have hintegral : pieces '\n' "\\ Objective is integral" = ["\\ Objective is integral"] :=
    pieces_of_not_mem (by decide)
  rw [headLines, List.flatMap_cons, List.length_append, hname]
  split_ifs <;> simp [hintegral]

/-- A line break in the name of a constraint or a handler makes a line more among the
constraints. -/
theorem length_consLines (conss : List ConsInfo) :
    (conss.flatMap fun cons => pieces '\n' (consLine cons)).length =
      conss.length + consBreaks conss := by
  have hcons : ∀ cons : ConsInfo, breaks (consLine cons) = breaks cons.name + breaks cons.handler := by
    intro cons
    have hprefix : breaks "\\ " = 0 := by decide
    have hopen : breaks " [" = 0 := by decide
    have hclose : breaks "] has no linear form" = 0 := by decide
    simp only [consLine, breaks_append, hprefix, hopen, hclose, Nat.zero_add, Nat.add_zero]
  induction conss with
  | nil => rfl
  | cons cons conss ih =>
      rw [List.flatMap_cons, List.length_append, ih, length_pieces, ← breaks, hcons,
        List.length_cons, consBreaks, consBreaks, List.map_cons, List.sum_cons]
      omega

/-! ## Where comments are in order -/

theorem unbroken_iff_breaks : l.Unbroken ↔ breaks l.name = 0 ∧ consBreaks l.conss = 0 := by
  rw [consBreaks, List.sum_eq_zero_iff, List.forall_mem_map, breaks_eq_zero_iff]
  simp only [Nat.add_eq_zero_iff, breaks_eq_zero_iff]
  exact ⟨fun h => ⟨h.name, h.conss⟩, fun h => ⟨h.1, h.2⟩⟩

variable {l} {problem : Problem}

/-- A title that is no title of a section behind the bounds stands at its place only. -/
theorem not_mem_closing {title : String} (htitle : isBody title = false)
    (hother : title ∉ ["Binaries", "Generals", "End"]) : title ∉ l.closing := fun hmem =>
  (isBody_or_mem_of_mem_closing l hmem).elim (fun h => Bool.false_ne_true (htitle.symm.trans h))
    hother

theorem not_mem_headLines {title : String} (htitle : isBody title = false) :
    title ∉ l.headLines := fun hmem =>
  Bool.false_ne_true (htitle.symm.trans (isBody_of_mem_headLines l hmem))

theorem not_mem_consLines {title : String} (htitle : isBody title = false) :
    title ∉ l.conss.map consLine := by
  intro hmem
  obtain ⟨cons, -, rfl⟩ := List.mem_map.mp hmem
  exact Bool.false_ne_true (htitle.symm.trans (isBody_consLine cons))

theorem ne_objectiveLine {title : String} (htitle : isBody title = false) :
    title ≠ objectiveLine l.vars := by
  rintro rfl
  rw [objectiveLine_eq] at htitle
  exact Bool.false_ne_true (htitle.symm.trans (isBody_indented _))

/-- In a text of whole lines, what stands before the direction of optimization is found. -/
theorem Unbroken.eq_headLines (hl : l.Unbroken) {before after : List String} {title : String}
    (heq : textLines l.text = before ++ title :: after)
    (htitle : title = "Minimize" ∨ title = "Maximize") : before = l.headLines := by
  have hbody : isBody title = false := by rcases htitle with rfl | rfl <;> decide
  have hafter : title ∉ objectiveLine l.vars :: "Subject To" ::
      (l.conss.map consLine ++ "Bounds" :: l.closing) := by
    have hclosing : title ∉ l.closing :=
      not_mem_closing hbody (by rcases htitle with rfl | rfl <;> decide)
    have hother : title ≠ "Subject To" ∧ title ≠ "Bounds" := by
      rcases htitle with rfl | rfl <;> decide
    simp only [List.mem_cons, List.mem_append, not_or]
    exact ⟨ne_objectiveLine hbody, hother.1, not_mem_consLines hbody, hother.2, hclosing⟩
  rw [hl.textLines_text, lines_eq_closing] at heq
  exact ((List.append_cons_inj_of_notMem (not_mem_headLines hbody) hafter).mp heq).1.symm

/-- So is what stands between the constraints and the bounds. -/
theorem Unbroken.eq_consLines (hl : l.Unbroken) {before between after : List String}
    (heq : textLines l.text = before ++ "Subject To" :: (between ++ "Bounds" :: after)) :
    between = l.conss.map consLine := by
  have hbounds : "Bounds" ∉ l.closing := not_mem_closing (by decide) (by decide)
  have hbefore : "Subject To" ∉ l.headLines ++ [senseLine l.sense, objectiveLine l.vars] := by
    have hsense : "Subject To" ≠ senseLine l.sense := by cases l.sense <;> decide
    simp only [List.mem_append, List.mem_cons, List.not_mem_nil, or_false, not_or]
    exact ⟨not_mem_headLines (by decide), hsense, ne_objectiveLine (by decide)⟩
  have hafter : "Subject To" ∉ l.conss.map consLine ++ "Bounds" :: l.closing := by
    simp only [List.mem_append, List.mem_cons, not_or]
    exact ⟨not_mem_consLines (by decide), by decide, not_mem_closing (by decide) (by decide)⟩
  have hlines : l.lines = (l.headLines ++ [senseLine l.sense, objectiveLine l.vars]) ++
      "Subject To" :: (l.conss.map consLine ++ "Bounds" :: l.closing) := by
    simp [lines_eq_closing]
  rw [hl.textLines_text, hlines] at heq
  obtain ⟨-, -, hrest⟩ := (List.append_cons_inj_of_notMem hbefore hafter).mp heq
  exact ((List.append_cons_inj_of_notMem (not_mem_consLines (by decide)) hbounds).mp hrest).1.symm

/-- The comments of a listing are in order if and only if no name breaks one. -/
theorem commented_iff_unbroken (hintegral : l.integral = problem.integral)
    (hconss : l.conss.length = problem.conss.size) : Commented problem l.text ↔ l.Unbroken := by
  constructor
  · intro h
    obtain ⟨-, hhead⟩ := h.head (textLines_text l) (by cases l.sense <;> simp [senseLine])
    rw [length_headLines, hintegral] at hhead
    have htext : textLines l.text = (l.headLines.flatMap (pieces '\n') ++
        [senseLine l.sense, objectiveLine l.vars]) ++ "Subject To" ::
          ((l.conss.flatMap fun cons => pieces '\n' (consLine cons)) ++ "Bounds" :: l.closing) := by
      rw [textLines_text]
      simp
    obtain ⟨-, hlength⟩ := h.conss htext
    rw [length_consLines, hconss] at hlength
    exact (unbroken_iff_breaks l).mpr ⟨by omega, by omega⟩
  · intro hl
    constructor
    · intro before after title heq htitle
      rw [hl.eq_headLines heq htitle, ← hintegral]
      refine ⟨fun _ => isComment_of_mem_headLines l, ?_⟩
      rw [headLines]
      split_ifs <;> rfl
    · intro before between after heq
      rw [hl.eq_consLines heq, List.length_map]
      exact ⟨List.forall_mem_map.mpr fun cons _ => isComment_consLine cons, hconss⟩

end Listing

end Listing

/-! ## Problems of a session -/

namespace Session

open Listing

variable {s : Session} {problem : Problem}

/-- A problem whose members are live is written.  Its text has the comments where they belong, but
each line break in the name of the problem, of a constraint or of a handler makes a line more.  So
the comments are in order if and only if there is none, whatever the variables are called. -/
theorem commented_iff (h : s.Listable problem) {files : Files} {path : String}
    (hpath : files path = .ok ()) :
    ∃ text, s.writeProblem files path = .ok text ∧
      (∃ head objective conss rest, textLines text =
          head ++ senseLine problem.sense :: objective :: "Subject To" ::
            (conss ++ "Bounds" :: rest) ∧
        head.length = breaks problem.name + (if problem.integral then 2 else 1) ∧
        conss.length =
          problem.conss.size + consBreaks (problem.conss.toList.filterMap s.cons?)) ∧
      (Commented problem text ↔ '\n' ∉ problem.name.toList ∧
        ∀ c ∈ problem.conss, ∀ entry ∈ s.cons? c,
          '\n' ∉ entry.name.toList ∧ '\n' ∉ entry.handler.toList) := by
  refine ⟨_, h.writeProblem hpath, ⟨_, _, _, _, textLines_text _, length_headLines _, ?_⟩, ?_⟩
  · rw [length_consLines, h.length_conss]
    rfl
  · exact (commented_iff_unbroken rfl h.length_conss).trans unbroken_listing_iff

/-- A problem without members. -/
def brokenProblem : Problem := { name := "p\nq" }

def brokenSession : Session := { problem := some brokenProblem }

/-- A line break in the name of a variable does no harm, and one in the name of the problem does. -/
theorem commented_iff_broken :
    (listedSession "a\nEnd").Listable listedProblem ∧ brokenSession.Listable brokenProblem ∧
    Files.emptyDirectory "p" = .ok () ∧
    (∃ text, (listedSession "a\nEnd").writeProblem .emptyDirectory "p" = .ok text ∧
      Commented listedProblem text) ∧
    brokenSession.writeProblem .emptyDirectory "p" =
      .ok "\\ Problem name: p\nq\nMinimize\n obj: 0\nSubject To\nBounds\nEnd\n" ∧
    ¬ Commented brokenProblem
      "\\ Problem name: p\nq\nMinimize\n obj: 0\nSubject To\nBounds\nEnd\n" := by
  have hpath : Files.emptyDirectory "p" = .ok () := by cbv
  have hwritable := listedSession_writable "a\nEnd"
  have hlisted : (listedSession "a\nEnd").Listable listedProblem :=
    ⟨hwritable.present, hwritable.vars, hwritable.conss⟩
  have hbroken : brokenSession.Listable brokenProblem :=
    ⟨rfl, by simp [brokenProblem], by simp [brokenProblem]⟩
  have htext : (brokenSession.listing brokenProblem).text =
      "\\ Problem name: p\nq\nMinimize\n obj: 0\nSubject To\nBounds\nEnd\n" := by
    decide +kernel
  have hwrite := hbroken.writeProblem hpath
  rw [htext] at hwrite
  obtain ⟨text, hrun, -, hiff⟩ := commented_iff hlisted hpath
  obtain ⟨text', hrun', -, hiff'⟩ := commented_iff hbroken hpath
  cases hwrite.symm.trans hrun'
  refine ⟨hlisted, hbroken, hpath, ⟨text, hrun, hiff.mpr ⟨hwritable.name, hwritable.consNames⟩⟩,
    hwrite, fun hcommented => ?_⟩
  exact absurd (hiff'.mp hcommented).1 (by decide)

end Session

end JointModel
