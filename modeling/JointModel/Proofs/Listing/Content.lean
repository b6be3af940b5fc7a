import JointModel.Proofs.Listing.Sections

/-!
# What an LP text tells

`Session.content` is what an LP text tells of a problem: its name, its sense, whether its objective
is integral, the comments that stand for the constraints, and of each member the handle, the clean
name, the kind, the coefficient in the objective and the bounds.  Two problems have the same text if
and only if they have the same content (`writeProblem_eq_iff`).

## Strategy

* The lines of a listing depend on its content only (`lines_eq_of_content`).
* The line of the bounds of a member tells its name, and so its handle.
* The objective and the sections of the discrete variables tell names as well.  A listing has one
  entry for each handle (`Consistent`), even if a member is listed twice.  So a name in one of them
  tells of all members with that name (`mem_terms_iff`, `mem_kindNames_iff`).
-/

namespace JointModel

namespace Listing

open Decimal

/-! ## Contents -/

/-- The bounds of a variable, one value if both are equal. -/
inductive Bounds
  | fixed (value : Float)
  | range (lb ub : Float)
deriving Repr

/-- What an LP text tells of a member of the problem. -/
structure Member where
  var : VarId
  /-- The clean name. -/
  name : String
  kind : VarKind
  /-- The coefficient in the objective, unless it is zero. -/
  coefficient : Option Float
  bounds : Bounds
deriving Repr

/-- What an LP text tells of a variable with the given entry. -/
def Member.of (member : VarId × VarInfo) : Member where
  var := member.1
  name := cleanName member.2.name
  kind := member.2.kind
  coefficient := if member.2.obj == 0.0 then none else some member.2.obj
  bounds := if member.2.lb == member.2.ub then .fixed member.2.lb
    else .range member.2.lb member.2.ub

/-- What an LP text tells of a problem. -/
structure Content where
  name : String
  sense : Sense
  integral : Bool
  /-- The comments that stand for the constraints. -/
  comments : List String
  members : List Member
deriving Repr

/-- The LP names of the members of one kind. -/
def Content.names (content : Content) (kind : VarKind) : List String :=
  (content.members.filter (·.kind == kind)).map fun member =>
    member.name ++ "_" ++ toString member.var.index

/-- The content of a listing. -/
def content (l : Listing) : Content where
  name := l.name
  sense := l.sense
  integral := l.integral
  comments := l.conss.map consLine
  members := l.vars.map Member.of

theorem names_content (l : Listing) (kind : VarKind) :
    l.content.names kind = kindNames kind l.vars := by
  simp only [Content.names, content, kindNames, List.filter_map, List.map_map]
  rfl

/-! ## The text depends on the content -/

/-- Lists that are told apart by one function are not told apart by what it determines. -/
theorem map_eq_map_of_map_eq {α β γ : Type*} {f : α → β} {g : α → γ} {xs ys : List α}
    (h : xs.map f = ys.map f) (hfg : ∀ x ∈ xs, ∀ y ∈ ys, f x = f y → g x = g y) :
    xs.map g = ys.map g := by
  induction xs generalizing ys with
  | nil => rw [List.map_eq_nil_iff.mp h.symm]
  | cons x xs ih =>
      cases ys with
      | nil => cases h
      | cons y ys =>
          obtain ⟨hxy, hrest⟩ := List.cons.inj h
          rw [List.map_cons, List.map_cons, hfg x List.mem_cons_self y List.mem_cons_self hxy,
            ih hrest fun x hx y hy =>
              hfg x (List.mem_cons_of_mem _ hx) y (List.mem_cons_of_mem _ hy)]

/-- The same for lists from which some elements are left out. -/
theorem filterMap_eq_of_map_eq {α β γ : Type*} {f : α → β} {g : α → Option γ} {xs ys : List α}
    (h : xs.map f = ys.map f) (hfg : ∀ x y, f x = f y → g x = g y) :
    xs.filterMap g = ys.filterMap g := by
  have hmap := map_eq_map_of_map_eq h fun x _ y _ => hfg x y
  have hid : ∀ zs : List α, zs.filterMap g = (zs.map g).filterMap id := fun zs => by
    rw [List.filterMap_map, Function.id_comp]
  rw [hid, hid, hmap]

section Member

variable {member member' : VarId × VarInfo}

theorem memberName_eq_of (h : Member.of member = Member.of member') :
    memberName member = memberName member' :=
  varName_inj.mpr ⟨congrArg Member.name h, congrArg Member.var h⟩

theorem boundsLine_eq_of (h : Member.of member = Member.of member') :
    boundsLine member = boundsLine member' := by
  have hbounds := congrArg Member.bounds h
  simp only [Member.of] at hbounds
  unfold boundsLine
  rw [memberName_eq_of h]
  split_ifs at hbounds ⊢
  · rw [Bounds.fixed.inj hbounds]
  · rw [(Bounds.range.inj hbounds).1, (Bounds.range.inj hbounds).2]

theorem objectiveTerm?_eq_of (h : Member.of member = Member.of member') :
    objectiveTerm? member = objectiveTerm? member' := by
  have hcoefficient := congrArg Member.coefficient h
  simp only [Member.of] at hcoefficient
  unfold objectiveTerm?
  rw [memberName_eq_of h]
  split_ifs at hcoefficient ⊢
  · rfl
  · rw [Option.some.inj hcoefficient]

end Member

/-- Listings with the same content have the same lines. -/
theorem lines_eq_of_content {l l' : Listing} (h : l.content = l'.content) : l.lines = l'.lines := by
  have hmembers : l.vars.map Member.of = l'.vars.map Member.of := congrArg Content.members h
  have hhead : l.headLines = l'.headLines := by
    rw [headLines, headLines, show l.name = l'.name from congrArg Content.name h,
      show l.integral = l'.integral from congrArg Content.integral h]
  have hobjective : objectiveLine l.vars = objectiveLine l'.vars := by
    rw [objectiveLine, objectiveLine,
      filterMap_eq_of_map_eq hmembers fun _ _ => objectiveTerm?_eq_of]
  have hbounds : l.vars.map boundsLine = l'.vars.map boundsLine :=
    map_eq_map_of_map_eq hmembers fun _ _ _ _ => boundsLine_eq_of
  have hkind : ∀ title kind, kindLines title kind l.vars = kindLines title kind l'.vars := by
    intro title kind
    rw [kindLines_eq, kindLines_eq, kindBlock, kindBlock, ← names_content, ← names_content, h]
  rw [lines, lines, hhead, show l.sense = l'.sense from congrArg Content.sense h, hobjective,
    show l.conss.map consLine = l'.conss.map consLine from congrArg Content.comments h, hbounds,
    hkind, hkind]

/-! ## The content depends on the text -/

/-- A handle stands for one entry. -/
def Consistent (vars : List (VarId × VarInfo)) : Prop :=
  ∀ member ∈ vars, ∀ member' ∈ vars, member.1 = member'.1 → member = member'

section Consistent

variable {vars vars' : List (VarId × VarInfo)} {member member' : VarId × VarInfo}

/-- In a consistent listing, a name stands for one entry. -/
theorem Consistent.eq_of_memberName (h : Consistent vars) (hmember : member ∈ vars)
    (hmember' : member' ∈ vars) (hname : memberName member = memberName member') :
    member = member' :=
  h member hmember member' hmember' (varName_inj.mp hname).2

/-- The sections of the discrete variables tell the kinds. -/
theorem mem_kindNames_iff (h : Consistent vars) (hmember : member ∈ vars) (kind : VarKind) :
    memberName member ∈ kindNames kind vars ↔ member.2.kind = kind := by
  constructor
  · intro hname
    obtain ⟨other, hother, hname⟩ := List.mem_map.mp hname
    obtain ⟨hother, hkind⟩ := List.mem_filter.mp hother
    rw [h.eq_of_memberName hmember hother hname.symm]
    exact eq_of_beq hkind
  · exact fun hkind => List.mem_map_of_mem (List.mem_filter.mpr ⟨hmember, beq_iff_eq.mpr hkind⟩)

/-- The objective tells the coefficients. -/
theorem mem_terms_iff (h : Consistent vars) (hmember : member ∈ vars) (text : String) :
    (text, memberName member) ∈ terms vars ↔
      (Member.of member).coefficient.map Layout.signed.render = some text := by
  have hterm : ∀ other : VarId × VarInfo,
      (if other.2.obj == 0.0 then none
        else some (Layout.signed.render other.2.obj, memberName other)) =
      (Member.of other).coefficient.map fun x => (Layout.signed.render x, memberName other) := by
    intro other
    rw [Member.of]
    split_ifs <;> rfl
  rw [terms, List.mem_filterMap]
  simp only [hterm, Option.map_eq_some_iff, Prod.mk.injEq]
  constructor
  · rintro ⟨other, hother, x, hx, htext, hname⟩
    rw [h.eq_of_memberName hmember hother hname.symm]
    exact ⟨x, hx, htext⟩
  · rintro ⟨x, hx, htext⟩
    exact ⟨member, hmember, x, hx, htext, rfl⟩

/-- The line of the bounds tells the name and the bounds. -/
theorem boundsWords_inj (h : boundsWords member = boundsWords member') :
    memberName member = memberName member' ∧
      (Member.of member).bounds = (Member.of member').bounds := by
  have hrender : Function.Injective Layout.plain.render := Layout.render_injective rfl rfl
  simp only [boundsWords, Member.of] at h ⊢
  split_ifs at h ⊢ with heq heq' heq' <;> simp only [List.cons.injEq, reduceCtorEq, and_false] at h
  · obtain ⟨hname, -, hvalue, -⟩ := h
    exact ⟨hname, congrArg Bounds.fixed (hrender hvalue)⟩
  · obtain ⟨hlb, -, hname, -, hub, -⟩ := h
    exact ⟨hname, congrArg₂ Bounds.range (hrender hlb) (hrender hub)⟩

/-- What the text tells of a member, put together from its three places. -/
theorem member_eq_of (h : Consistent vars) (h' : Consistent vars') (hmember : member ∈ vars)
    (hmember' : member' ∈ vars') (hterms : terms vars = terms vars')
    (hbinary : kindNames .binary vars = kindNames .binary vars')
    (hinteger : kindNames .integer vars = kindNames .integer vars')
    (hbounds : boundsLine member = boundsLine member') : Member.of member = Member.of member' := by
  obtain ⟨hname, hbounds⟩ : memberName member = memberName member' ∧
      (Member.of member).bounds = (Member.of member').bounds := by
    refine boundsWords_inj ?_
    rw [← words_boundsLine, ← words_boundsLine, hbounds]
  have hcoefficient : (Member.of member).coefficient = (Member.of member').coefficient := by
    have hrender : Function.Injective Layout.signed.render := Layout.render_injective rfl rfl
    refine Option.map_injective hrender ?_
    refine Option.ext fun text => ?_
    rw [← mem_terms_iff h hmember, ← mem_terms_iff h' hmember', hterms, hname]
  have hkind : ∀ kind, kindNames kind vars = kindNames kind vars' →
      (member.2.kind = kind ↔ member'.2.kind = kind) := by
    intro kind hnames
    rw [← mem_kindNames_iff h hmember, ← mem_kindNames_iff h' hmember', hnames, hname]
  have hsame : member.2.kind = member'.2.kind := by
    have hbinary := hkind .binary hbinary
    have hinteger := hkind .integer hinteger
    cases hk : member.2.kind <;> cases hk' : member'.2.kind <;> simp_all
  obtain ⟨hclean, hvar⟩ := varName_inj.mp hname
  simp only [Member.of] at hcoefficient hbounds ⊢
  rw [hclean, hvar, hsame, hcoefficient, hbounds]

end Consistent

/-- The first lines tell the name, the sense and the objective. -/
theorem head_eq_of_lines {l l' : Listing} (h : l.lines = l'.lines) :
    l.name = l'.name ∧ l.integral = l'.integral ∧ l.sense = l'.sense ∧
      objectiveLine l.vars = objectiveLine l'.vars := by
  have hhead : l.headLines = l'.headLines := by rw [← takeWhile_lines, ← takeWhile_lines, h]
  have hrest : senseLine l.sense = senseLine l'.sense ∧
      objectiveLine l.vars = objectiveLine l'.vars := by
    simp only [lines, hhead, List.append_assoc, List.append_cancel_left_eq, List.cons_append,
      List.cons.injEq] at h
    exact ⟨h.1, h.2.1⟩
  have hname := (List.cons.inj hhead).1
  have hintegral := (List.cons.inj hhead).2
  refine ⟨?_, ?_, ?_, hrest.2⟩
  · have := congrArg String.toList hname
    simp only [String.toList_append, List.append_cancel_left_eq] at this
    exact String.toList_inj.mp this
  · revert hintegral
    cases l.integral <;> cases l'.integral <;> decide
  · have hsense := hrest.1
    revert hsense
    cases l.sense <;> cases l'.sense <;> decide

/-- The text tells the content. -/
theorem content_eq_of_text {l l' : Listing} (hl : l.Unbroken) (hl' : l'.Unbroken)
    (hvars : Consistent l.vars) (hvars' : Consistent l'.vars) (h : l.text = l'.text) :
    l.content = l'.content := by
  have hlines : l.lines = l'.lines := by rw [← hl.textLines_text, ← hl'.textLines_text, h]
  have hlookup : ∀ title, isBody title = false →
      l.blocks.lookup title = l'.blocks.lookup title := by
    intro title htitle
    rw [← linesUnder_lines l htitle, ← linesUnder_lines l' htitle, hlines]
  obtain ⟨hname, hintegral, hsense, hobjective⟩ := head_eq_of_lines hlines
  have hcomments : l.conss.map consLine = l'.conss.map consLine := by
    have := hlookup "Subject To" (by decide)
    rwa [lookup_conss, lookup_conss, Option.some.injEq] at this
  have hbounds : l.vars.map boundsLine = l'.vars.map boundsLine := by
    have := hlookup "Bounds" (by decide)
    rwa [lookup_bounds, lookup_bounds, Option.some.injEq] at this
  have hterms : terms l.vars = terms l'.vars := by
    refine terms_eq_of_objectiveWords ?_
    rw [← words_objectiveLine, ← words_objectiveLine, hobjective]
  have hbinary : kindNames .binary l.vars = kindNames .binary l'.vars := by
    rw [← hl.getD_namesUnder_text (by decide) (lookup_binaries l),
      ← hl'.getD_namesUnder_text (by decide) (lookup_binaries l'), h]
  have hinteger : kindNames .integer l.vars = kindNames .integer l'.vars := by
    rw [← hl.getD_namesUnder_text (by decide) (lookup_generals l),
      ← hl'.getD_namesUnder_text (by decide) (lookup_generals l'), h]
  have hmembers : l.vars.map Member.of = l'.vars.map Member.of :=
    map_eq_map_of_map_eq hbounds fun _ hmember _ hmember' =>
      member_eq_of hvars hvars' hmember hmember' hterms hbinary hinteger
  simp only [content, hname, hsense, hintegral, hcomments, hmembers]

end Listing

/-! ## Problems of a session -/

namespace Session

open Listing

/-- What an LP text tells of the problem of a session. -/
def content (s : Session) (problem : Problem) : Content where
  name := problem.name
  sense := problem.sense
  integral := problem.integral
  comments := problem.conss.toList.filterMap fun c => (s.cons? c).map consLine
  members := problem.vars.toList.filterMap fun v =>
    (s.var? v).map fun entry => Member.of (v, entry)

/-- The session has a problem whose members are live. -/
structure Listable (s : Session) (problem : Problem) : Prop where
  present : s.problem = some problem
  vars : ∀ v ∈ problem.vars, (s.var? v).isSome
  conss : ∀ c ∈ problem.conss, (s.cons? c).isSome

/-- The problem with the entries of its live members. -/
def listing (s : Session) (problem : Problem) : Listing where
  name := problem.name
  sense := problem.sense
  integral := problem.integral
  vars := problem.vars.toList.filterMap fun v => (s.var? v).map (v, ·)
  conss := problem.conss.toList.filterMap s.cons?

/-- The session can write its problem: the members are live, and no name has a line break, those of
the variables apart. -/
structure Writable (s : Session) (problem : Problem) : Prop where
  present : s.problem = some problem
  vars : ∀ v ∈ problem.vars, (s.var? v).isSome
  conss : ∀ c ∈ problem.conss, (s.cons? c).isSome
  name : '\n' ∉ problem.name.toList
  consNames : ∀ c ∈ problem.conss, ∀ entry ∈ s.cons? c,
    '\n' ∉ entry.name.toList ∧ '\n' ∉ entry.handler.toList

/-- Looking up members that are all there succeeds. -/
theorem mapM_eq_ok {α β ε : Type*} {f : α → Except ε β} {g : α → Option β} {xs : List α}
    (h : ∀ x ∈ xs, ∃ y, f x = .ok y ∧ g x = some y) : xs.mapM f = .ok (xs.filterMap g) := by
  induction xs with
  | nil => rfl
  | cons x xs ih =>
      obtain ⟨⟨y, hf, hg⟩, hxs⟩ := List.forall_mem_cons.mp h
      rw [List.mapM_cons, hf, ih hxs, List.filterMap_cons_some hg]
      rfl

variable {s : Session} {problem : Problem}

/-- A problem whose members are live can be listed. -/
theorem Listable.list (h : s.Listable problem) : s.list problem = .ok (s.listing problem) := by
  have hvars : problem.vars.toList.mapM s.listVar =
      .ok (problem.vars.toList.filterMap fun v => (s.var? v).map (v, ·)) := by
    refine mapM_eq_ok fun v hv => ?_
    obtain ⟨entry, hentry⟩ := Option.isSome_iff_exists.mp (h.vars v (Array.mem_toList_iff.mp hv))
    exact ⟨(v, entry), by rw [listVar, hentry], by rw [hentry]; rfl⟩
  have hconss : problem.conss.toList.mapM s.listCons =
      .ok (problem.conss.toList.filterMap s.cons?) := by
    refine mapM_eq_ok fun c hc => ?_
    obtain ⟨entry, hentry⟩ := Option.isSome_iff_exists.mp (h.conss c (Array.mem_toList_iff.mp hc))
    exact ⟨entry, by rw [listCons, hentry], hentry⟩
  rw [Session.list, hvars, hconss]
  rfl

/-- It is written under any path under which a file can be created. -/
theorem Listable.writeProblem (h : s.Listable problem) {files : Files} {path : String}
    (hpath : files path = .ok ()) :
    s.writeProblem files path = .ok (s.listing problem).text := by
  rw [Session.writeProblem, h.present]
  simp only [hpath, h.list]
  rfl

/-- Each constraint is listed. -/
theorem Listable.length_conss (h : s.Listable problem) :
    (s.listing problem).conss.length = problem.conss.size :=
  List.filterMap_length_eq_length.mpr fun c hc => h.conss c (Array.mem_toList_iff.mp hc)

theorem content_listing (s : Session) (problem : Problem) :
    (s.listing problem).content = s.content problem := by
  simp only [Listing.content, content, listing, List.map_filterMap, Option.map_map]
  rfl

/-- The entries are those of the session. -/
theorem consistent_listing (s : Session) (problem : Problem) :
    Consistent (s.listing problem).vars := by
  have hentry : ∀ {member}, member ∈ (s.listing problem).vars →
      s.var? member.1 = some member.2 := by
    intro member hmember
    obtain ⟨v, -, hv⟩ := List.mem_filterMap.mp hmember
    obtain ⟨entry, hentry, rfl⟩ := Option.map_eq_some_iff.mp hv
    exact hentry
  intro member hmember member' hmember' hvar
  refine Prod.ext hvar (Option.some.inj ?_)
  rw [← hentry hmember, ← hentry hmember', hvar]

theorem unbroken_listing_iff : (s.listing problem).Unbroken ↔
    '\n' ∉ problem.name.toList ∧ ∀ c ∈ problem.conss, ∀ entry ∈ s.cons? c,
      '\n' ∉ entry.name.toList ∧ '\n' ∉ entry.handler.toList := by
  refine ⟨fun h => ⟨h.name, fun c hc entry hentry => ?_⟩, fun ⟨hname, hconss⟩ => ⟨hname, ?_⟩⟩
  · exact h.conss entry (List.mem_filterMap.mpr ⟨c, Array.mem_toList_iff.mpr hc, hentry⟩)
  · intro cons hcons
    obtain ⟨c, hc, hcons⟩ := List.mem_filterMap.mp hcons
    exact hconss c (Array.mem_toList_iff.mp hc) cons hcons

/-- A problem that can be written is written under any path under which a file can be created. -/
theorem Writable.writeProblem (h : s.Writable problem) {files : Files} {path : String}
    (hpath : files path = .ok ()) : ∃ l : Listing, s.writeProblem files path = .ok l.text ∧
      l.content = s.content problem ∧ l.Unbroken ∧ Consistent l.vars := by
  have hlistable : s.Listable problem := ⟨h.present, h.vars, h.conss⟩
  exact ⟨s.listing problem, hlistable.writeProblem hpath, content_listing s problem,
    unbroken_listing_iff.mpr ⟨h.name, h.consNames⟩, consistent_listing s problem⟩

/-- Two problems are written alike if and only if they have the same content, whatever files they
are written to.  The sections of the discrete variables are there unless they would be empty, and
name the members of their kind in order. -/
theorem writeProblem_eq_iff {s' : Session} {problem' : Problem} {files files' : Files}
    {path path' : String} (h : s.Writable problem) (h' : s'.Writable problem')
    (hpath : files path = .ok ()) (hpath' : files' path' = .ok ()) :
    ∃ text text', s.writeProblem files path = .ok text ∧ s'.writeProblem files' path' = .ok text' ∧
      (text = text' ↔ s.content problem = s'.content problem') ∧
      namesUnder "Binaries" text =
        Option.guard (!·.isEmpty) ((s.content problem).names .binary) ∧
      namesUnder "Generals" text =
        Option.guard (!·.isEmpty) ((s.content problem).names .integer) := by
  obtain ⟨l, htext, hcontent, hl, hvars⟩ := h.writeProblem hpath
  obtain ⟨l', htext', hcontent', hl', hvars'⟩ := h'.writeProblem hpath'
  refine ⟨l.text, l'.text, htext, htext', ?_, ?_, ?_⟩
  · rw [← hcontent, ← hcontent']
    refine ⟨content_eq_of_text hl hl' hvars hvars', fun heq => ?_⟩
    rw [text, text, lines_eq_of_content heq]
  · rw [hl.namesUnder_text (by decide) (lookup_binaries l), ← hcontent, names_content]
  · rw [hl.namesUnder_text (by decide) (lookup_generals l), ← hcontent, names_content]

/-- A problem with two members of different kinds and a constraint. -/
def listedProblem : Problem := { name := "p", vars := #[⟨0⟩, ⟨1⟩], conss := #[⟨0⟩] }

/-- A session with this problem, the first of whose members has the given name. -/
def listedSession (name : String) : Session where
  vars := ⟨#[some ⟨name, 0, 1, 0, .binary, .primary, 2, .positive none⟩,
    some ⟨"z", 0, 0, 1, .integer, .primary, 2, .positive none⟩], []⟩
  conss := ⟨#[some ⟨"c", "h", 2⟩], []⟩
  problem := some listedProblem
  handlers := ["h"]

theorem listedSession_writable (name : String) :
    (listedSession name).Writable listedProblem where
  present := rfl
  vars := by simp [listedProblem, listedSession, var?, HandleTable.get?]
  conss := by simp [listedProblem, listedSession, cons?, HandleTable.get?]
  name := by decide
  consNames := by simp [listedProblem, listedSession, cons?, HandleTable.get?]

/-- A line break in the name of a variable does not show. -/
theorem writeProblem_eq_iff_listed :
    (listedSession "a\nEnd").Writable listedProblem ∧
    (listedSession "a_End").Writable listedProblem ∧ Files.emptyDirectory "p" = .ok () ∧
    ∃ text, (listedSession "a\nEnd").writeProblem .emptyDirectory "p" = .ok text ∧
      (listedSession "a_End").writeProblem .emptyDirectory "p" = .ok text ∧
      namesUnder "Binaries" text = some ["a_End_0"] ∧
      namesUnder "Generals" text = some ["z_1"] := by
  have hpath : Files.emptyDirectory "p" = .ok () := by cbv
  have hcontent : (listedSession "a\nEnd").content listedProblem =
      (listedSession "a_End").content listedProblem := by
    have hname : cleanName "a\nEnd" = cleanName "a_End" := by decide
    simp [content, listedProblem, listedSession, var?, cons?, HandleTable.get?, Member.of, hname]
  have hbinary : ((listedSession "a\nEnd").content listedProblem).names .binary = ["a_End_0"] := by
    decide +kernel
  have hinteger : ((listedSession "a\nEnd").content listedProblem).names .integer = ["z_1"] := by
    decide +kernel
  obtain ⟨text, text', htext, htext', hsame, hbinaries, hgenerals⟩ := writeProblem_eq_iff
    (listedSession_writable "a\nEnd") (listedSession_writable "a_End") hpath hpath
  rw [← hsame.mpr hcontent] at htext'
  rw [hbinary] at hbinaries
  rw [hinteger] at hgenerals
  exact ⟨listedSession_writable _, listedSession_writable _, hpath, text, htext, htext', hbinaries,
    hgenerals⟩

end Session

end JointModel
