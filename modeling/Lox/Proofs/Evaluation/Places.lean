import Lox.Proofs.Evaluation.Activations
import Lox.Proofs.Evaluation.Operations

/-! # Places in the programs

  A part of a program is in place on a machine when it stands somewhere in the programs of the
  ledger, can be read, and the frames in view stand for the scopes around it (`Placed`,
  `ExprPlaced`, `StmtPlaced`, `BodyPlaced`). The parts of what is in place are in place, also
  on the machine that the parts before them have left. A `this` or `super` in place is in an
  activation that holds it (`Placed.this`, `Placed.super`).
-/

namespace Lox.Evaluation

open Binding

variable {L : Ledger} {m m' : Machine}

/-- The programs of a ledger break no rule, and their words are spelled as they should be. -/
structure Lawful (L : Ledger) : Prop where
  accepted : ∀ site, L.sites site → violation site = none
  proper : ∀ site, L.sites site → site.Proper Lexical.Spelled

/-- Nothing is declared under the name of a keyword. -/
theorem Lawful.plain (lawful : Lawful L) {path : Path} {name : Token}
    (site : L.sites (.declaration path name)) : NoKeyword name.lexeme :=
  isName_ne_spelling (lawful.proper _ site)

/-! ### Forms -/

/-- A statement whose form can be read, with operators where operators should be. -/
def Legible (s : Stmt) : Prop :=
  WellFormed s ∧ s.Over fun _ => True

/-- Statements whose forms can be read. -/
def AllLegible (ss : List Stmt) : Prop :=
  AllWellFormed ss ∧ Stmt.AllOver (fun _ => True) ss

theorem RoutineLegible.body {f : FunctionDecl} (h : RoutineLegible f) : AllLegible f.body := by
  obtain ⟨formed, legible⟩ := h
  refine ⟨(routineWellFormed_iff f).mp formed, ?_⟩
  cases f
  exact legible.2.2

/-! ### Places -/

/-- References that stand in a statement, and the frames in view there. What the statement
    declares is not known yet: either they stand in its initializer, or they do not refer to
    it. -/
def Placed (L : Ledger) (m : Machine) (os : List Occurrence) : Prop :=
  ∃ body before current outer initialized,
    (∀ o ∈ os, L.sites (.occurrence (.within body before current :: outer) initialized o)) ∧
    Standing L m m.scope (viewFrom body before outer) ∧
    (∀ name, declared? current = some name →
      initialized = some name ∨ ∀ o ∈ os, o.name.lexeme ≠ name.lexeme) ∧
    Housed L m body outer m.scope

/-- A statement of a body, or a part of one that declares nothing, and the frames in view
    there. -/
def StmtPlaced (L : Ledger) (m : Machine) (s : Stmt) : Prop :=
  ∃ body before current outer,
    (∀ site ∈ stmtSites (.within body before current :: outer) s, L.sites site) ∧
    Legible s ∧ Standing L m m.scope (viewFrom body before outer) ∧
    (s = current ∨ declared? s = none ∧ declared? current = none) ∧
    Housed L m body outer m.scope

/-- The statements of a body from one on, and the frames in view there. -/
def BodyPlaced (L : Ledger) (m : Machine) (ss : List Stmt) : Prop :=
  ∃ body before outer,
    (∀ site ∈ bodySites outer body before ss, L.sites site) ∧ AllLegible ss ∧
    Standing L m m.scope (viewFrom body before outer) ∧ Housed L m body outer m.scope

theorem Placed.sub {os os' : List Occurrence} (h : Placed L m os) (sub : ∀ o ∈ os', o ∈ os) :
    Placed L m os' := by
  obtain ⟨body, before, current, outer, initialized, sites, standing, pending, housed⟩ := h
  refine ⟨body, before, current, outer, initialized, fun o ho => sites o (sub o ho), standing, ?_,
    housed⟩
  intro name declares
  rcases pending name declares with inside | other
  · exact .inl inside
  · exact .inr fun o ho => other o (sub o ho)

theorem standing_keep {scopes : List (Construct × List String)}
    (h : Standing L m m.scope scopes) (kept : Kept L m m') : Standing L m' m'.scope scopes := by
  rw [kept.scope]
  exact h.grow kept.grows

theorem housed_keep {body : Body} {outer : Path} (h : Housed L m body outer m.scope)
    (kept : Kept L m m') : Housed L m' body outer m'.scope := by
  rw [kept.scope]
  exact h.grow kept.grows

theorem Placed.keep {os : List Occurrence} (h : Placed L m os) (kept : Kept L m m') :
    Placed L m' os := by
  obtain ⟨body, before, current, outer, initialized, sites, standing, pending, housed⟩ := h
  exact ⟨body, before, current, outer, initialized, sites, standing_keep standing kept, pending,
    housed_keep housed kept⟩

theorem StmtPlaced.keep {s : Stmt} (h : StmtPlaced L m s) (kept : Kept L m m') :
    StmtPlaced L m' s := by
  obtain ⟨body, before, current, outer, sites, formed, standing, whole, housed⟩ := h
  exact ⟨body, before, current, outer, sites, formed, standing_keep standing kept, whole,
    housed_keep housed kept⟩

theorem StmtPlaced.legible {s : Stmt} (h : StmtPlaced L m s) : Legible s := by
  obtain ⟨_, _, _, _, _, legible, _⟩ := h
  exact legible

/-- An expression that stands somewhere, with operators where operators should be. -/
def ExprPlaced (L : Ledger) (m : Machine) (e : Expr) : Prop :=
  Placed L m (occurrences e) ∧ e.respects = true

section

variable {node : NodeId} {name keyword : Token}

/-- No variable is called by a keyword. -/
theorem ExprPlaced.variable (lawful : Lawful L) (h : ExprPlaced L m (.var node name)) :
    NoKeyword name.lexeme := by
  obtain ⟨_, _, _, _, _, sites, _⟩ := h.1
  have site := sites (.read node name) (List.mem_singleton_self _)
  exact isName_ne_spelling (lawful.proper _ site).2.2

/-- No value is assigned to a keyword. -/
theorem ExprPlaced.assigned (lawful : Lawful L) {value : Expr}
    (h : ExprPlaced L m (.assign node name value)) : NoKeyword name.lexeme := by
  obtain ⟨_, _, _, _, _, sites, _⟩ := h.1
  have site := sites (.assign node name) (List.mem_append_right _ (List.mem_singleton_self _))
  exact isName_ne_spelling (lawful.proper _ site).2.2

/-! ### `this` and `super` in place -/

/-- A reference stands inside the method of an activation, in which the program is. -/
def RunsIn (L : Ledger) (m : Machine) (o : Occurrence) (a : Activation) : Prop :=
  ∃ path initialized, L.sites (.occurrence path initialized o) ∧ a.Around path m.scope ∧
    a.Happened L.happened

/-- `this` is the instance that the activation around it was bound to. -/
theorem Placed.this (lawful : Lawful L) (good : Good L m)
    (h : Placed L m [.self node keyword]) : ∃ a d, RunsIn L m (.self node keyword) a ∧
      m.hops.get? node = some d ∧
      m.frames.getAt? m.scope d keyword.lexeme = some (.object a.target) := by
  obtain ⟨body, before, current, outer, initialized, sites, _, _, housed⟩ := h
  have site := sites (.self node keyword) (List.mem_singleton_self _)
  have inside : (Path.inherits? (.within body before current :: outer)).isSome = true := by
    have allowed := lawful.accepted _ site
    rw [violation] at allowed
    split at allowed
    · cases allowed
    · next inside => exact Option.isSome_iff_ne_none.mpr (mt Option.isNone_iff_eq_none.mpr inside)
  obtain ⟨a, around, happened, holds⟩ := housed.activation before current inside
  obtain ⟨proper, _, spelling⟩ := lawful.proper _ site
  have spelled : keyword.lexeme = Keyword.thisWord.spelling := spelling.1.2 _ spelling.2
  obtain ⟨d, hops, found⟩ := around.this holds proper spelled
  refine ⟨a, d, ⟨_, _, site, around, happened⟩, (good.hops _ _ _ site).trans hops, ?_⟩
  rw [spelled]
  exact found

/-- `super` is what the superclass of the class around it came to, and `this` is one frame
    further in. -/
theorem Placed.super (lawful : Lawful L) (good : Good L m)
    (h : Placed L m [.parent node keyword]) :
    ∃ a parent d, RunsIn L m (.parent node keyword) a ∧ a.parent = some parent ∧
      m.hops.get? node = some d ∧
      m.frames.getAt? m.scope d keyword.lexeme = some (.classObject parent) ∧
      m.frames.getAt? m.scope (d - 1) "this" = some (.object a.target) := by
  obtain ⟨body, before, current, outer, initialized, sites, _, _, housed⟩ := h
  have site := sites (.parent node keyword) (List.mem_singleton_self _)
  -- outside of a class, or in one without a superclass, the keyword would have been reported
  have inherits : Path.inherits? (.within body before current :: outer) = some true := by
    have allowed := lawful.accepted _ site
    rw [violation] at allowed
    split at allowed
    · cases allowed
    · cases allowed
    · next inherits => exact inherits
  have inside : (Path.inherits? (.within body before current :: outer)).isSome = true := by
    rw [inherits]
    rfl
  obtain ⟨a, around, happened, holds⟩ := housed.activation before current inside
  have derived : a.superclass.isSome = true :=
    Option.some.inj (around.inherits.symm.trans inherits)
  obtain ⟨parent, hparent⟩ := Option.isSome_iff_exists.mp (happened.inherits.trans derived)
  obtain ⟨proper, _, spelling⟩ := lawful.proper _ site
  have spelled : keyword.lexeme = Keyword.superWord.spelling := spelling.1.2 _ spelling.2
  obtain ⟨d, hops, found, this⟩ := around.super holds hparent derived proper spelled
  refine ⟨a, parent, d, ⟨_, _, site, around, happened⟩, hparent,
    (good.hops _ _ _ site).trans hops, ?_, this⟩
  rw [spelled]
  exact found

end

/-- The frame in front of those that an initializer keeps holds its `this`. -/
theorem ClosureFits.initializer {c : Closure} (h : ClosureFits L m c)
    (initializes : c.isInitializer = true) :
    ∃ target, m.frames.getAt? c.scope 0 "this" = some (.object target) := by
  obtain ⟨_, _, _, _, _, origin⟩ := h
  cases origin with
  | function ordinary _ =>
    rw [ordinary] at initializes
    cases initializes
  | @method _ _ _ _ _ target _ _ _ _ _ bound =>
    obtain ⟨frame, keeps, found⟩ := bound.scope
    have here : c.scope[0]? = some frame := by
      rw [keeps]
      rfl
    exact ⟨target, (getAt?_eq here _).trans found⟩

/-! ### Parts of statements -/

/-- An expression of a statement that declares nothing. -/
theorem StmtPlaced.expr {s : Stmt} (h : StmtPlaced L m s) {e : Expr}
    (quiet : declared? s = none)
    (sub : ∀ path, ∀ site ∈ exprSites path none e, site ∈ stmtSites path s)
    (part : s.Over (fun _ => True) → e.Over fun _ => True) : ExprPlaced L m e := by
  refine ⟨?_, (part h.legible.2).1⟩
  obtain ⟨body, before, current, outer, sites, _, standing, whole, housed⟩ := h
  refine ⟨body, before, current, outer, none, ?_, standing, ?_, housed⟩
  · intro o ho
    exact sites _ (sub _ _ (List.mem_map_of_mem ho))
  · intro name declares
    rcases whole with rfl | ⟨_, none⟩
    · rw [quiet] at declares
      cases declares
    · rw [none] at declares
      cases declares

/-- A branch or loop body of a statement. -/
theorem StmtPlaced.part {s : Stmt} (h : StmtPlaced L m s) {s' : Stmt} (quiet : declared? s = none)
    (quiet' : declared? s' = none) (formed : Legible s')
    (sub : ∀ path, ∀ site ∈ stmtSites path s', site ∈ stmtSites path s) :
    StmtPlaced L m s' := by
  obtain ⟨body, before, current, outer, sites, _, standing, whole, housed⟩ := h
  refine ⟨body, before, current, outer, fun site hsite => sites site (sub _ site hsite), formed,
    standing, .inr ⟨quiet', ?_⟩, housed⟩
  rcases whole with rfl | ⟨_, none⟩
  · exact quiet
  · exact none

/-- A statement that declares something is one of a body. -/
theorem StmtPlaced.declaring {s : Stmt} (h : StmtPlaced L m s) {name : Token}
    (declares : declared? s = some name) : ∃ body before outer,
      (∀ site ∈ stmtSites (.within body before s :: outer) s, L.sites site) ∧ Legible s ∧
        Standing L m m.scope (viewFrom body before outer) ∧ Housed L m body outer m.scope := by
  obtain ⟨body, before, current, outer, sites, formed, standing, whole, housed⟩ := h
  rcases whole with rfl | ⟨no, _⟩
  · exact ⟨body, before, outer, sites, formed, standing, housed⟩
  · rw [no] at declares
    cases declares

/-- What a statement declares is no keyword. -/
theorem StmtPlaced.plain (lawful : Lawful L) {s : Stmt} (h : StmtPlaced L m s) {name : Token}
    (declares : declared? s = some name) : NoKeyword name.lexeme := by
  obtain ⟨body, before, outer, sites, _⟩ := h.declaring declares
  have first : ∀ path, Site.declaration path name ∈ stmtSites path s := by
    intro path
    cases s <;> cases declares <;> exact List.mem_cons_self ..
  exact lawful.plain (sites _ (first _))

/-- Giving what a statement declares a value. -/
theorem StmtPlaced.define (lawful : Lawful L) {s : Stmt} (h : StmtPlaced L m s) (good : Good L m)
    {name : Token} (declares : declared? s = some name) {v : Value} (fits : ValueFits L m v) :
    Sound L m (Run.define name.lexeme v) fun _ m' => Binds m' m'.scope s := by
  have plain := h.plain lawful declares
  obtain ⟨_, _, _, _, _, standing, _⟩ := h.declaring declares
  obtain ⟨frame, rest, hhead, below⟩ := standing.head
  refine (sound_define good hhead below plain (fits.grow (.put _ _ _ plain))).weaken ?_
  -- a definition leaves the scope alone, so the frame in front is the one that got the name
  intro _ m' kept bound name' declares' frame' outer' hscope'
  rw [declares] at declares'
  cases declares'
  rw [kept.scope, hhead] at hscope'
  cases hscope'
  exact bound.1

theorem StmtPlaced.initializer {name : Token} {e : Expr}
    (h : StmtPlaced L m (.varDecl name (some e))) : ExprPlaced L m e := by
  refine ⟨?_, (h.legible.2.2 e rfl).1⟩
  obtain ⟨body, before, outer, sites, _, standing, housed⟩ := h.declaring rfl
  refine ⟨body, before, .varDecl name (some e), outer, some name, ?_, standing, ?_, housed⟩
  · intro o ho
    exact sites _ (List.mem_cons_of_mem _ (List.mem_map_of_mem ho))
  · intro name' declares
    cases declares
    exact .inl rfl

/-- The superclass of a class is not named like the class. -/
theorem StmtPlaced.superclass (lawful : Lawful L) {name : Token} {parent : Expr}
    {methods : List FunctionDecl} (h : StmtPlaced L m (.classDecl name (some parent) methods)) :
    ExprPlaced L m parent := by
  refine ⟨?_, (h.legible.2.2.1 parent rfl).1⟩
  obtain ⟨body, before, outer, sites, formed, standing, housed⟩ := h.declaring rfl
  obtain ⟨node, parentName, rfl⟩ := formed.1.1 parent rfl
  have inside : ∀ site ∈ superclassSites (.within body before
      (.classDecl name (some (.var node parentName)) methods) :: outer) name
        (some (.var node parentName)), L.sites site := by
    intro site hsite
    exact sites site (List.mem_append_left _ (List.mem_cons_of_mem _ hsite))
  refine ⟨body, before, .classDecl name (some (.var node parentName)) methods, outer, none, ?_,
    standing, ?_, housed⟩
  · intro o ho
    exact inside _ (List.mem_cons_of_mem _ (List.mem_map_of_mem ho))
  · intro name' declares
    cases declares
    right
    intro o ho clash
    -- the only reference there is the superclass, and no class inherits from itself
    rw [List.mem_singleton.mp ho] at clash
    have allowed := lawful.accepted _ (inside _ (List.mem_cons_self ..))
    have refused : violation (.superclass name parentName) =
        some ⟨parentName, .selfInheritance⟩ := if_pos (beq_iff_eq.mpr clash)
    rw [refused] at allowed
    cases allowed

section

variable {c : Expr} {first : Stmt}

theorem StmtPlaced.condition {second : Option Stmt}
    (h : StmtPlaced L m (.ifElse c first second)) : ExprPlaced L m c := by
  refine h.expr rfl ?_ fun legible => legible.1
  intro path site hsite
  cases second with
  | none => exact List.mem_append_left _ hsite
  | some s => exact List.mem_append_left _ (List.mem_append_left _ hsite)

theorem StmtPlaced.thenBranch {second : Option Stmt}
    (h : StmtPlaced L m (.ifElse c first second)) :
    StmtPlaced L m first := by
  obtain ⟨formed, legible⟩ := h.legible
  cases second with
  | none =>
    refine h.part rfl formed.1 ⟨formed.2, legible.2.1⟩ ?_
    exact fun path site hsite => List.mem_append_right _ hsite
  | some s =>
    refine h.part rfl formed.1.1 ⟨formed.1.2, legible.2.1⟩ ?_
    exact fun path site hsite => List.mem_append_left _ (List.mem_append_right _ hsite)

theorem StmtPlaced.elseBranch {second : Stmt}
    (h : StmtPlaced L m (.ifElse c first (some second))) :
    StmtPlaced L m second := by
  obtain ⟨formed, legible⟩ := h.legible
  refine h.part rfl formed.2.1 ⟨formed.2.2, legible.2.2⟩ ?_
  exact fun path site hsite => List.mem_append_right _ hsite

theorem StmtPlaced.loopCondition {body : Stmt} (h : StmtPlaced L m (.whileLoop c body)) :
    ExprPlaced L m c :=
  h.expr rfl (fun _ _ hsite => List.mem_append_left _ hsite) fun legible => legible.1

theorem StmtPlaced.loopBody {body : Stmt} (h : StmtPlaced L m (.whileLoop c body)) :
    StmtPlaced L m body := by
  obtain ⟨formed, legible⟩ := h.legible
  exact h.part rfl formed.1 ⟨formed.2, legible.2⟩
    fun path site hsite => List.mem_append_right _ hsite

end

/-- The first of the statements of a body. -/
theorem BodyPlaced.first {s : Stmt} {rest : List Stmt} (h : BodyPlaced L m (s :: rest)) :
    StmtPlaced L m s := by
  obtain ⟨body, before, outer, sites, ⟨formed, legible⟩, standing, housed⟩ := h
  refine ⟨body, before, s, outer, ?_, ⟨formed.1, legible.1⟩, standing, .inl rfl, housed⟩
  intro site hsite
  apply sites
  rw [bodySites, List.mem_append]
  exact .inl hsite

/-- The statements after the first one, once its name is there. -/
theorem BodyPlaced.rest {s : Stmt} {rest : List Stmt} (h : BodyPlaced L m (s :: rest))
    (kept : Kept L m m') (binds : Binds m' m'.scope s) : BodyPlaced L m' rest := by
  obtain ⟨body, before, outer, sites, ⟨formed, legible⟩, standing, housed⟩ := h
  refine ⟨body, before ++ [s], outer, ?_, ⟨formed.2, legible.2⟩,
    (standing_keep standing kept).declare binds, housed_keep housed kept⟩
  intro site hsite
  apply sites
  rw [bodySites, List.mem_append]
  exact .inr hsite

end Lox.Evaluation
