import Lox.Proofs.Evaluation.Identities
import Lox.Proofs.Mirror.Copies

/-! # Where the walk over a program comes

  The walk that relates names to declarations comes to every list of statements in a program,
  each in its context and with the layers around it (`Visits`). What is found in the program
  includes what is found there, and what holds of the program as it was read holds there too.
  In a text no name is spelled like a keyword, so that the layer of statements never has
  `super`: the layer that does has the one of `this` inside of it (`Visits.lacksSuper`).
-/

namespace Lox.Binding

open Grammar Evaluation

/-- The walk over a program comes to statements of one scope, in a context and with layers
    around them. A branch and the body of a loop are visited on their own. -/
inductive Visits (program : List Stmt) : Context → Layers → List Stmt → Prop where
  | start : Visits program .top [] program
  | next {context : Context} {layers : Layers} {s : Stmt} {rest : List Stmt} :
      Visits program context layers (s :: rest) →
      Visits program context (layers.after s) rest
  | block {context : Context} {layers : Layers} {body rest : List Stmt} :
      Visits program context layers (.block body :: rest) →
      Visits program context (.empty :: layers) body
  | thenBranch {context : Context} {layers : Layers} {condition : Expr} {s : Stmt}
      {elseBranch : Option Stmt} {rest : List Stmt} :
      Visits program context layers (.ifElse condition s elseBranch :: rest) →
      Visits program context layers [s]
  | elseBranch {context : Context} {layers : Layers} {condition : Expr} {thenBranch s : Stmt}
      {rest : List Stmt} :
      Visits program context layers (.ifElse condition thenBranch (some s) :: rest) →
      Visits program context (layers.after thenBranch) [s]
  | loop {context : Context} {layers : Layers} {condition : Expr} {s : Stmt}
      {rest : List Stmt} :
      Visits program context layers (.whileLoop condition s :: rest) →
      Visits program context layers [s]
  | function {context : Context} {layers : Layers} {f : FunctionDecl} {rest : List Stmt} :
      Visits program context layers (.funDecl f :: rest) →
      Visits program { context with routine := .function }
        (bodyLayers (layers.define f.name) f.params) f.body
  | method {context : Context} {layers : Layers} {name : Token} {superclass : Option Expr}
      {methods : List FunctionDecl} {f : FunctionDecl} {rest : List Stmt} :
      Visits program context layers (.classDecl name superclass methods :: rest) →
      f ∈ methods →
      Visits program { classContext context superclass.isSome with routine := methodContext f }
        (bodyLayers ((layers.define name).ofClass superclass.isSome) f.params) f.body

variable {program ss : List Stmt} {context : Context} {layers : Layers}

/-! ### What is found -/

section

variable {N : NodeId → Option Nat → Prop}

theorem noted_none : Noted N .none :=
  ⟨rfl, recorded_none⟩

theorem noted_function {kind : RoutineContext} {f : FunctionDecl}
    (h : Noted N (inFunction context kind layers f)) :
    Noted N (inStmts { context with routine := kind } (bodyLayers layers f.params) f.body) := by
  cases f
  rw [inFunction, noted_append] at h
  exact h.2

theorem noted_method {f : FunctionDecl} : ∀ {fs : List FunctionDecl}, f ∈ fs →
    Noted N (inMethods context layers fs) →
    Noted N (inFunction context (methodContext f) layers f)
  | first :: rest, mem, h => by
    rw [inMethods, noted_append] at h
    rcases List.mem_cons.mp mem with rfl | mem
    · exact h.1
    · exact noted_method mem h.2

/-- What is noted of a program is noted wherever the walk comes. -/
theorem Visits.noted (h : Visits program context layers ss) (whole : Noted N (resolve program)) :
    Noted N (inStmts context layers ss) := by
  -- from the whole program inwards: the findings of a part are among those around it
  induction h with
  | start => exact whole
  | next _ ih =>
    rw [inStmts, noted_append] at ih
    exact ih.2
  | block _ ih =>
    rw [inStmts, noted_append, inStmt] at ih
    exact ih.1
  | @thenBranch _ _ _ _ elseBranch _ _ ih =>
    rw [inStmts, noted_append] at ih ⊢
    refine ⟨?_, by rw [inStmts]; exact noted_none⟩
    cases elseBranch with
    | none =>
      rw [inStmt, noted_append] at ih
      exact ih.1.2
    | some s =>
      rw [inStmt, noted_append, noted_append] at ih
      exact ih.1.1.2
  | elseBranch _ ih =>
    rw [inStmts, noted_append] at ih ⊢
    rw [inStmt, noted_append] at ih
    exact ⟨ih.1.2, by rw [inStmts]; exact noted_none⟩
  | loop _ ih =>
    rw [inStmts, noted_append] at ih ⊢
    rw [inStmt, noted_append] at ih
    exact ⟨ih.1.2, by rw [inStmts]; exact noted_none⟩
  | function _ ih =>
    rw [inStmts, noted_append, inStmt, noted_append] at ih
    exact noted_function ih.1.2
  | method _ mem ih =>
    rw [inStmts, noted_append, inStmt, noted_append] at ih
    exact noted_function (noted_method mem ih.1.2)

end

/-! ### What holds of the program as it was read -/

/-- What is known of statements that stand somewhere in a program: they have forms that can be
    read, their tokens are spelled as they should be, and their sites are sites of the
    program. -/
structure Legitimate (program ss : List Stmt) : Prop where
  formed : AllWellFormed ss
  spelled : Stmt.AllOver Lexical.Spelled ss
  sites : ∀ s ∈ ss, ∃ path, ∀ site ∈ stmtSites path s, site ∈ programSites program

theorem sites_of_mem {outer : Path} {body : Body} {s : Stmt} :
    ∀ (before : List Stmt) {ss : List Stmt}, s ∈ ss →
      ∃ path, ∀ site ∈ stmtSites path s, site ∈ bodySites outer body before ss
  | before, first :: rest, mem => by
    rcases List.mem_cons.mp mem with rfl | mem
    · refine ⟨.within body before s :: outer, fun site hsite => ?_⟩
      rw [bodySites, List.mem_append]
      exact .inl hsite
    · obtain ⟨path, sub⟩ := sites_of_mem (before ++ [first]) mem
      refine ⟨path, fun site hsite => ?_⟩
      rw [bodySites, List.mem_append]
      exact .inr (sub site hsite)

/-- A part of the first of some statements, if its sites are among those of the statement. -/
theorem Legitimate.part {s t : Stmt} {rest : List Stmt} (h : Legitimate program (s :: rest))
    (formed : WellFormed t) (spelled : t.Over Lexical.Spelled)
    (sub : ∀ path, ∀ site ∈ stmtSites path t, site ∈ stmtSites path s) :
    Legitimate program [t] := by
  obtain ⟨path, inside⟩ := h.sites s (List.mem_cons_self ..)
  refine ⟨⟨formed, trivial⟩, ⟨spelled, trivial⟩, fun t' mem => ?_⟩
  obtain rfl := List.mem_singleton.mp mem
  exact ⟨path, fun site hsite => inside site (sub path site hsite)⟩

/-- The statements of a body in the first of some statements. -/
theorem Legitimate.body {s : Stmt} {rest ss : List Stmt} (h : Legitimate program (s :: rest))
    (formed : AllWellFormed ss) (spelled : Stmt.AllOver Lexical.Spelled ss)
    (sub : ∀ path, ∃ outer body, ∀ site ∈ bodySites outer body [] ss, site ∈ stmtSites path s) :
    Legitimate program ss := by
  obtain ⟨path, inside⟩ := h.sites s (List.mem_cons_self ..)
  obtain ⟨outer, body, sub⟩ := sub path
  refine ⟨formed, spelled, fun t mem => ?_⟩
  obtain ⟨path', within⟩ := sites_of_mem [] mem
  exact ⟨path', fun site hsite => inside site (sub site (within site hsite))⟩

theorem function_spelled {T : Token → Prop} {f : FunctionDecl} (h : f.Over T) :
    (∀ param ∈ f.params, IsName T param) ∧ Stmt.AllOver T f.body := by
  cases f
  exact h.2

theorem method_legitimate {T : Token → Prop} {f : FunctionDecl} :
    ∀ {fs : List FunctionDecl}, f ∈ fs → MethodsWellFormed fs → FunctionDecl.AllOver T fs →
      RoutineWellFormed f ∧ f.Over T
  | first :: rest, mem, formed, spelled => by
    rcases List.mem_cons.mp mem with rfl | mem
    · exact ⟨formed.1, spelled.1⟩
    · exact method_legitimate mem formed.2 spelled.2

theorem Visits.legitimate (h : Visits program context layers ss)
    (whole : Legitimate program program) : Legitimate program ss := by
  induction h with
  | start => exact whole
  | next _ ih =>
    exact ⟨ih.formed.2, ih.spelled.2, fun t mem => ih.sites t (List.mem_cons_of_mem _ mem)⟩
  | @block _ _ body _ _ ih =>
    refine ih.body ih.formed.1 ih.spelled.1 fun path =>
      ⟨path, .block body, fun site hsite => ?_⟩
    rw [stmtSites]
    exact hsite
  | @thenBranch _ _ _ _ elseBranch _ _ ih =>
    have formed := ih.formed.1
    cases elseBranch with
    | none =>
      refine ih.part formed.2 ih.spelled.1.2.1 fun path site hsite => ?_
      rw [stmtSites, List.mem_append]
      exact .inr hsite
    | some s =>
      refine ih.part formed.1.2 ih.spelled.1.2.1 fun path site hsite => ?_
      rw [stmtSites, List.mem_append, List.mem_append]
      exact .inl (.inr hsite)
  | elseBranch _ ih =>
    have formed := ih.formed.1
    refine ih.part formed.2.2 ih.spelled.1.2.2 fun path site hsite => ?_
    rw [stmtSites, List.mem_append]
    exact .inr hsite
  | loop _ ih =>
    have formed := ih.formed.1
    refine ih.part formed.2 ih.spelled.1.2 fun path site hsite => ?_
    rw [stmtSites, List.mem_append]
    exact .inr hsite
  | @function _ _ f _ _ ih =>
    refine ih.body ((routineWellFormed_iff f).mp ih.formed.1) (function_spelled ih.spelled.1).2
      fun path => ⟨path, .routine false f, fun site hsite => ?_⟩
    rw [stmtSites, functionSites_eq, List.mem_cons, List.mem_append]
    exact .inr (.inr hsite)
  | @method _ _ name superclass methods f _ _ mem ih =>
    have formed := ih.formed.1
    obtain ⟨routine, spelled⟩ := method_legitimate mem formed.2 ih.spelled.1.2.2
    refine ih.body ((routineWellFormed_iff _).mp routine) (function_spelled spelled).2
      fun path => ⟨.inClass name superclass methods f :: path, .routine true f,
        fun site hsite => ?_⟩
    rw [stmtSites, List.mem_append]
    refine .inr (functionSites_of_mem mem ?_)
    rw [functionSites_eq, List.mem_append]
    exact .inr hsite

theorem legitimate_readProgram {fresh : NodeId} {source : String}
    (read : (readProgram fresh (Lexical.tokens source)).errors = []) :
    let program := (readProgram fresh (Lexical.tokens source)).value
    Legitimate program program :=
  ⟨readProgram_wellFormed fresh _, readProgram_over read (Lexical.tokens_spelled source),
    fun _ mem => sites_of_mem [] mem⟩

/-! ### Layers without `super` -/

/-- Whether nothing in the innermost layer is spelled like `super`. -/
def LacksSuper (layers : Layers) : Prop :=
  ∀ layer, layers.head? = some layer → layer.contains Keyword.superWord.spelling = false

theorem lacksSuper_empty (outer : Layers) : LacksSuper (.empty :: outer) := by
  rintro layer ⟨⟩
  rfl

theorem LacksSuper.mark (h : LacksSuper layers) {name : Token}
    (named : IsName Lexical.Spelled name) (status : Status) :
    LacksSuper (layers.mark name status) := by
  cases layers with
  | nil => exact nofun
  | cons layer outer =>
    rintro _ ⟨⟩
    have other : Keyword.superWord.spelling ≠ name.lexeme := (named.1.1 named.2 _).symm
    rw [Bindings.contains, Bindings.get?_set_of_ne _ _ other]
    exact h layer rfl

theorem LacksSuper.params (h : LacksSuper layers) : ∀ {params : List Token},
    (∀ param ∈ params, IsName Lexical.Spelled param) →
    LacksSuper (params.foldl Layers.define layers) := by
  intro params named
  induction params generalizing layers with
  | nil => exact h
  | cons param rest ih =>
    obtain ⟨first, later⟩ := List.forall_mem_cons.mp named
    exact ih (h.mark first .defined) later

/-- No layer around statements of a text has `super`. -/
theorem Visits.lacksSuper (h : Visits program context layers ss)
    (whole : Legitimate program program)
    (named : ∀ site ∈ programSites program, site.Proper Lexical.Spelled) :
    LacksSuper layers := by
  -- names get into the layers by declarations, and a declared name is not spelled `super`
  induction h with
  | start => exact nofun
  | @next context layers s rest visits ih =>
    have legitimate := visits.legitimate whole
    rw [after_eq layers legitimate.formed.1]
    cases declares : declared? s with
    | none => exact ih
    | some name =>
      obtain ⟨path, sub⟩ := legitimate.sites s (List.mem_cons_self ..)
      have site : .declaration path name ∈ stmtSites path s := by
        cases s with
        | varDecl | funDecl | classDecl =>
          cases declares
          rw [stmtSites]
          exact List.mem_cons_self ..
        | _ => cases declares
      exact ih.mark (named _ (sub _ site)) .defined
  | block => exact lacksSuper_empty _
  | thenBranch _ ih => exact ih
  | elseBranch visits ih =>
    have formed := (visits.legitimate whole).formed.1
    rw [after_eq _ formed.1.2, formed.1.1]
    exact ih
  | loop _ ih => exact ih
  | function visits _ =>
    have spelled := (visits.legitimate whole).spelled.1
    exact (lacksSuper_empty _).params (function_spelled spelled).1
  | method visits mem _ =>
    have legitimate := visits.legitimate whole
    have formed := legitimate.formed.1
    have spelled := (method_legitimate mem formed.2 legitimate.spelled.1.2.2).2
    exact (lacksSuper_empty _).params (function_spelled spelled).1

end Lox.Binding
