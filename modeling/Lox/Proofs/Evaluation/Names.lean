import Lox.Proofs.Evaluation.Assignments
import Lox.Proofs.Evaluation.Changes

/-! # Names stay in their scopes

  No change of a machine takes a name away from a frame (`Change.bound`), and a frame that is
  there gets a new name only by a declaration that is carried out while it is the innermost
  one. What is declared in a block or in a function goes to the frame that was opened for it.
  So expressions, calls and blocks leave the names of all frames as they are, and any other
  statement that can be read adds at most what it declares itself
  (`inner_scopes_leak_no_names`).
-/

namespace Lox.Evaluation

open Binding

variable {m m' : Machine} {names : List String} {frame : FrameId} {name : String}

/-! ### Names of frames -/

/-- All frames of a machine have the names they had on another one, and no others but for some
    of the given ones in the innermost frame. -/
def Widens (names : List String) (m m' : Machine) : Prop :=
  ∀ frame name, frame < m.frames.records.size →
    (Bound m frame name → Bound m' frame name) ∧
    (Bound m' frame name → Bound m frame name ∨ name ∈ names ∧ m.scope.head? = some frame)

/-- All frames of a machine have the same names on another one, whatever their values. -/
def SameNames (m m' : Machine) : Prop :=
  ∀ frame name, frame < m.frames.records.size → (Bound m' frame name ↔ Bound m frame name)

theorem Widens.sameNames (h : Widens [] m m') : SameNames m m' := by
  intro frame name below
  obtain ⟨kept, fresh⟩ := h frame name below
  refine ⟨?_, kept⟩
  intro bound
  rcases fresh bound with old | ⟨none, _⟩
  · exact old
  · cases none

theorem bound_put (target : FrameId) (other : String) (v : Value) (h : Bound m frame name) :
    Bound { m with frames := m.frames.put target other v } frame name := by
  unfold Bound at h ⊢
  by_cases same : name = other
  · by_cases here : target = frame
    · subst same here
      have below : target < m.frames.records.size := by
        by_contra beyond
        have nothing : m.frames.lookup? target name = none := by
          rw [Frames.lookup?, Array.getElem?_eq_none (Nat.le_of_not_lt beyond)]
          rfl
        rw [nothing] at h
        cases h
      rw [Frames.lookup?_put_self _ _ _ below]
      rfl
    · rw [Frames.lookup?_put_of_frame_ne _ _ _ _ here]
      exact h
  · rw [Frames.lookup?_put_of_name_ne _ _ _ _ same]
    exact h

/-- No change takes a name away. -/
theorem Change.bound (change : Change m m') (h : Bound m frame name) : Bound m' frame name := by
  cases change with
  | put target other v => exact bound_put target other v h
  | opened bindings =>
    have below := below_of_bound h
    unfold Bound
    rw [lookup?_push, if_neg (Nat.ne_of_lt below)]
    exact h
  | _ => exact h

theorem Changes.bound (changes : Changes m m') (h : Bound m frame name) :
    Bound m' frame name := by
  induction changes with
  | refl => exact h
  | tail _ change ih => exact change.bound ih

theorem Course.widens (course : Course names m m') (changes : Changes m m') :
    Widens names m m' := by
  intro frame name below
  refine ⟨changes.bound, ?_⟩
  intro bound
  by_contra neither
  rw [not_or] at neither
  obtain ⟨fresh, elsewhere⟩ := neither
  -- a name that was missing and may not be added is missing afterwards
  have missing := course.absent frame name below (Option.not_isSome_iff_eq_none.mp fresh)
    fun mem front => elsewhere ⟨mem, front⟩
  simp [Bound, missing] at bound

/-! ### Statements of a program -/

/-- The statements of a program, those that stand in others and in functions included. -/
inductive Stands (program : List Stmt) : Stmt → Prop where
  | top {s : Stmt} : s ∈ program → Stands program s
  | block {body : List Stmt} {s : Stmt} :
      Stands program (.block body) → s ∈ body → Stands program s
  | thenBranch {condition : Expr} {s : Stmt} {elseBranch : Option Stmt} :
      Stands program (.ifElse condition s elseBranch) → Stands program s
  | elseBranch {condition : Expr} {thenBranch s : Stmt} :
      Stands program (.ifElse condition thenBranch (some s)) → Stands program s
  | loop {condition : Expr} {s : Stmt} :
      Stands program (.whileLoop condition s) → Stands program s
  | function {f : FunctionDecl} {s : Stmt} :
      Stands program (.funDecl f) → s ∈ f.body → Stands program s
  | method {className : Token} {superclass : Option Expr} {methods : List FunctionDecl}
      {f : FunctionDecl} {s : Stmt} : Stands program (.classDecl className superclass methods) →
      f ∈ methods → s ∈ f.body → Stands program s

theorem wellFormed_of_mem {s : Stmt} : ∀ {ss : List Stmt}, AllWellFormed ss → s ∈ ss →
    WellFormed s
  | _ :: _, formed, mem => by
    rcases List.mem_cons.mp mem with rfl | mem
    · exact formed.1
    · exact wellFormed_of_mem formed.2 mem

theorem routineWellFormed_of_mem {f : FunctionDecl} : ∀ {fs : List FunctionDecl},
    MethodsWellFormed fs → f ∈ fs → RoutineWellFormed f
  | _ :: _, formed, mem => by
    rcases List.mem_cons.mp mem with rfl | mem
    · exact formed.1
    · exact routineWellFormed_of_mem formed.2 mem

theorem Stands.wellFormed {program : List Stmt} (formed : AllWellFormed program) {s : Stmt}
    (h : Stands program s) : WellFormed s := by
  induction h with
  | top mem => exact wellFormed_of_mem formed mem
  | block _ mem ih => exact wellFormed_of_mem ih mem
  | @thenBranch _ _ elseBranch _ ih =>
    cases elseBranch with
    | none => exact ih.2
    | some _ => exact ih.1.2
  | elseBranch _ ih => exact ih.2.2
  | loop _ ih => exact ih.2
  | function _ mem ih => exact wellFormed_of_mem ((routineWellFormed_iff _).mp ih) mem
  | method _ mem mem' ih =>
    exact wellFormed_of_mem ((routineWellFormed_iff _).mp (routineWellFormed_of_mem ih.2 mem)) mem'

/-! ### The evaluator -/

/-- On every machine, however they end: expressions, blocks and calls leave the names of every
    frame that is there as they are, and another statement of a program that was read adds at
    most the name that it declares, and that to the innermost frame. -/
theorem inner_scopes_leak_no_names (host : Host) (fuel : Nat) (m : Machine) :
    (∀ e, SameNames m (machineAfter (evaluate host fuel e m))) ∧
    (∀ body, SameNames m (machineAfter (execute host fuel (.block body) m))) ∧
    (∀ f arguments paren, SameNames m (machineAfter (invoke host fuel f arguments paren m))) ∧
    ∀ fresh tokens s, Stands (Grammar.readProgram fresh tokens).value s →
      Widens ((declared? s).toList.map (·.lexeme)) m (machineAfter (execute host fuel s m)) := by
  have adds := addsAt host fuel
  have proceeds := proceedsAt host fuel
  refine ⟨?_, ?_, ?_, ?_⟩
  · intro e
    exact ((adds.evaluate e m).widens (proceeds.evaluate e m)).sameNames
  · intro body
    have nothing : added (.block body) = [] := by simp [added]
    have course := adds.execute (.block body) m
    rw [nothing] at course
    exact (course.widens (proceeds.execute (.block body) m)).sameNames
  · intro f arguments paren
    exact ((adds.invoke f arguments paren m).widens
      (proceeds.invoke f arguments paren m)).sameNames
  · intro fresh tokens s stands
    have formed := stands.wellFormed (Grammar.readProgram_wellFormed fresh tokens)
    rw [← added_eq formed]
    exact (adds.execute s m).widens (proceeds.execute s m)

/-- The theorem at the declaration in `fun f() { var a = true; }`, inside a frame of its own:
    the frame has the name afterwards, and the global one does not. -/
theorem inner_scopes_leak_no_names_local :
    let host := Host.standard 0
    let a : Token := ⟨.identifier, "a", 1⟩
    let declaration := Stmt.varDecl a (some (.literal (.bool true)))
    let tokens := Lexical.tokens "fun f() \x7b var a = true; \x7d"
    let m := blockEntry (Machine.start host .unlimited)
    let after := machineAfter (execute host 2 declaration m)
    Stands (Grammar.readProgram 0 tokens).value declaration ∧
      Bound after 1 "a" ∧ ¬Bound after 0 "a" := by
  intro host a declaration tokens m after
  have tree : (Grammar.readProgram 0 tokens).value =
      [.funDecl ⟨⟨.identifier, "f", 1⟩, [], [declaration]⟩] := by
    simp only [tokens]
    cbv
  have stands : Stands (Grammar.readProgram 0 tokens).value declaration := by
    rw [tree]
    exact .function (.top (List.mem_singleton_self _)) (List.mem_singleton_self _)
  have widens : Widens ["a"] m after :=
    (inner_scopes_leak_no_names host 2 m).2.2.2 0 tokens declaration stands
  refine ⟨stands, rfl, ?_⟩
  intro leaked
  rcases (widens 0 "a" (by decide)).2 leaked with before | ⟨_, front⟩
  · cases before
  · cases front

end Lox.Evaluation
