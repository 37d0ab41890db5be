import Lox.Proofs.Binding.Relabeling
import Lox.Proofs.Evaluation.Fuel
import Lox.Proofs.Splice.Machines

/-! # `for` loops

  There is no tree for a `for` loop: it is read as a `while` loop, with the increment after the
  body in a block around both, and in another block with the initializer. Here it is given a
  meaning of its own (`ForLoop.run`), in which no scope is opened for a round, and names are
  related to declarations as if the clauses stood where they are written
  (`ForLoop.findings`). As one node has one distance, the loop is written out with nodes of its
  own (`WrittenOut`). Both ways come to the same, in every state (`forLoop_runs_as_written`).

  The two do not use the same fuel, and they are not run on the same machine: the frames of the
  block around body and increment are on one side only.
-/

namespace Lox.Evaluation

open Binding Grammar

/-! ### The loop as it is written -/

/-- A `for` loop. -/
structure ForLoop where
  /-- What is run first. -/
  initializer : Option Stmt
  /-- What is asked before each round. -/
  condition : Option Expr
  /-- What is evaluated after each round. -/
  increment : Option Expr
  /-- What is run in each round. -/
  body : Stmt

/-- One statement and then another, unless the first one returns. -/
def andThen (first second : Run Flow) : Run Flow := do
  match ← first with
  | .next => second
  | .returned value => pure (.returned value)

/-- Rounds one after another as long as a test holds, until one of them returns. -/
def rounds (test : Nat → Run Bool) (round : Nat → Run Flow) : Nat → Run Flow
  | 0 => throw .starved
  | fuel + 1 => do
    if ← test fuel then andThen (round fuel) (rounds test round fuel)
    else pure .next

/-- Whether a condition holds; one that is absent does. -/
def holds (host : Host) (condition : Option Expr) (fuel : Nat) : Run Bool :=
  match condition with
  | some e => do return (← evaluate host fuel e).isTruthy
  | none => pure true

/-- Evaluates an increment, if there is one. -/
def advance (host : Host) (increment : Option Expr) (fuel : Nat) : Run Flow :=
  match increment with
  | some e => do
    let _ ← evaluate host fuel e
    pure .next
  | none => pure .next

namespace ForLoop

/-- One round: the body, and then the increment unless the body has returned. -/
def turn (host : Host) (l : ForLoop) (fuel : Nat) : Run Flow :=
  andThen (execute host fuel l.body) (advance host l.increment fuel)

/-- All rounds. -/
def turns (host : Host) (l : ForLoop) : Nat → Run Flow :=
  rounds (holds host l.condition) (l.turn host)

/-- The meaning of a loop. A scope is opened only for the initializer, which is run once in
    it; then come the rounds. -/
def run (host : Host) (l : ForLoop) (fuel : Nat) : Run Flow :=
  match l.initializer with
  | some first => inNewScope (andThen (execute host fuel first) (l.turns host fuel))
  | none => l.turns host fuel

/-- The layers around the condition, the increment and the body: what the initializer declares
    is known there. -/
def layers (outer : Layers) (l : ForLoop) : Layers :=
  match l.initializer with
  | some first => Layers.after (.empty :: outer) first
  | none => outer

/-- The findings in a loop. -/
def findings (context : Context) (outer : Layers) (l : ForLoop) : Findings :=
  (match l.initializer with
    | some first => inStmt context (.empty :: outer) first
    | none => .none) ++
    inOption context (l.layers outer) l.condition ++
    inOption context (l.layers outer) l.increment ++
    inStmt context (l.layers outer) l.body

/-- The loop as it is read. -/
def desugared (l : ForLoop) : Stmt :=
  forLoop l.initializer l.condition l.increment l.body

/-- The loop with every node given the same identity. -/
def bare (l : ForLoop) : ForLoop :=
  ⟨l.initializer.map Stmt.bare, l.condition.map Expr.bare, l.increment.map Expr.bare,
    l.body.bare⟩

/-- The condition of the `while` loop. -/
def test (l : ForLoop) : Expr :=
  l.condition.getD (.literal (.bool true))

/-- The body of the `while` loop. -/
def round (l : ForLoop) : Stmt :=
  match l.increment with
  | some e => .block [l.body, .expression e]
  | none => l.body

theorem desugared_eq (l : ForLoop) : l.desugared =
    match l.initializer with
    | some first => .block [first, .whileLoop l.test l.round]
    | none => .whileLoop l.test l.round := rfl

end ForLoop

/-- What the rule for `for` reads is such a loop, with a body that declares nothing in the scope
    it stands in. -/
theorem yields_forLoop {T : Token → Prop} {nested : Parser Stmt}
    (sub : Yields T nested (StmtMade T)) :
    Yields T (forRule nested) fun _ s _ =>
      ∃ l : ForLoop, s = l.desugared ∧ declared? l.body = none := by
  apply ((yields_expect _ _).bind fun _ => yields_forInitializer.bind fun initializer =>
    (yields_expressionUnless _).bind fun condition => (yields_expect _ _).bind fun _ =>
    (yields_expressionUnless _).bind fun increment => (yields_expect _ _).bind fun _ =>
    sub.bind fun body => .pure_eq (forLoop initializer condition increment body)).weaken
  intro lo s hi _ read
  obtain ⟨_, _, _, _, _, initializer, _, _, _, _, condition, _, _, _, _, _, _, _, _, _, increment,
    _, _, _, _, _, _, _, _, _, body, _, _, _, made, rfl, rfl⟩ := read
  exact ⟨⟨initializer, condition, increment, body⟩, rfl, made.quiet⟩

/-! ### Putting loops together -/

section

variable {host : Host} {x x' y y' : Run Flow} {test test' : Nat → Run Bool}
  {round round' : Nat → Run Flow}

theorem andThen_next (x : Run Flow) : andThen x (pure .next) = x := by
  have ends : (fun flow => match flow with
      | .next => pure .next
      | .returned value => pure (.returned value) : Flow → Run Flow) = pure := by
    funext flow
    cases flow <;> rfl
  unfold andThen
  rw [ends, bind_pure]

theorem executeAll_cons (fuel : Nat) (s : Stmt) (rest : List Stmt) :
    executeAll host (fuel + 1) (s :: rest) =
      andThen (execute host fuel s) (executeAll host fuel rest) := by
  rw [executeAll]
  rfl

theorem executeAll_singleton (fuel : Nat) (s : Stmt) :
    executeAll host (fuel + 2) [s] = execute host (fuel + 1) s := by
  rw [executeAll_cons, executeAll, andThen_next]

/-- The statements of the block around body and increment. -/
theorem executeAll_round (fuel : Nat) (s : Stmt) (e : Expr) :
    executeAll host (fuel + 3) [s, .expression e] =
      andThen (execute host (fuel + 2) s) (advance host (some e) fuel) := by
  rw [executeAll_cons, executeAll_singleton, execute]
  rfl

/-- The statements of the block around initializer and loop. -/
theorem executeAll_start (fuel : Nat) (s : Stmt) (e : Expr) (body : Stmt) :
    executeAll host (fuel + 3) [s, .whileLoop e body] =
      andThen (execute host (fuel + 2) s) (loop host fuel e body) := by
  rw [executeAll_cons, executeAll_singleton, execute]

/-- A `while` loop is made of such rounds. -/
theorem loop_eq_rounds (e : Expr) (s : Stmt) : ∀ fuel : Nat,
    loop host fuel e s = rounds (holds host (some e)) (fun fuel => execute host fuel s) fuel
  | 0 => by rw [loop, rounds]
  | fuel + 1 => by
    rw [loop, rounds, holds, loop_eq_rounds e s fuel]
    simp only [bind_assoc, pure_bind]
    rfl

theorem outlasts_andThen (first : Outlasts x y) (second : Outlasts x' y') :
    Outlasts (andThen x x') (andThen y y') := by
  apply outlasts_bind first
  intro flow
  cases flow with
  | next => exact second
  | returned value => exact .refl _

theorem outlasts_inNewScope {α : Type} {x y : Run α} (h : Outlasts x y) :
    Outlasts (inNewScope x) (inNewScope y) := by
  apply outlasts_bind (.refl _)
  intro m
  apply outlasts_bind (.refl _)
  intro scope
  exact outlasts_within h

theorem outlasts_rounds (more : Nat) (tests : ∀ fuel, Outlasts (test fuel) (test' (fuel + more)))
    (bodies : ∀ fuel, Outlasts (round fuel) (round' (fuel + more))) : ∀ fuel,
    Outlasts (rounds test round fuel) (rounds test' round' (fuel + more))
  | 0 => outlasts_starved _
  | fuel + 1 => by
    rw [Nat.add_right_comm, rounds, rounds]
    apply outlasts_bind (tests fuel)
    intro go
    cases go with
    | true => exact outlasts_andThen (bodies fuel) (outlasts_rounds more tests bodies fuel)
    | false => exact .refl _

end

section

variable {ν : Notes} {w : World} {here here' : Scope} {host : Host} {x x' y y' : Run Flow}
  {test test' : Nat → Run Bool} {round round' : Nat → Run Flow}

theorem coincides_andThen (first : Coincides ν w here here' x y (FlowSplices ν))
    (second : ∀ w', Later w w' → Coincides ν w' here here' x' y' (FlowSplices ν)) :
    Coincides ν w here here' (andThen x x') (andThen y y') (FlowSplices ν) := by
  apply coincides_bind first
  intro w' flow flow' more flows
  cases flows with
  | next => exact second w' more
  | returned hv => exact coincides_pure (.returned hv)

theorem coincides_rounds
    (tests : ∀ fuel w', Later w w' →
      Coincides ν w' here here' (test fuel) (test' fuel) fun _ => Eq)
    (bodies : ∀ fuel w', Later w w' →
      Coincides ν w' here here' (round fuel) (round' fuel) (FlowSplices ν)) (fuel : Nat) :
    ∀ w', Later w w' →
      Coincides ν w' here here' (rounds test round fuel) (rounds test' round' fuel)
        (FlowSplices ν) := by
  -- on the fuel: what is related on entering a round is related at its end, in a later world
  induction fuel with
  | zero => exact fun _ _ => coincides_throw _
  | succ fuel ih =>
    intro w₁ more₁
    rw [rounds, rounds]
    apply coincides_bind (tests fuel w₁ more₁)
    rintro w₂ go _ more₂ rfl
    have more := more₁.trans more₂
    cases go with
    | true =>
      exact coincides_andThen (bodies fuel w₂ more) fun w₃ more₃ => ih w₃ (more.trans more₃)
    | false => exact coincides_pure .next

theorem coincides_holds {e e' : Expr} (discreet : Discreet Spliceable host)
    (scopes : Spliced w none here here') (condition : ExprSplices ν none e e') (fuel : Nat) :
    Coincides ν w here here' (holds host (some e) fuel) (holds host (some e') fuel)
      fun _ => Eq := by
  apply coincides_bind ((coincidesAt discreet ν fuel).evaluate scopes condition)
  intro w' v v' _ hv
  exact coincides_pure hv.isTruthy_eq

end

/-! ### Rounds with and without a block -/

section

variable {host : Host}

/-- What the block around body and increment does, without the scope; with no increment there
    is no block. -/
def ForLoop.unscoped (host : Host) (l : ForLoop) (fuel : Nat) : Run Flow :=
  match l.increment, fuel with
  | none, fuel => execute host fuel l.body
  | some _, 0 => throw .starved
  | some e, fuel + 1 => executeAll host fuel [l.body, .expression e]

theorem unscoped_outlasts (l : ForLoop) (fuel : Nat) :
    Outlasts (l.unscoped host fuel) (l.turn host (fuel + 2)) := by
  unfold ForLoop.unscoped ForLoop.turn
  cases l.increment with
  | none =>
    rw [advance, andThen_next]
    exact execute_outlasts (Nat.le_add_right fuel 2) l.body
  | some e =>
    cases fuel with
    | zero => exact outlasts_starved _
    | succ fuel =>
      have statements : Outlasts (executeAll host fuel [l.body, .expression e])
          (andThen (execute host (fuel + 2) l.body) (advance host (some e) fuel)) := by
        rw [← executeAll_round]
        exact executeAll_outlasts (Nat.le_add_right fuel 3) _
      apply statements.trans
      exact outlasts_andThen (execute_outlasts (by omega) l.body)
        (outlasts_then (evaluate_outlasts (by omega) e))

theorem outlasts_unscoped (l : ForLoop) (fuel : Nat) :
    Outlasts (l.turn host fuel) (l.unscoped host (fuel + 4)) := by
  unfold ForLoop.unscoped ForLoop.turn
  cases l.increment with
  | none =>
    rw [advance, andThen_next]
    exact execute_outlasts (Nat.le_add_right fuel 4) l.body
  | some e =>
    show Outlasts _ (executeAll host (fuel + 3) [l.body, .expression e])
    rw [executeAll_round]
    exact outlasts_andThen (execute_outlasts (Nat.le_add_right fuel 2) l.body) (.refl _)

/-- A condition that is absent takes some fuel if it is written out as `true`. -/
theorem holds_test_outlasts (l : ForLoop) (fuel more : Nat) :
    Outlasts (holds host (some l.test) fuel) (holds host l.condition (fuel + more)) := by
  unfold ForLoop.test
  cases l.condition with
  | some e => exact outlasts_then (evaluate_outlasts (Nat.le_add_right fuel more) e)
  | none =>
    cases fuel with
    | zero => exact outlasts_starved _
    | succ fuel => exact .refl _

theorem outlasts_holds_test (l : ForLoop) (fuel more : Nat) :
    Outlasts (holds host l.condition fuel) (holds host (some l.test) (fuel + (more + 1))) := by
  unfold ForLoop.test
  cases l.condition with
  | some e => exact outlasts_then (evaluate_outlasts (Nat.le_add_right fuel (more + 1)) e)
  | none => exact .refl _

end

/-! ### Loops that correspond -/

section

variable {ν : Notes} {w : World} {here here' : Scope} {host : Host} {l l' : ForLoop}

/-- Rounds that correspond. If there is an increment, it stands with the body inside of the
    additional scope. -/
inductive RoundSplices (ν : Notes) (l l' : ForLoop) : Prop where
  | alone : l.increment = none → l'.increment = none → StmtSplices ν none l.body l'.body →
      RoundSplices ν l l'
  | inBlock {e e' : Expr} : l.increment = some e → l'.increment = some e' →
      StmtsSplice ν (some 0) [l.body, .expression e] [l'.body, .expression e'] →
      RoundSplices ν l l'

/-- A loop as it is read and one as it is written that correspond. -/
structure LoopSplices (ν : Notes) (l l' : ForLoop) : Prop where
  initializer : Option.Rel (StmtSplices ν none) l.initializer l'.initializer
  test : ExprSplices ν none l.test l'.test
  round : RoundSplices ν l l'

theorem coincides_round (discreet : Discreet Spliceable host) (splices : RoundSplices ν l l')
    (scopes : Spliced w none here here') (fuel : Nat) :
    Coincides ν w here here' (execute host fuel l.round) (l'.unscoped host fuel)
      (FlowSplices ν) := by
  unfold ForLoop.round ForLoop.unscoped
  cases splices with
  | alone absent absent' body =>
    rw [absent, absent']
    exact (coincidesAt discreet ν fuel).execute scopes body
  | inBlock present present' body =>
    rw [present, present']
    cases fuel with
    | zero => exact coincides_throw _
    | succ fuel =>
      dsimp only
      rw [execute_block_eq]
      exact coincides_extra scopes fun _ _ _ inner =>
        (coincidesAt discreet ν fuel).executeAll inner body

/-- The `while` loop does what the rounds without the additional scope do. -/
theorem coincides_while (discreet : Discreet Spliceable host) (splices : LoopSplices ν l l')
    (scopes : Spliced w none here here') (fuel : Nat) :
    Coincides ν w here here' (loop host fuel l.test l.round)
      (rounds (holds host (some l'.test)) (l'.unscoped host) fuel) (FlowSplices ν) := by
  rw [loop_eq_rounds]
  refine coincides_rounds (fun fuel w' more => ?_) (fun fuel w' more => ?_) fuel w (.refl w)
  · exact coincides_holds discreet (scopes.later more) splices.test fuel
  · exact coincides_round discreet splices.round (scopes.later more) fuel

/-- The loop as it is read and the rounds without the additional scope, after the initializer
    and in its scope if there is one. -/
theorem coincides_start (discreet : Discreet Spliceable host) {first first' : Stmt}
    (initializer : StmtSplices ν none first first') (splices : LoopSplices ν l l')
    (scopes : Spliced w none here here') (fuel : Nat) :
    Coincides ν w here here'
      (execute host (fuel + 4) (.block [first, .whileLoop l.test l.round]))
      (inNewScope (andThen (execute host (fuel + 2) first')
        (rounds (holds host (some l'.test)) (l'.unscoped host) fuel))) (FlowSplices ν) := by
  rw [execute_block_eq, executeAll_start]
  refine coincides_inNewScope scopes fun w' inner inner' more inside => ?_
  refine coincides_andThen
    ((coincidesAt discreet ν (fuel + 2)).execute inside initializer) fun w'' more' => ?_
  exact coincides_while discreet splices (inside.later more') fuel

end

/-! ### Loops of a program -/

section

variable {program rest : List Stmt} {context : Context} {outer : Layers} {l l' : ForLoop}
  {ν : Notes}

/-- The walk comes to the initializer and to the `while` loop. -/
theorem ForLoop.visits (h : Visits program context outer (l.desugared :: rest)) :
    (∃ after, Visits program context (l.layers outer) (.whileLoop l.test l.round :: after)) ∧
      ∀ first, l.initializer = some first → ∃ after,
        Visits program context (.empty :: outer) (first :: after) := by
  rw [ForLoop.desugared_eq] at h
  unfold ForLoop.layers
  cases starts : l.initializer with
  | none =>
    rw [starts] at h
    exact ⟨⟨rest, h⟩, nofun⟩
  | some first =>
    rw [starts] at h
    refine ⟨⟨[], h.block.next⟩, ?_⟩
    rintro _ ⟨⟩
    exact ⟨_, h.block⟩

/-- A copy has the same layers around its clauses. -/
theorem ForLoop.layers_eq (same : l'.bare = l.bare) (outer : Layers) :
    l'.layers outer = l.layers outer := by
  have first : l'.initializer.map Stmt.bare = l.initializer.map Stmt.bare :=
    congrArg ForLoop.initializer same
  unfold ForLoop.layers
  generalize l.initializer = o at first ⊢
  generalize l'.initializer = o' at first ⊢
  cases o with
  | none =>
    cases o' with
    | none => rfl
    | some s' => cases first
  | some s =>
    cases o' with
    | none => cases first
    | some s' => exact after_of_bare (Option.some.inj first) _

theorem splice_test {around : Layers} (lacks : LacksSuper around) {o o' : Option Expr}
    (same : o'.map Expr.bare = o.map Expr.bare)
    (spelled : (o.getD (.literal (.bool true))).Over Lexical.Spelled)
    (noted : Noted (Lists ν.long) (inExpr context around (o.getD (.literal (.bool true)))))
    (recorded : Recorded (Lists ν.short) (inOption context around o')) :
    ExprSplices ν none (o.getD (.literal (.bool true))) (o'.getD (.literal (.bool true))) := by
  cases o with
  | none =>
    cases o' with
    | none => exact .literal _
    | some e' => cases same
  | some e =>
    cases o' with
    | none => cases same
    | some e' => exact splice_expr lacks e (.whole _) (Option.some.inj same) spelled noted recorded

theorem splice_round {around : Layers} (lacks : LacksSuper around)
    (plain : declared? l.body = none) (formed : WellFormed l.round) (same : l'.bare = l.bare)
    (spelled : l.round.Over Lexical.Spelled)
    (noted : Noted (Lists ν.long) (inStmt context around l.round))
    (recordedN : Recorded (Lists ν.short) (inOption context around l'.increment))
    (recordedB : Recorded (Lists ν.short) (inStmt context around l'.body)) :
    RoundSplices ν l l' := by
  have sameB : l'.body.bare = l.body.bare := congrArg ForLoop.body same
  have sameN : l'.increment.map Expr.bare = l.increment.map Expr.bare :=
    congrArg ForLoop.increment same
  unfold ForLoop.round at formed spelled noted
  cases present : l.increment with
  | none =>
    rw [present] at formed spelled noted sameN
    have absent : l'.increment = none := by simpa using sameN
    exact .alone present absent (splice_stmt lacks l.body (.whole _)
      (fun here => absurd here Seam.none_ne) formed sameB spelled noted recordedB)
  | some e =>
    rw [present] at formed spelled noted sameN
    obtain ⟨e', present', copies⟩ : ∃ e', l'.increment = some e' ∧ e'.bare = e.bare := by
      simpa using sameN
    rw [present'] at recordedN
    -- nothing is declared in the block, so that body and increment have the same layers
    have block : Layers.after (.empty :: around) l.body = .empty :: around := by
      rw [after_eq _ formed.1, plain]
      rfl
    dsimp only at noted
    rw [inStmt, inStmts, inStmts, noted_append, noted_append, inStmt, block] at noted
    have body := splice_stmt lacks l.body .here (fun _ => plain) formed.1 sameB spelled.1 noted.1
      recordedB
    have increment := splice_expr lacks e .here copies spelled.2.1 noted.2.1 recordedN
    exact .inBlock present present' (.cons body (.cons (.expression increment) .nil))

/-- A loop of a program corresponds to a copy of it, once the distances in the one are noted as
    they are found in the program, and those in the other as they are found where it is
    written. -/
theorem loopSplices (whole : Legitimate program program)
    (named : ∀ site ∈ programSites program, site.Proper Lexical.Spelled)
    (visits : Visits program context outer (l.desugared :: rest)) (plain : declared? l.body = none)
    (same : l'.bare = l.bare) (noted : Noted (Lists ν.long) (resolve program))
    (recorded : Recorded (Lists ν.short) (l'.findings context outer)) :
    LoopSplices ν l l' := by
  obtain ⟨⟨after, loop⟩, starts⟩ := ForLoop.visits visits
  have lacks : LacksSuper (l.layers outer) := loop.lacksSuper whole named
  have legitimate := loop.legitimate whole
  have parts := loop.noted noted
  rw [inStmts, noted_append, inStmt, noted_append] at parts
  unfold ForLoop.findings at recorded
  simp only [recorded_append, ForLoop.layers_eq same outer] at recorded
  obtain ⟨⟨⟨recordedI, recordedC⟩, recordedN⟩, recordedB⟩ := recorded
  refine ⟨?_, ?_, ?_⟩
  -- the initializer is visited before the loop, outside of its layers
  · have sameI : l'.initializer.map Stmt.bare = l.initializer.map Stmt.bare :=
      congrArg ForLoop.initializer same
    cases present : l.initializer with
    | none =>
      rw [present] at sameI
      have absent : l'.initializer = none := by simpa using sameI
      rw [absent]
      exact .none
    | some first =>
      rw [present] at sameI
      obtain ⟨first', present', copies⟩ :
          ∃ s', l'.initializer = some s' ∧ s'.bare = first.bare := by simpa using sameI
      rw [present'] at recordedI ⊢
      obtain ⟨_, beginning⟩ := starts first present
      have notedI := beginning.noted noted
      rw [inStmts, noted_append] at notedI
      have legitimateI := beginning.legitimate whole
      exact .some (splice_stmt lacks first (.whole _) (fun here => absurd here Seam.none_ne)
        legitimateI.formed.1 copies legitimateI.spelled.1 notedI.1 recordedI)
  · exact splice_test lacks (congrArg ForLoop.condition same) legitimate.spelled.1.1 parts.1.1
      recordedC
  · exact splice_round lacks plain legitimate.formed.1.2 same legitimate.spelled.1.2 parts.1.2
      recordedN recordedB

end

/-! ### Loops written out -/

section

variable {base : NodeId}

/-- Nodes that go with distances, from some node on. -/
def labelFrom (base : Nat) : Option Nat → NodeId
  | none => base
  | some distance => base + distance + 1

/-- A table that has the distances of a machine below some node, and what was found for nodes
    from there on. -/
theorem exists_continuation (m : Machine) {F : Findings}
    (labelled : Recorded (Labelled (labelFrom base)) F) :
    ∃ hops, AgreesBelow m base hops ∧ Recorded (Lists hops) F := by
  obtain ⟨hops, old, first, listed⟩ :=
    exists_table m.hops base ((F.references.filterMap (·.hops)).sum + 1)
  refine ⟨hops, old, ?_⟩
  intro r mem
  rw [labelled r mem]
  cases distance : r.hops with
  | none => exact first
  | some d =>
    have found : d ∈ F.references.filterMap (·.hops) := List.mem_filterMap.mpr ⟨r, mem, distance⟩
    exact listed d (Nat.lt_succ_of_le (List.le_sum_of_mem found))

/-- A loop written out on a machine: a copy of it with a table of distances. They are those that
    are found for the copy where it is written, and below some node those of the machine. -/
structure WrittenOut (context : Context) (outer : Layers) (m : Machine) (base : NodeId)
    (l l' : ForLoop) (hops : Hops) : Prop where
  same : l'.bare = l.bare
  old : AgreesBelow m base hops
  noted : Recorded (Lists hops) (l'.findings context outer)

theorem ForLoop.exists_copy (label : Option Nat → NodeId) (context : Context) (outer : Layers)
    (l : ForLoop) : ∃ l' : ForLoop, l'.bare = l.bare ∧
      Recorded (Labelled label) (l'.findings context outer) := by
  obtain ⟨condition, sameC, recordedC⟩ :=
    exists_copy_option label context (l.layers outer) l.condition
  obtain ⟨increment, sameN, recordedN⟩ :=
    exists_copy_option label context (l.layers outer) l.increment
  obtain ⟨body, sameB, recordedB⟩ := exists_copy_stmt label context (l.layers outer) l.body
  obtain ⟨initializer, sameI, recordedI⟩ : ∃ initializer : Option Stmt,
      initializer.map Stmt.bare = l.initializer.map Stmt.bare ∧
        Recorded (Labelled label) (match initializer with
          | some first => inStmt context (.empty :: outer) first
          | none => .none) := by
    cases l.initializer with
    | none => exact ⟨none, rfl, recorded_none⟩
    | some first =>
      obtain ⟨first', same, recorded⟩ := exists_copy_stmt label context (.empty :: outer) first
      exact ⟨some first', congrArg some same, recorded⟩
  have same : ForLoop.bare ⟨initializer, condition, increment, body⟩ = l.bare := by
    unfold ForLoop.bare
    rw [sameI, sameC, sameN, sameB]
  refine ⟨⟨initializer, condition, increment, body⟩, same, ?_⟩
  unfold ForLoop.findings
  rw [ForLoop.layers_eq same]
  simp only [recorded_append]
  exact ⟨⟨⟨recordedI, recordedC⟩, recordedN⟩, recordedB⟩

theorem exists_writtenOut (context : Context) (outer : Layers) (m : Machine) (base : NodeId)
    (l : ForLoop) : ∃ l' hops, WrittenOut context outer m base l l' hops := by
  obtain ⟨l', same, labelled⟩ := l.exists_copy (labelFrom base) context outer
  obtain ⟨hops, old, noted⟩ := exists_continuation m labelled
  exact ⟨l', hops, same, old, noted⟩

end

/-! ### The two meanings of a loop -/

section

variable {ν : Notes} {w : World} {here here' : Scope} {m m' : Machine} {host : Host}

/-- Whether two ways of running come to the same on two machines: whenever one of them ends, so
    does the other, given enough fuel, in the same way and with machines that correspond. -/
def ComeToTheSame (ν : Notes) (w : World) (m m' : Machine) (x y : Nat → Run Flow) : Prop :=
  (∀ fuel, ¬Starves (x fuel m) → ∃ fuel',
    ResultSplices ν w m.scope m'.scope (FlowSplices ν) (x fuel m) (y fuel' m')) ∧
  ∀ fuel, ¬Starves (y fuel m') → ∃ fuel',
    ResultSplices ν w m.scope m'.scope (FlowSplices ν) (x fuel' m) (y fuel m')

theorem ResultSplices.starves {α : Type} {P : World → α → α → Prop}
    {r r' : EStateM.Result Halt Machine α} (h : ResultSplices ν w here here' P r r')
    (starves : Starves r') : Starves r := by
  obtain ⟨m', rfl⟩ := starves.eq_error
  rcases h.cases with ⟨_, _, _, _, _, _, no, _⟩ | ⟨e, _, _, _, rfl, same, _⟩
  · cases no
  · cases same
    exact trivial

/-- It is enough that the one, with some more fuel, does what a third does, which lies between
    two amounts of fuel of the other. -/
theorem comeToTheSame_of_between {x y z : Nat → Run Flow} (a b c : Nat)
    (splices : MachineSplices ν w m.scope m'.scope m m')
    (steady : ∀ fuel, Outlasts (x fuel) (x (fuel + a)))
    (coincide : ∀ fuel,
      Coincides ν w m.scope m'.scope (x (fuel + a)) (z fuel) (FlowSplices ν))
    (there : ∀ fuel, Outlasts (z fuel) (y (fuel + b)))
    (back : ∀ fuel, Outlasts (y fuel) (z (fuel + c))) : ComeToTheSame ν w m m' x y := by
  constructor
  · intro fuel ends
    have result := coincide fuel m m' splices
    rw [(steady fuel).eq ends] at result
    have ends' : ¬Starves (z fuel m') := fun starves => ends (result.starves starves)
    rw [← (there fuel).eq ends'] at result
    exact ⟨fuel + b, result⟩
  · intro fuel ends
    have result := coincide (fuel + c) m m' splices
    rw [(back fuel).eq ends] at result
    exact ⟨fuel + c + a, result⟩

theorem loop_comes_to_the_same (discreet : Discreet Spliceable host) {l l' : ForLoop}
    (loops : LoopSplices ν l l') (scopes : Spliced w none m.scope m'.scope)
    (splices : MachineSplices ν w m.scope m'.scope m m') :
    ComeToTheSame ν w m m' (fun fuel => execute host fuel l.desugared) (l'.run host) := by
  -- in between are the rounds without the scope; they use fuel as the `while` loop does, also
  -- for the block around body and increment and for a condition that is written out as `true`
  have there : ∀ fuel, Outlasts (rounds (holds host (some l'.test)) (l'.unscoped host) fuel)
      (l'.turns host (fuel + 2)) :=
    outlasts_rounds 2 (fun fuel => holds_test_outlasts l' fuel 2) (unscoped_outlasts l')
  have back : ∀ fuel, Outlasts (l'.turns host fuel)
      (rounds (holds host (some l'.test)) (l'.unscoped host) (fuel + 4)) :=
    outlasts_rounds 4 (fun fuel => outlasts_holds_test l' fuel 3) (outlasts_unscoped l')
  have steady : ∀ more fuel, Outlasts (execute host fuel l.desugared)
      (execute host (fuel + more) l.desugared) :=
    fun more fuel => execute_outlasts (Nat.le_add_right fuel more) l.desugared
  have starts := loops.initializer
  unfold ForLoop.run
  rw [ForLoop.desugared_eq] at steady ⊢
  generalize l.initializer = o at starts steady ⊢
  generalize l'.initializer = o' at starts ⊢
  cases starts with
  | none =>
    refine comeToTheSame_of_between 1 2 4 splices (steady 1) (fun fuel => ?_) there back
    dsimp only
    rw [execute]
    exact coincides_while discreet loops scopes fuel
  | @some first first' initializer =>
    refine comeToTheSame_of_between 4 2 4 splices (steady 4)
      (coincides_start discreet initializer loops scopes) (fun fuel => ?_) (fun fuel => ?_)
    · exact outlasts_inNewScope (outlasts_andThen (.refl _) (there fuel))
    · exact outlasts_inNewScope
        (outlasts_andThen (execute_outlasts (by omega) first') (back fuel))

/-- Executing a `for` loop as it is read, after resolution, comes to the same as running it as
    it is written. The loop may stand anywhere in a program that is accepted and have whatever
    clauses; that its body declares nothing is true of all that is read (`yields_forLoop`). The
    machine may be any that is intact, as those are on which a statement is executed
    (`intact_in_course`). Running the loop as it is written takes a copy of it with nodes of its
    own, which is related to declarations where it is written; there is one, and it does not
    matter which.

    The results correspond in a world in which all frames that were there stand for themselves:
    the output, the way control leaves the loop or the runtime error, the variables and the
    fields of objects are the same. No code that is there tells them apart afterwards. -/
theorem forLoop_runs_as_written (discreet : Discreet Spliceable host) (fresh : NodeId)
    (source : String) (read : (readProgram fresh (Lexical.tokens source)).errors = [])
    (accepted : (resolve (readProgram fresh (Lexical.tokens source)).value).errors = [])
    (l : ForLoop) (plain : declared? l.body = none) (context : Context) (outer : Layers)
    (rest : List Stmt)
    (visits : Visits (readProgram fresh (Lexical.tokens source)).value context outer
      (l.desugared :: rest))
    (m : Machine) (base : NodeId) (intact : Intact m base)
    (noted : Recorded (Lists m.hops)
      (resolve (readProgram fresh (Lexical.tokens source)).value)) :
    (∃ l' hops, WrittenOut context outer m base l l' hops) ∧
      ∀ l' hops, WrittenOut context outer m base l l' hops →
        ComeToTheSame ⟨m.hops, hops⟩ (itself m) m { m with hops }
            (fun fuel => execute host fuel l.desugared) (l'.run host) ∧
          ∀ w, Later (itself m) w → ∀ fuel ss, (∀ node ∈ treeNodes ss, node < base) →
            Coincides ⟨m.hops, hops⟩ w m.scope m.scope (executeAll host fuel ss)
              (executeAll host fuel ss) (FlowSplices ⟨m.hops, hops⟩) := by
  refine ⟨exists_writtenOut context outer m base l, ?_⟩
  intro l' hops written
  have named : ∀ site ∈ programSites (readProgram fresh (Lexical.tokens source)).value,
      site.Proper Lexical.Spelled := fun site mem =>
    ((readProgram_sites fresh (Lexical.tokens source)).2 site mem).imp
      (Lexical.tokens_spelled source)
  have loops : LoopSplices ⟨m.hops, hops⟩ l l' :=
    loopSplices (legitimate_readProgram read) named visits plain written.same ⟨accepted, noted⟩
      written.noted
  have scopes : Spliced (itself m) none m.scope m.scope := intact.scope.splices
  refine ⟨loop_comes_to_the_same discreet loops scopes (intact.splices written.old), ?_⟩
  intro w more fuel ss known
  have self : StmtsSplice ⟨m.hops, hops⟩ none ss ss :=
    stmts_self ss fun node mem => written.old node (known node mem)
  exact (coincidesAt discreet _ fuel).executeAll (scopes.later more) self

/-- A loop whose body and increment refer to the variable of its initializer, at the start of a
    program, and a copy of it. -/
theorem forLoop_runs_as_written_once :
    let host := Host.standard 0
    let s := Session.start host .unlimited
    let source := "for (var x = true; x; x = false) print x;"
    let x : Token := ⟨.identifier, "x", 1⟩
    let l (inCondition inIncrement inBody : NodeId) : ForLoop :=
      ⟨some (.varDecl x (some (.literal (.bool true)))), some (.var inCondition x),
        some (.assign inIncrement x (.literal (.bool false))),
        .print ⟨.keyword .printWord, "print", 1⟩ (.var inBody x)⟩
    let m := (s.prepare source).session.machine
    let hops := ((m.hops.insert 4 0).insert 5 0).insert 6 0
    (s.prepare source).program = [(l 0 2 3).desugared] ∧ (s.prepare source).diagnostics = [] ∧
      Intact m 4 ∧ WrittenOut .top [] m 4 (l 0 2 3) (l 4 5 6) hops ∧
      ComeToTheSame ⟨m.hops, hops⟩ (itself m) m { m with hops }
        (fun fuel => execute host fuel (l 0 2 3).desugared) ((l 4 5 6).run host) := by
  intro host s source x l m hops
  -- all in one, so that the text is cut into tokens only once
  have evaluated : ((s.prepare source).program, (s.prepare source).diagnostics,
      (s.prepare source).session.fresh) = ([(l 0 2 3).desugared], [], 4) := by cbv
  obtain ⟨read, evaluated⟩ := Prod.mk.inj evaluated
  obtain ⟨accepted, fresh⟩ := Prod.mk.inj evaluated
  have listed : ∀ node, hops.get? node =
      if 6 = node then some 0 else if 5 = node then some 0 else if 4 = node then some 0
      else m.hops.get? node := by
    intro node
    simp [hops, Std.TreeMap.get?_eq_getElem?, Std.TreeMap.getElem?_insert]
  have old : AgreesBelow m 4 hops := by
    intro node below
    have apart (other : NodeId) (above : 4 ≤ other) : other ≠ node :=
      Nat.ne_of_gt (Nat.lt_of_lt_of_le below above)
    rw [listed, if_neg (apart 6 (by decide)), if_neg (apart 5 (by decide)),
      if_neg (apart 4 (by decide))]
  have references : ((l 4 5 6).findings .top []).references =
      [⟨4, x, some 0⟩, ⟨5, x, some 0⟩, ⟨6, x, some 0⟩] := by cbv
  have written : WrittenOut .top [] m 4 (l 0 2 3) (l 4 5 6) hops := by
    refine ⟨rfl, old, ?_⟩
    unfold Recorded
    rw [references]
    simp only [List.forall_mem_cons]
    exact ⟨listed 4, listed 5, listed 6, List.forall_mem_nil _⟩
  have config : (launch s 1 source).config = ⟨1, .interpret [(l 0 2 3).desugared], m⟩ :=
    congrArg (fun program => Config.mk 1 (.interpret program) m) read
  have reached : Reaches host (launch s 1 source).config
      ⟨1, .execute (l 0 2 3).desugared, m⟩ := by
    rw [config]
    exact .step .statement (.refl _)
  obtain ⟨intact, noted⟩ :=
    intact_in_course (honest_standard 0) (.start .unlimited) accepted reached
  rw [fresh] at intact
  have visits : Visits (readIn s source).value .top [] [(l 0 2 3).desugared] := by
    rw [← read, ← (prepare_accepted accepted).1]
    exact .start
  have result := (forLoop_runs_as_written (discreet_standard 0) 0 source (readIn_errors accepted)
    (prepare_accepted accepted).2.1 (l 0 2 3) rfl .top [] [] visits m 4 intact noted).2 (l 4 5 6)
    hops written
  exact ⟨read, accepted, intact, written, result.1⟩

end

end Lox.Evaluation
