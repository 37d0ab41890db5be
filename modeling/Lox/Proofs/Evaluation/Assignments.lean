import Lox.Proofs.Evaluation.Courses
import Lox.Proofs.Evaluation.Sessions

/-! # Assignments and the variables they are bound to

  A frame has no names but those that its scope knows by then (`CallExact`): what is declared
  further on is not there yet. So an assignment whose target was found in a scope around it
  meets its variable, with one exception that is decided by where it stands: in the initializer
  of the very variable, which is bound but not there, it fails (`assignments_meet_their_variables`).
-/

namespace Lox.Evaluation

open Binding

variable {L : Ledger} {host : Host} {m m' : Machine}

/-! ### Names of the innermost frame -/

/-- The innermost frame has no names but these. -/
def FrontWithin (m : Machine) (names : List String) : Prop :=
  ∃ frame outer, m.scope = frame :: outer ∧ frame < m.frames.records.size ∧
    ∀ name, Bound m frame name → name ∈ names

/-- The innermost frame does not have a name. -/
def FrontLacks (m : Machine) (name : String) : Prop :=
  ∃ frame outer, m.scope = frame :: outer ∧ frame < m.frames.records.size ∧
    m.frames.lookup? frame name = none

theorem FrontWithin.lacks {names : List String} {name : String} (h : FrontWithin m names)
    (other : name ∉ names) : FrontLacks m name := by
  obtain ⟨frame, outer, hscope, below, within⟩ := h
  refine ⟨frame, outer, hscope, below, ?_⟩
  cases found : m.frames.lookup? frame name with
  | none => rfl
  | some v =>
    have bound : Bound m frame name := Option.isSome_iff_exists.mpr ⟨v, found⟩
    exact absurd (within name bound) other

/-- Expressions add no name. -/
theorem FrontLacks.course {name : String} (h : FrontLacks m name) (course : Course [] m m') :
    FrontLacks m' name := by
  obtain ⟨frame, outer, hscope, below, missing⟩ := h
  refine ⟨frame, outer, course.scope.trans hscope, Nat.lt_of_lt_of_le below course.frames, ?_⟩
  exact course.absent frame name below missing fun no => absurd no List.not_mem_nil

theorem FrontWithin.course {names more : List String} (h : FrontWithin m names)
    (course : Course more m m') : FrontWithin m' (names ++ more) := by
  obtain ⟨frame, outer, hscope, below, within⟩ := h
  refine ⟨frame, outer, course.scope.trans hscope, Nat.lt_of_lt_of_le below course.frames, ?_⟩
  intro name bound
  rw [List.mem_append]
  by_cases old : Bound m frame name
  · exact .inl (within name old)
  · -- a name that was not there and is there now was added
    right
    by_contra notAdded
    have missing := course.absent frame name below (Option.not_isSome_iff_eq_none.mp old)
      fun mem => absurd mem notAdded
    simp [Bound, missing] at bound

/-- A frame that was just opened has the names it was opened with. -/
theorem frontWithin_child {outer : Scope} {bindings : Bindings Value} {names : List String}
    (frames : m'.frames = ⟨m.frames.records.push bindings⟩)
    (scope : m'.scope = m.frames.records.size :: outer)
    (keys : ∀ name v, bindings.get? name = some v → name ∈ names) : FrontWithin m' names := by
  refine ⟨m.frames.records.size, outer, scope, ?_, ?_⟩
  · rw [frames]
    show m.frames.records.size < (m.frames.records.push bindings).size
    rw [Array.size_push]
    exact Nat.lt_succ_self _
  · intro name bound
    unfold Bound at bound
    rw [frames, lookup?_push, if_pos rfl] at bound
    obtain ⟨v, found⟩ := Option.isSome_iff_exists.mp bound
    exact keys name v found

theorem foldl_set_keys {entries : List (Token × Value)} : ∀ {table : Bindings Value}
    {name : String} {v : Value},
    (entries.foldl (fun names (entry : Token × Value) => names.set entry.1.lexeme entry.2)
      table).get? name = some v →
    (table.get? name).isSome ∨ name ∈ entries.map (·.1.lexeme) := by
  induction entries with
  | nil => exact fun found => .inl (Option.isSome_iff_exists.mpr ⟨_, found⟩)
  | cons entry rest ih =>
    intro table name v found
    rw [List.foldl_cons] at found
    rcases ih found with old | later
    · by_cases same : name = entry.1.lexeme
      · exact .inr (same ▸ List.mem_cons_self ..)
      · rw [Bindings.get?_set_of_ne _ _ same] at old
        exact .inl old
    · exact .inr (List.mem_cons_of_mem _ later)

/-- The frame of a call has only parameters. -/
theorem argumentFrame_keys {params : List Token} {arguments : List Value} {name : String}
    {v : Value} (found : (argumentFrame params arguments).get? name = some v) :
    name ∈ params.map (·.lexeme) := by
  rcases foldl_set_keys found with no | mem
  · cases no
  · obtain ⟨entry, hentry, rfl⟩ := List.mem_map.mp mem
    exact List.mem_map_of_mem (List.of_mem_zip hentry).1

/-! ### What statements add -/

/-- A statement that can be read adds what it declares. -/
theorem added_eq {s : Stmt} (formed : WellFormed s) :
    added s = (declared? s).toList.map (·.lexeme) := by
  fun_induction added s with
  | case1 => simp [declared?]
  | case2 => simp [declared?]
  | case3 => simp [declared?]
  | case4 _ thenBranch ih =>
    obtain ⟨quiet, formed⟩ := formed
    rw [ih formed, quiet]
    simp [declared?]
  | case5 _ thenBranch elseBranch ih ih' =>
    obtain ⟨⟨quiet, formed⟩, quiet', formed'⟩ := formed
    rw [ih formed, ih' formed', quiet, quiet']
    simp [declared?]
  | case6 _ body ih =>
    obtain ⟨quiet, formed⟩ := formed
    rw [ih formed, quiet]
    simp [declared?]
  | case7 s => cases s <;> simp_all [declared?]

/-- The names that the scope of a body has after some of its statements. -/
def namesAfter (body : Body) (before : List Stmt) : List String :=
  (body.scope? before).elim [] (·.2)

theorem namesAfter_append {body : Body} (isLocal : (body.scope? []).isSome = true)
    (before : List Stmt) {s : Stmt} (formed : WellFormed s) :
    namesAfter body (before ++ [s]) = namesAfter body before ++ added s := by
  rw [added_eq formed]
  cases declares : declared? s with
  | none => simp [namesAfter, scope?_append_none body declares]
  | some name =>
    cases body with
    | program => cases isLocal
    | block => simp [namesAfter, Body.scope?, declaredNames_append_some declares]
    | routine => simp [namesAfter, Body.scope?, declaredNames_append_some declares]

/-! ### Calls on exact frames -/

/-- References that stand somewhere; if it is in the initializer of a local variable, they find
    the variable in the innermost scope, and the innermost frame does not have it. -/
def Untouched (L : Ledger) (m : Machine) (os : List Occurrence) : Prop :=
  ∃ path initialized, (∀ o ∈ os, L.sites (.occurrence path initialized o)) ∧
    ∀ token, initialized = some token → path.isLocal = true →
      path.hops? token = some 0 ∧ FrontLacks m token.lexeme

/-- A statement of a body or a part of one, and the names of the innermost frame there. -/
def StmtExact (L : Ledger) (m : Machine) (s : Stmt) : Prop :=
  ∃ body before current outer,
    (∀ site ∈ stmtSites (.within body before current :: outer) s, L.sites site) ∧
    WellFormed s ∧ (s = current ∨ declared? s = none) ∧
    ((body.scope? []).isSome = true → FrontWithin m (namesAfter body before))

/-- The statements of a body from one on, and the names of the innermost frame there. -/
def BodyExact (L : Ledger) (m : Machine) (ss : List Stmt) : Prop :=
  ∃ body before outer, (∀ site ∈ bodySites outer body before ss, L.sites site) ∧
    AllWellFormed ss ∧
    ((body.scope? []).isSome = true → FrontWithin m (namesAfter body before))

/-- What a call works on stands somewhere, and the innermost frame has no names but those that
    are known there. -/
def CallExact (L : Ledger) (m : Machine) : Call → Prop
  | .evaluate e => Untouched L m (occurrences e)
  | .evaluateAll es => Untouched L m (occurrencesAll es)
  | .execute s => StmtExact L m s
  | .executeAll ss => BodyExact L m ss
  | .loop condition body => StmtExact L m (.whileLoop condition body)
  | .interpret ss => BodyExact L m ss
  | _ => True

/-- The references of a part, after the parts before it. -/
theorem Untouched.part {os os' : List Occurrence} (h : Untouched L m os)
    (course : Course [] m m') (sub : ∀ o ∈ os', o ∈ os) : Untouched L m' os' := by
  obtain ⟨path, initialized, sites, lacks⟩ := h
  refine ⟨path, initialized, fun o ho => sites o (sub o ho), ?_⟩
  intro token initializes isLocal
  obtain ⟨hops, missing⟩ := lacks token initializes isLocal
  exact ⟨hops, missing.course course⟩

/-- References that are in no initializer. -/
theorem untouched_of_sites {path : Path} {e : Expr}
    (sites : ∀ site ∈ exprSites path none e, L.sites site) : Untouched L m (occurrences e) :=
  ⟨path, none, fun _ ho => sites _ (List.mem_map_of_mem ho), nofun⟩

section

variable {s s' : Stmt} {e : Expr}

/-- An expression of a statement, but for an initializer. -/
theorem StmtExact.expr (h : StmtExact L m s)
    (sub : ∀ path, ∀ site ∈ exprSites path none e, site ∈ stmtSites path s) :
    Untouched L m (occurrences e) := by
  obtain ⟨body, before, current, outer, sites, _⟩ := h
  exact untouched_of_sites fun site hsite => sites site (sub _ site hsite)

/-- What is declared is not there while its initializer is evaluated. -/
theorem StmtExact.initializer (lawful : Lawful L) {name : Token}
    (h : StmtExact L m (.varDecl name (some e))) : Untouched L m (occurrences e) := by
  obtain ⟨body, before, current, outer, sites, _, whole, front⟩ := h
  have whole : Stmt.varDecl name (some e) = current := by
    rcases whole with same | no
    · exact same
    · cases no
  subst whole
  refine ⟨.within body before (.varDecl name (some e)) :: outer, some name, ?_, ?_⟩
  · intro o ho
    exact sites _ (List.mem_cons_of_mem _ (List.mem_map_of_mem ho))
  · intro token same isLocal
    cases same
    refine ⟨?_, (front isLocal).lacks ?_⟩
    · -- the scope of the statement is the innermost one, and knows the name
      obtain ⟨construct, names, hscope, mem⟩ : ∃ construct names,
          body.scope? (before ++ [.varDecl name (some e)]) = some (construct, names) ∧
            name.lexeme ∈ names := by
        have declares : declared? (.varDecl name (some e)) = some name := rfl
        cases body with
        | program => cases isLocal
        | block => exact ⟨_, _, rfl, by simp [declaredNames_append_some declares]⟩
        | routine => exact ⟨_, _, rfl, by simp [declaredNames_append_some declares]⟩
      unfold Path.hops?
      rw [scopes_within, hscope]
      simp [List.findIdx?_cons, mem]
    · -- no name is declared twice in a scope
      have allowed := lawful.accepted _ (sites _ (List.mem_cons_self ..))
      rw [violation] at allowed
      split at allowed
      · cases allowed
      · next no => exact fun mem => no (List.contains_iff_mem.mpr mem)

/-- A branch or loop body of a statement, after its condition. -/
theorem StmtExact.part (h : StmtExact L m s) (course : Course [] m m')
    (formed : WellFormed s → WellFormed s' ∧ declared? s' = none)
    (sub : ∀ path, ∀ site ∈ stmtSites path s', site ∈ stmtSites path s) : StmtExact L m' s' := by
  obtain ⟨body, before, current, outer, sites, whole, _, front⟩ := h
  refine ⟨body, before, current, outer, fun site hsite => sites site (sub _ site hsite),
    (formed whole).1, .inr (formed whole).2, ?_⟩
  intro isLocal
  have within := (front isLocal).course course
  rwa [List.append_nil] at within

/-- Another round of a loop. The body of a loop declares nothing. -/
theorem StmtExact.again {m'' : Machine} {condition : Expr} {body : Stmt}
    (h : StmtExact L m (.whileLoop condition body)) (course : Course [] m m')
    (course' : Course (added body) m' m'') : StmtExact L m'' (.whileLoop condition body) := by
  obtain ⟨inside, before, current, outer, sites, ⟨quiet, formed⟩, whole, front⟩ := h
  refine ⟨inside, before, current, outer, sites, ⟨quiet, formed⟩, whole, ?_⟩
  rw [added_eq formed, quiet] at course'
  intro isLocal
  have within := (front isLocal).course (course.trans course')
  rwa [List.append_nil] at within

theorem StmtExact.block {body : List Stmt} (h : StmtExact L m (.block body)) :
    BodyExact L (blockEntry m) body := by
  obtain ⟨outside, before, current, outer, sites, formed, _, _⟩ := h
  refine ⟨.block body, [], .within outside before current :: outer, sites, formed, ?_⟩
  intro _
  exact frontWithin_child rfl rfl fun _ _ no => nomatch no

theorem BodyExact.first {rest : List Stmt} (h : BodyExact L m (s :: rest)) :
    StmtExact L m s := by
  obtain ⟨body, before, outer, sites, formed, front⟩ := h
  refine ⟨body, before, s, outer, ?_, formed.1, .inl rfl, front⟩
  intro site hsite
  apply sites
  rw [bodySites, List.mem_append]
  exact .inl hsite

/-- The first statement adds what the scope knows from then on. -/
theorem BodyExact.rest {rest : List Stmt} (h : BodyExact L m (s :: rest))
    (course : Course (added s) m m') : BodyExact L m' rest := by
  obtain ⟨body, before, outer, sites, formed, front⟩ := h
  refine ⟨body, before ++ [s], outer, ?_, formed.2, ?_⟩
  · intro site hsite
    apply sites
    rw [bodySites, List.mem_append]
    exact .inr hsite
  · intro isLocal
    rw [namesAfter_append isLocal before formed.1]
    exact (front isLocal).course course

end

/-- The body of a function, in a frame that has its parameters. -/
theorem body_exact {closure : Closure} (fits : ClosureFits L m closure) (arguments : List Value) :
    BodyExact L (activation closure arguments m) closure.declaration.body := by
  obtain ⟨isMethod, outer, sites, legible, _⟩ := fits
  refine ⟨.routine isMethod closure.declaration, [], outer, ?_, legible.body.1, ?_⟩
  · intro site hsite
    apply sites
    rw [functionSites_eq, List.mem_append]
    exact .inr hsite
  · intro _
    have known : namesAfter (.routine isMethod closure.declaration) [] =
        closure.declaration.params.map (·.lexeme) := by
      simp [namesAfter, Body.scope?, declaredNames]
    rw [known]
    exact frontWithin_child rfl rfl fun _ _ found => argumentFrame_keys found

/-! ### One step and many -/

/-- A call on exact frames makes only calls on exact frames. -/
theorem CallExact.step (lawful : Lawful L) {c c' : Config} (fits : Fits L host c)
    (h : CallExact L c.machine c.call) (calls : Calls host c c') :
    CallExact L c'.machine c'.call := by
  have evaluated : ∀ {fuel e m v m'}, evaluate host fuel e m = .ok v m' → Course [] m m' :=
    fun run => ((addsAt host _).evaluate _).ok run
  have executed : ∀ {fuel s m flow m'}, execute host fuel s m = .ok flow m' →
      Course (added s) m m' := fun run => ((addsAt host _).execute _).ok run
  cases calls with
  -- expressions
  | grouping => exact h.part (.refl _) fun _ ho => ho
  | unary => exact h.part (.refl _) fun _ ho => ho
  | binaryLeft => exact h.part (.refl _) fun _ ho => List.mem_append_left _ ho
  | binaryRight run => exact h.part (evaluated run) fun _ ho => List.mem_append_right _ ho
  | logicalLeft => exact h.part (.refl _) fun _ ho => List.mem_append_left _ ho
  | logicalRight run => exact h.part (evaluated run) fun _ ho => List.mem_append_right _ ho
  | assigned => exact h.part (.refl _) fun _ ho => List.mem_append_left _ ho
  | callee => exact h.part (.refl _) fun _ ho => List.mem_append_left _ ho
  | arguments run => exact h.part (evaluated run) fun _ ho => List.mem_append_right _ ho
  | invoke => trivial
  | got => exact h.part (.refl _) fun _ ho => ho
  | setObject => exact h.part (.refl _) fun _ ho => List.mem_append_right _ ho
  | setValue run => exact h.part (evaluated run) fun _ ho => List.mem_append_left _ ho
  | first => exact h.part (.refl _) fun _ ho => List.mem_append_left _ ho
  | others run => exact h.part (evaluated run) fun _ ho => List.mem_append_right _ ho
  -- functions and classes
  | function => trivial
  | classObject => trivial
  | @body _ _ arguments => exact body_exact fits.call.1 arguments
  | initializer => trivial
  -- statements
  | expression => exact h.expr fun _ _ hsite => hsite
  | printed => exact h.expr fun _ _ hsite => hsite
  | declared => exact h.initializer lawful
  | block => exact h.block
  | @condition _ _ _ elseBranch =>
    apply h.expr
    intro path site hsite
    cases elseBranch <;> simp [stmtSites, hsite]
  | @thenBranch _ _ _ elseBranch _ _ _ run =>
    cases elseBranch with
    | none =>
      exact h.part (evaluated run) (fun formed => ⟨formed.2, formed.1⟩)
        fun _ _ hsite => List.mem_append_right _ hsite
    | some =>
      exact h.part (evaluated run) (fun formed => ⟨formed.1.2, formed.1.1⟩)
        fun _ _ hsite => List.mem_append_left _ (List.mem_append_right _ hsite)
  | elseBranch run =>
    exact h.part (evaluated run) (fun formed => ⟨formed.2.2, formed.2.1⟩)
      fun _ _ hsite => List.mem_append_right _ hsite
  | whileLoop => exact h
  | returned => exact h.expr fun _ _ hsite => List.mem_cons_of_mem _ hsite
  | superclass =>
    obtain ⟨body, before, current, outer, sites, formed, _⟩ := h
    obtain ⟨node, parent, rfl⟩ := formed.1 _ rfl
    apply untouched_of_sites
    intro site hsite
    exact sites site (List.mem_append_left _ (List.mem_cons_of_mem _
      (List.mem_cons_of_mem _ hsite)))
  | firstOf => exact h.first
  | restOf run => exact h.rest (executed run)
  | loopCondition => exact h.expr fun _ _ hsite => List.mem_append_left _ hsite
  | loopBody run =>
    exact h.part (evaluated run) (fun formed => ⟨formed.2, formed.1⟩)
      fun _ _ hsite => List.mem_append_right _ hsite
  | again run _ run' => exact h.again (evaluated run) (executed run')
  -- programs
  | statement => exact h.first
  | statements run => exact h.rest (executed run)

/-- Every call in the course of a run is on exact frames, if the first one is. -/
theorem CallExact.reach (honest : Honest host) (lawful : Lawful L) {c c' : Config}
    (reached : Reaches host c c') (fits : Fits L host c) (h : CallExact L c.machine c.call) :
    CallExact L c'.machine c'.call := by
  induction reached with
  | refl => exact h
  | step calls _ ih =>
    exact ih (fits.step lawful calls (soundAt honest lawful _)) (h.step lawful fits calls)

/-! ### Assignments -/

section

variable {node : NodeId} {name : Token} {value : Expr} {fuel : Nat} {v : Value}

/-- What becomes of an assignment whose value is there. -/
theorem evaluate_assign (run : evaluate host fuel value m = .ok v m') :
    evaluate host (fuel + 1) (.assign node name value) m =
      (Run.assignVariable node name v >>= fun _ => pure v) m' := by
  rw [evaluate, bind_ok run]

/-- An assignment whose variable is there goes to the frame that has it. -/
theorem assign_bound {d : Nat} {frame : FrameId} (noted : m'.hops.get? node = some d)
    (hframe : m'.scope[d]? = some frame) (bound : Bound m' frame name.lexeme)
    (run : evaluate host fuel value m = .ok v m') :
    evaluate host (fuel + 1) (.assign node name value) m =
      .ok v { m' with frames := m'.frames.put frame name.lexeme v } := by
  have put := assignVariable_eq noted (findAt?_eq hframe bound) v
  rw [evaluate_assign run, bind_ok put]
  rfl

/-- In the initializer of its own variable an assignment fails. -/
theorem assign_premature (good : Good L m') {path : Path} {initialized : Option Token}
    (site : L.sites (.occurrence path initialized (.assign node name)))
    (premature : Premature path initialized (.assign node name))
    (lacks : ∀ token, initialized = some token → path.isLocal = true →
      path.hops? token = some 0 ∧ FrontLacks m' token.lexeme)
    (run : evaluate host fuel value m = .ok v m') :
    evaluate host (fuel + 1) (.assign node name value) m =
      .error (.fault (.undefined name)) m' := by
  obtain ⟨isLocal, token, initializes, same⟩ := premature
  obtain ⟨hops, frame, outer, hscope, _, missing⟩ := lacks token initializes isLocal
  rw [same] at missing
  have noted : m'.hops.get? node = some 0 := by
    have found := good.hops _ _ _ site
    unfold Path.hops? at hops found
    rw [same] at hops
    exact found.trans hops
  have nowhere : m'.frames.findAt? m'.scope 0 name.lexeme = none := by
    simp [Frames.findAt?, hscope, Frames.ancestor, missing]
  rw [evaluate_assign run, bind_error]
  simp only [assignVariable_apply, noted, Run.assignIn, nowhere]

end

variable {s : Session} {launches : List Launch}

/-- Around a program there is no scope. -/
theorem launch_exact {source : String} (accepted : (s.prepare source).diagnostics = [])
    {fuel : Nat} :
    CallExact (ledger host (launch s fuel source :: launches)) (launch s fuel source).machine
      (.interpret (launch s fuel source).program) := by
  refine ⟨.program, [], [], ?_, ?_, nofun⟩
  · exact fun site hsite => ⟨_, List.mem_cons_self .., hsite⟩
  · show AllWellFormed (s.prepare source).program
    rw [(prepare_accepted accepted).1]
    exact Grammar.readProgram_wellFormed _ _

/-- Once the value of an assignment is there whose target was found in a scope around it, one
    of two things happens, and where it stands decides which. If it does not stand in the
    initializer of the local variable that it is to, it goes to the frame that was opened for
    the scope, which has the variable. If it does, it fails, as the variable is not there
    yet. -/
theorem assignments_meet_their_variables (honest : Honest host)
    (history : History host s launches) {source : String}
    (accepted : (s.prepare source).diagnostics = []) {fuel fuel' : Nat} {node : NodeId}
    {name : Token} {value : Expr} {m : Machine}
    (reached : Reaches host (launch s fuel source).config
      ⟨fuel' + 1, .evaluate (.assign node name value), m⟩)
    {d : Nat} (noted : m.hops.get? node = some d) :
    ∃ path initialized,
      -- where it stands, and nothing else of its identity does
      Sited (launch s fuel source :: launches) (.occurrence path initialized (.assign node name)) ∧
      (∀ site, Sited (launch s fuel source :: launches) site → site.node? = some node →
        site = .occurrence path initialized (.assign node name)) ∧
      ∀ v m', evaluate host fuel' value m = .ok v m' →
        (¬Premature path initialized (.assign node name) →
          ∃ construct names frame,
            path.scopes[d]? = some (construct, names) ∧ name.lexeme ∈ names ∧
            Created host (launch s fuel source :: launches) frame construct ∧
            m'.scope[d]? = some frame ∧ (m'.frames.lookup? frame name.lexeme).isSome = true ∧
            evaluate host (fuel' + 1) (.assign node name value) m =
              .ok v { m' with frames := m'.frames.put frame name.lexeme v }) ∧
        (Premature path initialized (.assign node name) →
          evaluate host (fuel' + 1) (.assign node name value) m =
            .error (.fault (.undefined name)) m') := by
  have settled := history.settled honest
  have lawful : Lawful (ledger host (launch s fuel source :: launches)) :=
    settled.lawful_cons accepted
  have starts : Fits _ host (launch s fuel source).config := settled.launch_fits accepted
  have fits := starts.reach honest lawful reached
  obtain ⟨path, initialized, sites, lacks⟩ :=
    CallExact.reach honest lawful reached starts (launch_exact accepted)
  have site := sites (.assign node name) (List.mem_append_right _ (List.mem_singleton_self _))
  have alone : ∀ other, Sited (launch s fuel source :: launches) other →
      other.node? = some node → other = .occurrence path initialized (.assign node name) :=
    fun other hother hnode => settled.distinct_cons accepted other _ node hother site hnode rfl
  refine ⟨path, initialized, site, alone, ?_⟩
  intro v m' run
  have access : Accesses host _ (.assign node name) m' := .assign run
  obtain ⟨good, placed⟩ := accesses_placed honest lawful fits access
  have course := ((addsAt host fuel').evaluate value).ok run
  refine ⟨?_, ?_⟩
  · intro timely
    have noted' : m'.hops.get? node = some d :=
      (good.hops _ _ _ site).trans ((fits.good.hops _ _ _ site).symm.trans noted)
    obtain ⟨path', initialized', construct, names, frame, site', _, scope, mem, hframe, created,
      bound⟩ := placed_leads lawful good placed noted'
    -- it stands in one place only
    cases alone _ site' rfl
    exact ⟨construct, names, frame, scope, mem, created, hframe, bound timely,
      assign_bound noted' hframe (bound timely) run⟩
  · intro premature
    refine assign_premature good site premature ?_ run
    intro token initializes isLocal
    obtain ⟨hops, missing⟩ := lacks token initializes isLocal
    exact ⟨hops, missing.course course⟩

/-- An assignment after the declaration. -/
theorem assignments_meet_their_variables_later :
    let host := Host.standard 0
    let l := launch (.start host .unlimited) 6 "\x7b var a; a = true; \x7d"
    ∃ m frame,
      Reaches host l.config
        ⟨2, .evaluate (.assign 1 ⟨.identifier, "a", 1⟩ (.literal (.bool true))), m⟩ ∧
      m.hops.get? 1 = some 0 ∧ m.scope[0]? = some frame ∧
      evaluate host 2 (.assign 1 ⟨.identifier, "a", 1⟩ (.literal (.bool true))) m =
        .ok (.bool true) { m with frames := m.frames.put frame "a" (.bool true) } := by
  intro host l
  have accepted : (Session.prepare (.start host .unlimited)
      "\x7b var a; a = true; \x7d").diagnostics = [] := by cbv
  have program : l.program = [.block [.varDecl ⟨.identifier, "a", 1⟩ none,
      .expression (.assign 1 ⟨.identifier, "a", 1⟩ (.literal (.bool true)))]] := by cbv
  have noted : l.machine.hops.get? 1 = some 0 := by cbv
  have config : l.config = ⟨6, .interpret [.block [.varDecl ⟨.identifier, "a", 1⟩ none,
      .expression (.assign 1 ⟨.identifier, "a", 1⟩ (.literal (.bool true)))]], l.machine⟩ :=
    congrArg (fun p => Config.mk 6 (.interpret p) l.machine) program
  obtain ⟨m, reached, same⟩ : ∃ m, Reaches host l.config
      ⟨2, .evaluate (.assign 1 ⟨.identifier, "a", 1⟩ (.literal (.bool true))), m⟩ ∧
        m.hops = l.machine.hops := by
    rw [config]
    exact ⟨_, .step .statement (.step .block (.step (.restOf rfl) (.step .firstOf
      (.step .expression (.refl _))))), rfl⟩
  rw [← same] at noted
  obtain ⟨path, initialized, _, alone, outcome⟩ := assignments_meet_their_variables
    (honest_standard 0) (.start .unlimited) accepted reached noted
  -- it stands in no initializer
  obtain ⟨around, mem⟩ : ∃ around, Site.occurrence around none
      (.assign 1 ⟨.identifier, "a", 1⟩) ∈ programSites l.program := by
    rw [program]
    exact ⟨_, List.mem_cons_of_mem _ (List.mem_cons_self ..)⟩
  cases alone _ ⟨l, List.mem_singleton_self l, mem⟩ rfl
  have timely : ¬Premature path none (.assign 1 ⟨.identifier, "a", 1⟩) := by
    rintro ⟨_, _, no, _⟩
    cases no
  obtain ⟨_, _, frame, _, _, _, hframe, _, run⟩ := (outcome (.bool true) m rfl).1 timely
  exact ⟨m, frame, reached, noted, hframe, run⟩

/-- A variable assigned in its own initializer: the text is accepted, and its run ends with the
    complaint that there is no such variable. -/
theorem assignment_in_own_initializer_fails :
    let host := Host.standard 0
    let source := "\x7b var a = (a = true); print a; \x7d"
    (Session.prepare (.start host .unlimited) source).diagnostics = [] ∧
      (launch (.start host .unlimited) 12 source).machine.hops.get? 1 = some 0 ∧
      (Session.run host 12 source (.start host .unlimited)).map (·.1) =
        some [.fault (.undefined ⟨.identifier, "a", 1⟩)] := by
  intro host source
  refine ⟨?_, ?_, ?_⟩
  · cbv
  · cbv
  · cbv

end Lox.Evaluation
