import Lox.Proofs.Evaluation.Timelines

/-! # Links and when they are made

  A frame is opened inside a scope, and a class is built on its superclass. `Nests` and `Builds`
  say which calls do so. Both draw an identity that no other call of a run draws
  (`nests_numbers`, `builds_numbers`): so the scope that a frame was opened in and the superclass
  that a class was built on are given by the identity alone.
-/

namespace Lox.Evaluation

variable {α β : Type} {host : Host} {m m' : Machine} {c c₁ c₂ : Config}

/-- The frame that a call opens itself, and the scope in which it does so. -/
inductive Nests (host : Host) : Config → FrameId → Scope → Prop where
  | block {fuel : Nat} {body : List Stmt} {m : Machine} :
      Nests host ⟨fuel + 1, .execute (.block body), m⟩ m.frames.records.size m.scope
  | routine {fuel : Nat} {closure : Closure} {arguments : List Value} {paren : Token}
      {m : Machine} :
      Nests host ⟨fuel + 1, .enter closure arguments paren, m⟩ m.frames.records.size
        closure.scope
  | superLayer {fuel : Nat} {name : Token} {parent : Expr} {methods : List FunctionDecl}
      {m m' : Machine} {c : Class} : evaluate host fuel parent m = .ok (.classObject c) m' →
      Nests host ⟨fuel + 1, .execute (.classDecl name (some parent) methods), m⟩
        m'.frames.records.size m'.scope
  | boundProperty {fuel : Nat} {object : Expr} {name : Token} {m m' : Machine}
      {target : Instance} {method : Closure} :
      evaluate host fuel object m = .ok (.object target) m' →
      (m'.fields[target.id]?).bind (·.get? name.lexeme) = none →
      target.ofClass.findMethod? name.lexeme = some method →
      Nests host ⟨fuel + 1, .evaluate (.get object name), m⟩ m'.frames.records.size
        method.scope
  | boundSuper {fuel : Nat} {node : NodeId} {keyword method : Token} {m m' : Machine}
      {bound : Closure} {frame : FrameId} {outer : Scope} :
      superMethod node keyword method m = .ok (.function bound) m' →
      bound.scope = frame :: outer →
      Nests host ⟨fuel + 1, .evaluate (.superRef node keyword method), m⟩ frame outer
  | boundInitializer {fuel : Nat} {c : Class} {arguments : List Value} {paren : Token}
      {m : Machine} {initializer : Closure} : c.initializer? = some initializer →
      Nests host ⟨fuel + 1, .instantiate c arguments paren, m⟩ m.frames.records.size
        initializer.scope

/-- A call builds a class itself, on what its superclass came to. -/
def Builds (host : Host) (c : Config) (parent : Option Class) (built : Class) : Prop :=
  ∃ name superclass methods, Does host c (.declared name superclass methods parent built)

/-! ### Computations that ended well -/

theorem ok_of_bind {x : Run α} {f : α → Run β} {b : β}
    (run : (x >>= f) m = .ok b m') : ∃ a m₁, x m = .ok a m₁ ∧ f a m₁ = .ok b m' := by
  cases first : x m with
  | ok a m₁ =>
    rw [bind_ok first] at run
    exact ⟨a, m₁, rfl, run⟩
  | error e m₁ =>
    rw [bind_error first] at run
    cases run

theorem bindMethod_eq (method : Closure) (target : Instance) (m : Machine) :
    Run.bindMethod method target m =
      .ok ⟨m.serial, method.declaration, m.frames.records.size :: method.scope,
          method.isInitializer⟩
        { m with
          frames := ⟨m.frames.records.push (.single "this" (.object target))⟩
          serial := m.serial + 1 } := rfl

theorem ok_of_readAt {scope : Scope} {distance : Nat} {name : Token} {v : Value}
    (run : Run.readAt scope distance name m = .ok v m') :
    m' = m ∧ m.frames.getAt? scope distance name.lexeme = some v := by
  rw [readAt_apply] at run
  split at run
  · next found =>
    cases run
    exact ⟨rfl, found⟩
  · cases run

theorem ok_of_asClass {token : Token} {v : Value} {parent : Class}
    (run : asClass token v m = .ok parent m') : m' = m ∧ v = .classObject parent := by
  cases v with
  | classObject c =>
    cases run
    exact ⟨rfl, rfl⟩
  | _ => cases run

theorem ok_of_asInstance {token : Token} {v : Value} {target : Instance}
    (run : asInstance token v m = .ok target m') : m' = m ∧ v = .object target := by
  cases v with
  | object o =>
    cases run
    exact ⟨rfl, rfl⟩
  | _ => cases run

/-- A `super` that was found is a method of the superclass in view, bound to the instance in
    view. -/
theorem ok_of_superMethod {node : NodeId} {keyword method : Token} {v : Value}
    (run : superMethod node keyword method m = .ok v m') :
    ∃ d parent target found closure, m.hops.get? node = some d ∧
      m.frames.getAt? m.scope d keyword.lexeme = some (.classObject parent) ∧
      m.frames.getAt? m.scope (d - 1) "this" = some (.object target) ∧
      parent.findMethod? method.lexeme = some found ∧
      Run.bindMethod found target m = .ok closure m' ∧ v = .function closure := by
  -- each step has ended well, and all but the last one leave the machine as it is
  unfold superMethod at run
  obtain ⟨hops, _, noted, run⟩ := ok_of_bind run
  cases noted
  cases hd : m.hops.get? node with
  | none =>
    rw [hd] at run
    cases run
  | some d =>
    rw [hd] at run
    obtain ⟨_, _, here, run₁⟩ := ok_of_bind run
    cases here
    obtain ⟨_, _, super, run₂⟩ := ok_of_bind run₁
    obtain ⟨rfl, super⟩ := ok_of_readAt super
    obtain ⟨parent, _, isClass, run₃⟩ := ok_of_bind run₂
    obtain ⟨rfl, rfl⟩ := ok_of_asClass isClass
    obtain ⟨_, _, this, run₄⟩ := ok_of_bind run₃
    obtain ⟨rfl, this⟩ := ok_of_readAt this
    obtain ⟨target, _, isInstance, run₅⟩ := ok_of_bind run₄
    obtain ⟨rfl, rfl⟩ := ok_of_asInstance isInstance
    cases hfound : parent.findMethod? method.lexeme with
    | none =>
      rw [hfound] at run₅
      cases run₅
    | some found =>
      rw [hfound] at run₅
      obtain ⟨closure, _, bound, run₆⟩ := ok_of_bind run₅
      cases run₆
      exact ⟨d, parent, target, found, closure, rfl, super, this, hfound, bound, rfl⟩

/-- What is put where a name is found is what the name stands for afterwards. -/
theorem get?_put_of_find? {scope : Scope} {name : String} {frame : FrameId} {v : Value}
    (found : m.frames.find? scope name = some frame) :
    (m.frames.put frame name v).get? scope name = some v := by
  obtain ⟨bound, before, after, rfl, others⟩ := List.find?_eq_some_iff_append.mp found
  -- the frames before it do not have the name, and still do not
  have skipped : before.findSome? (fun f => (m.frames.put frame name v).lookup? f name) = none := by
    rw [List.findSome?_eq_none_iff]
    intro f hf
    have missing : m.frames.lookup? f name = none := by simpa using others f hf
    apply lookup?_put_none missing
    rintro _ rfl
    rw [missing] at bound
    cases bound
  unfold Frames.get?
  rw [List.findSome?_append, skipped, Option.none_or, List.findSome?_cons,
    m.frames.lookup?_put_self name v (below_of_bound bound)]

/-- With a superclass, a frame is opened. -/
theorem declareClass_opens (name : Token) (parent : Class) (methods : List FunctionDecl)
    (m : Machine) : m.frames.records.size <
      (machineAfter (declareClass name (some parent) methods m)).frames.records.size := by
  let m₁ : Machine := { m with frames := m.frames.define m.scope name.lexeme .nil }
  let m₂ : Machine :=
    { m₁ with frames := ⟨m₁.frames.records.push (.single "super" (.classObject parent))⟩ }
  have opened : m.frames.records.size < m₂.frames.records.size := by
    have course : Course [name.lexeme] m m₁ := adds_define (List.mem_singleton_self _) _ m
    show _ < (m₁.frames.records.push _).size
    rw [Array.size_push]
    exact Nat.lt_succ_of_le course.frames
  -- what follows the frame of `super` takes none away
  have rest : Adds [] (methodTable (m₁.frames.records.size :: m₁.scope) methods .empty >>=
      fun table => Run.newIdentity >>= fun id =>
        Run.assignIn (fun m => m.frames.find? m.scope name.lexeme) name
          (.classObject (.make ⟨id, name.lexeme, table⟩ (some parent)))) :=
    adds_bind (adds_methodTable _ _ _) fun _ => adds_bind adds_newIdentity fun _ =>
      adds_assignIn (fun _ _ found => bound_of_find? found) _
  exact Nat.lt_of_lt_of_le opened (rest m₂).frames

/-- Whether a method makes instances ready is told by its name. -/
def NamesTell (table : Bindings Closure) : Prop :=
  ∀ name method, table.get? name = some method →
    method.isInitializer = method.declaration.isInitializer

/-- The last method of a name in a class declaration. -/
def lastNamed? (name : String) (methods : List FunctionDecl) : Option FunctionDecl :=
  methods.reverse.find? (·.name.lexeme = name)

theorem lastNamed?_cons (name : String) (method : FunctionDecl) (rest : List FunctionDecl) :
    lastNamed? name (method :: rest) =
      (lastNamed? name rest).or (if method.name.lexeme = name then some method else none) := by
  unfold lastNamed?
  rw [List.reverse_cons, List.find?_append, List.find?_singleton]
  simp only [decide_eq_true_eq]

/-- A table has a method for each name in a class declaration, the last one of that name. -/
def Tabulates (table : Bindings Closure) (methods : List FunctionDecl) : Prop :=
  ∀ name, (table.get? name).map (fun method => (method.declaration, method.isInitializer)) =
    (lastNamed? name methods).map fun f => (f, f.isInitializer)

theorem Tabulates.namesTell {table : Bindings Closure} {methods : List FunctionDecl}
    (h : Tabulates table methods) : NamesTell table := by
  intro name method found
  have same := h name
  rw [found, Option.map_some] at same
  obtain ⟨f, _, pair⟩ := Option.map_eq_some_iff.mp same.symm
  obtain ⟨declaration, initializes⟩ := Prod.mk.inj pair
  rw [← initializes, declaration]

/-- The methods of a declaration take the places of those that a table had of their names. -/
theorem ok_of_methodTable {scope : Scope} {methods : List FunctionDecl} {name : String} :
    ∀ {table table' : Bindings Closure} {m : Machine},
      methodTable scope methods table m = .ok table' m' →
      (table'.get? name).map (fun method => (method.declaration, method.isInitializer)) =
        ((lastNamed? name methods).map fun f => (f, f.isInitializer)).or
          ((table.get? name).map fun method => (method.declaration, method.isInitializer)) := by
  induction methods with
  | nil =>
    intro table table' m run
    cases run
    rfl
  | cons method rest ih =>
    intro table table' m run
    obtain ⟨closure, m₁, made, run⟩ := ok_of_bind run
    cases made
    rw [ih run, lastNamed?_cons]
    -- a later method of the same name would have taken its place
    by_cases own : method.name.lexeme = name
    · rw [if_pos own, ← own, Bindings.get?_set_self]
      cases lastNamed? method.name.lexeme rest <;> rfl
    · rw [if_neg own, Option.or_none, Bindings.get?_set_of_ne _ _ (Ne.symm own)]

/-- A class declaration that ended well has given the class an identity of its own. -/
theorem ok_of_declareClass {name : Token} {parent : Option Class} {methods : List FunctionDecl}
    (run : declareClass name parent methods m = .ok () m') :
    ∃ body : ClassBody, Tabulates body.methods methods ∧ m.serial ≤ body.id ∧
      body.id < m'.serial ∧
      m'.frames.get? m'.scope name.lexeme = some (.classObject (.make body parent)) := by
  obtain ⟨_, m₁, run₁, run⟩ := ok_of_bind run
  obtain ⟨scope, m₂, run₂, run⟩ := ok_of_bind run
  obtain ⟨table, m₃, run₃, run⟩ := ok_of_bind run
  obtain ⟨id, m₄, run₄, run⟩ := ok_of_bind run
  have course₁ : Course [name.lexeme] m m₁ := (adds_define (List.mem_singleton_self _) _).ok run₁
  have course₂ : Course [name.lexeme] m₁ m₂ := (adds_methodScope _).ok run₂
  have course₃ : Course [name.lexeme] m₂ m₃ := (adds_methodTable _ _ _).ok run₃
  have older := (course₁.trans (course₂.trans course₃)).serial
  have tabulates : Tabulates table methods := by
    intro name
    rw [ok_of_methodTable run₃, Bindings.get?_empty, Option.map_none, Option.or_none]
  cases run₄
  simp only [Run.assignIn] at run
  split at run
  · next frame found =>
    cases run
    exact ⟨⟨m₃.serial, name.lexeme, table⟩, tabulates, older, Nat.lt_succ_self _,
      get?_put_of_find? found⟩
  · cases run

/-! ### Frames -/

section

variable {frame frame' : FrameId} {outer outer' : Scope}

/-- A call opens one frame, in one scope. -/
theorem Nests.unique (h : Nests host c frame outer) (h' : Nests host c frame' outer') :
    frame = frame' ∧ outer = outer' := by
  cases h with
  | block =>
    cases h'
    exact ⟨rfl, rfl⟩
  | routine =>
    cases h'
    exact ⟨rfl, rfl⟩
  | superLayer run =>
    cases h' with
    | superLayer run' =>
      cases run.symm.trans run'
      exact ⟨rfl, rfl⟩
  | boundProperty run _ found =>
    cases h' with
    | boundProperty run' _ found' =>
      cases run.symm.trans run'
      cases found.symm.trans found'
      exact ⟨rfl, rfl⟩
  | boundSuper run scope =>
    cases h' with
    | boundSuper run' scope' =>
      cases run.symm.trans run'
      cases scope.symm.trans scope'
      exact ⟨rfl, rfl⟩
  | boundInitializer found =>
    cases h' with
    | boundInitializer found' =>
      cases found.symm.trans found'
      exact ⟨rfl, rfl⟩

theorem size_child (frames : Frames Value) (bindings : Bindings Value) :
    frames.records.size < (frames.records.push bindings).size := by
  rw [Array.size_push]
  exact Nat.lt_succ_self _

/-- Where a call opens a frame and then makes a call, the frame is there by then. -/
theorem opened_before {n : Nat} {c' : Config} (calls : Calls host c c')
    (here : c.machine.frames.records.size = n) (there : n < c'.machine.frames.records.size) :
    c.machine.frames.records.size ≤ n ∧ n < (c.after host).frames.records.size := by
  refine ⟨Nat.le_of_eq here, ?_⟩
  calc n < c'.machine.frames.records.size := there
    _ ≤ (c'.after host).frames.records.size := (c'.older host).frames
    _ ≤ (c.after host).frames.records.size := (calls_end calls).frames

/-- Frames are numbered in the order in which they are opened. -/
theorem nests_numbers (host : Host) : Numbers host (·.frames.records.size)
    fun c frame => ∃ outer, Nests host c frame outer := by
  refine ⟨fun older => older.frames, ?_, ?_⟩
  -- the frame is not there before the call and is there after it
  · rintro c frame ⟨outer, nests⟩
    cases nests with
    | block => exact opened_before .block rfl (size_child _ _)
    | routine => exact opened_before .body rfl (size_child _ _)
    | @superLayer fuel name parent methods m m' p run =>
      refine ⟨(older_evaluate run).frames, ?_⟩
      show _ < (machineAfter (execute host (fuel + 1) _ m)).frames.records.size
      rw [execute, bind_ok run]
      have ends : Older (machineAfter (declareClass name (some p) methods m')) _ :=
        older_bind [] (fun _ => adds_pure Flow.next) m'
      exact Nat.lt_of_lt_of_le (declareClass_opens name p methods m') ends.frames
    | @boundProperty fuel object name m m' target method run field found =>
      refine ⟨(older_evaluate run).frames, ?_⟩
      show _ < (machineAfter (evaluate host (fuel + 1) _ m)).frames.records.size
      rw [evaluate, bind_ok run]
      show _ < (machineAfter (Run.property target name m')).frames.records.size
      have bound : Run.property target name m' =
          (Value.function <$> Run.bindMethod method target) m' := by
        unfold Run.property
        simp only [bind, EStateM.bind, get, getThe, MonadStateOf.get, EStateM.get, field, found]
        rfl
      rw [bound]
      exact size_child _ _
    | @boundSuper fuel node keyword method m m' bound frame outer run scope =>
      obtain ⟨_, _, _, _, _, _, _, _, _, binding, same⟩ := ok_of_superMethod run
      cases same
      cases binding
      cases scope
      refine ⟨Nat.le_refl _, ?_⟩
      show _ < (machineAfter (superMethod node keyword method m)).frames.records.size
      rw [run]
      exact size_child _ _
    | boundInitializer found =>
      exact opened_before (.initializer rfl found rfl) rfl (size_child _ _)
  -- the body of a block or function runs when its frame is there; other frames are opened last
  · rintro c c' frame ⟨outer, nests⟩ calls
    cases nests with
    | block =>
      cases calls
      exact .inr (size_child _ _)
    | routine =>
      cases calls
      exact .inr (size_child _ _)
    | superLayer run =>
      cases calls
      exact .inl (evaluate_ended run).frames
    | boundProperty run =>
      cases calls
      exact .inl (evaluate_ended run).frames
    | boundSuper => cases calls
    | boundInitializer found =>
      cases calls with
      | initializer made _ bound =>
        cases made
        cases bound
        exact .inr (size_child _ _)

end

/-! ### Classes -/

/-- A call builds one class. -/
theorem Builds.unique {parent parent' : Option Class} {built built' : Class}
    (h : Builds host c parent built) (h' : Builds host c parent' built') :
    parent = parent' ∧ built = built' := by
  obtain ⟨_, _, _, does⟩ := h
  obtain ⟨_, _, _, does'⟩ := h'
  cases does with
  | base run named =>
    cases does' with
    | base run' named' =>
      cases run.symm.trans run'
      cases named.symm.trans named'
      exact ⟨rfl, rfl⟩
  | derived first run named =>
    cases does' with
    | derived first' run' named' =>
      cases first.symm.trans first'
      cases run.symm.trans run'
      cases named.symm.trans named'
      exact ⟨rfl, rfl⟩

/-- What is declared is a class on the superclass with the methods of its declaration, and has an
    identity drawn after that of the superclass was evaluated. -/
theorem Does.declares {name : Token} {superclass : Option Expr} {methods : List FunctionDecl}
    {parent : Option Class} {built : Class}
    (does : Does host c (.declared name superclass methods parent built)) :
    ∃ body : ClassBody, built = .make body parent ∧ Tabulates body.methods methods ∧
      c.machine.serial ≤ body.id ∧ body.id < (c.after host).serial ∧
      ∀ c', Calls host c c' → (c'.after host).serial ≤ body.id := by
  cases does with
  | @base fuel name methods m m' built run named =>
    have whole := run
    rw [execute] at run
    obtain ⟨_, m₁, declaring, run⟩ := ok_of_bind run
    cases run
    obtain ⟨body, tabulates, above, below, named'⟩ := ok_of_declareClass declaring
    cases named.symm.trans named'
    refine ⟨body, rfl, tabulates, above, ?_, ?_⟩
    · show _ < (machineAfter (execute host (fuel + 1) _ m)).serial
      rw [whole]
      exact below
    · intro c' calls
      cases calls
  | @derived fuel name superclass methods m m₁ m' parent built first run named =>
    have whole := run
    rw [execute, bind_ok first] at run
    obtain ⟨_, m₂, isClass, run⟩ := ok_of_bind run
    obtain ⟨rfl, same⟩ := ok_of_asClass isClass
    cases same
    obtain ⟨_, m₃, declaring, run⟩ := ok_of_bind run
    cases run
    obtain ⟨body, tabulates, above, below, named'⟩ := ok_of_declareClass declaring
    cases named.symm.trans named'
    refine ⟨body, rfl, tabulates, Nat.le_trans (older_evaluate first).serial above, ?_, ?_⟩
    · show _ < (machineAfter (execute host (fuel + 1) _ m)).serial
      rw [whole]
      exact below
    · intro c' calls
      cases calls
      -- the class gets its number when its superclass has been evaluated
      exact Nat.le_trans (evaluate_ended first).serial above

theorem Builds.body {parent : Option Class} {built : Class} (h : Builds host c parent built) :
    ∃ body : ClassBody, built = .make body parent ∧ NamesTell body.methods ∧
      c.machine.serial ≤ body.id ∧ body.id < (c.after host).serial ∧
      ∀ c', Calls host c c' → (c'.after host).serial ≤ body.id := by
  obtain ⟨_, _, _, does⟩ := h
  obtain ⟨body, same, tabulates, drawn⟩ := does.declares
  exact ⟨body, same, tabulates.namesTell, drawn⟩

/-- Classes are numbered in the order in which they are built. -/
theorem builds_numbers (host : Host) : Numbers host (·.serial)
    fun c id => ∃ parent built, Builds host c parent built ∧ built.body.id = id := by
  refine ⟨fun older => older.serial, ?_, ?_⟩
  · rintro c id ⟨parent, built, builds, rfl⟩
    obtain ⟨body, rfl, _, above, below, _⟩ := builds.body
    cases parent <;> exact ⟨above, below⟩
  · rintro c c' id ⟨parent, built, builds, rfl⟩ calls
    obtain ⟨body, rfl, _, _, _, later⟩ := builds.body
    cases parent <;> exact .inl (later c' calls)

end Lox.Evaluation
