import Lox.Proofs.Evaluation.Ancestry

/-! # Initializers yield their instances

  Calling a class makes an instance with an identity that no instance has had before, and runs
  its initializer with as many arguments as it has parameters. A method is bound to an instance
  once: the frame in front of its scope is its own, and nothing is put in the place of the
  `this` in it. So whatever an initializer does, and whenever it is called, it yields the
  instance that it was bound to (`initializers_yield_their_instance`).
-/

namespace Lox.Evaluation

open Binding

variable {host : Host} {m m' : Machine} {c : Config} {os : List Occasion}

theorem Reaches.tail {c c' c'' : Config} (reached : Reaches host c c') (calls : Calls host c' c'') :
    Reaches host c c'' := by
  induction reached with
  | refl => exact .step calls (.refl _)
  | step first _ ih => exact .step first (ih calls)

/-! ### Instances -/

/-- The instance that a call makes itself. -/
inductive Makes : Config → Instance → Prop where
  | instantiate {fuel : Nat} {ofClass : Class} {arguments : List Value} {paren : Token}
      {m : Machine} :
      Makes ⟨fuel + 1, .instantiate ofClass arguments paren, m⟩ ⟨m.fields.size, ofClass⟩

/-- Instances are numbered in the order in which they are made. -/
theorem makes_numbers (host : Host) : Numbers host (·.fields.size)
    fun c id => ∃ target, Makes c target ∧ target.id = id := by
  have more : ∀ m : Machine, m.fields.size < (m.fields.push .empty).size := by
    intro m
    rw [Array.size_push]
    exact Nat.lt_succ_self _
  refine ⟨fun older => older.fields, ?_, ?_⟩
  · rintro c _ ⟨_, ⟨⟩, rfl⟩
    rename_i fuel ofClass arguments paren m
    refine ⟨Nat.le_refl _, ?_⟩
    have later : Older (machineAfter (Run.newInstance ofClass m))
        (machineAfter (instantiate host (fuel + 1) ofClass arguments paren m)) := by
      refine older_bind [] (fun target => ?_) m
      cases ofClass.initializer? with
      | none => exact adds_pure _
      | some initializer =>
        exact adds_bind (adds_bindMethod initializer target) fun bound =>
          adds_bind ((addsAt host fuel).enter bound arguments paren) fun _ => adds_pure _
    exact Nat.lt_of_lt_of_le (more m) later.fields
  · rintro c c' _ ⟨_, ⟨⟩, rfl⟩ calls
    -- the initializer is called when the instance has been made
    cases calls with
    | initializer made _ bound =>
      cases made
      cases bound
      exact .inr (more _)

/-- Making an instance yields the one that was made, whatever its initializer does. -/
theorem ok_of_instantiate {fuel : Nat} {ofClass : Class} {arguments : List Value} {paren : Token}
    {v : Value} (run : instantiate host fuel ofClass arguments paren m = .ok v m') :
    0 < fuel ∧ v = .object ⟨m.fields.size, ofClass⟩ := by
  cases fuel with
  | zero => cases run
  | succ fuel =>
    refine ⟨Nat.succ_pos fuel, ?_⟩
    obtain ⟨target, m₁, made, run⟩ := ok_of_bind run
    cases made
    -- what the initializer yields is passed over
    cases found : ofClass.initializer? with
    | none =>
      rw [found] at run
      cases run
      rfl
    | some initializer =>
      rw [found] at run
      obtain ⟨bound, m₂, _, run⟩ := ok_of_bind run
      obtain ⟨_, m₃, _, run⟩ := ok_of_bind run
      cases run
      rfl

theorem ok_of_checkArity {paren : Token} {expected actual : Nat}
    (run : checkArity paren expected actual m = .ok () m') : m' = m ∧ actual = expected := by
  unfold checkArity at run
  by_cases same : actual = expected
  · rw [if_pos same] at run
    cases run
    exact ⟨rfl, same⟩
  · rw [if_neg same] at run
    cases run

/-! ### Bound methods -/

/-- A method is bound with a frame of its own. -/
theorem Does.nests {made closure : Closure} {target : Instance}
    (does : Does host c (.bound made target closure)) :
    ∃ frame, closure.scope = frame :: made.scope ∧ Nests host c frame made.scope := by
  cases does with
  | boundProperty run field found bound =>
    cases bound
    exact ⟨_, rfl, .boundProperty run field found⟩
  | @boundSuper _ _ _ name _ _ _ _ _ _ _ noted super this found bound =>
    cases bound
    have run := superMethod_found noted super this name
    rw [found] at run
    exact ⟨_, rfl, .boundSuper run rfl⟩
  | boundInitializer instantiated found bound =>
    cases instantiated
    cases bound
    exact ⟨_, rfl, .boundInitializer found⟩

/-- A call binds to one instance. -/
theorem Does.target_unique {made made' closure closure' : Closure} {target target' : Instance}
    (does : Does host c (.bound made target closure))
    (does' : Does host c (.bound made' target' closure')) : target = target' := by
  cases does with
  | boundProperty run =>
    cases does' with
    | boundProperty run' =>
      cases run.symm.trans run'
      rfl
  | boundSuper noted _ this =>
    cases does' with
    | boundSuper noted' _ this' =>
      cases noted.symm.trans noted'
      cases this.symm.trans this'
      rfl
  | boundInitializer instantiated =>
    cases does' with
    | boundInitializer instantiated' =>
      cases instantiated.symm.trans instantiated'
      rfl

/-- A function was bound to one instance only. -/
theorem Ordered.bound_unique (h : Ordered os) {o o' : Occasion} {c c' : Config}
    {made made' closure : Closure} {target target' : Instance} (mem : o ∈ os) (mem' : o' ∈ os)
    (reached : Reaches o.host o.launch.config c) (reached' : Reaches o'.host o'.launch.config c')
    (does : Does o.host c (.bound made target closure))
    (does' : Does o'.host c' (.bound made' target' closure)) : target = target' := by
  obtain ⟨frame, scope, nests⟩ := does.nests
  obtain ⟨frame', scope', nests'⟩ := does'.nests
  obtain ⟨rfl, _⟩ := List.cons.inj (scope.symm.trans scope')
  obtain ⟨rfl, rfl⟩ := h.once nests_numbers mem mem' reached reached' ⟨_, nests⟩ ⟨_, nests'⟩
  exact does.target_unique does'

/-! ### Names of initializers -/

theorem findMethod?_lineage {ofClass : Class} {name : String} {method : Closure}
    (found : ofClass.findMethod? name = some method) :
    ∃ c ∈ lineage ofClass, c.body.methods.get? name = some method := by
  induction ofClass with
  | base body => exact ⟨_, List.mem_singleton_self _, found⟩
  | derived body superclass ih =>
    rw [Class.findMethod?] at found
    split at found
    · next own =>
      cases found
      exact ⟨_, List.mem_cons_self .., own⟩
    · obtain ⟨c, mem, own⟩ := ih found
      exact ⟨c, List.mem_cons_of_mem _ mem, own⟩

/-- The methods of a class that was built have names that tell whether they are initializers. -/
theorem ClassHeld.namesTell {ofClass : Class} (h : ClassHeld (records os) m ofClass)
    {name : String} {method : Closure} (found : ofClass.findMethod? name = some method) :
    method.isInitializer = method.declaration.isInitializer := by
  obtain ⟨c, mem, own⟩ := findMethod?_lineage found
  obtain ⟨o, _, config, _, builds⟩ := h.links c mem
  obtain ⟨body, same, tell, _⟩ := builds.body
  have bodies : c.body = body := by
    rw [same]
    cases superclass? c <;> rfl
  rw [bodies] at own
  exact tell name method own

/-- A bound method is an initializer if it is called so. -/
theorem Does.namesTell {made closure : Closure} {target : Instance} (confined : Confined host)
    (h : Anchored (records os) host c) (does : Does host c (.bound made target closure)) :
    closure.isInitializer = closure.declaration.isInitializer := by
  cases does with
  | @boundProperty fuel _ _ _ _ _ _ _ _ run _ found bound =>
    have steady : SteadyAt (records os) host fuel := steadyAt confined fuel
    obtain ⟨_, held⟩ := (steady.evaluate (h.step .got steady)).ok run
    have tell := ClassHeld.namesTell held.2 found
    cases bound
    exact tell
  | boundSuper _ super _ found bound =>
    have above : ClassHeld (records os) _ _ := h.store.getAt super
    have tell := above.namesTell found
    cases bound
    exact tell
  | boundInitializer _ found bound =>
    have tell := ClassHeld.namesTell h.operands.1 found
    cases bound
    exact tell

/-! ### Arguments -/

section

variable {entries : List (Token × Value)}

theorem foldl_set_of_notMem {name : String} (other : name ∉ entries.map (·.1.lexeme)) :
    ∀ table : Bindings Value, (entries.foldl
      (fun names (entry : Token × Value) => names.set entry.1.lexeme entry.2) table).get? name =
        table.get? name := by
  induction entries with
  | nil => exact fun _ => rfl
  | cons entry rest ih =>
    intro table
    rw [List.map_cons, List.mem_cons, not_or] at other
    rw [List.foldl_cons, ih other.2, Bindings.get?_set_of_ne _ _ other.1]

/-- Of entries with different names, each one is there. -/
theorem foldl_set_of_mem (distinct : (entries.map (·.1.lexeme)).Nodup) {entry : Token × Value}
    (mem : entry ∈ entries) : ∀ table : Bindings Value, (entries.foldl
      (fun names (entry : Token × Value) => names.set entry.1.lexeme entry.2) table).get?
        entry.1.lexeme = some entry.2 := by
  induction entries with
  | nil => cases mem
  | cons first rest ih =>
    intro table
    rw [List.map_cons, List.nodup_cons] at distinct
    rw [List.foldl_cons]
    rcases List.mem_cons.mp mem with rfl | mem
    · rw [foldl_set_of_notMem distinct.1, Bindings.get?_set_self]
    · exact ih distinct.2 mem _

end

/-- In the frame of a call each parameter has its own argument. -/
theorem argumentFrame_get? {params : List Token} {arguments : List Value}
    (distinct : (params.map (·.lexeme)).Nodup) (enough : arguments.length = params.length)
    {i : Nat} {param : Token} {v : Value} (hparam : params[i]? = some param)
    (hv : arguments[i]? = some v) :
    (argumentFrame params arguments).get? param.lexeme = some v := by
  have mem : (param, v) ∈ params.zip arguments := by
    apply List.mem_of_getElem? (i := i)
    rw [List.getElem?_zip_eq_some]
    exact ⟨hparam, hv⟩
  refine foldl_set_of_mem ?_ mem .empty
  have zipped : (params.zip arguments).map (·.1) = params := List.map_fst_zip (by omega)
  have names : (params.zip arguments).map (·.1.lexeme) = params.map (·.lexeme) := by
    rw [← zipped, List.map_map, zipped]
    rfl
  rw [names]
  exact distinct

/-- The body of a function starts with each argument under its parameter's name. -/
theorem activation_lookup? {closure : Closure} {arguments : List Value} {m : Machine}
    (distinct : (closure.declaration.params.map (·.lexeme)).Nodup)
    (enough : arguments.length = closure.declaration.params.length) {i : Nat} {param : Token}
    {v : Value} (hparam : closure.declaration.params[i]? = some param)
    (hv : arguments[i]? = some v) :
    (activation closure arguments m).frames.lookup? m.frames.records.size param.lexeme =
      some v := by
  show Frames.lookup? ⟨Array.push _ _⟩ _ _ = _
  rw [lookup?_push, if_pos rfl]
  exact argumentFrame_get? distinct enough hparam hv

/-- Parameters that break no rule are different. -/
theorem nodup_params : ∀ {params : List Token} (earlier : List Token),
    (earlier.map (·.lexeme)).Nodup →
    (∀ site ∈ parameterSites earlier params, violation site = none) →
    ((earlier ++ params).map (·.lexeme)).Nodup
  | [], earlier, distinct, _ => by
    rw [List.append_nil]
    exact distinct
  | param :: rest, earlier, distinct, accepted => by
    have new : param.lexeme ∉ earlier.map (·.lexeme) := by
      have here := accepted _ (List.mem_cons_self ..)
      intro mem
      simp [violation, mem] at here
    have longer : ((earlier ++ [param]).map (·.lexeme)).Nodup := by
      rw [List.map_append, List.nodup_append]
      refine ⟨distinct, List.nodup_singleton _, ?_⟩
      rintro name hname other hother rfl
      rw [List.mem_singleton.mp hother] at hname
      exact new hname
    have rest := nodup_params _ longer
      fun site hsite => accepted site (List.mem_cons_of_mem _ hsite)
    rw [List.append_assoc] at rest
    exact rest

/-! ### Calls that end well -/

section

variable {n : Nat} {arguments : List Value} {paren : Token} {v : Value} {closure : Closure}

theorem ok_of_invoke_class {ofClass : Class}
    (run : invoke host (n + 1) (.classObject ofClass) arguments paren m = .ok v m') :
    0 < n ∧ arguments.length = ofClass.arity ∧ v = .object ⟨m.fields.size, ofClass⟩ := by
  obtain ⟨_, m₁, checked, instantiated⟩ := ok_of_bind run
  obtain ⟨rfl, enough⟩ := ok_of_checkArity checked
  obtain ⟨fueled, value⟩ := ok_of_instantiate instantiated
  exact ⟨fueled, enough, value⟩

theorem ok_of_invoke_function
    (run : invoke host (n + 1) (.function closure) arguments paren m = .ok v m') :
    arguments.length = closure.arity ∧ enter host n closure arguments paren m = .ok v m' := by
  obtain ⟨_, m₁, checked, entered⟩ := ok_of_bind run
  obtain ⟨rfl, enough⟩ := ok_of_checkArity checked
  exact ⟨enough, entered⟩

/-- An initializer yields what `this` is in the frame in front of its scope. -/
theorem ok_of_enter (initializes : closure.isInitializer = true)
    (run : enter host n closure arguments paren m = .ok v m') :
    m'.frames.getAt? closure.scope 0 "this" = some v := by
  cases n with
  | zero => cases run
  | succ n =>
    rw [enter] at run
    obtain ⟨scope, m₁, _, run⟩ := ok_of_bind run
    obtain ⟨flow, m₂, _, run⟩ := ok_of_bind run
    rw [if_pos initializes] at run
    obtain ⟨rfl, found⟩ := ok_of_readAt run
    exact found

end

/-- The instances that a call is given and those in the store have been made. -/
theorem Anchored.instance_made {R : Records} {n : Nat} {callee : Value} {arguments : List Value}
    {paren : Token} {o : Instance}
    (h : Anchored R host ⟨n, .invoke callee arguments paren, m⟩)
    (there : Stored m (.object o) ∨ .object o ∈ arguments) : o.id < m.fields.size := by
  rcases there with stored | mem
  · exact (stored.held h.store).1
  · exact (h.operands.2 _ mem).1

/-! ### Initializers that fit -/

section

variable {L : Ledger} {closure : Closure}

/-- An initializer was bound. -/
theorem ClosureFits.bound (h : ClosureFits L m closure)
    (initializes : closure.isInitializer = true) :
    ∃ made target, BoundTo L m closure made target := by
  obtain ⟨_, _, _, _, _, origin⟩ := h
  cases origin with
  | function ordinary _ =>
    rw [ordinary] at initializes
    cases initializes
  | method bound => exact ⟨_, _, bound⟩

theorem BoundTo.this {made : Closure} {target : Instance} (h : BoundTo L m closure made target) :
    m.frames.getAt? closure.scope 0 "this" = some (.object target) := by
  obtain ⟨frame, keeps, found⟩ := h.scope
  have here : closure.scope[0]? = some frame := by
    rw [keeps]
    rfl
  exact (getAt?_eq here _).trans found

/-- The frame that an initializer was bound with holds its instance to the end of the call. -/
theorem Fits.yields_target {n : Nat} {arguments : List Value} {paren : Token} {v : Value}
    {made : Closure} {target : Instance} (honest : Honest host) (lawful : Lawful L)
    (fit : Fits L host ⟨n, .enter closure arguments paren, m⟩)
    (bound : BoundTo L m closure made target) (initializes : closure.isInitializer = true)
    (run : enter host n closure arguments paren m = .ok v m') : v = .object target := by
  have kept := ((soundAt honest lawful n).enter fit).ok run
  have this := (bound.grow kept.1.grows).this
  rw [ok_of_enter initializes run] at this
  exact Option.some.inj this

/-- The parameters of a function that was accepted are different. -/
theorem ClosureFits.distinct (lawful : Lawful L) (h : ClosureFits L m closure) :
    (closure.declaration.params.map (·.lexeme)).Nodup := by
  obtain ⟨isMethod, outer, sites, _⟩ := h
  refine nodup_params [] List.nodup_nil ?_
  intro site hsite
  apply lawful.accepted
  apply sites
  rw [functionSites_eq]
  exact List.mem_append_left _ hsite

end

/-! ### In the course of a session -/

section

variable {s : Session} {launches : List Launch} {source : String} {fuel : Nat}

/-- Programs that were run with one host. -/
def occasions (host : Host) (launches : List Launch) : List Occasion :=
  launches.map (Occasion.mk host)

theorem History.chronicle (honest : Honest host) (history : History host s launches) :
    Chronicle s (occasions host launches) := by
  induction history with
  | start sink => exact .start host sink
  | cleared _ ih => exact .cleared ih
  | refused _ complaints ran ih => exact .refused ih complaints ran
  | ran _ accepted ran ih => exact .ran ih honest.confined accepted ran

theorem History.ordered (honest : Honest host) (history : History host s launches)
    (fuel : Nat) (source : String) :
    Ordered (occasions host (launch s fuel source :: launches)) :=
  (history.chronicle honest).chronicled.begin honest.confined fuel source

/-- Whatever is done in an initializer and by it, in whichever program of a session and however
    far into it. What calling a class yields is an instance of the class, which is no instance
    in the store or among the arguments and none that another call makes. What calling a method
    named `init` yields is the instance that it was bound to; and every function that is an
    initializer was bound so. Where a class is to be instantiated, there are as many arguments
    as its initializer has parameters, and in the frame in which the body of the initializer
    starts each parameter has its own argument; without an initializer, there are none. -/
theorem initializers_yield_their_instance (honest : Honest host)
    (history : History host s launches) (accepted : (s.prepare source).diagnostics = []) :
    (∀ n ofClass arguments paren m v m',
      Reaches host (launch s fuel source).config
        ⟨n + 1, .invoke (.classObject ofClass) arguments paren, m⟩ →
      invoke host (n + 1) (.classObject ofClass) arguments paren m = .ok v m' →
      ∃ target, v = .object target ∧ target.ofClass = ofClass ∧
        (∀ o, Stored m (.object o) ∨ .object o ∈ arguments → o.id ≠ target.id) ∧
        ∀ l ∈ launch s fuel source :: launches, ∀ c o, Reaches host l.config c → Makes c o →
          c ≠ ⟨n, .instantiate ofClass arguments paren, m⟩ → o.id ≠ target.id) ∧
    (∀ n closure arguments paren m v m',
      Reaches host (launch s fuel source).config
        ⟨n + 1, .invoke (.function closure) arguments paren, m⟩ →
      invoke host (n + 1) (.function closure) arguments paren m = .ok v m' →
      (∀ made target,
        Happened host (launch s fuel source :: launches) (.bound made target closure) →
        closure.name = initializerName → v = .object target) ∧
      (closure.isInitializer = true → closure.name = initializerName ∧ ∃ made target,
        Happened host (launch s fuel source :: launches) (.bound made target closure))) ∧
    ∀ n ofClass arguments paren m,
      Reaches host (launch s fuel source).config
        ⟨n + 1, .instantiate ofClass arguments paren, m⟩ →
      (∀ initializer, ofClass.findMethod? initializerName = some initializer →
        arguments.length = initializer.declaration.params.length ∧
        ∃ bound front m', Calls host ⟨n + 1, .instantiate ofClass arguments paren, m⟩
            ⟨n, .enter bound arguments paren, m'⟩ ∧
          bound.declaration = initializer.declaration ∧
          (activation bound arguments m').scope = front :: bound.scope ∧
          ∀ (i : Nat) (param : Token) (v : Value),
            initializer.declaration.params[i]? = some param → arguments[i]? = some v →
            (activation bound arguments m').frames.lookup? front param.lexeme = some v) ∧
      (ofClass.findMethod? initializerName = none → arguments = []) := by
  have settled := history.settled honest
  have lawful : Lawful (ledger host (launch s fuel source :: launches)) :=
    settled.lawful_cons accepted
  have fits : ∀ {c}, Reaches host (launch s fuel source).config c →
      Fits (ledger host (launch s fuel source :: launches)) host c :=
    fun reached => (settled.launch_fits accepted).reach honest lawful reached
  have ordered := history.ordered honest fuel source
  have started : ∀ {l}, l ∈ launch s fuel source :: launches →
      Occasion.mk host l ∈ occasions host (launch s fuel source :: launches) :=
    fun mem => List.mem_map_of_mem mem
  have here := started (List.mem_cons_self ..)
  refine ⟨?_, ?_, ?_⟩
  · intro n ofClass arguments paren m v m' reached run
    obtain ⟨fueled, enough, value⟩ := ok_of_invoke_class run
    have anchored := ordered.reached here reached
    refine ⟨⟨m.fields.size, ofClass⟩, value, rfl, ?_, ?_⟩
    · intro o there
      exact Nat.ne_of_lt (anchored.instance_made there)
    · -- another call that draws the same number would be this one
      intro l mem c o reached' makes other same
      obtain ⟨k, rfl⟩ := Nat.exists_eq_add_of_lt fueled
      have inside := reached.tail (.classObject enough)
      exact other (ordered.once makes_numbers (started mem) here reached' inside
        ⟨o, makes, same⟩ ⟨_, .instantiate, rfl⟩).2
  · intro n closure arguments paren m v m' reached run
    obtain ⟨enough, entering⟩ := ok_of_invoke_function run
    have inside := reached.tail (.function enough)
    have fit := fits inside
    refine ⟨?_, ?_⟩
    · rintro made target ⟨l, mem, c, reached', does⟩ named
      have tell := does.namesTell honest.confined (ordered.reached (started mem) reached')
      have initializes : closure.isInitializer = true := by
        rw [tell]
        exact beq_iff_eq.mpr named
      obtain ⟨made', target', bound⟩ := fit.call.1.bound initializes
      -- the frame in front holds what the function was bound to, and that was done once
      obtain ⟨l', mem', c', reached'', does'⟩ := bound.happened
      have same := ordered.bound_unique (started mem) (started mem') reached' reached'' does does'
      rw [same]
      exact fit.yields_target honest lawful bound initializes entering
    · intro initializes
      obtain ⟨made, target, bound⟩ := fit.call.1.bound initializes
      obtain ⟨l, mem, c, reached', does⟩ := bound.happened
      have tell := does.namesTell honest.confined (ordered.reached (started mem) reached')
      rw [initializes] at tell
      exact ⟨beq_iff_eq.mp tell.symm, made, target, l, mem, c, reached', does⟩
  · intro n ofClass arguments paren m reached
    have enough : arguments.length = ofClass.arity := (fits reached).call.2.2
    refine ⟨?_, ?_⟩
    · intro initializer found
      have calls : Calls host ⟨n + 1, .instantiate ofClass arguments paren, m⟩ _ :=
        .initializer rfl found rfl
      -- the initializer is entered as it was accepted, with parameters of different names
      have fit := fits (reached.tail calls)
      have distinct := fit.call.1.distinct lawful
      have count : arguments.length = initializer.declaration.params.length := by
        rw [enough, Class.arity, Class.initializer?, found]
        rfl
      refine ⟨count, _, _, _, calls, rfl, rfl, ?_⟩
      intro i param v hparam hv
      exact activation_lookup? distinct count hparam hv
    · intro none
      rw [Class.arity, Class.initializer?, none] at enough
      exact List.eq_nil_of_length_eq_zero enough

/-- An initializer that returns early, called once more as a method. -/
theorem initializers_yield_their_instance_again :
    let host := Host.standard 0
    let l := launch (.start host .unlimited) 9
      "class A \x7b init(x) \x7b return; \x7d \x7d A(nil).init(true);"
    ∃ n closure paren m m' made target,
      Reaches host l.config ⟨n + 1, .invoke (.function closure) [.bool true] paren, m⟩ ∧
      closure.name = initializerName ∧ Happened host [l] (.bound made target closure) ∧
      invoke host (n + 1) (.function closure) [.bool true] paren m = .ok (.object target) m' := by
  intro host l
  have accepted : (Session.prepare (.start host .unlimited)
      "class A \x7b init(x) \x7b return; \x7d \x7d A(nil).init(true);").diagnostics = [] := by cbv
  -- the program, the class that it declares, and the method that it binds
  let paren : Token := ⟨.punctuator .rightParen, ")", 1⟩
  let init : FunctionDecl := ⟨⟨.identifier, "init", 1⟩, [⟨.identifier, "x", 1⟩],
    [.ret ⟨.keyword .returnWord, "return", 1⟩ none]⟩
  let first : Stmt := .classDecl ⟨.identifier, "A", 1⟩ none [init]
  let object : Expr := .call (.var 0 ⟨.identifier, "A", 1⟩) paren [.literal .nil]
  let callee : Expr := .get object ⟨.identifier, "init", 1⟩
  let call : Expr := .call callee paren [.literal (.bool true)]
  let made : Closure := ⟨0, init, [0], true⟩
  let target : Instance := ⟨0, .base ⟨1, "A", .single "init" made⟩⟩
  let closure : Closure := ⟨3, init, [3, 0], true⟩
  -- the machine after the declaration, with the instance, and with the bound method
  let globals : Bindings Value :=
    ⟨[("clock", .native ⟨"clock", 0⟩), ("A", .classObject target.ofClass)]⟩
  let this : Bindings Value := .single "this" (.object target)
  let x : Bindings Value := .single "x" .nil
  let m₁ : Machine := ⟨⟨#[globals]⟩, #[], 2, 0, [0], ∅, .unlimited⟩
  let m₂ : Machine := ⟨⟨#[globals, this, x]⟩, #[.empty], 3, 0, [0], ∅, .unlimited⟩
  let m₃ : Machine := ⟨⟨#[globals, this, x, this]⟩, #[.empty], 4, 0, [0], ∅, .unlimited⟩
  have config : l.config = ⟨9, .interpret [first, .expression call], l.machine⟩ := by
    have program : l.program = [first, .expression call] := by cbv
    exact congrArg (fun p => Config.mk 9 (.interpret p) l.machine) program
  have ran : execute host 9 first l.machine = .ok .next m₁ := by cbv
  have read : evaluate host 6 object m₁ = .ok (.object target) m₂ := by cbv
  have got : evaluate host 7 callee m₁ = .ok (.function closure) m₃ := by cbv
  have before : Reaches host l.config ⟨8, .evaluate call, m₁⟩ := by
    rw [config]
    exact .step (.statements ran) (.step .statement (.step .expression (.refl _)))
  have reached : Reaches host l.config ⟨7, .invoke (.function closure) [.bool true] paren, m₃⟩ :=
    before.tail (.invoke got rfl)
  have happened : Happened host [l] (.bound made target closure) :=
    ⟨l, List.mem_singleton_self l, _, before.tail .callee, .boundProperty read rfl rfl rfl⟩
  obtain ⟨v, m₄, run⟩ : ∃ v m₄, invoke host 7 (.function closure) [.bool true] paren m₃ =
      .ok v m₄ := ⟨_, _, rfl⟩
  obtain ⟨yields, _⟩ := (initializers_yield_their_instance (honest_standard 0)
    (.start .unlimited) accepted).2.1 6 closure [.bool true] paren m₃ v m₄ reached run
  cases yields made target happened rfl
  exact ⟨6, closure, paren, m₃, m₄, made, target, reached, rfl, happened, run⟩

end

end Lox.Evaluation
