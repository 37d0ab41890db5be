import Lox.Proofs.Evaluation.Ancestry
import Lox.Proofs.Evaluation.Silence
import Lox.Proofs.Evaluation.Writes

/-! # Properties of instances

  A property is read of the instance that an expression comes to. If the field of that name was
  written to in the session, on whichever way to the instance, then the property is what was
  written last. Otherwise it is the method that the nearest class declares, of the class of the
  instance and those it inherits from, bound to the instance; and if none does, it is undefined
  (`last_write_wins_then_nearest_method`).
-/

namespace Lox.Evaluation

variable {host : Host} {m m' : Machine} {os : List Occasion}

/-! ### What a write leaves as it was -/

theorem property_eq (target : Instance) (name : Token) (m : Machine) :
    Run.property target name m =
      match field? m target.id name.lexeme with
      | some v => .ok v m
      | none =>
        match target.ofClass.findMethod? name.lexeme with
        | some method =>
          (Run.bindMethod method target >>= fun closure => pure (.function closure)) m
        | none => .error (.fault ⟨name, .undefinedProperty name.lexeme⟩) m := by
  have run : Run.property target name m =
      (match field? m target.id name.lexeme with
        | some v => (pure v : Run Value)
        | none =>
          match target.ofClass.findMethod? name.lexeme with
          | some method => return .function (← Run.bindMethod method target)
          | none => Run.fail name (.undefinedProperty name.lexeme)) m := rfl
  rw [run]
  cases field? m target.id name.lexeme with
  | some v => rfl
  | none => cases target.ofClass.findMethod? name.lexeme <;> rfl

/-- A write to one field changes no other property. -/
theorem property_afterWrite {o : Instance} {name : Token} {w : Write}
    (other : o.id ≠ w.target ∨ name.lexeme ≠ w.name) (m : Machine) :
    Run.property o name (afterWrite m w) = mapMachine (afterWrite · w) (Run.property o name m) := by
  rw [property_eq, property_eq, field?_afterWrite_of_ne other]
  cases field? m o.id name.lexeme with
  | some v => rfl
  | none => cases o.ofClass.findMethod? name.lexeme <;> rfl

/-- A write changes no method that `super` names. -/
theorem superMethod_afterWrite (node : NodeId) (keyword method : Token) (w : Write) :
    Blind (afterWrite · w) (superMethod node keyword method) := by
  have read : ∀ scope distance name, Blind (afterWrite · w) (Run.readAt scope distance name) :=
    fun scope distance name => blind_get (fun _ => blind_defined name _) fun _ => rfl
  apply blind_bind (fun _ => rfl)
  intro hops
  cases hops with
  | none => exact blind_throw _
  | some distance =>
    refine blind_get ?_ fun _ => rfl
    intro m
    apply blind_bind (read _ _ _)
    intro v
    apply blind_bind (blind_asClass keyword v)
    intro parent
    apply blind_bind (read _ _ _)
    intro v
    apply blind_bind (blind_asInstance keyword v)
    intro target
    cases parent.findMethod? method.lexeme with
    | some found => exact fun _ => rfl
    | none => exact blind_throw _

/-! ### Methods as they were declared -/

/-- A class was built by a declaration with the given methods. -/
def Declared (os : List Occasion) (c : Class) (methods : List FunctionDecl) : Prop :=
  ∃ o ∈ os, ∃ config name superclass, Reaches o.host o.launch.config config ∧
    Does o.host config (.declared name superclass methods (superclass? c) c)

/-- A class and those it inherits from, the nearest first, each with the methods of its
    declaration. -/
structure Descent (os : List Occasion) (c : Class) (chain : List (Class × List FunctionDecl)) :
    Prop where
  lineage : chain.map Prod.fst = lineage c
  declared : ∀ entry ∈ chain, Declared os entry.1 entry.2

/-- The nearest class that declares a method of a name, and the last declaration there. -/
def nearestMethod? (name : String) (chain : List (Class × List FunctionDecl)) :
    Option (Class × FunctionDecl) :=
  chain.findSome? fun entry => (lastNamed? name entry.2).map (entry.1, ·)

theorem Declared.tabulates {c : Class} {methods : List FunctionDecl} (h : Declared os c methods) :
    Tabulates c.body.methods methods := by
  obtain ⟨o, _, config, name, superclass, _, does⟩ := h
  obtain ⟨body, same, tabulates, _⟩ := does.declares
  have bodies : c.body = body := by
    rw [same]
    cases superclass? c <;> rfl
  rw [bodies]
  exact tabulates

theorem ClassHeld.descent {c : Class} (h : ClassHeld (records os) m c) :
    ∃ chain, Descent os c chain := by
  -- each class of the lineage was built in the session, by a declaration with some methods
  have declared : ∀ c' ∈ lineage c, ∃ methods, Declared os c' methods := by
    intro c' mem
    obtain ⟨o, started, config, reached, name, superclass, methods, does⟩ := h.links c' mem
    exact ⟨methods, o, started, config, name, superclass, reached, does⟩
  choose! methods each using declared
  refine ⟨(lineage c).map fun c' => (c', methods c'), ?_, ?_⟩
  · rw [List.map_map]
    exact List.map_id _
  · intro entry mem
    obtain ⟨c', inLineage, rfl⟩ := List.mem_map.mp mem
    exact each c' inLineage

/-- The table of a class has the last method of each name in its declaration, and no others. -/
theorem Declared.get? {c : Class} {methods : List FunctionDecl} (h : Declared os c methods)
    (name : String) :
    match lastNamed? name methods with
    | some f => ∃ method, c.body.methods.get? name = some method ∧ method.declaration = f ∧
        method.isInitializer = f.isInitializer
    | none => c.body.methods.get? name = none := by
  have same := h.tabulates name
  cases found : lastNamed? name methods with
  | none =>
    rw [found, Option.map_none] at same
    exact Option.map_eq_none_iff.mp same
  | some f =>
    rw [found, Option.map_some] at same
    obtain ⟨method, own, pair⟩ := Option.map_eq_some_iff.mp same
    obtain ⟨declaration, initializes⟩ := Prod.mk.inj pair
    exact ⟨method, own, declaration, initializes⟩

/-- The method that is found is the one that the nearest class declares. -/
theorem Descent.findMethod? {c : Class} {chain : List (Class × List FunctionDecl)}
    (h : Descent os c chain) (name : String) :
    match nearestMethod? name chain with
    | some (declaring, f) => ∃ method, c.findMethod? name = some method ∧
        declaring.body.methods.get? name = some method ∧ method.declaration = f ∧
        method.isInitializer = f.isInitializer
    | none => c.findMethod? name = none := by
  -- along the chain, from each class to its superclass
  induction c generalizing chain with
  | base body =>
    obtain ⟨⟨_, methods⟩, rfl, same⟩ := List.map_eq_singleton_iff.mp h.lineage
    cases same
    have own := (h.declared _ (List.mem_singleton_self _)).get? name
    rw [nearestMethod?, List.findSome?_singleton]
    cases found : lastNamed? name methods with
    | none =>
      rw [found] at own
      exact own
    | some f =>
      rw [found] at own
      obtain ⟨method, own, made⟩ := own
      exact ⟨method, own, own, made⟩
  | derived body superclass ih =>
    obtain ⟨⟨_, methods⟩, rest, rfl, same, above⟩ := List.map_eq_cons_iff.mp h.lineage
    cases same
    have own := (h.declared _ (List.mem_cons_self ..)).get? name
    have inherited := ih ⟨above, fun entry mem => h.declared entry (List.mem_cons_of_mem _ mem)⟩
    rw [nearestMethod?, List.findSome?_cons]
    cases found : lastNamed? name methods with
    | none =>
      rw [found] at own
      have missing : body.methods.get? name = none := own
      rw [Class.findMethod?, missing]
      exact inherited
    | some f =>
      rw [found] at own
      obtain ⟨method, own, made⟩ := own
      have here : body.methods.get? name = some method := own
      refine ⟨method, ?_, own, made⟩
      rw [Class.findMethod?, here]

/-- A function is a method bound to an instance: inside the scope of the method, there is a frame
    that holds the instance as `this`. -/
structure BoundMethod (method : Closure) (target : Instance) (closure : Closure) (m : Machine) :
    Prop where
  declaration : closure.declaration = method.declaration
  isInitializer : closure.isInitializer = method.isInitializer
  this : ∃ frame, closure.scope = frame :: method.scope ∧
    m.frames.lookup? frame "this" = some (.object target)

theorem bindMethod_bound (method : Closure) (target : Instance) (m : Machine) :
    ∃ closure m', Run.bindMethod method target m = .ok closure m' ∧
      BoundMethod method target closure m' := by
  refine ⟨_, _, bindMethod_eq method target m, rfl, rfl, m.frames.records.size, rfl, ?_⟩
  rw [lookup?_push, if_pos rfl]
  rfl

/-- What it comes to if a property is looked for along a chain of classes: the nearest method,
    bound to the instance, or the complaint that there is none. -/
def MethodRead (chain : List (Class × List FunctionDecl)) (target : Instance) (name : Token)
    (m : Machine) (result : EStateM.Result Halt Machine Value) : Prop :=
  match nearestMethod? name.lexeme chain with
  | some (declaring, f) => ∃ method closure m',
      declaring.body.methods.get? name.lexeme = some method ∧ method.declaration = f ∧
      BoundMethod method target closure m' ∧ result = .ok (.function closure) m'
  | none => result = .error (.fault ⟨name, .undefinedProperty name.lexeme⟩) m

/-! ### Reading and writing -/

section

variable {n : Nat} {object value : Expr} {name : Token} {target : Instance} {log : List Write}

/-- When a property is read, its field holds what was last written to it. -/
theorem Logged.field (begun : Begun os)
    (logged : Logged os host log ⟨n + 1, .evaluate (.get object name), m⟩)
    (run : evaluate host n object m = .ok (.object target) m') (id : Nat) (field : String) :
    field? m' id field =
      lastWrite? id field (log ++ writes host ⟨n, .evaluate object, m⟩) := by
  obtain ⟨confined, anchored⟩ := logged.anchored begun
  have after : Config.after host ⟨n, .evaluate object, m⟩ = m' := by
    show machineAfter (evaluate host n object m) = m'
    rw [run]
    rfl
  rw [lastWrite?_append, ← logged.fields begun, ← after]
  exact fields_after confined (anchored.step .got (steadyAt confined n)) id field

/-- The class of an instance that is read, and those it inherits from, were declared. -/
theorem Logged.descent (begun : Begun os)
    (logged : Logged os host log ⟨n + 1, .evaluate (.get object name), m⟩)
    (run : evaluate host n object m = .ok (.object target) m') :
    ∃ chain, Descent os target.ofClass chain := by
  obtain ⟨confined, anchored⟩ := logged.anchored begun
  have steady : SteadyAt (records os) host n := steadyAt confined n
  obtain ⟨_, held⟩ := (steady.evaluate (anchored.step .got steady)).ok run
  exact held.2.descent

/-- Where no field was written, the nearest class decides. -/
theorem property_of_descent {chain : List (Class × List FunctionDecl)}
    (unwritten : field? m target.id name.lexeme = none) (h : Descent os target.ofClass chain) :
    MethodRead chain target name m (Run.property target name m) := by
  have finds := h.findMethod? name.lexeme
  rw [property_eq, unwritten]
  unfold MethodRead
  split
  · next declaring f nearest =>
    rw [nearest] at finds
    obtain ⟨method, found, own, made, _⟩ := finds
    obtain ⟨closure, m', bound, this⟩ := bindMethod_bound method target m
    refine ⟨method, closure, m', own, made, this, ?_⟩
    rw [found]
    show (Run.bindMethod method target >>= fun closure => pure (Value.function closure)) m = _
    exact bind_ok bound
  · next nearest =>
    rw [nearest] at finds
    rw [finds]

theorem evaluate_get (run : evaluate host n object m = .ok (.object target) m') :
    evaluate host (n + 1) (.get object name) m = Run.property target name m' := by
  rw [evaluate, bind_ok run]

/-- An assignment to a field, when its object is an instance and its value is had. -/
theorem set_writes {m₁ m₂ : Machine} {v : Value}
    (run : evaluate host n object m = .ok (.object target) m₁)
    (run' : evaluate host n value m₁ = .ok v m₂) :
    evaluate host (n + 1) (.set object name value) m =
        .ok v (afterWrite m₂ ⟨target.id, name.lexeme, v⟩) ∧
      writes host ⟨n + 1, .evaluate (.set object name value), m⟩ =
        writes host ⟨n, .evaluate object, m⟩ ++ writes host ⟨n, .evaluate value, m₁⟩ ++
          [⟨target.id, name.lexeme, v⟩] := by
  refine ⟨?_, ?_⟩
  · rw [evaluate, bind_ok run]
    show (evaluate host n value >>= fun v => _) m₁ = _
    rw [bind_ok run']
    rfl
  · rw [writes_eq]
    simp [parts, evaluateParts, evaluating, ownWrites, run, run']

/-- An assignment whose value fails writes no field. -/
theorem set_failed {m₁ m₂ : Machine} {e : Halt}
    (run : evaluate host n object m = .ok (.object target) m₁)
    (run' : evaluate host n value m₁ = .error e m₂) :
    evaluate host (n + 1) (.set object name value) m = .error e m₂ ∧
      writes host ⟨n + 1, .evaluate (.set object name value), m⟩ =
        writes host ⟨n, .evaluate object, m⟩ ++ writes host ⟨n, .evaluate value, m₁⟩ := by
  refine ⟨?_, ?_⟩
  · rw [evaluate, bind_ok run]
    exact bind_error run'
  · rw [writes_eq]
    simp [parts, evaluateParts, evaluating, ownWrites, run, run']

/-- An assignment whose object is no instance writes no field. -/
theorem set_refused {m₁ : Machine} {v : Value} (run : evaluate host n object m = .ok v m₁)
    (other : ∀ target, v ≠ .object target) :
    evaluate host (n + 1) (.set object name value) m = .error (.fault ⟨name, .noFields⟩) m₁ ∧
      writes host ⟨n + 1, .evaluate (.set object name value), m⟩ =
        writes host ⟨n, .evaluate object, m⟩ := by
  have same : writes host ⟨n + 1, .evaluate (.set object name value), m⟩ =
      writes host ⟨n, .evaluate object, m⟩ := by
    rw [writes_eq]
    cases v with
    | object target => exact absurd rfl (other target)
    | _ => simp [parts, evaluateParts, evaluating, ownWrites, run]
  refine ⟨?_, same⟩
  rw [evaluate, bind_ok run]
  cases v with
  | object target => exact absurd rfl (other target)
  | _ => rfl

/-- In every session, however far its last program has come: a property that is read of an
    instance is what was last written to the field of its name, by whatever program and by
    whichever way to the instance; if nothing was, it is the last method of its name in the
    declaration of the nearest class that has one, bound to the instance, and if none has, it is
    undefined. An assignment to a property writes one field, and none if its object is no
    instance or its value fails; a write changes neither the reading of another field or of
    another instance nor the methods that `super` finds. -/
theorem last_write_wins_then_nearest_method (begun : Begun os) :
    (∀ o ∈ os, ∀ c, Reaches o.host o.launch.config c → ∃ log, Logged os o.host log c) ∧
    (∀ host log n object name m target m',
      Logged os host log ⟨n + 1, .evaluate (.get object name), m⟩ →
      evaluate host n object m = .ok (.object target) m' →
      match lastWrite? target.id name.lexeme (log ++ writes host ⟨n, .evaluate object, m⟩) with
      | some v => evaluate host (n + 1) (.get object name) m = .ok v m'
      | none => (∃ chain, Descent os target.ofClass chain) ∧
        ∀ chain, Descent os target.ofClass chain →
          MethodRead chain target name m' (evaluate host (n + 1) (.get object name) m)) ∧
    (∀ host n object name value m target m₁ v m₂,
      evaluate host n object m = .ok (.object target) m₁ →
      evaluate host n value m₁ = .ok v m₂ →
      evaluate host (n + 1) (.set object name value) m =
          .ok v (afterWrite m₂ ⟨target.id, name.lexeme, v⟩) ∧
        writes host ⟨n + 1, .evaluate (.set object name value), m⟩ =
          writes host ⟨n, .evaluate object, m⟩ ++ writes host ⟨n, .evaluate value, m₁⟩ ++
            [⟨target.id, name.lexeme, v⟩]) ∧
    (∀ host n object name value m v m₁,
      evaluate host n object m = .ok v m₁ → (∀ target, v ≠ .object target) →
      evaluate host (n + 1) (.set object name value) m = .error (.fault ⟨name, .noFields⟩) m₁ ∧
        writes host ⟨n + 1, .evaluate (.set object name value), m⟩ =
          writes host ⟨n, .evaluate object, m⟩) ∧
    (∀ host n object name value m target m₁ e m₂,
      evaluate host n object m = .ok (.object target) m₁ →
      evaluate host n value m₁ = .error e m₂ →
      evaluate host (n + 1) (.set object name value) m = .error e m₂ ∧
        writes host ⟨n + 1, .evaluate (.set object name value), m⟩ =
          writes host ⟨n, .evaluate object, m⟩ ++ writes host ⟨n, .evaluate value, m₁⟩) ∧
    ∀ w m,
      (∀ o name, o.id ≠ w.target ∨ name.lexeme ≠ w.name →
        Run.property o name (afterWrite m w) =
          mapMachine (afterWrite · w) (Run.property o name m)) ∧
      ∀ node keyword method, superMethod node keyword method (afterWrite m w) =
        mapMachine (afterWrite · w) (superMethod node keyword method m) := by
  refine ⟨?_, ?_, ?_, ?_, ?_, ?_⟩
  · intro o started c reached
    obtain ⟨later, earlier, split⟩ := List.append_of_mem started
    obtain ⟨log, leads⟩ := reached.leadsTo
    exact ⟨_, .inside split leads⟩
  · intro host log n object name m target m' logged run
    have field := logged.field begun run target.id name.lexeme
    rw [evaluate_get run]
    split
    -- either the log has a write to the field, or the classes decide
    · next v last =>
      rw [property_eq, field, last]
    · next unwritten =>
      rw [unwritten] at field
      exact ⟨logged.descent begun run, fun chain h => property_of_descent field h⟩
  · exact fun _ _ _ _ _ _ _ _ _ _ run run' => set_writes run run'
  · exact fun _ _ _ _ _ _ _ _ run other => set_refused run other
  · exact fun _ _ _ _ _ _ _ _ _ _ run run' => set_failed run run'
  · intro w m
    exact ⟨fun o name other => property_afterWrite other m,
      fun node keyword method => superMethod_afterWrite node keyword method w m⟩

/-- The theorem where a field is written by one name of an instance and read by another: the value
    is read, and not the method of that name. -/
theorem last_write_wins_then_nearest_method_alias :
    let host := Host.standard 0
    let l := launch (.start host .unlimited) 9
      "class A \x7b f() \x7b\x7d \x7d var a = A(); var b = a; b.f = true; a.f;"
    ∃ log n object name m target m', Logged [⟨host, l⟩] host log
        ⟨n + 1, .evaluate (.get object name), m⟩ ∧
      evaluate host n object m = .ok (.object target) m' ∧ log = [⟨target.id, "f", .bool true⟩] ∧
      (target.ofClass.findMethod? name.lexeme).isSome ∧
      evaluate host (n + 1) (.get object name) m = .ok (.bool true) m' := by
  intro host l
  -- the statements
  let name : Token := ⟨.identifier, "f", 1⟩
  let a : Token := ⟨.identifier, "a", 1⟩
  let b : Token := ⟨.identifier, "b", 1⟩
  let s₁ : Stmt := .classDecl ⟨.identifier, "A", 1⟩ none [⟨name, [], []⟩]
  let s₂ : Stmt := .varDecl a
    (some (.call (.var 0 ⟨.identifier, "A", 1⟩) ⟨.punctuator .rightParen, ")", 1⟩ []))
  let s₃ : Stmt := .varDecl b (some (.var 1 a))
  let s₄ : Stmt := .expression (.set (.var 2 b) name (.literal (.bool true)))
  let object : Expr := .var 3 a
  let s₅ : Stmt := .expression (.get object name)
  -- the machines after the statements
  let target : Instance := ⟨0, .base ⟨1, "A", .single "f" ⟨0, ⟨name, [], []⟩, [0], false⟩⟩⟩
  let known : List (String × Value) :=
    [("clock", .native ⟨"clock", 0⟩), ("A", .classObject target.ofClass)]
  let made : List (String × Value) := known ++ [("a", .object target)]
  let shared : List (String × Value) := made ++ [("b", .object target)]
  let m₁ : Machine := ⟨⟨#[⟨known⟩]⟩, #[], 2, 0, [0], ∅, .unlimited⟩
  let m₂ : Machine := ⟨⟨#[⟨made⟩]⟩, #[.empty], 2, 0, [0], ∅, .unlimited⟩
  let m₃ : Machine := ⟨⟨#[⟨shared⟩]⟩, #[.empty], 2, 0, [0], ∅, .unlimited⟩
  let m₄ : Machine := ⟨⟨#[⟨shared⟩]⟩, #[.single "f" (.bool true)], 2, 0, [0], ∅, .unlimited⟩
  have accepted : (Session.prepare (.start host .unlimited)
      "class A \x7b f() \x7b\x7d \x7d var a = A(); var b = a; b.f = true; a.f;").diagnostics =
        [] := by cbv
  have begun : Begun [⟨host, l⟩] :=
    .program 9 (.start host .unlimited) (honest_standard 0).confined accepted
  have config : l.config = ⟨9, .interpret [s₁, s₂, s₃, s₄, s₅], l.machine⟩ := by
    have program : l.program = [s₁, s₂, s₃, s₄, s₅] := by cbv
    exact congrArg (fun p => Config.mk 9 (.interpret p) l.machine) program
  have ran₁ : execute host 9 s₁ l.machine = .ok .next m₁ := by cbv
  have ran₂ : execute host 9 s₂ m₁ = .ok .next m₂ := by cbv
  have ran₃ : execute host 9 s₃ m₂ = .ok .next m₃ := by cbv
  have ran₄ : execute host 9 s₄ m₃ = .ok .next m₄ := by cbv
  have read : evaluate host 7 object m₄ = .ok (.object target) m₄ := by cbv
  let get : Config := ⟨8, .evaluate (.get object name), m₄⟩
  have leads : LeadsTo host l.config [⟨0, "f", .bool true⟩] get := by
    have statement : parts host ⟨9, .interpret [s₅], m₄⟩ =
        [] ++ ⟨9, .execute s₅, m₄⟩ :: [⟨9, .interpret [], m₄⟩] := rfl
    have expression : parts host ⟨9, .execute s₅, m₄⟩ = [] ++ get :: [] := rfl
    have last : LeadsTo host ⟨9, .interpret [s₅], m₄⟩ [] get :=
      .step statement (.step expression (.refl get))
    have leads := last.later ran₄ |>.later ran₃ |>.later ran₂ |>.later ran₁
    have log : writes host ⟨9, .execute s₁, l.machine⟩ ++ (writes host ⟨9, .execute s₂, m₁⟩ ++
        (writes host ⟨9, .execute s₃, m₂⟩ ++ (writes host ⟨9, .execute s₄, m₃⟩ ++ []))) =
        [⟨0, "f", .bool true⟩] := by cbv
    rw [config, ← log]
    exact leads
  have split : [Occasion.mk host l] = [] ++ Occasion.mk host l :: [] := rfl
  have logged : Logged [⟨host, l⟩] host [⟨0, "f", .bool true⟩] get := .inside split leads
  have reads := (last_write_wins_then_nearest_method begun).2.1 host _ 7 object name m₄ target m₄
    logged read
  have last : lastWrite? target.id name.lexeme ([⟨0, "f", .bool true⟩] ++
      writes host ⟨7, .evaluate object, m₄⟩) = some (.bool true) := by cbv
  rw [last] at reads
  exact ⟨_, 7, object, name, m₄, target, m₄, logged, read, rfl, rfl, reads⟩

end

end Lox.Evaluation
