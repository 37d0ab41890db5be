import Lox.Proofs.Evaluation.Restoration

/-! # `super` is static, `this` is dynamic

  Inside a class, a running program is always in an activation of one of its methods
  (`InMethod`). There `this` is the instance that the method was bound to, and `super` looks for
  methods from the class on that the superclass came to when the declaration of the class was
  executed, whatever the class of the instance is.
-/

namespace Lox.Evaluation

open Binding

variable {host : Host} {s : Session} {launches : List Launch} {source : String} {fuel : Nat}

/-- A reference of one of the programs stands inside the method of an activation, and the
    program is in that activation. -/
def InMethod (host : Host) (launches : List Launch) (m : Machine) (o : Occurrence)
    (a : Activation) : Prop :=
  ∃ path initialized,
    -- where it stands, and nothing else of its identity does
    Sited launches (.occurrence path initialized o) ∧
    (∀ site, Sited launches site → site.node? = some o.node →
      site = .occurrence path initialized o) ∧
    a.Around path m.scope ∧ a.Happened (Happened host launches)

theorem Settled.inMethod (h : Settled host s launches)
    (accepted : (s.prepare source).diagnostics = []) {m : Machine} {o : Occurrence}
    {a : Activation} (runs : RunsIn (ledger host (launch s fuel source :: launches)) m o a) :
    InMethod host (launch s fuel source :: launches) m o a := by
  obtain ⟨path, initialized, site, around, happened⟩ := runs
  refine ⟨path, initialized, site, ?_, around, happened⟩
  exact fun other hother hnode => h.distinct_cons accepted other _ _ hother site hnode rfl

/-- What `super` and `this` come to, in whichever program of a session and however far into it.
    The program is in an activation of a method of the innermost class around the node. A
    method is looked for from the class on that the superclass came to in the execution of the
    class declaration that made the method of the activation, which is the superclass of the
    class that was built then, and it is bound to the instance that the activation is bound to.
    `this` is that instance. -/
theorem super_is_static_and_this_dynamic (honest : Honest host)
    (history : History host s launches) (accepted : (s.prepare source).diagnostics = []) :
    (∀ n node keyword method m,
      Reaches host (launch s fuel source).config
        ⟨n + 1, .evaluate (.superRef node keyword method), m⟩ →
      ∃ a parent,
        InMethod host (launch s fuel source :: launches) m (.parent node keyword) a ∧
        a.parent = some parent ∧
        evaluate host (n + 1) (.superRef node keyword method) m =
          match parent.findMethod? method.lexeme with
          | some found => (Value.function <$> Run.bindMethod found a.target) m
          | none => .error (.fault ⟨method, .undefinedProperty method.lexeme⟩) m) ∧
    ∀ n node keyword m,
      Reaches host (launch s fuel source).config ⟨n + 1, .evaluate (.thisRef node keyword), m⟩ →
      ∃ a, InMethod host (launch s fuel source :: launches) m (.self node keyword) a ∧
        evaluate host (n + 1) (.thisRef node keyword) m = .ok (.object a.target) m := by
  have settled := history.settled honest
  have lawful : Lawful (ledger host (launch s fuel source :: launches)) :=
    settled.lawful_cons accepted
  have fits : ∀ {c}, Reaches host (launch s fuel source).config c →
      Fits (ledger host (launch s fuel source :: launches)) host c :=
    fun reached => (settled.launch_fits accepted).reach honest lawful reached
  refine ⟨?_, ?_⟩
  · intro n node keyword method m reached
    have fit := fits reached
    obtain ⟨a, parent, d, runs, hparent, noted, super, this⟩ :=
      Placed.super lawful fit.good fit.call.1
    exact ⟨a, parent, settled.inMethod accepted runs, hparent,
      superMethod_found noted super this method⟩
  · intro n node keyword m reached
    have fit := fits reached
    obtain ⟨a, d, runs, noted, found⟩ := Placed.this lawful fit.good fit.call.1
    exact ⟨a, settled.inMethod accepted runs, readVariable_eq noted found⟩

/-- A method of the superclass, asked for in an initializer. -/
theorem super_is_static_and_this_dynamic_initializer :
    let host := Host.standard 0
    let l := launch (.start host .unlimited) 9
      "class A \x7b m() \x7b\x7d \x7d class B < A \x7b init() \x7b super.m; \x7d \x7d B();"
    let keyword : Token := ⟨.keyword .superWord, "super", 1⟩
    let method : Token := ⟨.identifier, "m", 1⟩
    ∃ n m a parent, Reaches host l.config ⟨n + 1, .evaluate (.superRef 1 keyword method), m⟩ ∧
      InMethod host [l] m (.parent 1 keyword) a ∧ a.parent = some parent ∧
      evaluate host (n + 1) (.superRef 1 keyword method) m =
        match parent.findMethod? method.lexeme with
        | some found => (Value.function <$> Run.bindMethod found a.target) m
        | none => .error (.fault ⟨method, .undefinedProperty method.lexeme⟩) m := by
  intro host l keyword method
  have accepted : (Session.prepare (.start host .unlimited)
      "class A \x7b m() \x7b\x7d \x7d class B < A \x7b init() \x7b super.m; \x7d \x7d B();").diagnostics =
      [] := by cbv
  -- the program, and the class that its second statement builds
  let own : FunctionDecl := ⟨method, [], []⟩
  let init : FunctionDecl :=
    ⟨⟨.identifier, "init", 1⟩, [], [.expression (.superRef 1 keyword method)]⟩
  let first : Stmt := .classDecl ⟨.identifier, "A", 1⟩ none [own]
  let second : Stmt :=
    .classDecl ⟨.identifier, "B", 1⟩ (some (.var 0 ⟨.identifier, "A", 1⟩)) [init]
  let callee : Expr := .var 2 ⟨.identifier, "B", 1⟩
  let call : Expr := .call callee ⟨.punctuator .rightParen, ")", 1⟩ []
  let built : Class := .derived ⟨3, "B", .single "init" ⟨2, init, [1, 0], true⟩⟩
    (.base ⟨1, "A", .single "m" ⟨0, own, [0], false⟩⟩)
  have config : l.config = ⟨9, .interpret [first, second, .expression call], l.machine⟩ := by
    have program : l.program = [first, second, .expression call] := by cbv
    exact congrArg (fun p => Config.mk 9 (.interpret p) l.machine) program
  obtain ⟨m₁, m₂, ran₁, ran₂, read⟩ : ∃ m₁ m₂, execute host 9 first l.machine = .ok .next m₁ ∧
      execute host 9 second m₁ = .ok .next m₂ ∧
      evaluate host 7 callee m₂ = .ok (.classObject built) m₂ :=
    ⟨machineAfter (execute host 9 first l.machine),
      machineAfter (execute host 9 second (machineAfter (execute host 9 first l.machine))),
      by cbv, by cbv, by cbv⟩
  have reached : ∃ n m, Reaches host l.config
      ⟨n + 1, .evaluate (.superRef 1 keyword method), m⟩ := by
    rw [config]
    exact ⟨_, _, .step (.statements ran₁) (.step (.statements ran₂) (.step .statement
      (.step .expression (.step (.invoke read rfl) (.step (.classObject rfl)
        (.step (.initializer rfl rfl rfl) (.step .body (.step .firstOf
          (.step .expression (.refl _))))))))))⟩
  obtain ⟨n, m, reached⟩ := reached
  obtain ⟨a, parent, here, hparent, value⟩ := (super_is_static_and_this_dynamic
    (honest_standard 0) (.start .unlimited) accepted).1 n 1 keyword method m reached
  exact ⟨n, m, a, parent, reached, here, hparent, value⟩

end Lox.Evaluation
