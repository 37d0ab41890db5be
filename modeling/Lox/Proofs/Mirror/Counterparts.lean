import Mathlib.Data.List.Forall2
import Lox.Proofs.Evaluation.Operations

/-! # Programs that mirror each other

  Two programs run side by side, each on its own machine. They mirror each other when they
  have the same shape and differ only where a running program does not look, or looks in the
  same way on both sides: in the identities of nodes, in the lines of tokens, or in names
  that are spelled differently at their declaration and at every reference to it. A `Mirror`
  says which tokens, nodes and names stand for which.

  The names of a scope are spelled anew scope by scope, so what is related to what depends on
  the scopes around a place: every scope, and at run time every frame, has a kind. From
  programs the relation goes on to values and machines. It is stable when frames are added
  (`Later`), and nothing that a program can see of a value tells it from its counterpart.
-/

namespace Lox.Evaluation

theorem optionRel_imp {α β : Type} {R S : α → β → Prop} (imp : ∀ a b, R a b → S a b)
    {o : Option α} {o' : Option β} (h : Option.Rel R o o') : Option.Rel S o o' := by
  cases h with
  | some related => exact .some (imp _ _ related)
  | none => exact .none

/-! ### What stands for what -/

/-- How a program is mirrored. Scopes and their frames are of kinds `κ`. -/
structure Mirror (κ : Type) where
  /-- The tokens that stand for each other. -/
  token : Token → Token → Prop
  /-- The nodes that stand for each other, with the distance noted for both. -/
  node : NodeId → NodeId → Option Nat → Prop
  /-- The names that stand for each other in a scope of a kind. -/
  names : κ → String → String → Prop
  /-- The kind of the scopes whose names are spelled alike. -/
  plain : κ
  /-- Tokens that stand for each other are of one kind. -/
  kind_eq : ∀ {t t'}, token t t' → t.kind = t'.kind
  /-- So do the tokens that the evaluator makes up on their lines. -/
  self_token : ∀ {t t'}, token t t' →
    token (.synthetic "this" t.line) (.synthetic "this" t'.line)
  /-- Names of a plain scope stand for themselves. -/
  names_plain : ∀ {a b}, names plain a b ↔ a = b
  /-- A name stands for one name only. -/
  names_inj : ∀ {k a a' b b'}, names k a a' → names k b b' → (a = b ↔ a' = b')
  /-- The name of the instance that a method runs on stands for itself. -/
  names_this : ∀ {k}, names k "this" "this"

variable {κ : Type} {μ : Mirror κ}

/-- The kind of the scope that a distance leads to; the outermost scope is never left. -/
def outward : List κ → Nat → Option κ
  | _ :: k :: outer, distance + 1 => outward (k :: outer) distance
  | k :: _, _ => some k
  | [], _ => none

/-- Whether two references stand for each other: what is noted for their nodes leads to a
    scope in which their names do. -/
def Mirror.Refers (μ : Mirror κ) (env : List κ) (node : NodeId) (name : Token)
    (node' : NodeId) (name' : Token) : Prop :=
  μ.token name name' ∧
    ((∃ distance, μ.node node node' (some distance) ∧
        ∀ k, outward env distance = some k → μ.names k name.lexeme name'.lexeme) ∨
      μ.node node node' none ∧ name.lexeme = name'.lexeme)

/-- Whether two declarations stand for each other in the innermost of some scopes. -/
def Mirror.Declares (μ : Mirror κ) (env : List κ) (name name' : Token) : Prop :=
  μ.token name name' ∧ ∀ k, env.head? = some k → μ.names k name.lexeme name'.lexeme

/-- Whether two tokens stand for each other and are spelled alike. -/
def Mirror.Same (μ : Mirror κ) (t t' : Token) : Prop :=
  μ.token t t' ∧ t.lexeme = t'.lexeme

/-! ### Programs -/

mutual

/-- Expressions that mirror each other, inside scopes of the given kinds. -/
inductive ExprMirrors (μ : Mirror κ) (env : List κ) : Expr → Expr → Prop where
  | literal (value : Literal) : ExprMirrors μ env (.literal value) (.literal value)
  | grouping {e e' : Expr} : ExprMirrors μ env e e' →
      ExprMirrors μ env (.grouping e) (.grouping e')
  | unary {o o' : Token} {e e' : Expr} : μ.token o o' → ExprMirrors μ env e e' →
      ExprMirrors μ env (.unary o e) (.unary o' e')
  | binary {o o' : Token} {a a' b b' : Expr} : ExprMirrors μ env a a' → μ.token o o' →
      ExprMirrors μ env b b' → ExprMirrors μ env (.binary a o b) (.binary a' o' b')
  | logical {o o' : Token} {a a' b b' : Expr} : ExprMirrors μ env a a' → μ.token o o' →
      ExprMirrors μ env b b' → ExprMirrors μ env (.logical a o b) (.logical a' o' b')
  | var {n n' : NodeId} {t t' : Token} : μ.Refers env n t n' t' →
      ExprMirrors μ env (.var n t) (.var n' t')
  | assign {n n' : NodeId} {t t' : Token} {e e' : Expr} : μ.Refers env n t n' t' →
      ExprMirrors μ env e e' → ExprMirrors μ env (.assign n t e) (.assign n' t' e')
  | call {p p' : Token} {e e' : Expr} {es es' : List Expr} : ExprMirrors μ env e e' →
      μ.token p p' → ExprsMirror μ env es es' →
      ExprMirrors μ env (.call e p es) (.call e' p' es')
  | get {t t' : Token} {e e' : Expr} : ExprMirrors μ env e e' → μ.Same t t' →
      ExprMirrors μ env (.get e t) (.get e' t')
  | set {t t' : Token} {e e' v v' : Expr} : ExprMirrors μ env e e' → μ.Same t t' →
      ExprMirrors μ env v v' → ExprMirrors μ env (.set e t v) (.set e' t' v')
  | thisRef {n n' : NodeId} {t t' : Token} : μ.Refers env n t n' t' →
      ExprMirrors μ env (.thisRef n t) (.thisRef n' t')
  | superRef {n n' : NodeId} {t t' u u' : Token} : μ.Refers env n t n' t' → μ.Same u u' →
      ExprMirrors μ env (.superRef n t u) (.superRef n' t' u')

/-- Arguments that mirror each other one by one. -/
inductive ExprsMirror (μ : Mirror κ) (env : List κ) : List Expr → List Expr → Prop where
  | nil : ExprsMirror μ env [] []
  | cons {e e' : Expr} {es es' : List Expr} : ExprMirrors μ env e e' →
      ExprsMirror μ env es es' → ExprsMirror μ env (e :: es) (e' :: es')

end

/-- Parameters that stand for each other one by one. -/
def Mirror.Params (μ : Mirror κ) (k : κ) : List Token → List Token → Prop :=
  List.Forall₂ fun p p' => μ.token p p' ∧ μ.names k p.lexeme p'.lexeme

/-- The kinds of the scopes around the methods of a class that stands inside others. -/
def Mirror.classEnv (μ : Mirror κ) (derived : Bool) (env : List κ) : List κ :=
  μ.plain :: if derived then μ.plain :: env else env

mutual

/-- Statements that mirror each other, inside scopes of the given kinds. -/
inductive StmtMirrors (μ : Mirror κ) : List κ → Stmt → Stmt → Prop where
  | expression {env : List κ} {e e' : Expr} : ExprMirrors μ env e e' →
      StmtMirrors μ env (.expression e) (.expression e')
  | print {env : List κ} {t t' : Token} {e e' : Expr} : μ.token t t' →
      ExprMirrors μ env e e' → StmtMirrors μ env (.print t e) (.print t' e')
  | varDecl {env : List κ} {t t' : Token} {o o' : Option Expr} : μ.Declares env t t' →
      Option.Rel (ExprMirrors μ env) o o' → StmtMirrors μ env (.varDecl t o) (.varDecl t' o')
  | block {env : List κ} {ss ss' : List Stmt} (k : κ) : StmtsMirror μ (k :: env) ss ss' →
      StmtMirrors μ env (.block ss) (.block ss')
  | ifThen {env : List κ} {e e' : Expr} {s s' : Stmt} : ExprMirrors μ env e e' →
      StmtMirrors μ env s s' → StmtMirrors μ env (.ifElse e s none) (.ifElse e' s' none)
  | ifElse {env : List κ} {e e' : Expr} {s s' t t' : Stmt} : ExprMirrors μ env e e' →
      StmtMirrors μ env s s' → StmtMirrors μ env t t' →
      StmtMirrors μ env (.ifElse e s (some t)) (.ifElse e' s' (some t'))
  | whileLoop {env : List κ} {e e' : Expr} {s s' : Stmt} : ExprMirrors μ env e e' →
      StmtMirrors μ env s s' → StmtMirrors μ env (.whileLoop e s) (.whileLoop e' s')
  | funDecl {env : List κ} {f f' : FunctionDecl} : μ.Declares env f.name f'.name →
      FunctionMirrors μ env f f' → StmtMirrors μ env (.funDecl f) (.funDecl f')
  | ret {env : List κ} {t t' : Token} {o o' : Option Expr} : μ.token t t' →
      Option.Rel (ExprMirrors μ env) o o' → StmtMirrors μ env (.ret t o) (.ret t' o')
  | classDecl {env : List κ} {t t' : Token} {o o' : Option Expr} {fs fs' : List FunctionDecl} :
      μ.Declares env t t' → t.lexeme = t'.lexeme → Option.Rel (ExprMirrors μ env) o o' →
      MethodsMirror μ (μ.classEnv o.isSome env) fs fs' →
      StmtMirrors μ env (.classDecl t o fs) (.classDecl t' o' fs')

/-- Statements of one scope that mirror each other one by one. -/
inductive StmtsMirror (μ : Mirror κ) : List κ → List Stmt → List Stmt → Prop where
  | nil {env : List κ} : StmtsMirror μ env [] []
  | cons {env : List κ} {s s' : Stmt} {ss ss' : List Stmt} : StmtMirrors μ env s s' →
      StmtsMirror μ env ss ss' → StmtsMirror μ env (s :: ss) (s' :: ss')

/-- Functions that mirror each other; the scope of their parameters and statements is of some
    kind. -/
inductive FunctionMirrors (μ : Mirror κ) : List κ → FunctionDecl → FunctionDecl → Prop where
  | mk {env : List κ} {t t' : Token} {ps ps' : List Token} {ss ss' : List Stmt} (k : κ) :
      μ.Same t t' → μ.Params k ps ps' → StmtsMirror μ (k :: env) ss ss' →
      FunctionMirrors μ env ⟨t, ps, ss⟩ ⟨t', ps', ss'⟩

/-- Methods that mirror each other one by one. -/
inductive MethodsMirror (μ : Mirror κ) : List κ → List FunctionDecl → List FunctionDecl → Prop
  where
  | nil {env : List κ} : MethodsMirror μ env [] []
  | cons {env : List κ} {f f' : FunctionDecl} {fs fs' : List FunctionDecl} :
      FunctionMirrors μ env f f' → MethodsMirror μ env fs fs' →
      MethodsMirror μ env (f :: fs) (f' :: fs')

end

/-! ### Values -/

/-- The kinds of the frames of a scope, `w` being those of all frames. -/
def Views (w : List κ) (scope : Scope) (env : List κ) : Prop :=
  List.Forall₂ (fun frame k => w[frame]? = some k) scope env

/-- Closures that mirror each other. Around their declarations there are the scopes of the
    frames they keep, and `inner` inside of those. -/
def RoutineMirrors (μ : Mirror κ) (w : List κ) (inner : List κ) (c c' : Closure) : Prop :=
  c.id = c'.id ∧ c.scope = c'.scope ∧ c.isInitializer = c'.isInitializer ∧
    ∃ env, Views w c.scope env ∧ FunctionMirrors μ (inner ++ env) c.declaration c'.declaration

/-- Closures of functions, and of methods that are bound to an instance. -/
abbrev ClosureMirrors (μ : Mirror κ) (w : List κ) : Closure → Closure → Prop :=
  RoutineMirrors μ w []

/-- Closures of methods that are not bound: the scope that holds `this` is yet to come. -/
abbrev MethodMirrors (μ : Mirror κ) (w : List κ) : Closure → Closure → Prop :=
  RoutineMirrors μ w [μ.plain]

/-- Tables of methods that mirror each other name by name. -/
def TableMirrors (μ : Mirror κ) (w : List κ) (b b' : Bindings Closure) : Prop :=
  List.Forall₂ (fun e e' => e.1 = e'.1 ∧ MethodMirrors μ w e.2 e'.2) b.entries b'.entries

/-- What classes declare themselves. -/
def BodyMirrors (μ : Mirror κ) (w : List κ) (b b' : ClassBody) : Prop :=
  b.id = b'.id ∧ b.name = b'.name ∧ TableMirrors μ w b.methods b'.methods

/-- Classes that mirror each other, with all they inherit from. -/
inductive ClassMirrors (μ : Mirror κ) (w : List κ) : Class → Class → Prop where
  | base {b b' : ClassBody} : BodyMirrors μ w b b' → ClassMirrors μ w (.base b) (.base b')
  | derived {b b' : ClassBody} {c c' : Class} : BodyMirrors μ w b b' → ClassMirrors μ w c c' →
      ClassMirrors μ w (.derived b c) (.derived b' c')

/-- Values that mirror each other. -/
inductive ValueMirrors (μ : Mirror κ) (w : List κ) : Value → Value → Prop where
  | nil : ValueMirrors μ w .nil .nil
  | bool (b : Bool) : ValueMirrors μ w (.bool b) (.bool b)
  | number (x : Float) : ValueMirrors μ w (.number x) (.number x)
  | string (text : String) : ValueMirrors μ w (.string text) (.string text)
  | native (f : Native) : ValueMirrors μ w (.native f) (.native f)
  | function {c c' : Closure} : ClosureMirrors μ w c c' →
      ValueMirrors μ w (.function c) (.function c')
  | classObject {c c' : Class} : ClassMirrors μ w c c' →
      ValueMirrors μ w (.classObject c) (.classObject c')
  | object {o o' : Instance} : o.id = o'.id → ClassMirrors μ w o.ofClass o'.ofClass →
      ValueMirrors μ w (.object o) (.object o')

/-! ### More frames -/

/-- The kinds of frames, after more of them have been opened. -/
def Later (w w' : List κ) : Prop :=
  ∃ more, w' = w ++ more

theorem Later.refl (w : List κ) : Later w w :=
  ⟨[], (List.append_nil w).symm⟩

theorem Later.trans {w w' w'' : List κ} (h : Later w w') (h' : Later w' w'') : Later w w'' := by
  obtain ⟨more, rfl⟩ := h
  obtain ⟨more', rfl⟩ := h'
  exact ⟨more ++ more', List.append_assoc ..⟩

theorem Later.get {w w' : List κ} (h : Later w w') {frame : FrameId} {k : κ}
    (found : w[frame]? = some k) : w'[frame]? = some k := by
  obtain ⟨more, rfl⟩ := h
  obtain ⟨below, _⟩ := List.getElem?_eq_some_iff.mp found
  rw [List.getElem?_append_left below]
  exact found

section

variable {w w' : List κ} (more : Later w w')
include more

theorem Views.later {scope : Scope} {env : List κ} (h : Views w scope env) :
    Views w' scope env :=
  h.imp fun _ _ found => more.get found

theorem RoutineMirrors.later {inner : List κ} {c c' : Closure}
    (h : RoutineMirrors μ w inner c c') : RoutineMirrors μ w' inner c c' := by
  obtain ⟨id, scope, initializer, env, views, declaration⟩ := h
  exact ⟨id, scope, initializer, env, views.later more, declaration⟩

theorem TableMirrors.later {b b' : Bindings Closure} (h : TableMirrors μ w b b') :
    TableMirrors μ w' b b' :=
  h.imp fun _ _ entry => ⟨entry.1, entry.2.later more⟩

theorem BodyMirrors.later {b b' : ClassBody} (h : BodyMirrors μ w b b') :
    BodyMirrors μ w' b b' :=
  ⟨h.1, h.2.1, h.2.2.later more⟩

theorem ClassMirrors.later {c c' : Class} (h : ClassMirrors μ w c c') :
    ClassMirrors μ w' c c' := by
  induction h with
  | base body => exact .base (body.later more)
  | derived body _ ih => exact .derived (body.later more) ih

theorem ValueMirrors.later {v v' : Value} (h : ValueMirrors μ w v v') :
    ValueMirrors μ w' v v' := by
  cases h with
  | nil => exact .nil
  | bool => exact .bool _
  | number => exact .number _
  | string => exact .string _
  | native => exact .native _
  | function hc => exact .function (RoutineMirrors.later more hc)
  | classObject hc => exact .classObject (hc.later more)
  | object id hc => exact .object id (hc.later more)

theorem valuesMirror_later {o o' : Option Value} (h : Option.Rel (ValueMirrors μ w) o o') :
    Option.Rel (ValueMirrors μ w') o o' :=
  optionRel_imp (fun _ _ hv => hv.later more) h

end

/-! ### What can be seen of a value -/

section

variable {w : List κ}

theorem RoutineMirrors.name_eq {inner : List κ} {c c' : Closure}
    (h : RoutineMirrors μ w inner c c') : c.name = c'.name := by
  obtain ⟨id, declaration, scope, isInitializer⟩ := c
  obtain ⟨id', declaration', scope', isInitializer'⟩ := c'
  obtain ⟨_, _, _, env, _, hdeclaration⟩ := h
  cases hdeclaration with
  | mk k same params body => exact same.2

theorem RoutineMirrors.arity_eq {inner : List κ} {c c' : Closure}
    (h : RoutineMirrors μ w inner c c') : c.arity = c'.arity := by
  obtain ⟨id, declaration, scope, isInitializer⟩ := c
  obtain ⟨id', declaration', scope', isInitializer'⟩ := c'
  obtain ⟨_, _, _, env, _, hdeclaration⟩ := h
  cases hdeclaration with
  | mk k same params body => exact params.length_eq

theorem ClassMirrors.body {c c' : Class} (h : ClassMirrors μ w c c') :
    BodyMirrors μ w c.body c'.body := by
  cases h with
  | base body => exact body
  | derived body _ => exact body

theorem lookIn_mirrors {name : String} {es es' : List (String × Closure)}
    (h : List.Forall₂ (fun e e' => e.1 = e'.1 ∧ MethodMirrors μ w e.2 e'.2) es es') :
    Option.Rel (MethodMirrors μ w) (Bindings.lookIn name es) (Bindings.lookIn name es') := by
  induction h with
  | nil => exact .none
  | @cons e e' es es' entry _ ih =>
    obtain ⟨key, c⟩ := e
    obtain ⟨key', c'⟩ := e'
    obtain ⟨rfl, hc⟩ : key = key' ∧ _ := entry
    unfold Bindings.lookIn
    by_cases same : name = key
    · rw [if_pos same, if_pos same]
      exact .some hc
    · rw [if_neg same, if_neg same]
      exact ih

theorem ClassMirrors.findMethod {c c' : Class} (h : ClassMirrors μ w c c') (name : String) :
    Option.Rel (MethodMirrors μ w) (c.findMethod? name) (c'.findMethod? name) := by
  induction h with
  | base body => exact lookIn_mirrors body.2.2
  | @derived b b' c c' body _ ih =>
    have own : Option.Rel (MethodMirrors μ w) (b.methods.get? name) (b'.methods.get? name) :=
      lookIn_mirrors body.2.2
    rw [Class.findMethod?, Class.findMethod?]
    -- what the classes do not declare themselves is looked for in their superclasses
    generalize b.methods.get? name = o at own ⊢
    generalize b'.methods.get? name = o' at own ⊢
    cases own with
    | some hmethod => exact .some hmethod
    | none => exact ih

theorem ClassMirrors.arity_eq {c c' : Class} (h : ClassMirrors μ w c c') :
    c.arity = c'.arity := by
  have found : Option.Rel (MethodMirrors μ w) c.initializer? c'.initializer? :=
    h.findMethod initializerName
  unfold Class.arity
  generalize c.initializer? = o at found ⊢
  generalize c'.initializer? = o' at found ⊢
  cases found with
  | some hmethod => exact hmethod.arity_eq
  | none => rfl

theorem ValueMirrors.isTruthy_eq {v v' : Value} (h : ValueMirrors μ w v v') :
    v.isTruthy = v'.isTruthy := by
  cases h <;> rfl

theorem ValueMirrors.text_eq {v v' : Value} (h : ValueMirrors μ w v v') : v.text = v'.text := by
  cases h with
  | function hc => simp only [Value.text, RoutineMirrors.name_eq hc]
  | classObject hc => exact hc.body.2.1
  | object _ hc => simp only [Value.text, hc.body.2.1]
  | _ => rfl

theorem ValueMirrors.equals_eq {v v' u u' : Value} (h : ValueMirrors μ w v v')
    (hu : ValueMirrors μ w u u') : v.equals u = v'.equals u' := by
  cases h with
  | function hc =>
    cases hu with
    | function hd => simp only [Value.equals, hc.1, hd.1]
    | _ => rfl
  | classObject hc =>
    cases hu with
    | classObject hd => simp only [Value.equals, hc.body.1, hd.body.1]
    | _ => rfl
  | object id _ =>
    cases hu with
    | object id' _ => simp only [Value.equals, id, id']
    | _ => rfl
  | _ => cases hu <;> rfl

end

/-! ### Machines -/

/-- Machines that mirror each other: all that a program can reach does, frame by frame and
    field by field, and they are in the same scope. -/
structure MachineMirrors (μ : Mirror κ) (w : List κ) (here : Scope) (m m' : Machine) :
    Prop where
  size : m.frames.records.size = w.length
  size' : m'.frames.records.size = w.length
  frames : ∀ frame k name name', w[frame]? = some k → μ.names k name name' →
    Option.Rel (ValueMirrors μ w) (m.frames.lookup? frame name) (m'.frames.lookup? frame name')
  instances : m.fields.size = m'.fields.size
  fields : ∀ (id : Nat) (name : String), Option.Rel (ValueMirrors μ w)
    ((m.fields[id]?).bind (·.get? name)) ((m'.fields[id]?).bind (·.get? name))
  serial : m.serial = m'.serial
  hostCalls : m.hostCalls = m'.hostCalls
  scope : m.scope = here
  scope' : m'.scope = here
  sink : m.sink = m'.sink
  hops : ∀ node node' distance, μ.node node node' distance →
    m.hops.get? node = distance ∧ m'.hops.get? node' = distance
  globals : w[0]? = some μ.plain

/-- Runtime errors that mirror each other. One about a name that is not in reach has the
    name in its message. -/
def Mirror.Faults (μ : Mirror κ) (e e' : RuntimeError) : Prop :=
  μ.token e.token e'.token ∧
    (e.cause = e'.cause ∨ e = .undefined e.token ∧ e' = .undefined e'.token)

/-- Two computations stop for the same reason. -/
inductive HaltMirrors (μ : Mirror κ) : Halt → Halt → Prop where
  | fault {e e' : RuntimeError} : μ.Faults e e' → HaltMirrors μ (.fault e) (.fault e')
  | starved : HaltMirrors μ .starved .starved

/-! ### More nodes and tokens -/

/-- A mirror in which all that stands for each other in another one does so too. It may tell
    more kinds of scope apart; `f` gives the kinds of those that there were. -/
structure Mirror.Widens {κ' : Type} (f : κ → κ') (μ : Mirror κ) (μ' : Mirror κ') : Prop where
  token : ∀ {t t'}, μ.token t t' → μ'.token t t'
  node : ∀ {n n' distance}, μ.node n n' distance → μ'.node n n' distance
  names : ∀ {k a b}, μ.names k a b ↔ μ'.names (f k) a b
  plain : f μ.plain = μ'.plain

theorem outward_map {κ' : Type} (f : κ → κ') (env : List κ) (distance : Nat) :
    outward (env.map f) distance = (outward env distance).map f := by
  fun_induction outward env distance with
  | case1 _ k outer distance ih => exact ih
  | case2 k outer distance last =>
    cases outer with
    | nil => rfl
    | cons k' outer =>
      cases distance with
      | zero => rfl
      | succ distance => exact (last k' outer distance rfl rfl).elim
  | case3 => rfl

section

variable {κ' : Type} {f : κ → κ'} {μ' : Mirror κ'} {env w : List κ}

theorem Mirror.Refers.widen (wide : μ.Widens f μ') {n n' : NodeId} {t t' : Token}
    (h : μ.Refers env n t n' t') : μ'.Refers (env.map f) n t n' t' := by
  obtain ⟨token, ⟨distance, node, names⟩ | ⟨node, lexeme⟩⟩ := h
  · refine ⟨wide.token token, .inl ⟨distance, wide.node node, ?_⟩⟩
    intro k there
    rw [outward_map, Option.map_eq_some_iff] at there
    obtain ⟨k, there, rfl⟩ := there
    exact wide.names.mp (names k there)
  · exact ⟨wide.token token, .inr ⟨wide.node node, lexeme⟩⟩

theorem Mirror.Declares.widen (wide : μ.Widens f μ') {t t' : Token} (h : μ.Declares env t t') :
    μ'.Declares (env.map f) t t' := by
  refine ⟨wide.token h.1, fun k there => ?_⟩
  rw [List.head?_map, Option.map_eq_some_iff] at there
  obtain ⟨k, there, rfl⟩ := there
  exact wide.names.mp (h.2 k there)

theorem Mirror.Same.widen (wide : μ.Widens f μ') {t t' : Token} (h : μ.Same t t') :
    μ'.Same t t' :=
  ⟨wide.token h.1, h.2⟩

theorem Mirror.Params.widen (wide : μ.Widens f μ') {k : κ} {ps ps' : List Token}
    (h : μ.Params k ps ps') : μ'.Params (f k) ps ps' :=
  h.imp fun _ _ param => ⟨wide.token param.1, wide.names.mp param.2⟩

theorem Mirror.Widens.classEnv (wide : μ.Widens f μ') (derived : Bool) (env : List κ) :
    (μ.classEnv derived env).map f = μ'.classEnv derived (env.map f) := by
  unfold Mirror.classEnv
  rw [List.map_cons, wide.plain]
  cases derived with
  | true => simp [wide.plain]
  | false => simp

mutual

theorem ExprMirrors.widen (wide : μ.Widens f μ') {e e' : Expr} :
    ExprMirrors μ env e e' → ExprMirrors μ' (env.map f) e e'
  | .literal value => .literal value
  | .grouping inner => .grouping (inner.widen wide)
  | .unary token right => .unary (wide.token token) (right.widen wide)
  | .binary left token right => .binary (left.widen wide) (wide.token token) (right.widen wide)
  | .logical left token right => .logical (left.widen wide) (wide.token token) (right.widen wide)
  | .var refers => .var (refers.widen wide)
  | .assign refers value => .assign (refers.widen wide) (value.widen wide)
  | .call callee token arguments =>
    .call (callee.widen wide) (wide.token token) (arguments.widen wide)
  | .get object same => .get (object.widen wide) (same.widen wide)
  | .set object same value => .set (object.widen wide) (same.widen wide) (value.widen wide)
  | .thisRef refers => .thisRef (refers.widen wide)
  | .superRef refers same => .superRef (refers.widen wide) (same.widen wide)

theorem ExprsMirror.widen (wide : μ.Widens f μ') {es es' : List Expr} :
    ExprsMirror μ env es es' → ExprsMirror μ' (env.map f) es es'
  | .nil => .nil
  | .cons first rest => .cons (first.widen wide) (rest.widen wide)

end

theorem optionMirrors_widen (wide : μ.Widens f μ') {o o' : Option Expr}
    (h : Option.Rel (ExprMirrors μ env) o o') :
    Option.Rel (ExprMirrors μ' (env.map f)) o o' :=
  optionRel_imp (fun _ _ value => value.widen wide) h

mutual

theorem StmtMirrors.widen (wide : μ.Widens f μ') {env : List κ} {s s' : Stmt} :
    StmtMirrors μ env s s' → StmtMirrors μ' (env.map f) s s'
  | .expression value => .expression (value.widen wide)
  | .print token value => .print (wide.token token) (value.widen wide)
  | .varDecl declares initializer =>
    .varDecl (declares.widen wide) (optionMirrors_widen wide initializer)
  | .block k body => .block (f k) (body.widen wide)
  | .ifThen condition thenBranch => .ifThen (condition.widen wide) (thenBranch.widen wide)
  | .ifElse condition thenBranch elseBranch =>
    .ifElse (condition.widen wide) (thenBranch.widen wide) (elseBranch.widen wide)
  | .whileLoop condition body => .whileLoop (condition.widen wide) (body.widen wide)
  | .funDecl declares function => .funDecl (declares.widen wide) (function.widen wide)
  | .ret token value => .ret (wide.token token) (optionMirrors_widen wide value)
  | .classDecl declares lexeme superclass methods =>
    .classDecl (declares.widen wide) lexeme (optionMirrors_widen wide superclass)
      (wide.classEnv _ env ▸ methods.widen wide)

theorem StmtsMirror.widen (wide : μ.Widens f μ') {env : List κ} {ss ss' : List Stmt} :
    StmtsMirror μ env ss ss' → StmtsMirror μ' (env.map f) ss ss'
  | .nil => .nil
  | .cons first rest => .cons (first.widen wide) (rest.widen wide)

theorem FunctionMirrors.widen (wide : μ.Widens f μ') {env : List κ} {d d' : FunctionDecl} :
    FunctionMirrors μ env d d' → FunctionMirrors μ' (env.map f) d d'
  | .mk k same params body => .mk (f k) (same.widen wide) (params.widen wide) (body.widen wide)

theorem MethodsMirror.widen (wide : μ.Widens f μ') {env : List κ} {ds ds' : List FunctionDecl} :
    MethodsMirror μ env ds ds' → MethodsMirror μ' (env.map f) ds ds'
  | .nil => .nil
  | .cons first rest => .cons (first.widen wide) (rest.widen wide)

end

theorem Views.widen (f : κ → κ') {scope : Scope} (h : Views w scope env) :
    Views (w.map f) scope (env.map f) := by
  unfold Views at h ⊢
  rw [List.forall₂_map_right_iff]
  refine h.imp fun frame k mark => ?_
  rw [List.getElem?_map, mark]
  rfl

theorem RoutineMirrors.widen (wide : μ.Widens f μ') {inner : List κ} {c c' : Closure}
    (h : RoutineMirrors μ w inner c c') : RoutineMirrors μ' (w.map f) (inner.map f) c c' := by
  obtain ⟨id, scope, initializer, env, views, declaration⟩ := h
  have wider := declaration.widen wide
  rw [List.map_append] at wider
  exact ⟨id, scope, initializer, env.map f, views.widen f, wider⟩

theorem BodyMirrors.widen (wide : μ.Widens f μ') {b b' : ClassBody} (h : BodyMirrors μ w b b') :
    BodyMirrors μ' (w.map f) b b' := by
  refine ⟨h.1, h.2.1, h.2.2.imp fun _ _ entry => ⟨entry.1, ?_⟩⟩
  have method := RoutineMirrors.widen wide entry.2
  rw [List.map_singleton, wide.plain] at method
  exact method

theorem ClassMirrors.widen (wide : μ.Widens f μ') {c c' : Class} (h : ClassMirrors μ w c c') :
    ClassMirrors μ' (w.map f) c c' := by
  induction h with
  | base body => exact .base (body.widen wide)
  | derived body _ ih => exact .derived (body.widen wide) ih

theorem ValueMirrors.widen (wide : μ.Widens f μ') {v v' : Value} (h : ValueMirrors μ w v v') :
    ValueMirrors μ' (w.map f) v v' := by
  cases h with
  | nil => exact .nil
  | bool => exact .bool _
  | number => exact .number _
  | string => exact .string _
  | native => exact .native _
  | function hc => exact .function (RoutineMirrors.widen wide hc)
  | classObject hc => exact .classObject (hc.widen wide)
  | object id hc => exact .object id (hc.widen wide)

theorem valuesMirror_widen (wide : μ.Widens f μ') {o o' : Option Value}
    (h : Option.Rel (ValueMirrors μ w) o o') : Option.Rel (ValueMirrors μ' (w.map f)) o o' :=
  optionRel_imp (fun _ _ hv => hv.widen wide) h

/-- Machines go on mirroring each other when more distances are noted. -/
theorem MachineMirrors.widen (wide : μ.Widens f μ') {here : Scope} {m m' : Machine}
    (h : MachineMirrors μ w here m m') {hops hops' : Hops}
    (noted : ∀ node node' distance, μ'.node node node' distance →
      hops.get? node = distance ∧ hops'.get? node' = distance) :
    MachineMirrors μ' (w.map f) here { m with hops } { m' with hops := hops' } := by
  refine ⟨?_, ?_, ?_, h.instances, fun id name => valuesMirror_widen wide (h.fields id name),
    h.serial, h.hostCalls, h.scope, h.scope', h.sink, noted, ?_⟩
  · rw [List.length_map]
    exact h.size
  · rw [List.length_map]
    exact h.size'
  · intro frame k name name' mark names
    rw [List.getElem?_map, Option.map_eq_some_iff] at mark
    obtain ⟨k, mark, rfl⟩ := mark
    exact valuesMirror_widen wide (h.frames frame k name name' mark (wide.names.mpr names))
  · rw [List.getElem?_map, h.globals]
    exact congrArg some wide.plain

end

end Lox.Evaluation
