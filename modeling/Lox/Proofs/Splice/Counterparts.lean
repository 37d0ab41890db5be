import Lox.Proofs.Mirror.Evaluation

/-! # One scope more

  Two programs run side by side, each on its own machine. They are the same but for the
  identities of their nodes and for one scope, in which nothing is declared: the first program
  has it, the second one does not. A reference that leads out of that scope has one scope more
  to cross in the first program, and one that stays inside of it has the same distance in both
  (`Seam.Shifts`).

  At run time the scope is entered again and again, and functions declared in it outlive it. So
  the machine of the first program comes to have many frames without a counterpart on the
  other one, and its functions may have one of them among the frames they close over. A
  `World` says which frame stands for which. It grows as the programs go on (`Later`), and
  what is related stays so.
-/

namespace Lox.Evaluation

/-! ### Tables -/

section

variable {α : Type} {R S : α → α → Prop} {b b' : Bindings α}

/-- Tables that have the same names, with values that are related. -/
def Namewise (R : α → α → Prop) (b b' : Bindings α) : Prop :=
  ∀ name, Option.Rel R (b.get? name) (b'.get? name)

theorem namewise_empty : Namewise R .empty .empty :=
  fun _ => .none

theorem Namewise.imp (h : Namewise R b b') (imp : ∀ a a', R a a' → S a a') : Namewise S b b' :=
  fun name => optionRel_imp imp (h name)

theorem Namewise.set (h : Namewise R b b') (name : String) {a a' : α} (related : R a a') :
    Namewise R (b.set name a) (b'.set name a') := by
  intro other
  by_cases same : other = name
  · subst same
    rw [Bindings.get?_set_self, Bindings.get?_set_self]
    exact .some related
  · rw [Bindings.get?_set_of_ne _ _ same, Bindings.get?_set_of_ne _ _ same]
    exact h other

end

/-! ### Where the scope is -/

/-- How far out from a place the additional scope is, by the number of scopes in between; none
    where it is not around. -/
abbrev Seam := Option Nat

/-- The seam from one scope further in. -/
def Seam.inner (seam : Seam) : Seam :=
  seam.map (· + 1)

/-- Distances on the two sides that lead to the same scope, which is not the additional one. -/
def Seam.Shifts : Seam → Nat → Nat → Prop
  | none, distance, distance' => distance = distance'
  | some depth, distance, distance' =>
    distance < depth ∧ distance' = distance ∨ depth < distance ∧ distance = distance' + 1

/-- The seam from the methods of a class. -/
def Seam.inClass (derived : Bool) (seam : Seam) : Seam :=
  (if derived then seam.inner else seam).inner

theorem Seam.none_ne : (none : Seam) ≠ some 0 :=
  (Option.some_ne_none 0).symm

theorem Seam.inner_ne (seam : Seam) : seam.inner ≠ some 0 := by
  cases seam with
  | none => exact Seam.none_ne
  | some depth => exact fun same => Nat.succ_ne_zero depth (Option.some.inj same)

/-- A place that is not in the additional scope itself is in the same one on both sides. -/
theorem Seam.shifts_zero {seam : Seam} (inside : seam ≠ some 0) : seam.Shifts 0 0 := by
  cases seam with
  | none => rfl
  | some depth =>
    refine .inl ⟨Nat.pos_of_ne_zero ?_, rfl⟩
    rintro rfl
    exact inside rfl

/-- The distances that are noted on the two sides. -/
structure Notes where
  /-- Those of the program with the additional scope. -/
  long : Hops
  /-- Those of the other one. -/
  short : Hops

/-- References to the same scope, or to the globals. -/
def Notes.Refers (ν : Notes) (seam : Seam) (n n' : NodeId) : Prop :=
  Option.Rel seam.Shifts (ν.long.get? n) (ν.short.get? n')

/-- References by `super`, which also look into the scope just inside of the one they lead
    to. -/
def Notes.RefersUp (ν : Notes) (seam : Seam) (n n' : NodeId) : Prop :=
  Option.Rel (fun d d' => seam.Shifts d d' ∧ seam.Shifts (d - 1) (d' - 1))
    (ν.long.get? n) (ν.short.get? n')

/-! ### Programs -/

mutual

/-- Expressions that correspond. -/
inductive ExprSplices (ν : Notes) (seam : Seam) : Expr → Expr → Prop where
  | literal (value : Literal) : ExprSplices ν seam (.literal value) (.literal value)
  | grouping {e e' : Expr} : ExprSplices ν seam e e' →
      ExprSplices ν seam (.grouping e) (.grouping e')
  | unary {o : Token} {e e' : Expr} : ExprSplices ν seam e e' →
      ExprSplices ν seam (.unary o e) (.unary o e')
  | binary {o : Token} {a a' b b' : Expr} : ExprSplices ν seam a a' → ExprSplices ν seam b b' →
      ExprSplices ν seam (.binary a o b) (.binary a' o b')
  | logical {o : Token} {a a' b b' : Expr} : ExprSplices ν seam a a' → ExprSplices ν seam b b' →
      ExprSplices ν seam (.logical a o b) (.logical a' o b')
  | var {n n' : NodeId} {t : Token} : ν.Refers seam n n' →
      ExprSplices ν seam (.var n t) (.var n' t)
  | assign {n n' : NodeId} {t : Token} {e e' : Expr} : ν.Refers seam n n' →
      ExprSplices ν seam e e' → ExprSplices ν seam (.assign n t e) (.assign n' t e')
  | call {p : Token} {e e' : Expr} {es es' : List Expr} : ExprSplices ν seam e e' →
      ExprsSplice ν seam es es' → ExprSplices ν seam (.call e p es) (.call e' p es')
  | get {t : Token} {e e' : Expr} : ExprSplices ν seam e e' →
      ExprSplices ν seam (.get e t) (.get e' t)
  | set {t : Token} {e e' v v' : Expr} : ExprSplices ν seam e e' → ExprSplices ν seam v v' →
      ExprSplices ν seam (.set e t v) (.set e' t v')
  | thisRef {n n' : NodeId} {t : Token} : ν.Refers seam n n' →
      ExprSplices ν seam (.thisRef n t) (.thisRef n' t)
  | superRef {n n' : NodeId} {t u : Token} : ν.RefersUp seam n n' →
      ExprSplices ν seam (.superRef n t u) (.superRef n' t u)

/-- Arguments that correspond one by one. -/
inductive ExprsSplice (ν : Notes) (seam : Seam) : List Expr → List Expr → Prop where
  | nil : ExprsSplice ν seam [] []
  | cons {e e' : Expr} {es es' : List Expr} : ExprSplices ν seam e e' →
      ExprsSplice ν seam es es' → ExprsSplice ν seam (e :: es) (e' :: es')

end

/-- Expressions that correspond if they are there. -/
abbrev OptionSplices (ν : Notes) (seam : Seam) : Option Expr → Option Expr → Prop :=
  Option.Rel (ExprSplices ν seam)

mutual

/-- Statements that correspond. In the additional scope itself nothing is declared. -/
inductive StmtSplices (ν : Notes) : Seam → Stmt → Stmt → Prop where
  | expression {seam : Seam} {e e' : Expr} : ExprSplices ν seam e e' →
      StmtSplices ν seam (.expression e) (.expression e')
  | print {seam : Seam} {t : Token} {e e' : Expr} : ExprSplices ν seam e e' →
      StmtSplices ν seam (.print t e) (.print t e')
  | varDecl {seam : Seam} {t : Token} {o o' : Option Expr} : seam ≠ some 0 →
      OptionSplices ν seam o o' → StmtSplices ν seam (.varDecl t o) (.varDecl t o')
  | block {seam : Seam} {ss ss' : List Stmt} : StmtsSplice ν seam.inner ss ss' →
      StmtSplices ν seam (.block ss) (.block ss')
  | ifThen {seam : Seam} {e e' : Expr} {s s' : Stmt} : ExprSplices ν seam e e' →
      StmtSplices ν seam s s' → StmtSplices ν seam (.ifElse e s none) (.ifElse e' s' none)
  | ifElse {seam : Seam} {e e' : Expr} {s s' t t' : Stmt} : ExprSplices ν seam e e' →
      StmtSplices ν seam s s' → StmtSplices ν seam t t' →
      StmtSplices ν seam (.ifElse e s (some t)) (.ifElse e' s' (some t'))
  | whileLoop {seam : Seam} {e e' : Expr} {s s' : Stmt} : ExprSplices ν seam e e' →
      StmtSplices ν seam s s' → StmtSplices ν seam (.whileLoop e s) (.whileLoop e' s')
  | funDecl {seam : Seam} {f f' : FunctionDecl} : seam ≠ some 0 →
      FunctionSplices ν seam f f' → StmtSplices ν seam (.funDecl f) (.funDecl f')
  | ret {seam : Seam} {t : Token} {o o' : Option Expr} : OptionSplices ν seam o o' →
      StmtSplices ν seam (.ret t o) (.ret t o')
  | classDecl {seam : Seam} {t : Token} {o o' : Option Expr} {fs fs' : List FunctionDecl} :
      seam ≠ some 0 → OptionSplices ν seam o o' →
      MethodsSplice ν (seam.inClass o.isSome) fs fs' →
      StmtSplices ν seam (.classDecl t o fs) (.classDecl t o' fs')

/-- Statements of one scope that correspond one by one. -/
inductive StmtsSplice (ν : Notes) : Seam → List Stmt → List Stmt → Prop where
  | nil {seam : Seam} : StmtsSplice ν seam [] []
  | cons {seam : Seam} {s s' : Stmt} {ss ss' : List Stmt} : StmtSplices ν seam s s' →
      StmtsSplice ν seam ss ss' → StmtsSplice ν seam (s :: ss) (s' :: ss')

/-- Functions that correspond. -/
inductive FunctionSplices (ν : Notes) : Seam → FunctionDecl → FunctionDecl → Prop where
  | mk {seam : Seam} {t : Token} {ps : List Token} {ss ss' : List Stmt} :
      StmtsSplice ν seam.inner ss ss' → FunctionSplices ν seam ⟨t, ps, ss⟩ ⟨t, ps, ss'⟩

/-- Methods that correspond one by one. -/
inductive MethodsSplice (ν : Notes) : Seam → List FunctionDecl → List FunctionDecl → Prop where
  | nil {seam : Seam} : MethodsSplice ν seam [] []
  | cons {seam : Seam} {f f' : FunctionDecl} {fs fs' : List FunctionDecl} :
      FunctionSplices ν seam f f' → MethodsSplice ν seam fs fs' →
      MethodsSplice ν seam (f :: fs) (f' :: fs')

end

/-! ### Scopes and values -/

/-- For each frame of the first machine, the one that stands for it on the second, if any. -/
abbrev World := List (Option FrameId)

/-- Scopes whose frames stand for each other. At the seam the first scope has a frame that
    nothing stands for; it is never the outermost one. -/
inductive Spliced (w : World) : Seam → Scope → Scope → Prop where
  | last {frame frame' : FrameId} : w[frame]? = some (some frame') →
      Spliced w none [frame] [frame']
  | kept {seam : Seam} {frame frame' : FrameId} {scope scope' : Scope} :
      w[frame]? = some (some frame') → Spliced w seam scope scope' →
      Spliced w seam.inner (frame :: scope) (frame' :: scope')
  | extra {frame : FrameId} {scope scope' : Scope} : w[frame]? = some none →
      Spliced w none scope scope' → Spliced w (some 0) (frame :: scope) scope'

/-- Closures that correspond. Their declarations stand inside of the scopes they keep, at the
    seam that `around` gives, and not in the additional scope itself. -/
def RoutineSplices (ν : Notes) (w : World) (around : Seam → Seam) (c c' : Closure) : Prop :=
  c.id = c'.id ∧ c.isInitializer = c'.isInitializer ∧
    ∃ seam, around seam ≠ some 0 ∧ Spliced w seam c.scope c'.scope ∧
      FunctionSplices ν (around seam) c.declaration c'.declaration

/-- Closures of functions, and of methods that are bound to an instance. -/
abbrev ClosureSplices (ν : Notes) (w : World) : Closure → Closure → Prop :=
  RoutineSplices ν w id

/-- Closures of methods that are not bound: the scope that holds `this` is yet to come. -/
abbrev MethodSplices (ν : Notes) (w : World) : Closure → Closure → Prop :=
  RoutineSplices ν w Seam.inner

/-- What classes declare themselves. -/
def BodySplices (ν : Notes) (w : World) (b b' : ClassBody) : Prop :=
  b.id = b'.id ∧ b.name = b'.name ∧ Namewise (MethodSplices ν w) b.methods b'.methods

/-- Classes that correspond, with all they inherit from. -/
inductive ClassSplices (ν : Notes) (w : World) : Class → Class → Prop where
  | base {b b' : ClassBody} : BodySplices ν w b b' → ClassSplices ν w (.base b) (.base b')
  | derived {b b' : ClassBody} {c c' : Class} : BodySplices ν w b b' → ClassSplices ν w c c' →
      ClassSplices ν w (.derived b c) (.derived b' c')

/-- Values that correspond. -/
inductive ValueSplices (ν : Notes) (w : World) : Value → Value → Prop where
  | nil : ValueSplices ν w .nil .nil
  | bool (b : Bool) : ValueSplices ν w (.bool b) (.bool b)
  | number (x : Float) : ValueSplices ν w (.number x) (.number x)
  | string (text : String) : ValueSplices ν w (.string text) (.string text)
  | native (f : Native) : ValueSplices ν w (.native f) (.native f)
  | function {c c' : Closure} : ClosureSplices ν w c c' →
      ValueSplices ν w (.function c) (.function c')
  | classObject {c c' : Class} : ClassSplices ν w c c' →
      ValueSplices ν w (.classObject c) (.classObject c')
  | object {o o' : Instance} : o.id = o'.id → ClassSplices ν w o.ofClass o'.ofClass →
      ValueSplices ν w (.object o) (.object o')

variable {ν : Notes} {w : World}

theorem Spliced.ne_nil {seam : Seam} {scope scope' : Scope} (h : Spliced w seam scope scope') :
    scope ≠ [] ∧ scope' ≠ [] := by
  induction h with
  | last => exact ⟨nofun, nofun⟩
  | kept => exact ⟨nofun, nofun⟩
  | extra _ _ ih => exact ⟨nofun, ih.2⟩

/-! ### More frames -/

section

variable {w' : World} (more : Later w w')
include more

theorem Spliced.later {seam : Seam} {scope scope' : Scope} (h : Spliced w seam scope scope') :
    Spliced w' seam scope scope' := by
  induction h with
  | last mark => exact .last (more.get mark)
  | kept mark _ ih => exact .kept (more.get mark) ih
  | extra mark _ ih => exact .extra (more.get mark) ih

theorem RoutineSplices.later {around : Seam → Seam} {c c' : Closure}
    (h : RoutineSplices ν w around c c') : RoutineSplices ν w' around c c' := by
  obtain ⟨id, initializer, seam, inside, scopes, declaration⟩ := h
  exact ⟨id, initializer, seam, inside, scopes.later more, declaration⟩

theorem BodySplices.later {b b' : ClassBody} (h : BodySplices ν w b b') :
    BodySplices ν w' b b' :=
  ⟨h.1, h.2.1, h.2.2.imp fun _ _ method => method.later more⟩

theorem ClassSplices.later {c c' : Class} (h : ClassSplices ν w c c') :
    ClassSplices ν w' c c' := by
  induction h with
  | base body => exact .base (body.later more)
  | derived body _ ih => exact .derived (body.later more) ih

theorem ValueSplices.later {v v' : Value} (h : ValueSplices ν w v v') :
    ValueSplices ν w' v v' := by
  cases h with
  | nil => exact .nil
  | bool => exact .bool _
  | number => exact .number _
  | string => exact .string _
  | native => exact .native _
  | function hc => exact .function (RoutineSplices.later more hc)
  | classObject hc => exact .classObject (hc.later more)
  | object id hc => exact .object id (hc.later more)

theorem optionSplices_later {o o' : Option Value} (h : Option.Rel (ValueSplices ν w) o o') :
    Option.Rel (ValueSplices ν w') o o' :=
  optionRel_imp (fun _ _ hv => hv.later more) h

theorem valuesSplice_later {vs vs' : List Value}
    (h : List.Forall₂ (ValueSplices ν w) vs vs') : List.Forall₂ (ValueSplices ν w') vs vs' :=
  h.imp fun _ _ hv => hv.later more

end

/-! ### What can be seen of a value -/

theorem FunctionSplices.name_eq {seam : Seam} {f f' : FunctionDecl}
    (h : FunctionSplices ν seam f f') : f.name = f'.name := by
  cases h
  rfl

theorem FunctionSplices.params_eq {seam : Seam} {f f' : FunctionDecl}
    (h : FunctionSplices ν seam f f') : f.params = f'.params := by
  cases h
  rfl

theorem RoutineSplices.arity_eq {around : Seam → Seam} {c c' : Closure}
    (h : RoutineSplices ν w around c c') : c.arity = c'.arity := by
  obtain ⟨_, _, _, _, _, declaration⟩ := h
  exact congrArg List.length declaration.params_eq

theorem ClassSplices.body {c c' : Class} (h : ClassSplices ν w c c') :
    BodySplices ν w c.body c'.body := by
  cases h with
  | base body => exact body
  | derived body _ => exact body

theorem ClassSplices.findMethod {c c' : Class} (h : ClassSplices ν w c c') (name : String) :
    Option.Rel (MethodSplices ν w) (c.findMethod? name) (c'.findMethod? name) := by
  induction h with
  | base body => exact body.2.2 name
  | @derived b b' c c' body _ ih =>
    have own := body.2.2 name
    rw [Class.findMethod?, Class.findMethod?]
    generalize b.methods.get? name = o at own ⊢
    generalize b'.methods.get? name = o' at own ⊢
    cases own with
    | some hmethod => exact .some hmethod
    | none => exact ih

theorem ClassSplices.arity_eq {c c' : Class} (h : ClassSplices ν w c c') :
    c.arity = c'.arity := by
  have found : Option.Rel (MethodSplices ν w) c.initializer? c'.initializer? :=
    h.findMethod initializerName
  unfold Class.arity
  generalize c.initializer? = o at found ⊢
  generalize c'.initializer? = o' at found ⊢
  cases found with
  | some hmethod => exact hmethod.arity_eq
  | none => rfl

theorem ValueSplices.isTruthy_eq {v v' : Value} (h : ValueSplices ν w v v') :
    v.isTruthy = v'.isTruthy := by
  cases h <;> rfl

theorem ValueSplices.text_eq {v v' : Value} (h : ValueSplices ν w v v') : v.text = v'.text := by
  cases h with
  | function hc =>
    obtain ⟨_, _, _, _, _, declaration⟩ := hc
    simp only [Value.text, Closure.name, declaration.name_eq]
  | classObject hc => exact hc.body.2.1
  | object _ hc => simp only [Value.text, hc.body.2.1]
  | _ => rfl

theorem ValueSplices.equals_eq {v v' u u' : Value} (h : ValueSplices ν w v v')
    (hu : ValueSplices ν w u u') : v.equals u = v'.equals u' := by
  cases h with
  | function hc =>
    cases hu with
    | function hd => simp only [Value.equals, hc.1, hd.1]
    | _ => rfl
  | classObject hc =>
    cases hu with
    | classObject hd => simp only [Value.equals, hc.body.1, hd.body.1]
    | _ => rfl
  | object id _ =>
    cases hu with
    | object id' _ => simp only [Value.equals, id, id']
    | _ => rfl
  | _ => cases hu <;> rfl

theorem IsData.splices {v : Value} (h : IsData v) : ValueSplices ν w v v := by
  cases v with
  | nil => exact .nil
  | bool => exact .bool _
  | number => exact .number _
  | string => exact .string _
  | native => exact .native _
  | _ => exact h.elim

/-! ### Machines -/

/-- Machines that correspond. Their variables do: frames that stand for each other give the
    same names values that correspond, each frame of the second machine stands for one of the
    first, and frames that nothing stands for have no names. So do the fields of their
    instances, and their output is the same. -/
structure MachineSplices (ν : Notes) (w : World) (here here' : Scope) (m m' : Machine) :
    Prop where
  size : m.frames.records.size = w.length
  frames : ∀ (frame frame' : FrameId) (name : String), w[frame]? = some (some frame') →
    Option.Rel (ValueSplices ν w) (m.frames.lookup? frame name) (m'.frames.lookup? frame' name)
  below : ∀ (frame frame' : FrameId), w[frame]? = some (some frame') →
    frame' < m'.frames.records.size
  apart : ∀ (frame other frame' : FrameId), w[frame]? = some (some frame') →
    w[other]? = some (some frame') → frame = other
  onto : ∀ frame' < m'.frames.records.size, ∃ frame : FrameId, w[frame]? = some (some frame')
  extra : ∀ (frame : FrameId) (name : String), w[frame]? = some none →
    m.frames.lookup? frame name = none
  globals : w[0]? = some (some 0)
  instances : m.fields.size = m'.fields.size
  fields : ∀ (id : Nat) (name : String), Option.Rel (ValueSplices ν w)
    ((m.fields[id]?).bind (·.get? name)) ((m'.fields[id]?).bind (·.get? name))
  serial : m.serial = m'.serial
  hostCalls : m.hostCalls = m'.hostCalls
  sink : m.sink = m'.sink
  scope : m.scope = here
  scope' : m'.scope = here'
  hops : m.hops = ν.long
  hops' : m'.hops = ν.short

end Lox.Evaluation
