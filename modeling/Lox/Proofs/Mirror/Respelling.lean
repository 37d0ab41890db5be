import Mathlib.Data.List.Nodup
import Lox.Proofs.Mirror.Copies

/-! # Renaming a local variable

  A local variable belongs to one block, or to one function with its parameters. To rename it
  is to spell it anew at its declaration and at every reference that is bound to it: those
  references of its name from which the distance that was found leads to its scope. Nothing
  else of the program changes (`StmtsRenamed`).

  Where names are looked up, the renamed program has the same layers with the variable spelled
  anew in one of them (`Beside`). In such layers the renamed references are found where the
  others were.
-/

namespace Lox.Binding

/-! ### What is renamed -/

/-- How a variable is renamed, given the distances that were found for references. -/
structure Renaming where
  /-- The name of the variable. -/
  old : String
  /-- The name it gets. -/
  new : String
  /-- The number of scopes out to the declaration that a reference is bound to. -/
  hops : NodeId → Option Nat

namespace Renaming

variable (ρ : Renaming)

/-- The new name for the old one, and every other name as it is. -/
def name (a : String) : String :=
  if a = ρ.old then ρ.new else a

/-- A token with the new name for the old one. -/
def token (t : Token) : Token :=
  { t with lexeme := ρ.name t.lexeme }

/-- The name at a declaration that stands in a scope inside of the variable's own one, with
    `depth` steps between them. -/
def declaration : Nat → Token → Token
  | 0, t => ρ.token t
  | _ + 1, t => t

/-- The name at a reference that stands inside of the variable's scope. -/
def reference (depth : Nat) (node : NodeId) (t : Token) : Token :=
  if ρ.hops node = some depth then ρ.token t else t

mutual

/-- An expression inside of the variable's scope with the variable renamed. -/
def expr (depth : Nat) : Expr → Expr
  | .literal value => .literal value
  | .grouping inner => .grouping (expr depth inner)
  | .unary operator right => .unary operator (expr depth right)
  | .binary left operator right => .binary (expr depth left) operator (expr depth right)
  | .logical left operator right => .logical (expr depth left) operator (expr depth right)
  | .var node name => .var node (ρ.reference depth node name)
  | .assign node name value => .assign node (ρ.reference depth node name) (expr depth value)
  | .call callee paren arguments => .call (expr depth callee) paren (exprs depth arguments)
  | .get object name => .get (expr depth object) name
  | .set object name value => .set (expr depth object) name (expr depth value)
  | .thisRef node keyword => .thisRef node keyword
  | .superRef node keyword method => .superRef node keyword method

/-- Arguments inside of the variable's scope with the variable renamed. -/
def exprs (depth : Nat) : List Expr → List Expr
  | [] => []
  | e :: rest => expr depth e :: exprs depth rest

end

mutual

/-- A statement inside of the variable's scope with the variable renamed. -/
def stmt (depth : Nat) : Stmt → Stmt
  | .expression value => .expression (ρ.expr depth value)
  | .print keyword value => .print keyword (ρ.expr depth value)
  | .varDecl name initializer =>
    .varDecl (ρ.declaration depth name) (initializer.map (ρ.expr depth))
  | .block body => .block (stmts (depth + 1) body)
  | .ifElse condition thenBranch none =>
    .ifElse (ρ.expr depth condition) (stmt depth thenBranch) none
  | .ifElse condition thenBranch (some elseBranch) =>
    .ifElse (ρ.expr depth condition) (stmt depth thenBranch) (some (stmt depth elseBranch))
  | .whileLoop condition body => .whileLoop (ρ.expr depth condition) (stmt depth body)
  | .funDecl f => .funDecl (function (depth + 1) f)
  | .ret keyword value => .ret keyword (value.map (ρ.expr depth))
  | .classDecl name superclass methods =>
    .classDecl name (superclass.map (ρ.expr depth))
      (functions (depth + (if superclass.isSome then 2 else 1) + 1) methods)

/-- Statements inside of the variable's scope with the variable renamed. -/
def stmts (depth : Nat) : List Stmt → List Stmt
  | [] => []
  | s :: rest => stmt depth s :: stmts depth rest

/-- A function whose parameters and statements are in a scope inside of the variable's. -/
def function (depth : Nat) : FunctionDecl → FunctionDecl
  | ⟨name, params, body⟩ => ⟨name, params.map (ρ.declaration depth), stmts depth body⟩

/-- Functions with the variable renamed. -/
def functions (depth : Nat) : List FunctionDecl → List FunctionDecl
  | [] => []
  | f :: rest => function depth f :: functions depth rest

end

/-- Whether the variable is declared by one of the statements of a scope. -/
def DeclaredIn (body : List Stmt) : Prop :=
  ∃ name initializer, .varDecl name initializer ∈ body ∧ name.lexeme = ρ.old

/-- Whether the variable is a parameter. -/
def IsParameter (params : List Token) : Prop :=
  ∃ param ∈ params, param.lexeme = ρ.old

end Renaming

mutual

/-- A statement and what it becomes when one variable inside of it is renamed. -/
inductive StmtRenamed (ρ : Renaming) : Stmt → Stmt → Prop where
  /-- The variable of a block. -/
  | block {body : List Stmt} : ρ.DeclaredIn body →
      StmtRenamed ρ (.block body) (.block (ρ.stmts 0 body))
  | within {body body' : List Stmt} : StmtsRenamed ρ body body' →
      StmtRenamed ρ (.block body) (.block body')
  | thenBranch {c : Expr} {a a' : Stmt} {o : Option Stmt} : StmtRenamed ρ a a' →
      StmtRenamed ρ (.ifElse c a o) (.ifElse c a' o)
  | elseBranch {c : Expr} {a b b' : Stmt} : StmtRenamed ρ b b' →
      StmtRenamed ρ (.ifElse c a (some b)) (.ifElse c a (some b'))
  | loopBody {c : Expr} {a a' : Stmt} : StmtRenamed ρ a a' →
      StmtRenamed ρ (.whileLoop c a) (.whileLoop c a')
  | funDecl {f f' : FunctionDecl} : FunctionRenamed ρ f f' →
      StmtRenamed ρ (.funDecl f) (.funDecl f')
  | classDecl {name : Token} {o : Option Expr} {fs fs' : List FunctionDecl} :
      MethodsRenamed ρ fs fs' → StmtRenamed ρ (.classDecl name o fs) (.classDecl name o fs')

/-- Statements, one of which has a variable renamed inside of it. -/
inductive StmtsRenamed (ρ : Renaming) : List Stmt → List Stmt → Prop where
  | first {s s' : Stmt} {rest : List Stmt} : StmtRenamed ρ s s' →
      StmtsRenamed ρ (s :: rest) (s' :: rest)
  | later {s : Stmt} {rest rest' : List Stmt} : StmtsRenamed ρ rest rest' →
      StmtsRenamed ρ (s :: rest) (s :: rest')

/-- A function with a variable renamed. -/
inductive FunctionRenamed (ρ : Renaming) : FunctionDecl → FunctionDecl → Prop where
  /-- A parameter, or a variable of the scope that the parameters are in. -/
  | here {f : FunctionDecl} : ρ.IsParameter f.params ∨ ρ.DeclaredIn f.body →
      FunctionRenamed ρ f (ρ.function 0 f)
  | within {name : Token} {params : List Token} {body body' : List Stmt} :
      StmtsRenamed ρ body body' → FunctionRenamed ρ ⟨name, params, body⟩ ⟨name, params, body'⟩

/-- Methods, one of which has a variable renamed. -/
inductive MethodsRenamed (ρ : Renaming) : List FunctionDecl → List FunctionDecl → Prop where
  | first {f f' : FunctionDecl} {rest : List FunctionDecl} : FunctionRenamed ρ f f' →
      MethodsRenamed ρ (f :: rest) (f' :: rest)
  | later {f : FunctionDecl} {rest rest' : List FunctionDecl} : MethodsRenamed ρ rest rest' →
      MethodsRenamed ρ (f :: rest) (f :: rest')

end

/-! ### Names and tokens -/

section

variable {ρ : Renaming}

theorem Renaming.name_of_ne {a : String} (other : a ≠ ρ.old) : ρ.name a = a := if_neg other

@[simp] theorem Renaming.lexeme_token (t : Token) : (ρ.token t).lexeme = ρ.name t.lexeme := rfl

theorem Renaming.token_of_ne {t : Token} (other : t.lexeme ≠ ρ.old) : ρ.token t = t := by
  rw [Renaming.token, ρ.name_of_ne other]

theorem Renaming.name_ne_old (different : ρ.old ≠ ρ.new) (a : String) : ρ.name a ≠ ρ.old := by
  unfold Renaming.name
  split
  · exact different.symm
  · assumption

theorem Renaming.name_inj {a b : String} (ha : a ≠ ρ.new) (hb : b ≠ ρ.new) :
    ρ.name a = ρ.name b ↔ a = b := by
  unfold Renaming.name
  split <;> split
  · next h h' => simp [h, h']
  · next h h' => exact iff_of_false hb.symm (h ▸ Ne.symm h')
  · next h h' => exact iff_of_false ha (h' ▸ h)
  · exact Iff.rfl

end

/-! ### Layers with the variable spelled anew -/

/-- Whether a name is in no layer. -/
def Absent (a : String) (layers : Layers) : Prop :=
  ∀ l ∈ layers, l.get? a = none

/-- Whether layers are the same, except that one of them has the variable under its new name.
    That layer stands at the given depth; of the scopes around a place, the global one last,
    it is the one that is marked. -/
inductive Beside (ρ : Renaming) : Nat → List Bool → Layers → Layers → Prop where
  | here {l l' : Layer} {outer : Layers} :
      (∀ a, a ≠ ρ.new → l'.get? (ρ.name a) = l.get? a) → l'.get? ρ.old = none →
      Absent ρ.new (l :: outer) →
      Beside ρ 0 (true :: List.replicate (outer.length + 1) false) (l :: outer) (l' :: outer)
  | inside {depth : Nat} {env : List Bool} {l : Layer} {layers layers' : Layers} :
      l.get? ρ.new = none → Beside ρ depth env layers layers' →
      Beside ρ (depth + 1) (false :: env) (l :: layers) (l :: layers')

theorem hops?_lt {layers : Layers} {t : Token} {distance : Nat}
    (found : layers.hops? t = some distance) : distance < layers.length :=
  (List.findIdx?_eq_some_iff_getElem.mp found).1

theorem Absent.cons {a : String} {l : Layer} {layers : Layers} (first : l.get? a = none)
    (later : Absent a layers) : Absent a (l :: layers) :=
  List.forall_mem_cons.mpr ⟨first, later⟩

theorem Absent.mark {a : String} {layers : Layers} (h : Absent a layers) {t : Token}
    (other : t.lexeme ≠ a) (status : Status) : Absent a (layers.mark t status) := by
  cases layers with
  | nil => exact h
  | cons l outer =>
    obtain ⟨first, later⟩ := List.forall_mem_cons.mp h
    exact .cons ((l.get?_set_of_ne status other.symm).trans first) later

theorem get?_single_of_ne {a b : String} (other : a ≠ b) :
    (Bindings.single b Status.defined).get? a = none :=
  Bindings.get?_set_of_ne _ _ other

theorem Absent.ofClass {a : String} {layers : Layers} (other : ∀ k : Keyword, a ≠ k.spelling)
    (h : Absent a layers) (derived : Bool) : Absent a (layers.ofClass derived) := by
  cases derived with
  | false => exact h.cons (get?_single_of_ne (other .thisWord))
  | true =>
    exact (h.cons (get?_single_of_ne (other .superWord))).cons
      (get?_single_of_ne (other .thisWord))

section

variable {ρ : Renaming} {depth : Nat} {env : List Bool} {layers layers' : Layers} {t : Token}

/-- A scope of its own for the variable, with nothing in it yet. -/
theorem Beside.enter (absent : Absent ρ.new layers) :
    Beside ρ 0 (true :: List.replicate (layers.length + 1) false) (.empty :: layers)
      (.empty :: layers) :=
  .here (fun _ _ => rfl) rfl (absent.cons rfl)

theorem Beside.nest (h : Beside ρ depth env layers layers') :
    Beside ρ (depth + 1) (false :: env) (.empty :: layers) (.empty :: layers') :=
  .inside rfl h

/-- Inside of a class there are layers for `this` and `super`. -/
theorem Beside.ofClass (new : ∀ k : Keyword, ρ.new ≠ k.spelling)
    (h : Beside ρ depth env layers layers') (derived : Bool) :
    Beside ρ (depth + if derived then 2 else 1) (false :: if derived then false :: env else env)
      (layers.ofClass derived) (layers'.ofClass derived) := by
  cases derived with
  | false => exact .inside (get?_single_of_ne (new .thisWord)) h
  | true =>
    exact .inside (get?_single_of_ne (new .thisWord))
      (.inside (get?_single_of_ne (new .superWord)) h)

theorem Beside.length_eq (h : Beside ρ depth env layers layers') :
    env.length = layers.length + 1 := by
  induction h with
  | here => simp
  | inside _ _ ih => simp [ih]

/-- The layer with the variable is the one that is marked. -/
theorem Beside.kind_eq (h : Beside ρ depth env layers layers') {distance : Nat}
    (below : distance < layers.length) : env[distance]? = some (distance == depth) := by
  induction h generalizing distance with
  | here =>
    cases distance with
    | zero => rfl
    | succ distance =>
      have inside : distance < _ + 1 := Nat.lt_of_succ_lt below
      rw [List.getElem?_cons_succ, List.getElem?_replicate_of_lt inside]
      rfl
  | inside _ _ ih =>
    cases distance with
    | zero => rfl
    | succ distance =>
      rw [List.getElem?_cons_succ, ih (Nat.lt_of_succ_lt_succ below)]
      simp

/-- In the layer of the variable, a name that was there is so as it is spelled now. -/
theorem get?_other {l l' : Layer} (same : ∀ a, a ≠ ρ.new → l'.get? (ρ.name a) = l.get? a)
    (gone : l'.get? ρ.old = none) {a : String} (known : a ≠ ρ.new) (nowhere : l.get? a = none) :
    l'.get? a = none := by
  by_cases old : a = ρ.old
  · rw [old, gone]
  · rw [← same a known, ρ.name_of_ne old] at nowhere
    exact nowhere

theorem get?_name {l : Layer} (absent : l.get? ρ.new = none) {a : String}
    (nowhere : l.get? a = none) : l.get? (ρ.name a) = none := by
  unfold Renaming.name
  split
  · exact absent
  · exact nowhere

/-- What is not in the innermost layer is looked for further out. -/
theorem hops?_outer {l : Layer} (nowhere : l.get? t.lexeme = none) :
    Layers.hops? (l :: layers) t = (layers.hops? t).map (· + 1) := by
  rw [hops?_cons, Bindings.contains, nowhere]
  rfl

theorem hops?_inner {l : Layer} {status : Status} (found : l.get? t.lexeme = some status) :
    Layers.hops? (l :: layers) t = some 0 := by
  rw [hops?_cons, Bindings.contains, found]
  rfl

theorem initializes_cons (l : Layer) (outer : Layers) (t : Token) :
    Layers.initializes (l :: outer) t = (l.get? t.lexeme == some .declared) := rfl

/-- A reference that is bound to the variable is so under its new name, and it may be read
    there if it might be. -/
theorem Beside.bound (h : Beside ρ depth env layers layers') (known : t.lexeme ≠ ρ.new)
    (found : layers.hops? t = some depth) : layers'.hops? (ρ.token t) = some depth ∧
      layers'.initializes (ρ.token t) = layers.initializes t := by
  -- on the layers from inside out: those inside the renamed one do not have the name
  induction h with
  | @here l l' outer same _ _ =>
    have spelled : l'.get? (ρ.token t).lexeme = l.get? t.lexeme := same _ known
    cases there : l.get? t.lexeme with
    | some status =>
      rw [there] at spelled
      exact ⟨hops?_inner spelled, by rw [initializes_cons, initializes_cons, there, spelled]⟩
    | none =>
      rw [hops?_outer there] at found
      simp at found
  | @inside depth env l layers layers' absent _ ih =>
    cases there : l.get? t.lexeme with
    | some status =>
      rw [hops?_inner there] at found
      cases found
    | none =>
      have nowhere : l.get? (ρ.token t).lexeme = none := get?_name absent there
      rw [hops?_outer there, Option.map_eq_some_iff] at found
      obtain ⟨_, found, same⟩ := found
      cases same
      refine ⟨?_, by rw [initializes_cons, initializes_cons, there, nowhere]⟩
      rw [hops?_outer nowhere, (ih found).1]
      rfl

/-- Any other reference is bound as it was, and may be read if it might be. -/
theorem Beside.unbound (h : Beside ρ depth env layers layers') (known : t.lexeme ≠ ρ.new)
    (other : layers.hops? t ≠ some depth) : layers'.hops? t = layers.hops? t ∧
      layers'.initializes t = layers.initializes t := by
  induction h with
  | @here l l' outer same gone _ =>
    cases there : l.get? t.lexeme with
    | some status => exact absurd (hops?_inner there) other
    | none =>
      have nowhere : l'.get? t.lexeme = none := get?_other same gone known there
      refine ⟨?_, by rw [initializes_cons, initializes_cons, there, nowhere]⟩
      rw [hops?_outer there, hops?_outer nowhere]
  | @inside depth env l layers layers' absent _ ih =>
    refine ⟨?_, rfl⟩
    cases there : l.get? t.lexeme with
    | some status => rw [hops?_inner there, hops?_inner there]
    | none =>
      have further : layers.hops? t ≠ some depth := by
        intro found
        rw [hops?_outer there, found] at other
        exact other rfl
      rw [hops?_outer there, hops?_outer there, (ih further).1]

/-- Layers stay the same as far as declarations are renamed. -/
theorem Beside.mark (different : ρ.old ≠ ρ.new) (h : Beside ρ depth env layers layers')
    (known : t.lexeme ≠ ρ.new) (status : Status) :
    Beside ρ depth env (layers.mark t status) (layers'.mark (ρ.declaration depth t) status) := by
  cases h with
  | @here l l' outer same gone absent =>
    refine .here ?_ ?_ (absent.mark known status)
    · intro a ha
      show (l'.set (ρ.name t.lexeme) status).get? (ρ.name a) = (l.set t.lexeme status).get? a
      by_cases eq : a = t.lexeme
      · subst eq
        rw [Bindings.get?_set_self, Bindings.get?_set_self]
      · have ne : ρ.name a ≠ ρ.name t.lexeme := fun h => eq ((ρ.name_inj ha known).mp h)
        rw [Bindings.get?_set_of_ne _ _ ne, Bindings.get?_set_of_ne _ _ eq, same a ha]
    · have ne : ρ.old ≠ ρ.name t.lexeme := (ρ.name_ne_old different _).symm
      exact (Bindings.get?_set_of_ne _ _ ne).trans gone
  | inside absent outer =>
    exact .inside ((Bindings.get?_set_of_ne _ _ known.symm).trans absent) outer

theorem Beside.redeclares_eq (h : Beside ρ depth env layers layers') (known : t.lexeme ≠ ρ.new) :
    layers'.redeclares (ρ.declaration depth t) = layers.redeclares t := by
  cases h with
  | @here l l' outer same _ _ =>
    show (l'.get? (ρ.name t.lexeme)).isSome = (l.get? t.lexeme).isSome
    rw [same _ known]
  | inside _ _ => rfl

end

/-! ### The only declaration of the variable -/

/-- Whether the innermost layer has a name. -/
def Has (a : String) (layers : Layers) : Prop :=
  layers.head?.any (·.contains a) = true

/-- Whether no function and no class of a name is declared by a statement. -/
def Spares (a : String) : Stmt → Prop
  | .funDecl f => f.name.lexeme ≠ a
  | .classDecl name _ _ => name.lexeme ≠ a
  | .ifElse _ thenBranch none => Spares a thenBranch
  | .ifElse _ thenBranch (some elseBranch) => Spares a thenBranch ∧ Spares a elseBranch
  | .whileLoop _ body => Spares a body
  | _ => True

section

variable {a : String} {layers : Layers} {t : Token} {status : Status}

theorem Has.mark (h : Has a layers) : Has a (layers.mark t status) := by
  cases layers with
  | nil => exact h
  | cons l outer =>
    show ((l.set t.lexeme status).get? a).isSome = true
    by_cases same : a = t.lexeme
    · rw [same, Bindings.get?_set_self]
      rfl
    · rw [Bindings.get?_set_of_ne _ _ same]
      exact h

theorem has_mark (inScope : layers ≠ []) : Has t.lexeme (layers.mark t status) := by
  cases layers with
  | nil => exact absurd rfl inScope
  | cons l outer =>
    show ((l.set t.lexeme status).get? t.lexeme).isSome = true
    rw [Bindings.get?_set_self]
    rfl

theorem mark_ne_nil (inScope : layers ≠ []) : layers.mark t status ≠ [] := by
  cases layers with
  | nil => exact absurd rfl inScope
  | cons l outer => exact List.cons_ne_nil _ _

theorem foldl_define_ne_nil {params : List Token} : ∀ {layers : Layers}, layers ≠ [] →
    params.foldl Layers.define layers ≠ [] := by
  induction params with
  | nil => exact fun inScope => inScope
  | cons param rest ih => exact fun inScope => ih (mark_ne_nil inScope)

theorem Has.foldl_define {params : List Token} : ∀ {layers : Layers}, Has a layers →
    Has a (params.foldl Layers.define layers) := by
  induction params with
  | nil => exact fun h => h
  | cons param rest ih => exact fun h => ih h.mark

theorem has_foldl_define {params : List Token} : ∀ {layers : Layers}, layers ≠ [] →
    t ∈ params → Has t.lexeme (params.foldl Layers.define layers) := by
  induction params with
  | nil => exact nofun
  | cons param rest ih =>
    intro layers inScope mem
    rcases List.mem_cons.mp mem with rfl | mem
    · exact (has_mark inScope).foldl_define
    · exact ih (mark_ne_nil inScope) mem

theorem Has.after : ∀ {layers : Layers}, Has a layers → ∀ s : Stmt, Has a (layers.after s)
  | _, h, .varDecl _ _ | _, h, .funDecl _ | _, h, .classDecl _ _ _ => h.mark
  | _, h, .ifElse _ thenBranch none => h.after thenBranch
  | _, h, .ifElse _ thenBranch (some elseBranch) => (h.after thenBranch).after elseBranch
  | _, h, .whileLoop _ body => h.after body
  | _, h, .expression _ | _, h, .print _ _ | _, h, .block _ | _, h, .ret _ _ => h

theorem after_ne_nil : ∀ {layers : Layers}, layers ≠ [] → ∀ s : Stmt, layers.after s ≠ []
  | _, h, .varDecl _ _ | _, h, .funDecl _ | _, h, .classDecl _ _ _ => mark_ne_nil h
  | _, h, .ifElse _ thenBranch none => after_ne_nil h thenBranch
  | _, h, .ifElse _ thenBranch (some elseBranch) =>
    after_ne_nil (after_ne_nil h thenBranch) elseBranch
  | _, h, .whileLoop _ body => after_ne_nil h body
  | _, h, .expression _ | _, h, .print _ _ | _, h, .block _ | _, h, .ret _ _ => h

theorem ne_of_redeclaration (clean : (redeclaration layers t).errors = []) (h : Has a layers) :
    t.lexeme ≠ a := by
  rintro rfl
  have twice : layers.redeclares t = true := h
  simp [redeclaration, Findings.errorIf, twice] at clean

/-- Where a name is declared already, no function and no class may have it. -/
theorem spares_of_has : ∀ {context : Context} {layers : Layers} (s : Stmt), Has a layers →
    (inStmt context layers s).errors = [] → Spares a s
  | _, _, .varDecl _ _, _, _ | _, _, .expression _, _, _ | _, _, .print _ _, _, _
  | _, _, .block _, _, _ | _, _, .ret _ _, _, _ => trivial
  | _, _, .funDecl f, h, clean => by
    simp only [inStmt, errors_append, List.append_eq_nil_iff] at clean
    exact ne_of_redeclaration clean.1 h
  | _, _, .classDecl name _ _, h, clean => by
    simp only [inStmt, errors_append, List.append_eq_nil_iff] at clean
    exact ne_of_redeclaration clean.1.1 h
  | _, _, .ifElse _ thenBranch none, h, clean => by
    simp only [inStmt, errors_append, List.append_eq_nil_iff] at clean
    exact spares_of_has thenBranch h clean.2
  | _, _, .ifElse _ thenBranch (some elseBranch), h, clean => by
    simp only [inStmt, errors_append, List.append_eq_nil_iff] at clean
    exact ⟨spares_of_has thenBranch h clean.1.2,
      spares_of_has elseBranch (h.after thenBranch) clean.2⟩
  | _, _, .whileLoop _ body, h, clean => by
    simp only [inStmt, errors_append, List.append_eq_nil_iff] at clean
    exact spares_of_has body h clean.2

/-- A statement after which a name is not declared has declared nothing of this name. -/
theorem spares_of_not_has : ∀ {layers : Layers} (s : Stmt), layers ≠ [] →
    ¬Has a (layers.after s) → Spares a s
  | _, .varDecl _ _, _, _ | _, .expression _, _, _ | _, .print _ _, _, _ | _, .block _, _, _
  | _, .ret _ _, _, _ => trivial
  | _, .funDecl _, inScope, free => fun same => free (same ▸ has_mark inScope)
  | _, .classDecl _ _ _, inScope, free => fun same => free (same ▸ has_mark inScope)
  | _, .ifElse _ thenBranch none, inScope, free => spares_of_not_has thenBranch inScope free
  | _, .ifElse _ thenBranch (some elseBranch), inScope, free =>
    ⟨spares_of_not_has thenBranch inScope fun has => free (has.after elseBranch),
      spares_of_not_has elseBranch (after_ne_nil inScope thenBranch) free⟩
  | _, .whileLoop _ body, inScope, free => spares_of_not_has body inScope free

/-- Where a name is declared already, nothing of the same scope declares it again. -/
theorem spare_of_has {context : Context} {ss : List Stmt} : ∀ {layers : Layers}, Has a layers →
    (inStmts context layers ss).errors = [] →
    (∀ s ∈ ss, Spares a s) ∧ ∀ name o, .varDecl name o ∈ ss → name.lexeme ≠ a := by
  induction ss with
  | nil => exact fun _ _ => ⟨nofun, nofun⟩
  | cons s rest ih =>
    intro layers has clean
    simp only [inStmts, errors_append, List.append_eq_nil_iff] at clean
    obtain ⟨spare, others⟩ := ih (has.after s) clean.2
    refine ⟨List.forall_mem_cons.mpr ⟨spares_of_has s has clean.1, spare⟩, ?_⟩
    intro name o mem
    rcases List.mem_cons.mp mem with rfl | mem
    · have clean := clean.1
      simp only [inStmt, errors_append, List.append_eq_nil_iff] at clean
      exact ne_of_redeclaration clean.1 has
    · exact others name o mem

/-- What is declared as a variable is no function and no class of the same scope. -/
theorem spare_of_declared {context : Context} {ss : List Stmt} {o : Option Expr} :
    ∀ {layers : Layers}, layers ≠ [] → (inStmts context layers ss).errors = [] →
    .varDecl t o ∈ ss → ∀ s ∈ ss, Spares t.lexeme s := by
  induction ss with
  | nil => exact nofun
  | cons s rest ih =>
    intro layers inScope clean mem
    simp only [inStmts, errors_append, List.append_eq_nil_iff] at clean
    rcases List.mem_cons.mp mem with rfl | mem
    · exact List.forall_mem_cons.mpr ⟨trivial, (spare_of_has (has_mark inScope) clean.2).1⟩
    · refine List.forall_mem_cons.mpr ⟨spares_of_not_has s inScope fun has => ?_,
        ih (after_ne_nil inScope s) clean.2 mem⟩
      exact (spare_of_has has clean.2).2 t o mem rfl

/-- The variable's own declaration is the only one of its name among some statements. -/
theorem spare_of_declaredIn {ρ : Renaming} {context : Context} {ss : List Stmt}
    (inScope : layers ≠ []) (clean : (inStmts context layers ss).errors = [])
    (declared : ρ.DeclaredIn ss) : ∀ s ∈ ss, Spares ρ.old s := by
  obtain ⟨name, o, mem, same⟩ := declared
  rw [← same]
  exact spare_of_declared inScope clean mem

/-- So it is in a function. -/
theorem spare_of_function {ρ : Renaming} {context : Context} {kind : RoutineContext}
    {f : FunctionDecl} (clean : (inFunction context kind layers f).errors = [])
    (declared : ρ.IsParameter f.params ∨ ρ.DeclaredIn f.body) :
    ∀ s ∈ f.body, Spares ρ.old s := by
  obtain ⟨name, params, body⟩ := f
  simp only [inFunction, errors_append, List.append_eq_nil_iff] at clean
  have inScope : Bindings.empty :: layers ≠ [] := List.cons_ne_nil _ _
  rcases declared with ⟨param, mem, same⟩ | declared
  · rw [← same]
    exact (spare_of_has (has_foldl_define inScope mem) clean.2).1
  · exact spare_of_declaredIn (foldl_define_ne_nil inScope) clean.2 declared

end

/-! ### Layers along statements -/

/-- Whether a token is not spelled with the new name, and with the old one only if it is no
    keyword. -/
def Renaming.Admits (ρ : Renaming) (t : Token) : Prop :=
  t.lexeme ≠ ρ.new ∧ ∀ k, t.kind = .keyword k → t.lexeme ≠ ρ.old

section

variable {ρ : Renaming} {depth : Nat} {env : List Bool} {t : Token}

theorem declaration_of_ne (other : depth = 0 → t.lexeme ≠ ρ.old) :
    ρ.declaration depth t = t := by
  cases depth with
  | zero => exact ρ.token_of_ne (other rfl)
  | succ depth => rfl

theorem name_over {T : Token → Prop} {f : FunctionDecl} (made : f.Over T) :
    T f.name := by
  cases f
  exact made.1

theorem name_function (ρ : Renaming) (depth : Nat) (f : FunctionDecl) :
    (ρ.function depth f).name = f.name := by
  cases f
  rfl

theorem Beside.after (different : ρ.old ≠ ρ.new) : ∀ {layers layers' : Layers} (s : Stmt),
    Beside ρ depth env layers layers' → s.Over ρ.Admits → (depth = 0 → Spares ρ.old s) →
    Beside ρ depth env (layers.after s) (layers'.after (ρ.stmt depth s))
  | _, _, .varDecl _ _, h, made, _ => h.mark different made.1.1.1 _
  | _, layers', .funDecl f, h, made, spared => by
    have marked := h.mark different (name_over made).1 .defined
    rw [declaration_of_ne spared] at marked
    show Beside ρ depth env _ (layers'.define (ρ.function (depth + 1) f).name)
    rw [name_function]
    exact marked
  | _, _, .classDecl name _ _, h, made, spared => by
    have marked := h.mark different made.1.1 .defined
    rw [declaration_of_ne spared] at marked
    exact marked
  | _, _, .ifElse _ thenBranch none, h, made, spared => h.after different thenBranch made.2.1 spared
  | _, _, .ifElse _ thenBranch (some elseBranch), h, made, spared =>
    (h.after different thenBranch made.2.1 fun at0 => (spared at0).1).after different elseBranch
      made.2.2 fun at0 => (spared at0).2
  | _, _, .whileLoop _ body, h, made, spared => h.after different body made.2 spared
  | _, _, .expression _, h, _, _ | _, _, .print _ _, h, _, _ | _, _, .block _, h, _, _
  | _, _, .ret _ _, h, _, _ => h

theorem Absent.after : ∀ {layers : Layers} (s : Stmt), Absent ρ.new layers →
    s.Over ρ.Admits → Absent ρ.new (layers.after s)
  | _, .varDecl _ _, h, made => h.mark made.1.1.1 _
  | _, .funDecl _, h, made => h.mark (name_over made).1 _
  | _, .classDecl _ _ _, h, made => h.mark made.1.1 _
  | _, .ifElse _ thenBranch none, h, made => h.after thenBranch made.2.1
  | _, .ifElse _ thenBranch (some elseBranch), h, made =>
    (h.after thenBranch made.2.1).after elseBranch made.2.2
  | _, .whileLoop _ body, h, made => h.after body made.2
  | _, .expression _, h, _ | _, .print _ _, h, _ | _, .block _, h, _ | _, .ret _ _, h, _ => h

theorem Absent.foldl_define {a : String} {params : List Token} : ∀ {layers : Layers},
    Absent a layers → (∀ param ∈ params, param.lexeme ≠ a) →
    Absent a (params.foldl Layers.define layers) := by
  induction params with
  | nil => exact fun h _ => h
  | cons param rest ih =>
    intro layers h known
    obtain ⟨first, later⟩ := List.forall_mem_cons.mp known
    exact ih (h.mark first .defined) later

theorem Beside.foldl_define (different : ρ.old ≠ ρ.new) {params : List Token} :
    ∀ {layers layers' : Layers}, Beside ρ depth env layers layers' →
    (∀ param ∈ params, param.lexeme ≠ ρ.new) → Beside ρ depth env
      (params.foldl Layers.define layers)
      ((params.map (ρ.declaration depth)).foldl Layers.define layers') := by
  induction params with
  | nil => exact fun h _ => h
  | cons param rest ih =>
    intro layers layers' h known
    obtain ⟨first, later⟩ := List.forall_mem_cons.mp known
    exact ih (h.mark different first .defined) later

theorem length_mark (layers : Layers) (t : Token) (status : Status) :
    (layers.mark t status).length = layers.length := by
  cases layers <;> rfl

theorem length_after : ∀ (layers : Layers) (s : Stmt),
    (layers.after s).length = layers.length
  | layers, .varDecl _ _ | layers, .funDecl _ | layers, .classDecl _ _ _ => length_mark layers _ _
  | layers, .ifElse _ thenBranch none => length_after layers thenBranch
  | layers, .ifElse _ thenBranch (some elseBranch) =>
    (length_after (layers.after thenBranch) elseBranch).trans (length_after layers thenBranch)
  | layers, .whileLoop _ body => length_after layers body
  | _, .expression _ | _, .print _ _ | _, .block _ | _, .ret _ _ => rfl

theorem length_foldl_define {params : List Token} : ∀ {layers : Layers},
    (params.foldl Layers.define layers).length = layers.length := by
  induction params with
  | nil => exact rfl
  | cons param rest ih => exact ih.trans (length_mark _ _ _)

/-! ### What is found in a renamed program -/

/-- The distance that was found for the reference at a node. -/
def Findings.distance (F : Findings) (node : NodeId) : Option Nat :=
  (F.references.find? (·.node == node)).bind (·.hops)

theorem distance_of_mem {F : Findings} (distinct : (F.references.map (·.node)).Nodup)
    {r : Reference} (mem : r ∈ F.references) : F.distance r.node = r.hops := by
  unfold Findings.distance
  cases found : F.references.find? (·.node == r.node) with
  | none => exact absurd (beq_self_eq_true _) (List.find?_eq_none.mp found r mem)
  | some r' =>
    have same := List.find?_some found
    have there := List.mem_of_find?_eq_some found
    rw [List.inj_on_of_nodup_map distinct there mem (beq_iff_eq.mp same)]
    rfl

/-- Whether two references are the same but for the spelling of the variable. -/
def SameReference (ρ : Renaming) (r r' : Reference) : Prop :=
  r'.node = r.node ∧ r'.hops = r.hops ∧ (r'.name = r.name ∨ r'.name = ρ.token r.name)

/-- Whether nothing is wrong with what is renamed, and its references are bound as before. -/
structure Follows (ρ : Renaming) (F F' : Findings) : Prop where
  errors : F'.errors = []
  references : List.Forall₂ (SameReference ρ) F.references F'.references

section

variable {F F' G G' : Findings} {layers layers' : Layers}

theorem Follows.refl (clean : F.errors = []) : Follows ρ F F :=
  ⟨clean, List.forall₂_same.mpr fun _ _ => ⟨rfl, rfl, .inl rfl⟩⟩

theorem follows_none : Follows ρ .none .none := .refl rfl

theorem Follows.append (h : Follows ρ F F') (h' : Follows ρ G G') :
    Follows ρ (F ++ G) (F' ++ G') := by
  refine ⟨?_, List.rel_append h.references h'.references⟩
  rw [errors_append, h.errors, h'.errors]
  rfl

theorem follows_errorIf {condition condition' : Bool} {t t' : Token} {cause cause' : Cause}
    (same : condition' = condition) (clean : condition = false) :
    Follows ρ (.errorIf condition t cause) (.errorIf condition' t' cause') := by
  subst same clean
  exact ⟨rfl, .nil⟩

theorem follows_redeclaration (h : Beside ρ depth env layers layers')
    (known : t.lexeme ≠ ρ.new) (clean : layers.redeclares t = false) :
    Follows ρ (redeclaration layers t) (redeclaration layers' (ρ.declaration depth t)) :=
  follows_errorIf (h.redeclares_eq known) clean

theorem follows_params (different : ρ.old ≠ ρ.new) {N : NodeId → Option Nat → Prop}
    {params : List Token} : ∀ {layers layers' : Layers}, Beside ρ depth env layers layers' →
    (∀ param ∈ params, param.lexeme ≠ ρ.new) → Noted N (inParams layers params) →
    Follows ρ (inParams layers params) (inParams layers' (params.map (ρ.declaration depth))) := by
  induction params with
  | nil => exact fun _ _ _ => follows_none
  | cons param rest ih =>
    intro layers layers' h known noted
    obtain ⟨first, later⟩ := List.forall_mem_cons.mp known
    simp only [inParams, redeclaration, noted_append, noted_errorIf] at noted
    exact (follows_redeclaration h first noted.1).append
      (ih (h.mark different first .defined) later noted.2)

end

end

/-! ### What is renamed is a name of the text -/

section

variable {ρ : Renaming} {T : Token → Prop}

theorem over_of_mem {s : Stmt} : ∀ {ss : List Stmt}, Stmt.AllOver T ss → s ∈ ss → s.Over T
  | [], _, mem => nomatch mem
  | _ :: _, made, mem => by
    rcases List.mem_cons.mp mem with rfl | mem
    · exact made.1
    · exact over_of_mem made.2 mem

/-- Whether the variable is spelled by some name. -/
def Renaming.Occurs (ρ : Renaming) (T : Token → Prop) : Prop :=
  ∃ t, IsName T t ∧ t.lexeme = ρ.old

theorem occurs_of_declaredIn {ss : List Stmt} (declared : ρ.DeclaredIn ss)
    (made : Stmt.AllOver T ss) : ρ.Occurs T := by
  obtain ⟨name, o, mem, same⟩ := declared
  exact ⟨name, (over_of_mem made mem).1, same⟩

mutual

theorem occurs_of_stmt {s s' : Stmt} : StmtRenamed ρ s s' → s.Over T → ρ.Occurs T
  | .block declared, made => occurs_of_declaredIn declared made
  | .within renamed, made => occurs_of_stmts renamed made
  | .thenBranch (o := none) renamed, made => occurs_of_stmt renamed made.2.1
  | .thenBranch (o := some _) renamed, made => occurs_of_stmt renamed made.2.1
  | .elseBranch renamed, made => occurs_of_stmt renamed made.2.2
  | .loopBody renamed, made => occurs_of_stmt renamed made.2
  | .funDecl renamed, made => occurs_of_function renamed made
  | .classDecl renamed, made => occurs_of_methods renamed made.2.2

theorem occurs_of_stmts {ss ss' : List Stmt} : StmtsRenamed ρ ss ss' → Stmt.AllOver T ss →
    ρ.Occurs T
  | .first renamed, made => occurs_of_stmt renamed made.1
  | .later renamed, made => occurs_of_stmts renamed made.2

theorem occurs_of_function {f f' : FunctionDecl} : FunctionRenamed ρ f f' → f.Over T →
    ρ.Occurs T
  | .here (f := ⟨_, _, _⟩) (.inl ⟨param, mem, same⟩), made => ⟨param, made.2.1 param mem, same⟩
  | .here (f := ⟨_, _, _⟩) (.inr declared), made => occurs_of_declaredIn declared made.2.2
  | .within renamed, made => occurs_of_stmts renamed made.2.2

theorem occurs_of_methods {fs fs' : List FunctionDecl} : MethodsRenamed ρ fs fs' →
    FunctionDecl.AllOver T fs → ρ.Occurs T
  | .first renamed, made => occurs_of_function renamed made.1
  | .later renamed, made => occurs_of_methods renamed made.2

end

end

end Lox.Binding
