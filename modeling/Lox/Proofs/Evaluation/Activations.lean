import Lox.Proofs.Evaluation.Scoping
import Lox.Proofs.Lexical.Words

/-! # Activations of methods

  Wherever a running program is inside a class, the frames in view go back to an activation of
  one of its methods: the declaration of the class was executed, which built a class, one of
  whose methods was bound to an instance and then entered (`Activation`). From there the
  frames of `this` and `super` are found at the distances of the scopes around the place, as
  nothing in between is called by a keyword.
-/

namespace Lox.Evaluation

open Binding

variable {L : Ledger} {m : Machine}

/-! ### Going out by a distance -/

theorem ancestor_eq_drop : ∀ {scope : Scope} {d : Nat}, d < scope.length →
    Frames.ancestor scope d = scope.drop d
  | [], _, h => absurd h (Nat.not_lt_zero _)
  | [_], 0, _ => rfl
  | [_], d + 1, h => by
    rw [List.length_singleton] at h
    omega
  | _ :: _ :: _, 0, _ => rfl
  | _ :: next :: outer, d + 1, h => by
    rw [Frames.ancestor, List.drop_succ_cons]
    exact ancestor_eq_drop (Nat.lt_of_succ_lt_succ h)

section

variable {scope : Scope} {d : Nat} {frame : FrameId}

theorem ancestor_eq_cons (h : scope[d]? = some frame) :
    Frames.ancestor scope d = frame :: scope.drop (d + 1) := by
  obtain ⟨below, rfl⟩ := List.getElem?_eq_some_iff.mp h
  rw [ancestor_eq_drop below]
  exact List.drop_eq_getElem_cons below

theorem getAt?_eq (h : scope[d]? = some frame) (name : String) :
    m.frames.getAt? scope d name = m.frames.lookup? frame name := by
  rw [Frames.getAt?, ancestor_eq_cons h]

theorem findAt?_eq (h : scope[d]? = some frame) {name : String} (bound : Bound m frame name) :
    m.frames.findAt? scope d name = some frame := by
  rw [Frames.findAt?, ancestor_eq_cons h]
  exact if_pos bound

end

/-! ### Names and keywords -/

theorem isName_ne_spelling {t : Token} (h : IsName Lexical.Spelled t) (k : Keyword) :
    t.lexeme ≠ k.spelling :=
  h.1.1 h.2 k

/-- The names of a list of statements are no keywords. -/
theorem scope?_ne_spelling {body : Body} {after : List Stmt} (params : body.Proper Lexical.Spelled)
    (stmts : ∀ s ∈ after, DeclaresName Lexical.Spelled s) {entry : Construct × List String}
    (h : body.scope? after = some entry) (k : Keyword) : k.spelling ∉ entry.2 := by
  have declared : k.spelling ∉ declaredNames after := by
    intro mem
    obtain ⟨token, htoken, same⟩ := List.mem_map.mp mem
    obtain ⟨s, hs, declares⟩ := List.mem_filterMap.mp htoken
    exact isName_ne_spelling (stmts s hs token declares) k same
  cases body with
  | program => cases h
  | block ss =>
    cases h
    exact declared
  | routine isMethod f =>
    cases h
    intro mem
    rcases List.mem_append.mp mem with param | inner
    · obtain ⟨token, htoken, same⟩ := List.mem_map.mp param
      exact isName_ne_spelling (params token htoken) k same
    · exact declared inner

/-- Between a place and the class around it, nothing is called by a keyword. -/
theorem scopes_ne_spelling {path : Path} (proper : path.Proper Lexical.Spelled)
    (inner : ∀ step ∈ path, step.inherits? = none) {entry : Construct × List String}
    (mem : entry ∈ path.scopes) (k : Keyword) : k.spelling ∉ entry.2 := by
  obtain ⟨step, hstep, here⟩ := List.mem_flatMap.mp mem
  cases step with
  | inClass => exact nomatch inner _ hstep
  | within body before current =>
    obtain ⟨params, stmts⟩ := proper _ hstep
    exact scope?_ne_spelling params stmts (Option.mem_toList.mp here) k

/-! ### Activations -/

/-- An activation of a method: the declaration of the class, what its superclass came to when
    it was executed and the body of the class that was built then, the method as it was made,
    the instance it was bound to, the bound method, and the frame of the activation. -/
structure Activation where
  name : Token
  superclass : Option Expr
  methods : List FunctionDecl
  parent : Option Class
  body : ClassBody
  made : Closure
  target : Instance
  closure : Closure
  frame : FrameId

namespace Activation

variable (a : Activation)

/-- What led to an activation. -/
structure Happened (happened : Event → Prop) : Prop where
  declared : happened (.declared a.name a.superclass a.methods a.parent (.make a.body a.parent))
  inherits : a.parent.isSome = a.superclass.isSome
  method : a.body.methods.get? a.made.declaration.name.lexeme = some a.made
  bound : happened (.bound a.made a.target a.closure)
  declaration : a.closure.declaration = a.made.declaration
  entered : happened (.entered a.closure a.frame)

/-- A place is inside the method of an activation, with no other class in between, and the
    frames in view there are those of the scopes in between and, around them, the frame of the
    activation and the frames that the bound method keeps. -/
def Around (path : Path) (scope : Scope) : Prop :=
  ∃ (inner outer : Path) (frames : Scope),
    path = inner ++ .inClass a.name a.superclass a.methods a.closure.declaration :: outer ∧
    (∀ step ∈ inner, step.inherits? = none) ∧
    scope = frames ++ a.frame :: a.closure.scope ∧ inner.scopes.length = frames.length + 1

/-- The frames that a bound method keeps hold `this` and, around it, `super`. -/
structure Holds (m : Machine) : Prop where
  this : ∃ frame, a.closure.scope = frame :: a.made.scope ∧
    m.frames.lookup? frame "this" = some (.object a.target)
  super : ∃ around, KeptAround m around a.parent a.made.scope

end Activation

/-- A block or a function inside the method of an activation. -/
theorem Activation.Around.enter {a : Activation} {path : Path} {scope : Scope}
    (h : a.Around path scope) {body : Body} {before : List Stmt} {current : Stmt}
    (isLocal : (body.scope? (before ++ [current])).isSome = true) (frame : FrameId) :
    a.Around (.within body before current :: path) (frame :: scope) := by
  obtain ⟨inner, outer, frames, rfl, noClass, rfl, length⟩ := h
  refine ⟨.within body before current :: inner, outer, frame :: frames, rfl, ?_, rfl, ?_⟩
  · intro step hstep
    rcases List.mem_cons.mp hstep with rfl | hstep
    · rfl
    · exact noClass step hstep
  · obtain ⟨entry, hentry⟩ := Option.isSome_iff_exists.mp isLocal
    rw [scopes_within, hentry, Option.toList_some, List.length_append, length,
      List.length_singleton, List.length_cons, Nat.add_comm]

/-- Wherever a program is inside a class, it runs in an activation of one of its methods. -/
theorem Housed.activation {body : Body} {outer : Path} {scope : Scope}
    (h : Housed L m body outer scope) (before : List Stmt) (current : Stmt)
    (inside : (Path.inherits? (.within body before current :: outer)).isSome = true) :
    ∃ a : Activation, a.Around (.within body before current :: outer) scope ∧
      a.Happened L.happened ∧ a.Holds m := by
  -- outwards from the place, up to the first method
  induction h generalizing before current with
  | program => cases inside
  | block _ ih =>
    obtain ⟨a, around, happened, holds⟩ := ih _ _ inside
    exact ⟨a, around.enter rfl _, happened, holds⟩
  | function _ _ ih =>
    obtain ⟨a, around, happened, holds⟩ := ih _ _ inside
    exact ⟨a, around.enter rfl _, happened, holds⟩
  | @method _ _ _ _ frame c made target name superclass methods parent around entered bound making
      _ _ =>
    obtain ⟨body, declared, found⟩ := making.declared
    refine ⟨⟨name, superclass, methods, parent, body, made, target, c, frame⟩, ?_, ?_, ?_⟩
    · refine ⟨[.within (.routine true c.declaration) before current], _, [], rfl, ?_, rfl, rfl⟩
      exact fun step hstep => List.mem_singleton.mp hstep ▸ rfl
    · exact ⟨declared, making.inherits, found, bound.happened, bound.declaration, entered⟩
    · exact ⟨bound.scope, _, making.scope⟩

/-! ### `this` and `super` -/

section

variable {a : Activation} {path : Path} {scope : Scope} {keyword : Token}

theorem Activation.Around.inherits (h : a.Around path scope) :
    path.inherits? = some a.superclass.isSome := by
  obtain ⟨inner, outer, _, rfl, noClass, _⟩ := h
  unfold Path.inherits?
  rw [List.findSome?_append, List.findSome?_eq_none_iff.mpr noClass]
  rfl

/-- From a place, the names of keywords are found from the class around it on, and so are the
    frames that the bound method keeps. -/
theorem Activation.Around.leads (h : a.Around path scope) (proper : path.Proper Lexical.Spelled)
    (k : Keyword) (spelled : keyword.lexeme = k.spelling) : ∃ (n : Nat) (outer : Path),
      path.hops? keyword = (Path.hops? (.inClass a.name a.superclass a.methods
        a.closure.declaration :: outer) keyword).map (· + n) ∧
      ∀ i, scope[i + n]? = a.closure.scope[i]? := by
  obtain ⟨inner, outer, frames, rfl, noClass, rfl, length⟩ := h
  refine ⟨inner.scopes.length, outer, ?_, ?_⟩
  · have absent : inner.scopes.findIdx? (·.2.contains keyword.lexeme) = none := by
      rw [List.findIdx?_eq_none_iff]
      intro entry mem
      have around : Path.Proper Lexical.Spelled inner :=
        fun step hstep => proper step (List.mem_append_left _ hstep)
      have no := scopes_ne_spelling around noClass mem k
      rw [spelled]
      simpa using no
    unfold Path.hops? Path.scopes at *
    rw [List.flatMap_append, List.findIdx?_append, absent, Option.none_or]
  · intro i
    rw [length, List.getElem?_append_right (by omega)]
    have index : i + (frames.length + 1) - frames.length = i + 1 := by omega
    rw [index, List.getElem?_cons_succ]

/-- At a place in a class, `this` is the instance that the activation was bound to. -/
theorem Activation.Around.this (h : a.Around path scope) (holds : a.Holds m)
    (proper : path.Proper Lexical.Spelled)
    (spelled : keyword.lexeme = Keyword.thisWord.spelling) :
    ∃ d, path.hops? keyword = some d ∧
      m.frames.getAt? scope d "this" = some (.object a.target) := by
  obtain ⟨n, outer, hops, frames⟩ := h.leads proper .thisWord spelled
  obtain ⟨frame, keeps, found⟩ := holds.this
  refine ⟨0 + n, ?_, ?_⟩
  · rw [hops, Path.hops?, spelled]
    rfl
  · have here : scope[0 + n]? = some frame := by
      rw [frames, keeps]
      rfl
    rw [getAt?_eq here, found]

/-- At a place in a class that inherits, `super` is what the superclass came to, and `this` is
    one frame further in. -/
theorem Activation.Around.super (h : a.Around path scope) (holds : a.Holds m) {parent : Class}
    (inherits : a.parent = some parent) (derived : a.superclass.isSome = true)
    (proper : path.Proper Lexical.Spelled)
    (spelled : keyword.lexeme = Keyword.superWord.spelling) :
    ∃ d, path.hops? keyword = some d ∧
      m.frames.getAt? scope d "super" = some (.classObject parent) ∧
      m.frames.getAt? scope (d - 1) "this" = some (.object a.target) := by
  obtain ⟨n, outer, hops, frames⟩ := h.leads proper .superWord spelled
  obtain ⟨frame, keeps, found⟩ := holds.this
  obtain ⟨around, kept⟩ := holds.super
  rw [inherits] at kept
  obtain ⟨frame', keeps', found'⟩ := kept
  -- the layer of `this` is right inside that of `super`, and both are around the body
  refine ⟨1 + n, ?_, ?_, ?_⟩
  · have scopes : Path.scopes (.inClass a.name a.superclass a.methods a.closure.declaration ::
        outer) = (.thisLayer a.closure.declaration, ["this"]) ::
          (.superLayer a.methods, ["super"]) :: Path.scopes outer := by
      unfold Path.scopes
      rw [List.flatMap_cons, Step.scopes, if_pos derived]
      rfl
    rw [hops, Path.hops?, scopes, spelled]
    rfl
  · have here : scope[1 + n]? = some frame' := by
      rw [frames, keeps, keeps']
      rfl
    rw [getAt?_eq here, found']
  · have here : scope[1 + n - 1]? = some frame := by
      have inside : 1 + n - 1 = 0 + n := by omega
      rw [inside, frames, keeps]
      rfl
    rw [getAt?_eq here, found]

end

end Lox.Evaluation
