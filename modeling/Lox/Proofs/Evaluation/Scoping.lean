import Mathlib.Data.List.Forall2
import Lox.Proofs.Evaluation.Calls
import Lox.Proofs.Grammar.Lines

/-! # Frames and the scopes they stand for

  While a program runs, the frames in view stand for the scopes around the place it is at:
  each was opened for the construct of its scope and has the names known there (`Standing`),
  and where a function or method stands around the place, they go back to an activation of
  it, and of the class to the declaration that was executed (`Housed`).
  The same holds of the scope that a closure keeps, for the place of its declaration
  (`ValueFits`), and therefore of all values that a machine holds (`Good`). What a running
  program does to a machine never takes a name away nor changes `this` and `super` (`Grows`)
  and keeps it good (`Kept`).
-/

namespace Lox.Evaluation

open Binding

/-- What there is to know of the programs that ran on a machine. -/
structure Ledger where
  /-- The sites of the programs. -/
  sites : Site → Prop
  /-- The frames that were opened, with what each was opened for. -/
  created : FrameId → Construct → Prop
  /-- What was done with classes, methods and functions. -/
  happened : Event → Prop

variable {L : Ledger} {m m' m'' : Machine}

/-! ### Frames and scopes -/

/-- Whether a frame has a name. -/
def Bound (m : Machine) (frame : FrameId) (name : String) : Prop :=
  (m.frames.lookup? frame name).isSome

/-- A frame that was opened for a construct and has the names of its scope. -/
def FrameFits (L : Ledger) (m : Machine) (frame : FrameId)
    (scope : Construct × List String) : Prop :=
  L.created frame scope.1 ∧ ∀ name ∈ scope.2, Bound m frame name

/-- Frames that stand for scopes one by one, with the global frame around them. -/
def Standing (L : Ledger) (m : Machine) (scope : Scope)
    (scopes : List (Construct × List String)) : Prop :=
  ∃ frames, scope = frames ++ Machine.globals ∧ List.Forall₂ (FrameFits L m) frames scopes ∧
    ∀ frame ∈ scope, frame < m.frames.records.size

/-- No frame and no name is lost, and what is called by a keyword stays as it is. -/
structure Grows (m m' : Machine) : Prop where
  size : m.frames.records.size ≤ m'.frames.records.size
  bound : ∀ frame name, Bound m frame name → Bound m' frame name
  keywords : ∀ frame (k : Keyword) v, m.frames.lookup? frame k.spelling = some v →
    m'.frames.lookup? frame k.spelling = some v

theorem Grows.refl (m : Machine) : Grows m m :=
  ⟨Nat.le_refl _, fun _ _ h => h, fun _ _ _ h => h⟩

theorem Grows.trans (h : Grows m m') (h' : Grows m' m'') : Grows m m'' :=
  ⟨Nat.le_trans h.size h'.size, fun frame name hb => h'.bound frame name (h.bound frame name hb),
    fun frame k v found => h'.keywords frame k v (h.keywords frame k v found)⟩

theorem Grows.of_frames (frames : m'.frames = m.frames) : Grows m m' := by
  refine ⟨?_, ?_, ?_⟩
  · exact Nat.le_of_eq (congrArg (·.records.size) frames.symm)
  · intro frame name hb
    unfold Bound
    rw [frames]
    exact hb
  · intro frame k v found
    rw [frames]
    exact found

theorem Standing.grow {scope : Scope} {scopes : List (Construct × List String)}
    (h : Standing L m scope scopes) (grows : Grows m m') : Standing L m' scope scopes := by
  obtain ⟨frames, hscope, fits, below⟩ := h
  refine ⟨frames, hscope, ?_, ?_⟩
  · apply fits.imp
    intro frame scope' fit
    exact ⟨fit.1, fun name hname => grows.bound frame name (fit.2 name hname)⟩
  · intro frame hframe
    exact Nat.lt_of_lt_of_le (below frame hframe) grows.size

theorem Standing.cons {frame : FrameId} {scope : Scope} {entry : Construct × List String}
    {scopes : List (Construct × List String)} (h : Standing L m scope scopes)
    (fits : FrameFits L m frame entry) (below : frame < m.frames.records.size) :
    Standing L m (frame :: scope) (entry :: scopes) := by
  obtain ⟨frames, hscope, rest, below'⟩ := h
  refine ⟨frame :: frames, by rw [hscope]; rfl, .cons fits rest, ?_⟩
  intro frame' hframe'
  rcases List.mem_cons.mp hframe' with rfl | hframe'
  · exact below
  · exact below' frame' hframe'

/-! ### Where frames come from -/

/-- The scope that the methods of a class keep: that around the class, and in front of it, if
    the class has a superclass, a frame that holds the superclass. -/
def KeptAround (m : Machine) (around : Scope) : Option Class → Scope → Prop
  | none, scope => scope = around
  | some parent, scope => ∃ frame, scope = frame :: around ∧
      m.frames.lookup? frame "super" = some (.classObject parent)

/-- The closure of a method was made by an execution of the declaration of its class, in the
    scope `around` it: it is one of the methods of the class that was built then. -/
structure MadeBy (L : Ledger) (m : Machine) (name : Token) (superclass : Option Expr)
    (methods : List FunctionDecl) (parent : Option Class) (made : Closure) (around : Scope) :
    Prop where
  declared : ∃ body, L.happened (.declared name superclass methods parent (.make body parent)) ∧
    body.methods.get? made.declaration.name.lexeme = some made
  inherits : parent.isSome = superclass.isSome
  scope : KeptAround m around parent made.scope

/-- A closure is a method bound to an instance, and the frame in front of its scope holds the
    instance. -/
structure BoundTo (L : Ledger) (m : Machine) (c made : Closure) (target : Instance) : Prop where
  happened : L.happened (.bound made target c)
  declaration : c.declaration = made.declaration
  scope : ∃ frame, c.scope = frame :: made.scope ∧
    m.frames.lookup? frame "this" = some (.object target)

/-- The frames in view in a body: one for each block, function and method around it, those of
    functions and methods going back to an activation. -/
inductive Housed (L : Ledger) (m : Machine) : Body → Path → Scope → Prop where
  | program : Housed L m .program [] Machine.globals
  | block {ss before : List Stmt} {body : Body} {current : Stmt} {outer : Path}
      {frame : FrameId} {scope : Scope} : Housed L m body outer scope →
      Housed L m (.block ss) (.within body before current :: outer) (frame :: scope)
  | function {before : List Stmt} {body : Body} {current : Stmt} {outer : Path}
      {frame : FrameId} {c : Closure} : L.happened (.entered c frame) →
      Housed L m body outer c.scope →
      Housed L m (.routine false c.declaration) (.within body before current :: outer)
        (frame :: c.scope)
  | method {before : List Stmt} {body : Body} {current : Stmt} {outer : Path} {frame : FrameId}
      {c made : Closure} {target : Instance} {name : Token} {superclass : Option Expr}
      {methods : List FunctionDecl} {parent : Option Class} {around : Scope} :
      L.happened (.entered c frame) → BoundTo L m c made target →
      MadeBy L m name superclass methods parent made around → Housed L m body outer around →
      Housed L m (.routine true c.declaration)
        (.inClass name superclass methods c.declaration :: .within body before current :: outer)
        (frame :: c.scope)

/-- Where a closure comes from: a function declared in a body, or a method of a class that is
    bound. Only methods make instances ready. -/
inductive Origin (L : Ledger) (m : Machine) (c : Closure) : Bool → Path → Prop where
  | function {before : List Stmt} {body : Body} {current : Stmt} {outer : Path} :
      c.isInitializer = false → Housed L m body outer c.scope →
      Origin L m c false (.within body before current :: outer)
  | method {before : List Stmt} {body : Body} {current : Stmt} {outer : Path} {made : Closure}
      {target : Instance} {name : Token} {superclass : Option Expr}
      {methods : List FunctionDecl} {parent : Option Class} {around : Scope} :
      BoundTo L m c made target → MadeBy L m name superclass methods parent made around →
      Housed L m body outer around →
      Origin L m c true
        (.inClass name superclass methods c.declaration :: .within body before current :: outer)

/-- Where a method that is not bound comes from. -/
inductive MethodOrigin (L : Ledger) (m : Machine) (made : Closure) (name : Token)
    (superclass : Option Expr) (methods : List FunctionDecl) : Path → Prop where
  | intro {before : List Stmt} {body : Body} {current : Stmt} {outer : Path}
      {parent : Option Class} {around : Scope} :
      MadeBy L m name superclass methods parent made around → Housed L m body outer around →
      MethodOrigin L m made name superclass methods (.within body before current :: outer)

section

variable {made c : Closure} {name : Token} {superclass : Option Expr}
  {methods : List FunctionDecl} (grows : Grows m m')
include grows

theorem KeptAround.grow {around scope : Scope} {parent : Option Class}
    (h : KeptAround m around parent scope) : KeptAround m' around parent scope := by
  cases parent with
  | none => exact h
  | some c =>
    obtain ⟨frame, hscope, super⟩ := h
    exact ⟨frame, hscope, grows.keywords _ .superWord _ super⟩

theorem MadeBy.grow {around : Scope} {parent : Option Class}
    (h : MadeBy L m name superclass methods parent made around) :
    MadeBy L m' name superclass methods parent made around :=
  ⟨h.declared, h.inherits, h.scope.grow grows⟩

theorem BoundTo.grow {target : Instance} (h : BoundTo L m c made target) :
    BoundTo L m' c made target := by
  obtain ⟨happened, declaration, frame, scope, this⟩ := h
  exact ⟨happened, declaration, frame, scope, grows.keywords _ .thisWord _ this⟩

theorem Housed.grow {body : Body} {outer : Path} {scope : Scope}
    (h : Housed L m body outer scope) : Housed L m' body outer scope := by
  induction h with
  | program => exact .program
  | block _ ih => exact .block ih
  | function entered _ ih => exact .function entered ih
  | method entered bound made _ ih =>
    exact .method entered (bound.grow grows) (made.grow grows) ih

theorem Origin.grow {isMethod : Bool} {outer : Path} (h : Origin L m c isMethod outer) :
    Origin L m' c isMethod outer := by
  cases h with
  | function no housed => exact .function no (housed.grow grows)
  | method bound made housed =>
    exact .method (bound.grow grows) (made.grow grows) (housed.grow grows)

theorem MethodOrigin.grow {path : Path}
    (h : MethodOrigin L m made name superclass methods path) :
    MethodOrigin L m' made name superclass methods path := by
  obtain ⟨making, housed⟩ := h
  exact ⟨making.grow grows, housed.grow grows⟩

end

/-- The frames in view in the body of a closure that was entered. -/
theorem Origin.enter {c : Closure} {isMethod : Bool} {outer : Path} {frame : FrameId}
    (h : Origin L m c isMethod outer) (entered : L.happened (.entered c frame)) :
    Housed L m (.routine isMethod c.declaration) outer (frame :: c.scope) := by
  cases h with
  | function _ housed => exact .function entered housed
  | method bound made housed => exact .method entered bound made housed

/-! ### Values -/

/-- A function whose form can be read, with operators where operators should be. -/
def RoutineLegible (f : FunctionDecl) : Prop :=
  RoutineWellFormed f ∧ f.Over fun _ => True

/-- A closure keeps the frames of the place its declaration stands at. -/
def ClosureFits (L : Ledger) (m : Machine) (c : Closure) : Prop :=
  ∃ isMethod outer,
    (∀ site ∈ functionSites outer (.routine isMethod c.declaration) c.declaration,
      L.sites site) ∧
    RoutineLegible c.declaration ∧ Standing L m c.scope outer.scopes ∧ Origin L m c isMethod outer

/-- The scopes around the methods of a class, but for the one that holds `this`. -/
def classScopes (superclass : Option Expr) (methods : List FunctionDecl) (path : Path) :
    List (Construct × List String) :=
  (if superclass.isSome then [(.superLayer methods, ["super"])] else []) ++ path.scopes

/-- A method that is not bound keeps the frames around its class. -/
def MethodFits (L : Ledger) (m : Machine) (c : Closure) : Prop :=
  ∃ name superclass methods path,
    (∀ site ∈ functionSites (.inClass name superclass methods c.declaration :: path)
      (.routine true c.declaration) c.declaration, L.sites site) ∧
    RoutineLegible c.declaration ∧ Standing L m c.scope (classScopes superclass methods path) ∧
    MethodOrigin L m c name superclass methods path

/-- All methods of a class fit, those it inherits included. -/
def ClassFits (L : Ledger) (m : Machine) : Class → Prop
  | .base body => ∀ name method, body.methods.get? name = some method → MethodFits L m method
  | .derived body superclass =>
    (∀ name method, body.methods.get? name = some method → MethodFits L m method) ∧
      ClassFits L m superclass

/-- What is known of the values of a program. -/
def ValueFits (L : Ledger) (m : Machine) : Value → Prop
  | .function c => ClosureFits L m c
  | .classObject c => ClassFits L m c
  | .object o => ClassFits L m o.ofClass
  | _ => True

theorem ClosureFits.grow {c : Closure} (h : ClosureFits L m c) (grows : Grows m m') :
    ClosureFits L m' c := by
  obtain ⟨isMethod, outer, sites, formed, standing, origin⟩ := h
  exact ⟨isMethod, outer, sites, formed, standing.grow grows, origin.grow grows⟩

theorem MethodFits.grow {c : Closure} (h : MethodFits L m c) (grows : Grows m m') :
    MethodFits L m' c := by
  obtain ⟨name, superclass, methods, path, sites, formed, standing, origin⟩ := h
  exact ⟨name, superclass, methods, path, sites, formed, standing.grow grows, origin.grow grows⟩

theorem ClassFits.grow {c : Class} (h : ClassFits L m c) (grows : Grows m m') :
    ClassFits L m' c := by
  induction c with
  | base body => exact fun name method found => (h name method found).grow grows
  | derived body superclass ih =>
    exact ⟨fun name method found => (h.1 name method found).grow grows, ih h.2⟩

theorem ValueFits.grow {v : Value} (h : ValueFits L m v) (grows : Grows m m') :
    ValueFits L m' v := by
  cases v with
  | function c => exact ClosureFits.grow h grows
  | classObject c => exact ClassFits.grow h grows
  | object o => exact ClassFits.grow h grows
  | _ => trivial

theorem ClassFits.findMethod {c : Class} (h : ClassFits L m c) {name : String}
    {method : Closure} (found : c.findMethod? name = some method) : MethodFits L m method := by
  induction c with
  | base body => exact h name method found
  | derived body superclass ih =>
    rw [Class.findMethod?] at found
    split at found
    · next own hown =>
      cases found
      exact h.1 name method hown
    · exact ih h.2 found

/-! ### Machines -/

/-- All values of a machine fit, and the noted distances are those of the sites. -/
structure Good (L : Ledger) (m : Machine) : Prop where
  frames : ∀ frame name v, m.frames.lookup? frame name = some v → ValueFits L m v
  fields : ∀ (id : Nat) (record : Bindings Value) (name : String) (v : Value),
    m.fields[id]? = some record → record.get? name = some v → ValueFits L m v
  hops : ∀ path initialized o, L.sites (.occurrence path initialized o) →
    m.hops.get? o.node = path.hops? o.name

/-- The scope a machine is in has no part in whether it is good. -/
theorem Good.rescope (good : Good L m) (scope : Scope) : Good L { m with scope } := by
  have same : Grows m { m with scope } := .of_frames rfl
  refine ⟨?_, ?_, good.hops⟩
  · intro frame name v found
    exact (good.frames frame name v found).grow same
  · intro id record name v hrecord found
    exact (good.fields id record name v hrecord found).grow same

/-- What a running program leaves as it was. -/
structure Kept (L : Ledger) (m m' : Machine) : Prop where
  scope : m'.scope = m.scope
  hops : m'.hops = m.hops
  grows : Grows m m'
  good : Good L m'

theorem Kept.refl (good : Good L m) : Kept L m m :=
  ⟨rfl, rfl, .refl m, good⟩

theorem Kept.trans (h : Kept L m m') (h' : Kept L m' m'') : Kept L m m'' :=
  ⟨h'.scope.trans h.scope, h'.hops.trans h.hops, h.grows.trans h'.grows, h'.good⟩

/-- A change to neither frames, fields, scope nor distances. -/
theorem Kept.of_same (good : Good L m) (frames : m'.frames = m.frames)
    (fields : m'.fields = m.fields) (scope : m'.scope = m.scope) (hops : m'.hops = m.hops) :
    Kept L m m' := by
  have grows : Grows m m' := .of_frames frames
  refine ⟨scope, hops, grows, ?_, ?_, ?_⟩
  · intro frame name v found
    rw [frames] at found
    exact (good.frames frame name v found).grow grows
  · intro id record name v hrecord found
    rw [fields] at hrecord
    exact (good.fields id record name v hrecord found).grow grows
  · intro path initialized o hsite
    rw [hops]
    exact good.hops path initialized o hsite

theorem lookup?_put_cases {frames : Frames Value} {target frame : FrameId} {name other : String}
    {v w : Value} (found : (frames.put target name v).lookup? frame other = some w) :
    w = v ∨ frames.lookup? frame other = some w := by
  by_cases same : target = frame
  · by_cases hname : other = name
    · subst same hname
      by_cases below : target < frames.records.size
      · rw [frames.lookup?_put_self _ _ below] at found
        cases found
        exact .inl rfl
      · -- there is no such frame, and nothing is put into it
        have no : frames.records.size ≤ target := Nat.le_of_not_lt below
        simp [Frames.lookup?, Frames.put, no] at found
    · rw [frames.lookup?_put_of_name_ne _ _ _ hname] at found
      exact .inr found
  · rw [frames.lookup?_put_of_frame_ne _ _ _ same] at found
    exact .inr found

theorem lookup?_put_isSome {frames : Frames Value} {target frame : FrameId}
    {name other : String} {v : Value} (bound : (frames.lookup? frame other).isSome) :
    ((frames.put target name v).lookup? frame other).isSome := by
  by_cases same : target = frame
  · by_cases hname : other = name
    · subst same hname
      have below : target < frames.records.size := by
        apply Nat.lt_of_not_le
        intro no
        simp [Frames.lookup?, no] at bound
      rw [frames.lookup?_put_self _ _ below]
      rfl
    · rw [frames.lookup?_put_of_name_ne _ _ _ hname]
      exact bound
  · rw [frames.lookup?_put_of_frame_ne _ _ _ same]
    exact bound

/-- Whether a name is none of the keywords. -/
def NoKeyword (name : String) : Prop :=
  ∀ k : Keyword, name ≠ k.spelling

theorem Grows.put (m : Machine) (frame : FrameId) {name : String} (v : Value)
    (plain : NoKeyword name) : Grows m { m with frames := m.frames.put frame name v } := by
  refine ⟨?_, fun _ _ hb => lookup?_put_isSome hb, ?_⟩
  · show m.frames.records.size ≤ (m.frames.records.modify frame _).size
    exact Nat.le_of_eq Array.size_modify.symm
  · intro frame' k w found
    show (m.frames.put frame name v).lookup? frame' k.spelling = some w
    rw [m.frames.lookup?_put_of_name_ne _ _ _ (plain k).symm]
    exact found

/-- Putting a value into a frame; the value has to fit only then. -/
theorem Kept.put (good : Good L m) {v : Value} {frame : FrameId} {name : String}
    (plain : NoKeyword name)
    (fits : ValueFits L { m with frames := m.frames.put frame name v } v) :
    Kept L m { m with frames := m.frames.put frame name v } := by
  have grows := Grows.put m frame v plain
  refine ⟨rfl, rfl, grows, ?_, ?_, good.hops⟩
  · intro frame' name' w found
    rcases lookup?_put_cases found with rfl | old
    · exact fits
    · exact (good.frames frame' name' w old).grow grows
  · intro id record name' w hrecord found
    exact (good.fields id record name' w hrecord found).grow grows

theorem lookup?_push (frames : Frames Value) (names : Bindings Value) (frame : FrameId)
    (name : String) :
    Frames.lookup? ⟨frames.records.push names⟩ frame name =
      if frame = frames.records.size then names.get? name else frames.lookup? frame name := by
  unfold Frames.lookup?
  rw [Array.getElem?_push]
  split <;> rfl

section

variable {names : Bindings Value}

theorem Grows.child (frames : m'.frames = ⟨m.frames.records.push names⟩) : Grows m m' := by
  have old : ∀ frame name v, m.frames.lookup? frame name = some v →
      m'.frames.lookup? frame name = some v := by
    intro frame name v found
    have other : frame ≠ m.frames.records.size := by
      intro same
      subst same
      simp [Frames.lookup?] at found
    rw [frames, lookup?_push, if_neg other]
    exact found
  refine ⟨?_, ?_, fun frame k v found => old frame _ v found⟩
  · rw [frames]
    show m.frames.records.size ≤ (m.frames.records.push names).size
    rw [Array.size_push]
    exact Nat.le_succ _
  · intro frame name hb
    obtain ⟨v, found⟩ := Option.isSome_iff_exists.mp hb
    exact Option.isSome_iff_exists.mpr ⟨v, old frame name v found⟩

/-- Opening a frame. -/
theorem Kept.child (good : Good L m)
    (fits : ∀ name v, names.get? name = some v → ValueFits L m v)
    (frames : m'.frames = ⟨m.frames.records.push names⟩) (fields : m'.fields = m.fields)
    (scope : m'.scope = m.scope) (hops : m'.hops = m.hops) : Kept L m m' := by
  have grows : Grows m m' := .child frames
  refine ⟨scope, hops, grows, ?_, ?_, ?_⟩
  · intro frame name v found
    rw [frames, lookup?_push] at found
    split at found
    · exact (fits name v found).grow grows
    · exact (good.frames frame name v found).grow grows
  · intro id record name v hrecord found
    rw [fields] at hrecord
    exact (good.fields id record name v hrecord found).grow grows
  · intro path initialized o hsite
    rw [hops]
    exact good.hops path initialized o hsite

/-- A frame that was just opened stands for the construct it was opened for. -/
theorem Standing.child {outer : Scope} {scopes : List (Construct × List String)}
    (h : Standing L m outer scopes) (frames : m'.frames = ⟨m.frames.records.push names⟩)
    {construct : Construct} (created : L.created m.frames.records.size construct)
    {known : List String} (has : ∀ name ∈ known, (names.get? name).isSome) :
    Standing L m' (m.frames.records.size :: outer) ((construct, known) :: scopes) := by
  apply (h.grow (.child frames)).cons
  · refine ⟨created, ?_⟩
    intro name hname
    unfold Bound
    rw [frames, lookup?_push, if_pos rfl]
    exact has name hname
  · rw [frames]
    show m.frames.records.size < (m.frames.records.push names).size
    rw [Array.size_push]
    exact Nat.lt_succ_self _

end

/-! ### Between two statements -/

/-- The scopes between the statements of a body, after some of them. -/
def viewFrom (body : Body) (before : List Stmt) (outer : Path) :
    List (Construct × List String) :=
  (body.scope? before).toList ++ outer.scopes

/-- What a statement declares is known in the innermost frame. -/
def Binds (m : Machine) (scope : Scope) (s : Stmt) : Prop :=
  ∀ name, declared? s = some name → ∀ frame outer, scope = frame :: outer →
    Bound m frame name.lexeme

theorem Standing.head {scope : Scope} {scopes : List (Construct × List String)}
    (h : Standing L m scope scopes) :
    ∃ frame outer, scope = frame :: outer ∧ frame < m.frames.records.size := by
  obtain ⟨frames, hscope, _, below⟩ := h
  cases scope with
  | nil => cases frames <;> cases hscope
  | cons frame outer => exact ⟨frame, outer, rfl, below frame (List.mem_cons_self ..)⟩

/-- After a statement that declares something, its name is one of those known. -/
theorem Standing.declare {scope : Scope} {body : Body} {before : List Stmt} {outer : Path}
    (h : Standing L m scope (viewFrom body before outer)) {s : Stmt} (binds : Binds m scope s) :
    Standing L m scope (viewFrom body (before ++ [s]) outer) := by
  cases declares : declared? s with
  | none =>
    unfold viewFrom
    rw [scope?_append_none body declares]
    exact h
  | some name =>
    -- only the innermost scope gets another name
    have head : ∀ construct known known', (∀ n ∈ known', n ∈ known ∨ n = name.lexeme) →
        Standing L m scope ((construct, known) :: outer.scopes) →
        Standing L m scope ((construct, known') :: outer.scopes) := by
      intro construct known known' more standing
      obtain ⟨frames, hscope, fits, below⟩ := standing
      cases fits with
      | @cons frame _ frames _ first rest =>
        refine ⟨frame :: frames, hscope, .cons ⟨first.1, ?_⟩ rest, below⟩
        intro n hn
        rcases more n hn with old | rfl
        · exact first.2 n old
        · exact binds name declares frame _ hscope
    cases body with
    | program => exact h
    | block ss =>
      refine head _ _ _ ?_ h
      intro n hn
      rw [declaredNames_append_some declares, List.mem_append, List.mem_singleton] at hn
      exact hn
    | routine isMethod f =>
      refine head _ _ _ ?_ h
      intro n hn
      rw [declaredNames_append_some declares, ← List.append_assoc, List.mem_append,
        List.mem_singleton] at hn
      exact hn

end Lox.Evaluation
