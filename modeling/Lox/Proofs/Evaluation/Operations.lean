import Mathlib
import Lox.Proofs.Evaluation.Scoping

/-! # What the operations of a machine keep

  `Sound` says of a computation on a good machine that it leaves the machine good, however it
  ends, what it yields if it ends well, and that it fails for none of the reasons that only a
  program without a source text could give (`Defensive`). It holds of each operation of the
  machine whose operands fit.
-/

namespace Lox.Evaluation

open Binding

variable {α β : Type} {L : Ledger} {m m' : Machine}

/-- The errors that guard against programs that no source text stands for. -/
def Defensive : RuntimeCause → Prop
  | .superOutside => True
  | .thisNotInstance => True
  | .unaryOperator => True
  | .binaryOperator => True
  | .undefinedVariable name => name = "this" ∨ name = "super"
  | _ => False

/-- Whether a computation stopped for a reason that a program can give. -/
def Harmless : Halt → Prop
  | .fault e => ¬Defensive e.cause
  | .starved => True

theorem NoKeyword.harmless {name : Token} (plain : NoKeyword name.lexeme) :
    Harmless (.fault (.undefined name)) := by
  rintro (this | super)
  · exact plain .thisWord this
  · exact plain .superWord super

/-- A computation keeps what there is, its result has a property, and it fails for no defensive
    reason. -/
def Sound (L : Ledger) (m : Machine) (x : Run α) (P : α → Machine → Prop) : Prop :=
  match x m with
  | .ok a m' => Kept L m m' ∧ P a m'
  | .error e m' => Kept L m m' ∧ Harmless e

section

variable {x : Run α} {P Q : α → Machine → Prop}

theorem Sound.of_ok {a : α} (run : x m = .ok a m') (kept : Kept L m m') (holds : P a m') :
    Sound L m x P := by
  unfold Sound
  rw [run]
  exact ⟨kept, holds⟩

theorem Sound.ok (h : Sound L m x P) {a : α} (run : x m = .ok a m') :
    Kept L m m' ∧ P a m' := by
  unfold Sound at h
  rw [run] at h
  exact h

theorem Sound.of_error {e : Halt} (run : x m = .error e m') (kept : Kept L m m')
    (harmless : Harmless e) : Sound L m x P := by
  unfold Sound
  rw [run]
  exact ⟨kept, harmless⟩

theorem Sound.error (h : Sound L m x P) {e : Halt} (run : x m = .error e m') :
    Kept L m m' := by
  unfold Sound at h
  rw [run] at h
  exact h.1

theorem Sound.harmless (h : Sound L m x P) {e : Halt} (run : x m = .error e m') :
    Harmless e := by
  unfold Sound at h
  rw [run] at h
  exact h.2

theorem Sound.weaken (h : Sound L m x P)
    (imp : ∀ a m', Kept L m m' → P a m' → Q a m') : Sound L m x Q := by
  unfold Sound at h ⊢
  cases run : x m with
  | ok a m' =>
    rw [run] at h
    exact ⟨h.1, imp a m' h.1 h.2⟩
  | error e m' =>
    rw [run] at h
    exact h

theorem sound_pure (good : Good L m) {a : α} (holds : P a m) : Sound L m (pure a) P :=
  ⟨.refl good, holds⟩

theorem sound_throw (good : Good L m) {halt : Halt} (harmless : Harmless halt) :
    Sound L m (throw halt : Run α) P :=
  ⟨.refl good, harmless⟩

theorem sound_fail (good : Good L m) (token : Token) {cause : RuntimeCause}
    (harmless : ¬Defensive cause) : Sound L m (Run.fail token cause : Run α) P :=
  ⟨.refl good, harmless⟩

theorem bind_ok {f : α → Run β} {a : α} (run : x m = .ok a m') : (x >>= f) m = f a m' := by
  show EStateM.bind x f m = _
  rw [EStateM.bind, run]

theorem bind_error {f : α → Run β} {e : Halt} (run : x m = .error e m') :
    (x >>= f) m = .error e m' := by
  show EStateM.bind x f m = _
  rw [EStateM.bind, run]

/-- One computation and then another, on the machine that the first one leaves. -/
theorem sound_bind {f : α → Run β} {R : β → Machine → Prop} (first : Sound L m x P)
    (second : ∀ a m', x m = .ok a m' → Kept L m m' → P a m' → Sound L m' (f a) R) :
    Sound L m (x >>= f) R := by
  unfold Sound
  cases run : x m with
  | ok a m' =>
    -- a failure of the second computation keeps what the first one has done
    obtain ⟨kept, holds⟩ := first.ok run
    have later := second a m' run kept holds
    unfold Sound at later
    rw [bind_ok run]
    cases run' : f a m' with
    | ok b m'' =>
      rw [run'] at later
      exact ⟨kept.trans later.1, later.2⟩
    | error e m'' =>
      rw [run'] at later
      exact ⟨kept.trans later.1, later.2⟩
  | error e m' =>
    rw [bind_error run]
    exact ⟨first.error run, first.harmless run⟩

end

theorem sound_get {f : Machine → Run α} {P : α → Machine → Prop} (h : Sound L m (f m) P) :
    Sound L m (get >>= f) P := h

/-- A value that is there fits if the machine is good. -/
theorem sound_defined (good : Good L m) {name : Token} (plain : NoKeyword name.lexeme)
    {o : Option Value} (fits : ∀ v, o = some v → ValueFits L m v) :
    Sound L m (Run.defined name o) fun v m' => ValueFits L m' v := by
  cases o with
  | none => exact sound_throw good plain.harmless
  | some v => exact sound_pure good (fits v rfl)

theorem Good.getAt (good : Good L m) {scope : Scope} {distance : Nat} {name : String} {v : Value}
    (found : m.frames.getAt? scope distance name = some v) : ValueFits L m v := by
  unfold Frames.getAt? at found
  split at found
  · exact good.frames _ _ _ found
  · cases found

theorem Good.get (good : Good L m) {scope : Scope} {name : String} {v : Value}
    (found : m.frames.get? scope name = some v) : ValueFits L m v := by
  obtain ⟨frame, _, found⟩ := List.exists_of_findSome?_eq_some found
  exact good.frames _ _ _ found

/-! ### Reading and writing on a machine -/

theorem readAt_apply (scope : Scope) (distance : Nat) (name : Token) (m : Machine) :
    Run.readAt scope distance name m =
      match m.frames.getAt? scope distance name.lexeme with
      | some v => .ok v m
      | none => .error (.fault (.undefined name)) m := by
  show Run.defined name (m.frames.getAt? scope distance name.lexeme) m = _
  cases m.frames.getAt? scope distance name.lexeme <;> rfl

theorem readVariable_apply (node : NodeId) (name : Token) (m : Machine) :
    Run.readVariable node name m =
      match m.hops.get? node with
      | some distance => Run.defined name (m.frames.getAt? m.scope distance name.lexeme) m
      | none => Run.defined name (m.frames.get? Machine.globals name.lexeme) m := by
  unfold Run.readVariable
  simp only [bind, EStateM.bind, get, getThe, MonadStateOf.get, EStateM.get]
  cases m.hops.get? node <;> rfl

theorem assignVariable_apply (node : NodeId) (name : Token) (v : Value) (m : Machine) :
    Run.assignVariable node name v m =
      match m.hops.get? node with
      | some distance =>
        Run.assignIn (fun m => m.frames.findAt? m.scope distance name.lexeme) name v m
      | none => Run.assignIn (fun m => m.frames.find? Machine.globals name.lexeme) name v m := by
  unfold Run.assignVariable Run.hopsOf
  simp only [bind, EStateM.bind, get, getThe, MonadStateOf.get, EStateM.get, pure, EStateM.pure]
  cases m.hops.get? node <;> rfl

theorem readVariable_eq {node : NodeId} {name : Token} {d : Nat} {v : Value}
    (noted : m.hops.get? node = some d)
    (found : m.frames.getAt? m.scope d name.lexeme = some v) :
    Run.readVariable node name m = .ok v m := by
  simp only [readVariable_apply, noted, found]
  rfl

theorem sound_readVariable (good : Good L m) (node : NodeId) {name : Token}
    (plain : NoKeyword name.lexeme) :
    Sound L m (Run.readVariable node name) fun v m' => ValueFits L m' v := by
  apply sound_get
  split
  · exact sound_defined good plain fun _ found => good.getAt found
  · exact sound_defined good plain fun _ found => good.get found

theorem sound_assignIn (good : Good L m) (frame? : Machine → Option FrameId) {name : Token}
    (plain : NoKeyword name.lexeme) {v : Value} (fits : ValueFits L m v) :
    Sound L m (Run.assignIn frame? name v) fun _ _ => True := by
  unfold Sound Run.assignIn
  cases frame? m with
  | some frame => exact ⟨.put good plain (fits.grow (.put _ _ _ plain)), trivial⟩
  | none => exact ⟨.refl good, plain.harmless⟩

theorem sound_assignVariable (good : Good L m) (node : NodeId) {name : Token}
    (plain : NoKeyword name.lexeme) {v : Value} (fits : ValueFits L m v) :
    Sound L m (Run.assignVariable node name v) fun _ _ => True := by
  have noted : Sound L m (Run.hopsOf node) fun _ m' => m' = m :=
    sound_get (sound_pure good rfl)
  apply sound_bind noted
  intro hops m' _ _ same
  subst same
  cases hops with
  | some distance => exact sound_assignIn good _ plain fits
  | none => exact sound_assignIn good _ plain fits

/-- After a definition the innermost frame has the name. -/
theorem sound_define (good : Good L m) {name : String} {v : Value} {frame : FrameId}
    {outer : Scope} (hscope : m.scope = frame :: outer)
    (below : frame < m.frames.records.size) (plain : NoKeyword name)
    (fits : ValueFits L { m with frames := m.frames.put frame name v } v) :
    Sound L m (Run.define name v) fun _ m' =>
      Bound m' frame name ∧ m'.frames.records.size = m.frames.records.size := by
  have run : Run.define name v m = .ok () { m with frames := m.frames.put frame name v } := by
    show EStateM.Result.ok () { m with frames := m.frames.define m.scope name v } = _
    rw [hscope]
    rfl
  -- the value may be one that fits only once its own name is there, so `fits` is about the
  -- machine afterwards
  refine .of_ok run (.put good plain fits) ⟨?_, ?_⟩
  · show ((m.frames.put frame name v).lookup? frame name).isSome
    rw [Frames.lookup?_put_self _ _ _ below]
    rfl
  · show (m.frames.records.modify frame _).size = _
    rw [Array.size_modify]

/-- A computation in another scope, from which this one is returned to. -/
theorem sound_within {scope : Scope} {body : Run α} {P : α → Machine → Prop}
    (h : Sound L { m with scope } body P)
    (free : ∀ a m' here, P a m' → P a { m' with scope := here }) :
    Sound L m (Run.within scope body) P := by
  -- only the scope differs between the machines inside and outside
  have back : ∀ m', Kept L { m with scope } m' → Kept L m { m' with scope := m.scope } := by
    intro m' kept
    exact ⟨rfl, kept.hops, ⟨kept.grows.size, kept.grows.bound, kept.grows.keywords⟩,
      kept.good.rescope m.scope⟩
  unfold Sound Run.within
  cases run : body { m with scope } with
  | ok a m' =>
    obtain ⟨kept, holds⟩ := h.ok run
    exact ⟨back m' kept, free a m' m.scope holds⟩
  | error e m' => exact ⟨back m' (h.error run), h.harmless run⟩

/-! ### Functions, instances and properties -/

theorem sound_newIdentity (good : Good L m) : Sound L m Run.newIdentity fun _ _ => True :=
  ⟨.of_same good rfl rfl rfl rfl, trivial⟩

theorem sound_countHostCall (good : Good L m) : Sound L m Run.countHostCall fun _ _ => True :=
  ⟨.of_same good rfl rfl rfl rfl, trivial⟩

theorem sound_newClosure (good : Good L m) (declaration : FunctionDecl) (scope : Scope)
    (isInitializer : Bool) :
    Sound L m (Run.newClosure declaration scope isInitializer) fun c _ =>
      c.declaration = declaration ∧ c.scope = scope ∧ c.isInitializer = isInitializer :=
  ⟨.of_same good rfl rfl rfl rfl, rfl, rfl, rfl⟩

theorem sound_newInstance (good : Good L m) (c : Class) :
    Sound L m (Run.newInstance c) fun target m' =>
      target.ofClass = c ∧ m'.frames = m.frames := by
  have same : Grows m { m with fields := m.fields.push .empty } := .of_frames rfl
  refine ⟨⟨rfl, rfl, same, ?_, ?_, good.hops⟩, rfl, rfl⟩
  · intro frame name v found
    exact (good.frames frame name v found).grow same
  · intro id record name v hrecord found
    have entry : (m.fields.push .empty)[id]? = some record := hrecord
    rw [Array.getElem?_push] at entry
    split at entry
    · -- the new instance has no fields
      cases entry
      cases found
    · exact (good.fields id record name v entry found).grow same

theorem sound_setField (good : Good L m) (target : Instance) (name : String) {v : Value}
    (fits : ValueFits L m v) : Sound L m (Run.setField target name v) fun _ _ => True := by
  have same : Grows m { m with fields := m.fields.modify target.id (·.set name v) } :=
    .of_frames rfl
  refine ⟨⟨rfl, rfl, same, ?_, ?_, good.hops⟩, trivial⟩
  · intro frame name v found
    exact (good.frames frame name v found).grow same
  · intro id record name' w hrecord found
    have entry : (m.fields.modify target.id (·.set name v))[id]? = some record := hrecord
    rw [Array.getElem?_modify] at entry
    split at entry
    · -- the record that was changed
      cases hold : m.fields[id]? with
      | none =>
        rw [hold] at entry
        cases entry
      | some record' =>
        rw [hold] at entry
        cases entry
        by_cases hname : name' = name
        · subst hname
          rw [Bindings.get?_set_self] at found
          cases found
          exact fits.grow same
        · rw [Bindings.get?_set_of_ne _ _ hname] at found
          exact (good.fields id record' name' w hold found).grow same
    · exact (good.fields id record name' w entry found).grow same

theorem sound_printLine (good : Good L m) (keyword : Token) (line : String) :
    Sound L m (Run.printLine keyword line) fun _ _ => True := by
  unfold Sound Run.printLine
  by_cases fits : (m.sink.write (line ++ "\n").toUTF8.data).1 = true
  · simp only [fits, if_true]
    exact ⟨.of_same good rfl rfl rfl rfl, trivial⟩
  · simp only [fits]
    exact ⟨.of_same good rfl rfl rfl rfl, not_false⟩

theorem get?_single {name other : String} {v w : Value}
    (found : (Bindings.single name v).get? other = some w) : w = v := by
  by_cases same : other = name
  · subst same
    rw [Bindings.single, Bindings.get?_set_self] at found
    cases found
    rfl
  · rw [Bindings.single, Bindings.get?_set_of_ne _ _ same] at found
    cases found

theorem get?_single_isSome {name : String} {v : Value} :
    ∀ other ∈ [name], ((Bindings.single name v).get? other).isSome := by
  intro other hother
  rw [List.mem_singleton.mp hother, Bindings.single, Bindings.get?_set_self]
  rfl

/-- A bound method keeps one frame more than the method, opened for the `this` of its
    class. -/
theorem sound_bindMethod (good : Good L m) {method : Closure} (fits : MethodFits L m method)
    {target : Instance} (htarget : ClassFits L m target.ofClass)
    (opened : L.created m.frames.records.size (.thisLayer method.declaration))
    (did : ∀ c m', Run.bindMethod method target m = .ok c m' →
      L.happened (.bound method target c)) :
    Sound L m (Run.bindMethod method target) fun c m' =>
      ClosureFits L m' c ∧ c.declaration = method.declaration := by
  obtain ⟨name, superclass, methods, path, sites, formed, standing, ⟨making, housed⟩⟩ := fits
  have values : ∀ name v, (Bindings.single "this" (.object target)).get? name = some v →
      ValueFits L m v := by
    intro name v found
    rw [get?_single found]
    exact htarget
  -- the frame is opened in front of those that the method keeps
  let c : Closure :=
    ⟨m.serial, method.declaration, m.frames.records.size :: method.scope, method.isInitializer⟩
  let m₁ : Machine :=
    { m with
      frames := ⟨m.frames.records.push (.single "this" (.object target))⟩
      serial := m.serial + 1 }
  have run : Run.bindMethod method target m = .ok c m₁ := rfl
  have grows : Grows m m₁ := .child rfl
  have this : m₁.frames.lookup? m.frames.records.size "this" = some (.object target) := by
    show Frames.lookup? ⟨m.frames.records.push _⟩ _ _ = _
    rw [lookup?_push, if_pos rfl, Bindings.single, Bindings.get?_set_self]
  refine .of_ok run (.child good values rfl rfl rfl rfl)
    ⟨⟨true, _, sites, formed, standing.child rfl opened get?_single_isSome, ?_⟩, rfl⟩
  exact .method ⟨did c m₁ run, rfl, m.frames.records.size, rfl, this⟩ (making.grow grows)
    (housed.grow grows)

theorem sound_property (good : Good L m) {target : Instance}
    (fits : ClassFits L m target.ofClass) (name : Token)
    (opened : ∀ method, (m.fields[target.id]?).bind (·.get? name.lexeme) = none →
      target.ofClass.findMethod? name.lexeme = some method →
      L.created m.frames.records.size (.thisLayer method.declaration) ∧
        ∀ c m', Run.bindMethod method target m = .ok c m' →
          L.happened (.bound method target c)) :
    Sound L m (Run.property target name) fun v m' => ValueFits L m' v := by
  apply sound_get
  -- a field hides a method of the same name
  cases field : (m.fields[target.id]?).bind (·.get? name.lexeme) with
  | some v =>
    obtain ⟨record, hrecord, found⟩ := Option.bind_eq_some_iff.mp field
    exact sound_pure good (good.fields _ _ _ _ hrecord found)
  | none =>
    cases hmethod : target.ofClass.findMethod? name.lexeme with
    | none => exact sound_fail good name not_false
    | some method =>
      obtain ⟨created, did⟩ := opened method field hmethod
      have bound := sound_bindMethod good (fits.findMethod hmethod) fits created did
      apply sound_bind bound
      intro c m' _ kept holds
      exact sound_pure kept.good holds.1

/-! ### Superclass methods -/

/-- What `super` comes to where it and `this` are in place. -/
theorem superMethod_found {node : NodeId} {distance : Nat} {keyword : Token} {parent : Class}
    {target : Instance} (noted : m.hops.get? node = some distance)
    (super : m.frames.getAt? m.scope distance keyword.lexeme = some (.classObject parent))
    (this : m.frames.getAt? m.scope (distance - 1) "this" = some (.object target))
    (method : Token) :
    superMethod node keyword method m =
      match parent.findMethod? method.lexeme with
      | some found => (Value.function <$> Run.bindMethod found target) m
      | none => .error (.fault ⟨method, .undefinedProperty method.lexeme⟩) m := by
  unfold superMethod Run.hopsOf
  simp only [bind, EStateM.bind, get, getThe, MonadStateOf.get, EStateM.get, pure, EStateM.pure,
    noted, readAt_apply, super, asClass, Token.synthetic, this, asInstance]
  cases parent.findMethod? method.lexeme <;> rfl

theorem sound_superMethod (good : Good L m) {node : NodeId} {distance : Nat} {keyword : Token}
    {parent : Class} {target : Instance} (noted : m.hops.get? node = some distance)
    (super : m.frames.getAt? m.scope distance keyword.lexeme = some (.classObject parent))
    (this : m.frames.getAt? m.scope (distance - 1) "this" = some (.object target))
    (method : Token)
    (opened : ∀ bound m', superMethod node keyword method m = .ok (.function bound) m' →
      L.created m.frames.records.size (.thisLayer bound.declaration))
    (did : ∀ found c m', parent.findMethod? method.lexeme = some found →
      Run.bindMethod found target m = .ok c m' → L.happened (.bound found target c)) :
    Sound L m (superMethod node keyword method) fun v m' => ValueFits L m' v := by
  have eq := superMethod_found noted super this method
  cases hfound : parent.findMethod? method.lexeme with
  | none =>
    rw [hfound] at eq
    exact .of_error eq (.refl good) not_false
  | some found =>
    rw [hfound] at eq
    have hclass : ClassFits L m parent := good.getAt super
    obtain ⟨bound, m', hbound, same⟩ : ∃ bound m',
        Run.bindMethod found target m = .ok bound m' ∧
          bound.declaration = found.declaration := ⟨_, _, rfl, rfl⟩
    have run : superMethod node keyword method m = .ok (.function bound) m' := by
      rw [eq]
      show EStateM.map _ _ m = _
      rw [EStateM.map, hbound]
    -- the method that was found is the one that is bound, on this very machine
    have binding := sound_bindMethod good (hclass.findMethod hfound) (good.getAt this)
      (same ▸ opened bound m' run) fun c m' => did found c m' hfound
    obtain ⟨kept, fits, _⟩ := binding.ok hbound
    exact .of_ok run kept fits

/-! ### Declarations -/

section

variable {body : Body} {before : List Stmt} {outer : Path}

/-- A function is known in its own body, and so its closure fits only once its name is
    there. -/
theorem sound_declareFunction (good : Good L m) {f : FunctionDecl}
    (standing : Standing L m m.scope (viewFrom body before outer))
    (housed : Housed L m body outer m.scope) (plain : NoKeyword f.name.lexeme)
    (sites : ∀ site ∈ functionSites (.within body before (.funDecl f) :: outer)
      (.routine false f) f, L.sites site)
    (formed : RoutineLegible f) :
    Sound L m (declareFunction f) fun _ m' => Binds m' m'.scope (.funDecl f) := by
  apply sound_get
  have making : Sound L m (Run.newClosure f m.scope false) fun c m' =>
      c.declaration = f ∧ c.scope = m.scope ∧ c.isInitializer = false :=
    sound_newClosure good f m.scope false
  apply sound_bind making
  intro c m₁ _ kept made
  obtain ⟨rfl, hscope, ordinary⟩ := made
  rw [← hscope] at housed
  have standing₁ := standing.grow kept.grows
  rw [← kept.scope] at standing₁ hscope
  obtain ⟨frame, rest, hhead, below⟩ := standing₁.head
  let m₂ : Machine :=
    { m₁ with frames := m₁.frames.put frame c.declaration.name.lexeme (.function c) }
  have grows : Grows m₁ m₂ := .put m₁ frame (.function c) plain
  have bound : Bound m₂ frame c.declaration.name.lexeme := by
    show ((m₁.frames.put _ _ _).lookup? _ _).isSome
    rw [Frames.lookup?_put_self _ _ _ below]
    rfl
  have binds : Binds m₂ m₁.scope (.funDecl c.declaration) := by
    intro name declares frame' outer' hscope'
    cases declares
    rw [hhead] at hscope'
    cases hscope'
    exact bound
  -- by then the name is known in the scope that the closure keeps
  have fits : ValueFits L m₂ (.function c) := by
    refine ⟨false, _, sites, formed, ?_, .function ordinary (housed.grow (kept.grows.trans grows))⟩
    rw [scopes_within, hscope]
    exact (standing₁.grow grows).declare binds
  refine (sound_define kept.good hhead below plain fits).weaken ?_
  intro _ m' kept' bound' name declares frame' outer' hscope'
  cases declares
  rw [kept'.scope, hhead] at hscope'
  cases hscope'
  exact bound'.1

theorem sound_asClass (good : Good L m) (token : Token) (v : Value) :
    Sound L m (asClass token v) fun c m' => m' = m ∧ v = .classObject c := by
  cases v with
  | classObject c => exact sound_pure good ⟨rfl, rfl⟩
  | _ => exact sound_fail good token not_false

/-- The methods of a class are closures over one scope. -/
theorem sound_methodTable {all : List FunctionDecl} {scope : Scope} :
    ∀ {methods : List FunctionDecl} {table : Bindings Closure} {m : Machine}, Good L m →
      (∀ method ∈ methods, method ∈ all) →
      (∀ name c, table.get? name = some c →
        c.scope = scope ∧ c.declaration ∈ all ∧ c.declaration.name.lexeme = name) →
      Sound L m (methodTable scope methods table) fun table' _ =>
        ∀ name c, table'.get? name = some c →
          c.scope = scope ∧ c.declaration ∈ all ∧ c.declaration.name.lexeme = name
  | [], table, m, good, _, held => sound_pure good held
  | method :: rest, table, m, good, known, held => by
    apply sound_bind (sound_newClosure good method scope method.isInitializer)
    intro closure m' _ kept made
    apply sound_methodTable kept.good
    · exact fun other hother => known other (List.mem_cons_of_mem method hother)
    · intro name c found
      by_cases same : name = method.name.lexeme
      · subst same
        rw [Bindings.get?_set_self] at found
        cases found
        rw [made.1]
        exact ⟨made.2.1, known method (List.mem_cons_self ..), rfl⟩
      · rw [Bindings.get?_set_of_ne _ _ same] at found
        exact held name c found

theorem functionSites_of_mem {path : Path} {into : FunctionDecl → Step} {site : Site}
    {method : FunctionDecl} : ∀ {methods : List FunctionDecl}, method ∈ methods →
      site ∈ functionSites (into method :: path) (.routine true method) method →
      site ∈ methodSites path into methods
  | first :: rest, mem, hsite => by
    rw [methodSites, List.mem_append]
    rcases List.mem_cons.mp mem with rfl | mem
    · exact .inl hsite
    · exact .inr (functionSites_of_mem mem hsite)

theorem routineLegible_of_mem {method : FunctionDecl} : ∀ {methods : List FunctionDecl},
    method ∈ methods → MethodsWellFormed methods → FunctionDecl.AllOver (fun _ => True) methods →
      RoutineLegible method
  | first :: rest, mem, formed, legible => by
    rcases List.mem_cons.mp mem with rfl | mem
    · exact ⟨formed.1, legible.1⟩
    · exact routineLegible_of_mem mem formed.2 legible.2

/-- The frame around the methods of a class with a superclass holds `super`. -/
theorem sound_methodScope (good : Good L m) {parent : Option Class} {superclass : Option Expr}
    (same : parent.isSome = superclass.isSome) {methods : List FunctionDecl} {path : Path}
    (standing : Standing L m m.scope path.scopes)
    (hparent : ∀ c, parent = some c → ClassFits L m c)
    (opened : parent.isSome = true → L.created m.frames.records.size (.superLayer methods)) :
    Sound L m (methodScope parent) fun scope m' =>
      Standing L m' scope (classScopes superclass methods path) ∧
        KeptAround m' m.scope parent scope := by
  unfold classScopes
  rw [← same]
  cases parent with
  | none => exact sound_get (sound_pure good ⟨standing, rfl⟩)
  | some c =>
    have values : ∀ name v, (Bindings.single "super" (.classObject c)).get? name = some v →
        ValueFits L m v := by
      intro name v found
      rw [get?_single found]
      exact hparent c rfl
    refine .of_ok rfl (.child good values rfl rfl rfl rfl)
      ⟨standing.child rfl (opened rfl) get?_single_isSome, m.frames.records.size, rfl, ?_⟩
    show Frames.lookup? ⟨m.frames.records.push _⟩ _ _ = _
    rw [lookup?_push, if_pos rfl, Bindings.single, Bindings.get?_set_self]

theorem classFits_make {c : ClassBody} {parent : Option Class}
    (own : ∀ name method, c.methods.get? name = some method → MethodFits L m method)
    (hparent : ∀ p, parent = some p → ClassFits L m p) : ClassFits L m (.make c parent) := by
  cases parent with
  | none => exact own
  | some p => exact ⟨own, hparent p rfl⟩

/-- The class gets its name in the frame in front, which has had the name since before. -/
theorem assignIn_front {frame : FrameId} {rest : Scope} (hhead : m.scope = frame :: rest)
    {name : Token} (bound : Bound m frame name.lexeme) (v : Value) :
    Run.assignIn (fun m => m.frames.find? m.scope name.lexeme) name v m =
      .ok () { m with frames := m.frames.put frame name.lexeme v } := by
  have found : m.frames.find? m.scope name.lexeme = some frame := by
    unfold Frames.find?
    rw [hhead, List.find?_cons, bound]
  simp only [Run.assignIn, found]

theorem below_of_bound {frame : FrameId} {name : String} (bound : Bound m frame name) :
    frame < m.frames.records.size := by
  apply Nat.lt_of_not_le
  intro no
  simp [Bound, Frames.lookup?, no] at bound

/-- A class is known in its own methods; they are closures over a scope that has its name. -/
theorem sound_declareClass (good : Good L m) {name : Token} {superclass : Option Expr}
    {methods : List FunctionDecl} {parent : Option Class}
    (same : parent.isSome = superclass.isSome)
    (standing : Standing L m m.scope (viewFrom body before outer))
    (housed : Housed L m body outer m.scope) (plain : NoKeyword name.lexeme)
    (sites : ∀ site ∈ methodSites (.within body before (.classDecl name superclass methods) ::
      outer) (.inClass name superclass methods) methods, L.sites site)
    (formed : ∀ method ∈ methods, RoutineLegible method)
    (hparent : ∀ c, parent = some c → ClassFits L m c)
    (opened : parent.isSome = true → L.created m.frames.records.size (.superLayer methods))
    (did : ∀ built m', declareClass name parent methods m = .ok () m' →
      m'.frames.get? m'.scope name.lexeme = some (.classObject built) →
      L.happened (.declared name superclass methods parent built)) :
    Sound L m (declareClass name parent methods) fun _ m' =>
      Binds m' m'.scope (.classDecl name superclass methods) := by
  obtain ⟨frame, rest, hhead, below⟩ := standing.head
  -- the name is defined as `nil` first, so that the methods can refer to their class
  have fitting : ValueFits L { m with frames := m.frames.put frame name.lexeme .nil } .nil :=
    trivial
  apply sound_bind (sound_define good hhead below plain fitting)
  intro _ m₁ run₁ kept₁ defined
  obtain ⟨bound, size⟩ := defined
  have binds : Binds m₁ m₁.scope (.classDecl name superclass methods) := by
    intro name' declares frame' outer' hscope'
    cases declares
    rw [kept₁.scope, hhead] at hscope'
    cases hscope'
    exact bound
  have standing₁ := standing.grow kept₁.grows
  rw [← kept₁.scope] at standing₁
  have around := standing₁.declare binds
  have hparent₁ : ∀ c, parent = some c → ClassFits L m₁ c :=
    fun c hc => (hparent c hc).grow kept₁.grows
  rw [← size] at opened
  -- from here on the frames in view stand for the scopes around the methods
  rw [viewFrom, ← scopes_within] at around
  apply sound_bind (sound_methodScope kept₁.good same around hparent₁ opened)
  intro scope m₂ run₂ kept₂ inside
  obtain ⟨hscope, keeps⟩ := inside
  rw [kept₁.scope] at keeps
  have empty : ∀ name c, (Bindings.empty : Bindings Closure).get? name = some c →
      c.scope = scope ∧ c.declaration ∈ methods ∧ c.declaration.name.lexeme = name :=
    fun _ _ no => nomatch no
  apply sound_bind (sound_methodTable kept₂.good (fun _ h => h) empty)
  intro table m₃ run₃ kept₃ held
  apply sound_bind (sound_newIdentity kept₃.good)
  intro id m₄ run₄ kept₄ _
  have kept := kept₂.trans (kept₃.trans kept₄)
  -- the class that is assigned in the end is the one that the execution is said to build
  let built : Class := .make ⟨id, name.lexeme, table⟩ parent
  have hhead₄ : m₄.scope = frame :: rest := by rw [kept.scope, kept₁.scope, hhead]
  have bound₄ : Bound m₄ frame name.lexeme := kept.grows.bound _ _ bound
  have happened : L.happened (.declared name superclass methods parent built) := by
    apply did built { m₄ with frames := m₄.frames.put frame name.lexeme (.classObject built) }
    · rw [declareClass, bind_ok run₁, bind_ok run₂, bind_ok run₃, bind_ok run₄]
      exact assignIn_front hhead₄ bound₄ _
    · show (m₄.frames.put _ _ _).get? m₄.scope _ = _
      have found := m₄.frames.lookup?_put_self name.lexeme (.classObject built)
        (below_of_bound bound₄)
      rw [Frames.get?, hhead₄, List.findSome?_cons, found]
  -- whatever is in the table was declared in the class and keeps the one scope
  have own : ∀ n method, table.get? n = some method → MethodFits L m₄ method := by
    intro n method found
    obtain ⟨hscope', mem, rfl⟩ := held n method found
    refine ⟨name, superclass, methods,
      .within body before (.classDecl name superclass methods) :: outer, ?_, formed _ mem, ?_, ?_⟩
    · exact fun site hsite => sites site (functionSites_of_mem mem hsite)
    · rw [hscope']
      exact hscope.grow (kept₃.trans kept₄).grows
    · refine ⟨⟨⟨_, happened, found⟩, same, ?_⟩, housed.grow (kept₁.trans kept).grows⟩
      rw [hscope']
      exact keeps.grow (kept₃.trans kept₄).grows
  have fits : ValueFits L m₄ (.classObject built) :=
    classFits_make own fun p hp => (hparent₁ p hp).grow kept.grows
  refine (sound_assignIn kept₄.good _ plain fits).weaken ?_
  -- the name has been there since the first step, and names are never lost
  intro _ m' kept' _ name' declares frame' outer' hscope'
  rw [kept'.scope, kept.scope] at hscope'
  exact kept'.grows.bound _ _ (kept.grows.bound _ _ (binds name' declares frame' outer' hscope'))

end

section

variable {host : Host} {fuel : Nat} {m m₁ m' : Machine} {name : Token}
  {methods : List FunctionDecl} {built : Class}

/-- A class declaration declares the class that its name stands for afterwards. -/
theorem does_declared_base (run : declareClass name none methods m = .ok () m')
    (named : m'.frames.get? m'.scope name.lexeme = some (.classObject built)) :
    Does host ⟨fuel + 1, .execute (.classDecl name none methods), m⟩
      (.declared name none methods none built) := by
  refine .base ?_ named
  rw [execute, bind_ok run]
  rfl

theorem does_declared_derived {parent : Expr} {c : Class}
    (run : evaluate host fuel parent m = .ok (.classObject c) m₁)
    (run' : declareClass name (some c) methods m₁ = .ok () m')
    (named : m'.frames.get? m'.scope name.lexeme = some (.classObject built)) :
    Does host ⟨fuel + 1, .execute (.classDecl name (some parent) methods), m⟩
      (.declared name (some parent) methods (some c) built) := by
  refine .derived run ?_ named
  rw [execute, bind_ok run]
  show (declareClass name (some c) methods >>= fun _ => _) m₁ = _
  rw [bind_ok run']
  rfl

end

/-! ### Operators and calls -/

/-- A value without a place in a program: no function, class or instance. -/
def IsData : Value → Prop
  | .function _ => False
  | .classObject _ => False
  | .object _ => False
  | _ => True

theorem IsData.fits {v : Value} (h : IsData v) : ValueFits L m v := by
  cases v with
  | function => exact h.elim
  | classObject => exact h.elim
  | object => exact h.elim
  | _ => trivial

/-- Whether what a host function yields is at all times data or one of its arguments. -/
def Honest (host : Host) : Prop :=
  ∀ called arguments earlier v, host.call called arguments earlier = .ok v →
    v ∈ arguments ∨ IsData v

theorem call_timed (reading : Nat → Option Float) (called : Native) (arguments : List Value)
    (earlier : Nat) :
    (Host.timed reading).call called arguments earlier =
      if (⟨"clock", 0⟩ : Native) = called then (Host.clock reading).apply arguments earlier
      else .error ("Unknown host function '" ++ called.name ++ "'.") := by
  unfold Host.call Host.timed
  rw [List.find?_cons]
  by_cases clock : (⟨"clock", 0⟩ : Native) = called
  · simp [Host.clock, clock]
  · simp [Host.clock, clock]

/-- The clock shows a number, if anything. -/
theorem timed_data {reading : Nat → Option Float} {called : Native} {arguments : List Value}
    {earlier : Nat} {v : Value}
    (result : (Host.timed reading).call called arguments earlier = .ok v) : IsData v := by
  rw [call_timed] at result
  split at result
  · unfold Host.clock at result
    dsimp only at result
    split at result
    · cases result
      exact trivial
    · cases result
  · cases result

theorem honest_timed (reading : Nat → Option Float) : Honest (.timed reading) :=
  fun _ _ _ _ result => .inr (timed_data result)

theorem honest_standard (seconds : Float) : Honest (.standard seconds) :=
  honest_timed _

theorem sound_callHost {host : Host} (honest : Honest host) (good : Good L m) (called : Native)
    {arguments : List Value} (fits : ∀ v ∈ arguments, ValueFits L m v) (paren : Token) :
    Sound L m (callHost host called arguments paren) fun v m' => ValueFits L m' v := by
  apply sound_bind (sound_countHostCall good)
  intro earlier m' _ kept _
  have fits' : ∀ v ∈ arguments, ValueFits L m' v := fun v mem => (fits v mem).grow kept.grows
  cases result : host.call called arguments earlier with
  | error message => exact sound_fail kept.good paren not_false
  | ok v =>
    rcases honest called arguments earlier v result with mem | data
    · exact sound_pure kept.good (fits' v mem)
    · exact sound_pure kept.good data.fits

/-- Data, or a complaint. -/
def YieldsData (x : Run Value) : Prop :=
  ∀ m, (∃ v, x m = .ok v m ∧ IsData v) ∨ ∃ e, x m = .error e m

theorem yieldsData_pure {v : Value} (data : IsData v) : YieldsData (pure v) :=
  fun _ => .inl ⟨v, rfl, data⟩

theorem yieldsData_fail (token : Token) (cause : RuntimeCause) :
    YieldsData (Run.fail token cause) :=
  fun _ => .inr ⟨_, rfl⟩

theorem applyUnary_data (operator : Token) (v : Value) : YieldsData (applyUnary operator v) := by
  unfold applyUnary
  split
  · split
    · exact yieldsData_pure trivial
    · exact yieldsData_fail _ _
  · exact yieldsData_pure trivial
  · exact yieldsData_fail _ _

theorem arithmetic?_data {kind : TokenKind} {a b : Float} {v : Value}
    (h : arithmetic? kind a b = some v) : IsData v := by
  unfold arithmetic? at h
  split at h <;> cases h <;> trivial

theorem applyBinary_data (operator : Token) (v w : Value) :
    YieldsData (applyBinary operator v w) := by
  unfold applyBinary
  split
  · unfold add
    split
    · exact yieldsData_pure trivial
    · exact yieldsData_pure trivial
    · exact yieldsData_fail _ _
  · exact yieldsData_pure trivial
  · exact yieldsData_pure trivial
  · unfold calculate
    split
    · split
      · next result => exact yieldsData_pure (arithmetic?_data result)
      · exact yieldsData_fail _ _
    · exact yieldsData_fail _ _

/-- Whether a computation fails for no defensive reason. -/
def Benign (x : Run α) : Prop :=
  ∀ m e m', x m = .error e m' → Harmless e

theorem YieldsData.sound {x : Run Value} (h : YieldsData x) (benign : Benign x)
    (good : Good L m) : Sound L m x fun v m' => ValueFits L m' v := by
  rcases h m with ⟨v, run, data⟩ | ⟨e, run⟩
  · exact .of_ok run (.refl good) data.fits
  · exact .of_error run (.refl good) (benign m e m run)

theorem benign_pure (a : α) : Benign (pure a : Run α) := by
  intro m e m' run
  cases run

theorem benign_fail (token : Token) {cause : RuntimeCause} (harmless : ¬Defensive cause) :
    Benign (Run.fail token cause : Run α) := by
  intro m e m' run
  cases run
  exact harmless

/-- An operator that can stand before an operand is known there. -/
theorem applyUnary_benign {operator : Token}
    (known : Grammar.isPrefixOperator operator.kind = true) (v : Value) :
    Benign (applyUnary operator v) := by
  unfold applyUnary
  split
  · split
    · exact benign_pure _
    · exact benign_fail _ not_false
  · exact benign_pure _
  · next noMinus noBang =>
    rcases Bool.or_eq_true_iff.mp known with bang | minus
    · exact absurd (beq_iff_eq.mp bang) noBang
    · exact absurd (beq_iff_eq.mp minus) noMinus

/-- An operator that can stand between operands and is none of the logical ones is known
    there. -/
theorem applyBinary_benign {operator : Token}
    (known : 3 ≤ (Grammar.precedence? operator.kind).getD 0) (v w : Value) :
    Benign (applyBinary operator v w) := by
  unfold applyBinary
  split
  · unfold add
    split
    · exact benign_pure _
    · exact benign_pure _
    · exact benign_fail _ not_false
  · exact benign_pure _
  · exact benign_pure _
  · next noPlus noEqual noBang =>
    unfold calculate
    split
    · split
      · exact benign_pure _
      · next none =>
        -- what is left are the operators on numbers
        unfold Grammar.precedence? at known
        unfold arithmetic? at none
        split at known <;> simp_all
    · exact benign_fail _ not_false

theorem sound_checkArity (good : Good L m) (paren : Token) (expected actual : Nat) :
    Sound L m (checkArity paren expected actual) fun _ m' => m' = m ∧ actual = expected := by
  unfold checkArity
  by_cases same : actual = expected
  · rw [if_pos same]
    exact sound_pure good ⟨rfl, same⟩
  · rw [if_neg same]
    exact sound_fail good paren not_false

/-- A table that is filled entry by entry holds only what was entered. -/
theorem foldl_set_get? {ι : Type} (key : ι → String) (value : ι → Value) {entries : List ι} :
    ∀ {table : Bindings Value} {name : String} {v : Value},
      (entries.foldl (fun names i => names.set (key i) (value i)) table).get? name = some v →
      table.get? name = some v ∨ ∃ i ∈ entries, v = value i := by
  induction entries with
  | nil => exact fun found => .inl found
  | cons entry rest ih =>
    intro table name v found
    rcases ih found with old | ⟨i, mem, rfl⟩
    · by_cases same : name = key entry
      · subst same
        rw [Bindings.get?_set_self] at old
        cases old
        exact .inr ⟨entry, List.mem_cons_self .., rfl⟩
      · rw [Bindings.get?_set_of_ne _ _ same] at old
        exact .inl old
    · exact .inr ⟨i, List.mem_cons_of_mem entry mem, rfl⟩

/-- The frame of a call holds only arguments. -/
theorem argumentFrame_fits {params : List Token} {arguments : List Value}
    (fits : ∀ v ∈ arguments, ValueFits L m v) {name : String} {v : Value}
    (found : (argumentFrame params arguments).get? name = some v) : ValueFits L m v := by
  rcases foldl_set_get? (fun entry : Token × Value => entry.1.lexeme) (fun entry => entry.2)
    found with no | ⟨entry, mem, rfl⟩
  · cases no
  · exact fits _ (List.of_mem_zip mem).2

theorem foldl_set_isSome {entries : List (Token × Value)} : ∀ {table : Bindings Value}
    {name : String}, (table.get? name).isSome ∨ name ∈ entries.map (·.1.lexeme) →
    ((entries.foldl (fun names (entry : Token × Value) => names.set entry.1.lexeme entry.2)
      table).get? name).isSome := by
  induction entries with
  | nil =>
    intro table name h
    rcases h with old | no
    · exact old
    · cases no
  | cons entry rest ih =>
    intro table name h
    rw [List.foldl_cons]
    apply ih
    by_cases same : name = entry.1.lexeme
    · subst same
      rw [Bindings.get?_set_self]
      exact .inl rfl
    · rw [Bindings.get?_set_of_ne _ _ same]
      rcases h with old | mem
      · exact .inl old
      · rcases List.mem_cons.mp mem with rfl | mem
        · exact absurd rfl same
        · exact .inr mem

/-- With as many arguments as parameters, the frame of a call has all parameters. -/
theorem argumentFrame_has {params : List Token} {arguments : List Value}
    (enough : arguments.length = params.length) :
    ∀ name ∈ params.map (·.lexeme), ((argumentFrame params arguments).get? name).isSome := by
  intro name hname
  apply foldl_set_isSome
  right
  have zipped : (params.zip arguments).map (·.1) = params := List.map_fst_zip (by omega)
  have names := congrArg (List.map Token.lexeme) zipped
  rw [List.map_map] at names
  show name ∈ List.map (Token.lexeme ∘ (·.1)) (params.zip arguments)
  rw [names]
  exact hname

end Lox.Evaluation
