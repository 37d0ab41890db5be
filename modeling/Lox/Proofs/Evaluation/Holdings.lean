import Lox.Proofs.Evaluation.Nesting

/-! # Scopes and classes that go back to their beginnings

  A scope is rooted if it goes back to the global frame along the links that were made when its
  frames were opened, and a value is held by a machine if the scopes of its closures are rooted,
  its classes were built on superclasses with smaller identities, and its instances have fields
  (`Held`). Each operation of the machine leaves a machine that holds all its values, if it is
  given one (`Steady`).
-/

namespace Lox.Evaluation

variable {α β : Type} {host : Host} {m m' m'' : Machine}

/-- What there is to know of the links that were made. -/
structure Records where
  /-- The frames that were opened, with the scope that each was opened in. -/
  nested : FrameId → Scope → Prop
  /-- The classes that were built, with the superclass of each. -/
  built : Option Class → Class → Prop

variable {R : Records}

/-! ### Values -/

/-- A scope that goes back to the global frame by the links of its frames. -/
inductive Rooted (R : Records) : Scope → Prop where
  | globals : Rooted R Machine.globals
  | inside {frame : FrameId} {outer : Scope} : R.nested frame outer →
      (∀ other ∈ outer, other < frame) → Rooted R outer → Rooted R (frame :: outer)

/-- A rooted scope, all of whose frames are there. -/
structure ScopeHeld (R : Records) (m : Machine) (scope : Scope) : Prop where
  rooted : Rooted R scope
  below : ∀ frame ∈ scope, frame < m.frames.records.size

/-- The identity of a class was drawn, and its methods keep rooted scopes. -/
def BodyHeld (R : Records) (m : Machine) (body : ClassBody) : Prop :=
  body.id < m.serial ∧
    ∀ name method, body.methods.get? name = some method → ScopeHeld R m method.scope

/-- A class was built on its superclass, which was there before. -/
def ClassHeld (R : Records) (m : Machine) : Class → Prop
  | .base body => R.built none (.base body) ∧ BodyHeld R m body
  | .derived body superclass =>
    R.built (some superclass) (.derived body superclass) ∧ superclass.body.id < body.id ∧
      BodyHeld R m body ∧ ClassHeld R m superclass

/-- What a value refers to is there. -/
def Held (R : Records) (m : Machine) : Value → Prop
  | .function closure => ScopeHeld R m closure.scope
  | .classObject c => ClassHeld R m c
  | .object o => o.id < m.fields.size ∧ ClassHeld R m o.ofClass
  | _ => True

theorem ScopeHeld.later {scope : Scope} (h : ScopeHeld R m scope) (older : Older m m') :
    ScopeHeld R m' scope :=
  ⟨h.rooted, fun frame hframe => Nat.lt_of_lt_of_le (h.below frame hframe) older.frames⟩

theorem BodyHeld.later {body : ClassBody} (h : BodyHeld R m body) (older : Older m m') :
    BodyHeld R m' body :=
  ⟨Nat.lt_of_lt_of_le h.1 older.serial,
    fun name method found => (h.2 name method found).later older⟩

theorem ClassHeld.later {c : Class} (h : ClassHeld R m c) (older : Older m m') :
    ClassHeld R m' c := by
  induction c with
  | base body => exact ⟨h.1, h.2.later older⟩
  | derived body superclass ih =>
    obtain ⟨built, less, own, above⟩ := h
    exact ⟨built, less, own.later older, ih above⟩

theorem Held.later {v : Value} (h : Held R m v) (older : Older m m') : Held R m' v := by
  cases v with
  | function closure => exact ScopeHeld.later h older
  | classObject c => exact ClassHeld.later h older
  | object o => exact ⟨Nat.lt_of_lt_of_le h.1 older.fields, h.2.later older⟩
  | _ => trivial

theorem IsData.held {v : Value} (data : IsData v) : Held R m v := by
  cases v with
  | function => exact data.elim
  | classObject => exact data.elim
  | object => exact data.elim
  | _ => trivial

theorem ClassHeld.id_lt {c : Class} (h : ClassHeld R m c) : c.body.id < m.serial := by
  cases c with
  | base body => exact h.2.1
  | derived body superclass => exact h.2.2.1.1

theorem ClassHeld.findMethod {c : Class} (h : ClassHeld R m c) {name : String}
    {method : Closure} (found : c.findMethod? name = some method) :
    ScopeHeld R m method.scope := by
  induction c with
  | base body => exact h.2.2 name method found
  | derived body superclass ih =>
    rw [Class.findMethod?] at found
    split at found
    · next own hown =>
      cases found
      exact h.2.2.1.2 name method hown
    · exact ih h.2.2.2 found

/-- A frame that is opened in a rooted scope makes it a longer one. -/
theorem ScopeHeld.child {outer : Scope} (h : ScopeHeld R m outer) {bindings : Bindings Value}
    (nested : R.nested m.frames.records.size outer)
    (frames : m'.frames = ⟨m.frames.records.push bindings⟩) :
    ScopeHeld R m' (m.frames.records.size :: outer) := by
  refine ⟨.inside nested h.below h.rooted, ?_⟩
  rw [frames]
  intro frame hframe
  rcases List.mem_cons.mp hframe with rfl | hframe
  · exact size_child _ _
  · exact Nat.lt_trans (h.below frame hframe) (size_child _ _)

/-! ### Parts of values -/

/-- What can be had of a value without running anything: of an instance its class, and of a
    class its methods and those of the classes it inherits from. -/
inductive Part : Value → Value → Prop where
  | whole (v : Value) : Part v v
  | ofClass {v : Value} {o : Instance} : Part v (.classObject o.ofClass) → Part v (.object o)
  | superclass {v : Value} {body : ClassBody} {superclass : Class} :
      Part v (.classObject superclass) → Part v (.classObject (.derived body superclass))
  | method {c : Class} {name : String} {method : Closure} :
      c.body.methods.get? name = some method → Part (.function method) (.classObject c)

theorem Held.part {v w : Value} (part : Part v w) (h : Held R m w) : Held R m v := by
  induction part with
  | whole => exact h
  | ofClass _ ih => exact ih h.2
  | superclass _ ih => exact ih h.2.2.2
  | @method c name method found =>
    cases c with
    | base body => exact h.2.2 name method found
    | derived body superclass => exact h.2.2.1.2 name method found

/-- Whether what a host function yields is at all times data or part of one of its
    arguments. -/
def Confined (host : Host) : Prop :=
  ∀ called arguments earlier v, host.call called arguments earlier = .ok v →
    IsData v ∨ ∃ w ∈ arguments, Part v w

theorem Honest.confined (honest : Honest host) : Confined host := by
  intro called arguments earlier v result
  rcases honest called arguments earlier v result with mem | data
  · exact .inr ⟨v, mem, .whole v⟩
  · exact .inl data

/-! ### Machines -/

/-- A machine holds all its values. -/
structure StoreHeld (R : Records) (m : Machine) : Prop where
  frames : ∀ frame name v, m.frames.lookup? frame name = some v → Held R m v
  fields : ∀ (id : Nat) (record : Bindings Value) (name : String) (v : Value),
    m.fields[id]? = some record → record.get? name = some v → Held R m v

theorem StoreHeld.getAt (h : StoreHeld R m) {scope : Scope} {distance : Nat} {name : String}
    {v : Value} (found : m.frames.getAt? scope distance name = some v) : Held R m v := by
  unfold Frames.getAt? at found
  split at found
  · exact h.frames _ _ _ found
  · cases found

theorem StoreHeld.get (h : StoreHeld R m) {scope : Scope} {name : String} {v : Value}
    (found : m.frames.get? scope name = some v) : Held R m v := by
  obtain ⟨frame, _, found⟩ := List.exists_of_findSome?_eq_some found
  exact h.frames _ _ _ found

/-- A change to neither frames nor fields. -/
theorem StoreHeld.of_same (h : StoreHeld R m) (older : Older m m') (frames : m'.frames = m.frames)
    (fields : m'.fields = m.fields) : StoreHeld R m' := by
  refine ⟨?_, ?_⟩
  · intro frame name v found
    rw [frames] at found
    exact (h.frames frame name v found).later older
  · intro id record name v hrecord found
    rw [fields] at hrecord
    exact (h.fields id record name v hrecord found).later older

theorem StoreHeld.put (h : StoreHeld R m) {v : Value} (held : Held R m v) (frame : FrameId)
    (name : String) : StoreHeld R { m with frames := m.frames.put frame name v } := by
  have older : Older m { m with frames := m.frames.put frame name v } := by
    refine ⟨?_, Nat.le_refl _, Nat.le_refl _⟩
    show m.frames.records.size ≤ (m.frames.records.modify frame _).size
    rw [Array.size_modify]
  refine ⟨?_, ?_⟩
  · intro frame' other w found
    rcases lookup?_put_cases found with rfl | old
    · exact held.later older
    · exact (h.frames frame' other w old).later older
  · intro id record other w hrecord found
    exact (h.fields id record other w hrecord found).later older

/-- A frame without names holds nothing. -/
theorem held_empty (name : String) (v : Value)
    (no : (Bindings.empty : Bindings Value).get? name = some v) : Held R m v := by
  cases no

theorem StoreHeld.child (h : StoreHeld R m) {bindings : Bindings Value}
    (held : ∀ name v, bindings.get? name = some v → Held R m v)
    (frames : m'.frames = ⟨m.frames.records.push bindings⟩) (fields : m'.fields = m.fields)
    (serial : m.serial ≤ m'.serial) : StoreHeld R m' := by
  have older : Older m m' := by
    refine ⟨?_, Nat.le_of_eq (by rw [fields]), serial⟩
    rw [frames]
    exact Nat.le_of_lt (size_child _ _)
  refine ⟨?_, ?_⟩
  · intro frame name v found
    rw [frames, lookup?_push] at found
    -- a name of the new frame, or of one that was there
    split at found
    · exact (held name v found).later older
    · exact (h.frames frame name v found).later older
  · intro id record name v hrecord found
    rw [fields] at hrecord
    exact (h.fields id record name v hrecord found).later older

/-! ### Computations -/

/-- What a computation on a machine that holds its values leaves as it was. -/
structure Stays (R : Records) (m m' : Machine) : Prop where
  scope : m'.scope = m.scope
  older : Older m m'
  store : StoreHeld R m'

theorem Stays.refl (store : StoreHeld R m) : Stays R m m :=
  ⟨rfl, .refl m, store⟩

theorem Stays.trans (h : Stays R m m') (h' : Stays R m' m'') : Stays R m m'' :=
  ⟨h'.scope.trans h.scope, h.older.trans h'.older, h'.store⟩

theorem Stays.scopeHeld (h : Stays R m m') (held : ScopeHeld R m m.scope) :
    ScopeHeld R m' m'.scope := by
  rw [h.scope]
  exact held.later h.older

/-- A computation leaves a machine that holds its values, and its result has a property. -/
def Steady (R : Records) (m : Machine) (x : Run α) (P : α → Machine → Prop) : Prop :=
  match x m with
  | .ok a m' => Stays R m m' ∧ P a m'
  | .error _ m' => Stays R m m'

section

variable {x : Run α} {P Q : α → Machine → Prop}

theorem Steady.ok (h : Steady R m x P) {a : α} (run : x m = .ok a m') :
    Stays R m m' ∧ P a m' := by
  unfold Steady at h
  rw [run] at h
  exact h

theorem Steady.stays (h : Steady R m x P) : Stays R m (machineAfter (x m)) := by
  unfold Steady at h
  split at h
  · next run =>
    rw [run]
    exact h.1
  · next run =>
    rw [run]
    exact h

theorem Steady.of_ok {a : α} (run : x m = .ok a m') (stays : Stays R m m') (holds : P a m') :
    Steady R m x P := by
  unfold Steady
  rw [run]
  exact ⟨stays, holds⟩

theorem Steady.weaken (h : Steady R m x P) (weaker : ∀ a m', P a m' → Q a m') :
    Steady R m x Q := by
  unfold Steady at h ⊢
  split at h
  · exact ⟨h.1, weaker _ _ h.2⟩
  · exact h

theorem steady_pure (store : StoreHeld R m) {a : α} (holds : P a m) : Steady R m (pure a) P :=
  ⟨.refl store, holds⟩

theorem steady_throw (store : StoreHeld R m) (halt : Halt) :
    Steady R m (throw halt : Run α) P :=
  Stays.refl store

theorem steady_fail (store : StoreHeld R m) (token : Token) (cause : RuntimeCause) :
    Steady R m (Run.fail token cause : Run α) P :=
  steady_throw store _

theorem steady_bind {f : α → Run β} {Q : β → Machine → Prop} (first : Steady R m x P)
    (second : ∀ a m', x m = .ok a m' → Stays R m m' → P a m' → Steady R m' (f a) Q) :
    Steady R m (x >>= f) Q := by
  have stays := first.stays
  unfold Steady
  cases run : x m with
  | error e m' =>
    rw [run] at stays
    rw [bind_error run]
    exact stays
  | ok a m' =>
    obtain ⟨stays, holds⟩ := first.ok run
    have later := second a m' run stays holds
    unfold Steady at later
    rw [bind_ok run]
    split
    · next run' =>
      rw [run'] at later
      exact ⟨stays.trans later.1, later.2⟩
    · next run' =>
      rw [run'] at later
      exact stays.trans later

theorem steady_get {f : Machine → Run α} (h : Steady R m (f m) P) : Steady R m (get >>= f) P := h

/-- A computation in another scope, from which this one is returned to. -/
theorem steady_within {scope : Scope} (h : Steady R { m with scope } x P)
    (free : ∀ a m' here, P a m' → P a { m' with scope := here }) :
    Steady R m (Run.within scope x) P := by
  have back : ∀ m', Stays R { m with scope } m' → Stays R m { m' with scope := m.scope } := by
    intro m' stays
    -- the scope that is returned to has no part in what is held
    have same : Older m' { m' with scope := m.scope } :=
      ⟨Nat.le_refl _, Nat.le_refl _, Nat.le_refl _⟩
    exact ⟨rfl, ⟨stays.older.frames, stays.older.fields, stays.older.serial⟩,
      stays.store.of_same same rfl rfl⟩
  unfold Steady at h
  unfold Steady Run.within
  cases run : x { m with scope } with
  | ok a m' =>
    rw [run] at h
    exact ⟨back m' h.1, free a m' m.scope h.2⟩
  | error e m' =>
    rw [run] at h
    exact back m' h

end

/-! ### Operations of the machine -/

theorem steady_defined (store : StoreHeld R m) (name : Token) {o : Option Value}
    (held : ∀ v, o = some v → Held R m v) :
    Steady R m (Run.defined name o) fun v m' => Held R m' v := by
  cases o with
  | none => exact steady_throw store _
  | some v => exact steady_pure store (held v rfl)

theorem steady_readAt (store : StoreHeld R m) (scope : Scope) (distance : Nat) (name : Token) :
    Steady R m (Run.readAt scope distance name) fun v m' =>
      m' = m ∧ m.frames.getAt? scope distance name.lexeme = some v := by
  unfold Steady
  rw [readAt_apply]
  cases found : m.frames.getAt? scope distance name.lexeme with
  | some v => exact ⟨.refl store, rfl, rfl⟩
  | none => exact .refl store

theorem steady_readVariable (store : StoreHeld R m) (node : NodeId) (name : Token) :
    Steady R m (Run.readVariable node name) fun v m' => Held R m' v := by
  apply steady_get
  split
  · exact steady_defined store name fun _ found => store.getAt found
  · exact steady_defined store name fun _ found => store.get found

theorem Stays.put (store : StoreHeld R m) {v : Value} (held : Held R m v) (frame : FrameId)
    (name : String) : Stays R m { m with frames := m.frames.put frame name v } := by
  refine ⟨rfl, ⟨?_, Nat.le_refl _, Nat.le_refl _⟩, store.put held frame name⟩
  show m.frames.records.size ≤ (m.frames.records.modify frame _).size
  rw [Array.size_modify]

theorem steady_assignIn (store : StoreHeld R m) (frame? : Machine → Option FrameId)
    (name : Token) {v : Value} (held : Held R m v) :
    Steady R m (Run.assignIn frame? name v) fun _ _ => True := by
  unfold Steady Run.assignIn
  cases frame? m with
  | some frame => exact ⟨.put store held frame name.lexeme, trivial⟩
  | none => exact .refl store

theorem steady_assignVariable (store : StoreHeld R m) (node : NodeId) (name : Token) {v : Value}
    (held : Held R m v) : Steady R m (Run.assignVariable node name v) fun _ _ => True := by
  have noted : Steady R m (Run.hopsOf node) fun _ m' => m' = m :=
    steady_get (steady_pure store rfl)
  apply steady_bind noted
  intro hops m' _ _ same
  subst same
  cases hops with
  | some distance => exact steady_assignIn store _ name held
  | none => exact steady_assignIn store _ name held

theorem steady_define (store : StoreHeld R m) (name : String) {v : Value} (held : Held R m v) :
    Steady R m (Run.define name v) fun _ m' =>
      m'.frames.records.size = m.frames.records.size := by
  have run : Run.define name v m =
      .ok () { m with frames := m.frames.define m.scope name v } := rfl
  -- outside every frame, nothing is defined
  cases hscope : m.scope with
  | nil =>
    have same : m.frames.define m.scope name v = m.frames := by rw [hscope]; rfl
    rw [same] at run
    exact .of_ok run (.refl store) rfl
  | cons frame outer =>
    have put : m.frames.define m.scope name v = m.frames.put frame name v := by rw [hscope]; rfl
    rw [put] at run
    refine .of_ok run (.put store held frame name) ?_
    show (m.frames.records.modify frame _).size = _
    rw [Array.size_modify]

theorem steady_newIdentity (store : StoreHeld R m) :
    Steady R m Run.newIdentity fun id m' => id = m.serial ∧ id < m'.serial := by
  have older : Older m { m with serial := m.serial + 1 } :=
    ⟨Nat.le_refl _, Nat.le_refl _, Nat.le_succ _⟩
  exact ⟨⟨rfl, older, store.of_same older rfl rfl⟩, rfl, Nat.lt_succ_self _⟩

theorem steady_countHostCall (store : StoreHeld R m) :
    Steady R m Run.countHostCall fun _ _ => True := by
  have older : Older m { m with hostCalls := m.hostCalls + 1 } :=
    ⟨Nat.le_refl _, Nat.le_refl _, Nat.le_refl _⟩
  exact ⟨⟨rfl, older, store.of_same older rfl rfl⟩, trivial⟩

theorem steady_newClosure (store : StoreHeld R m) (f : FunctionDecl) (scope : Scope)
    (isInitializer : Bool) :
    Steady R m (Run.newClosure f scope isInitializer) fun closure _ => closure.scope = scope := by
  apply steady_bind (steady_newIdentity store)
  intro id m' _ stays _
  exact steady_pure stays.store rfl

theorem steady_newInstance (store : StoreHeld R m) (c : Class) :
    Steady R m (Run.newInstance c) fun target m' =>
      target = ⟨m.fields.size, c⟩ ∧ target.id < m'.fields.size ∧ m'.frames = m.frames := by
  have more : m.fields.size < (m.fields.push .empty).size := by
    rw [Array.size_push]
    exact Nat.lt_succ_self _
  have older : Older m { m with fields := m.fields.push .empty } :=
    ⟨Nat.le_refl _, Nat.le_of_lt more, Nat.le_refl _⟩
  refine ⟨⟨rfl, older, ?_, ?_⟩, rfl, more, rfl⟩
  · intro frame name v found
    exact (store.frames frame name v found).later older
  · intro id record name v hrecord found
    have entry : (m.fields.push .empty)[id]? = some record := hrecord
    rw [Array.getElem?_push] at entry
    split at entry
    · -- the new instance has no fields
      cases entry
      cases found
    · exact (store.fields id record name v entry found).later older

theorem steady_setField (store : StoreHeld R m) (target : Instance) (name : String) {v : Value}
    (held : Held R m v) : Steady R m (Run.setField target name v) fun _ _ => True := by
  have older : Older m { m with fields := m.fields.modify target.id (·.set name v) } := by
    refine ⟨Nat.le_refl _, ?_, Nat.le_refl _⟩
    show m.fields.size ≤ (m.fields.modify target.id _).size
    rw [Array.size_modify]
  refine ⟨⟨rfl, older, ?_, ?_⟩, trivial⟩
  · intro frame other w found
    exact (store.frames frame other w found).later older
  · intro id record other w hrecord found
    have entry : (m.fields.modify target.id (·.set name v))[id]? = some record := hrecord
    rw [Array.getElem?_modify] at entry
    -- the field that is set, another one of the instance, or one of another instance
    split at entry
    · obtain ⟨old, hold, rfl⟩ := Option.map_eq_some_iff.mp entry
      by_cases same : other = name
      · subst same
        rw [Bindings.get?_set_self] at found
        cases found
        exact held.later older
      · rw [Bindings.get?_set_of_ne _ _ same] at found
        exact (store.fields id old other w hold found).later older
    · exact (store.fields id record other w entry found).later older

theorem steady_printLine (store : StoreHeld R m) (keyword : Token) (line : String) :
    Steady R m (Run.printLine keyword line) fun _ _ => True := by
  have older : Older m { m with sink := (m.sink.write (line ++ "\n").toUTF8.data).2 } :=
    ⟨Nat.le_refl _, Nat.le_refl _, Nat.le_refl _⟩
  have stays : Stays R m { m with sink := (m.sink.write (line ++ "\n").toUTF8.data).2 } :=
    ⟨rfl, older, store.of_same older rfl rfl⟩
  unfold Steady Run.printLine
  by_cases fits : (m.sink.write (line ++ "\n").toUTF8.data).1 = true
  · simp only [fits, if_true]
    exact ⟨stays, trivial⟩
  · simp only [fits]
    exact stays

/-- A bound method keeps one frame more than the method. -/
theorem steady_bindMethod (store : StoreHeld R m) {method : Closure} {target : Instance}
    (scope : ScopeHeld R m method.scope) (held : Held R m (.object target))
    (nested : R.nested m.frames.records.size method.scope) :
    Steady R m (Run.bindMethod method target) fun closure m' => ScopeHeld R m' closure.scope := by
  have values : ∀ name v, (Bindings.single "this" (.object target)).get? name = some v →
      Held R m v := by
    intro name v found
    rw [get?_single found]
    exact held
  refine .of_ok (bindMethod_eq method target m) ⟨rfl, ?_, ?_⟩ (scope.child nested rfl)
  · exact ⟨Nat.le_of_lt (size_child _ _), Nat.le_refl _, Nat.le_succ _⟩
  · exact store.child values rfl rfl (Nat.le_succ _)

theorem steady_property (store : StoreHeld R m) {target : Instance}
    (held : Held R m (.object target)) (name : Token)
    (nested : ∀ method, (m.fields[target.id]?).bind (·.get? name.lexeme) = none →
      target.ofClass.findMethod? name.lexeme = some method →
      R.nested m.frames.records.size method.scope) :
    Steady R m (Run.property target name) fun v m' => Held R m' v := by
  apply steady_get
  -- a field hides the method of its name
  cases field : (m.fields[target.id]?).bind (·.get? name.lexeme) with
  | some v =>
    obtain ⟨record, hrecord, found⟩ := Option.bind_eq_some_iff.mp field
    exact steady_pure store (store.fields _ _ _ _ hrecord found)
  | none =>
    cases hmethod : target.ofClass.findMethod? name.lexeme with
    | none => exact steady_fail store name _
    | some method =>
      apply steady_bind (steady_bindMethod store (held.2.findMethod hmethod) held
        (nested method field hmethod))
      intro closure m' _ stays scope
      exact steady_pure stays.store scope

/-! ### Classes, operators and calls -/

theorem steady_asClass (store : StoreHeld R m) (token : Token) (v : Value) :
    Steady R m (asClass token v) fun c m' => m' = m ∧ v = .classObject c := by
  cases v with
  | classObject c => exact steady_pure store ⟨rfl, rfl⟩
  | _ => exact steady_fail store token _

theorem steady_asInstance (store : StoreHeld R m) (token : Token) (v : Value) :
    Steady R m (asInstance token v) fun o m' => m' = m ∧ v = .object o := by
  cases v with
  | object o => exact steady_pure store ⟨rfl, rfl⟩
  | _ => exact steady_fail store token _

theorem steady_superMethod (store : StoreHeld R m) {node : NodeId} {keyword method : Token}
    (nested : ∀ d parent target found, m.hops.get? node = some d →
      m.frames.getAt? m.scope d keyword.lexeme = some (.classObject parent) →
      m.frames.getAt? m.scope (d - 1) "this" = some (.object target) →
      parent.findMethod? method.lexeme = some found →
      R.nested m.frames.records.size found.scope) :
    Steady R m (superMethod node keyword method) fun v m' => Held R m' v := by
  have noted : Steady R m (Run.hopsOf node) fun hops m' => m' = m ∧ hops = m.hops.get? node :=
    steady_get (steady_pure store ⟨rfl, rfl⟩)
  apply steady_bind noted
  rintro hops _ _ _ ⟨rfl, hd⟩
  cases hops with
  | none => exact steady_fail store keyword _
  | some d =>
    apply steady_get
    -- `super` and `this` are read from frames, and so they are held already
    apply steady_bind (steady_readAt store _ _ _)
    rintro v _ _ _ ⟨rfl, super⟩
    apply steady_bind (steady_asClass store keyword v)
    rintro parent _ _ _ ⟨rfl, rfl⟩
    apply steady_bind (steady_readAt store _ _ _)
    rintro w _ _ _ ⟨rfl, this⟩
    apply steady_bind (steady_asInstance store keyword w)
    rintro target _ _ _ ⟨rfl, rfl⟩
    cases hfound : parent.findMethod? method.lexeme with
    | none => exact steady_fail store method _
    | some found =>
      have above : ClassHeld R _ parent := store.getAt super
      apply steady_bind (steady_bindMethod store (above.findMethod hfound) (store.getAt this)
        (nested d parent target found hd.symm super this hfound))
      intro closure m' _ stays scope
      exact steady_pure stays.store scope

theorem steady_declareFunction (store : StoreHeld R m) (scope : ScopeHeld R m m.scope)
    (f : FunctionDecl) : Steady R m (declareFunction f) fun _ _ => True := by
  apply steady_get
  apply steady_bind (steady_newClosure store f m.scope false)
  intro closure m' _ stays same
  have held : Held R m' (.function closure) := by
    show ScopeHeld R m' closure.scope
    rw [same]
    exact scope.later stays.older
  apply steady_bind (steady_define stays.store f.name.lexeme held)
  intro _ m'' _ stays' _
  exact steady_pure stays'.store trivial

/-- The methods of a class keep one scope. -/
theorem steady_methodTable {scope : Scope} :
    ∀ {methods : List FunctionDecl} {table : Bindings Closure} {m : Machine}, StoreHeld R m →
      (∀ name method, table.get? name = some method → method.scope = scope) →
      Steady R m (methodTable scope methods table) fun table' _ =>
        ∀ name method, table'.get? name = some method → method.scope = scope
  | [], _, _, store, kept => steady_pure store kept
  | method :: rest, table, m, store, kept => by
    apply steady_bind (steady_newClosure store method scope method.isInitializer)
    intro closure m' _ stays same
    apply steady_methodTable stays.store
    intro name other found
    by_cases own : name = method.name.lexeme
    · subst own
      rw [Bindings.get?_set_self] at found
      cases found
      exact same
    · rw [Bindings.get?_set_of_ne _ _ own] at found
      exact kept name other found

theorem steady_methodScope (store : StoreHeld R m) (scope : ScopeHeld R m m.scope)
    {parent : Option Class} (above : ∀ c, parent = some c → ClassHeld R m c)
    (nested : parent.isSome = true → R.nested m.frames.records.size m.scope) :
    Steady R m (methodScope parent) fun inner m' => ScopeHeld R m' inner := by
  cases parent with
  | none => exact steady_get (steady_pure store scope)
  | some c =>
    have values : ∀ name v, (Bindings.single "super" (.classObject c)).get? name = some v →
        Held R m v := by
      intro name v found
      rw [get?_single found]
      exact above c rfl
    refine .of_ok rfl ⟨rfl, ?_, ?_⟩ (scope.child (nested rfl) rfl)
    · exact ⟨Nat.le_of_lt (size_child _ _), Nat.le_refl _, Nat.le_refl _⟩
    · exact store.child values rfl rfl (Nat.le_refl _)

/-- A class is built on a superclass that is there, and so has a greater identity. -/
theorem steady_declareClass (store : StoreHeld R m) (scope : ScopeHeld R m m.scope)
    (name : Token) {parent : Option Class} (methods : List FunctionDecl)
    (above : ∀ c, parent = some c → ClassHeld R m c)
    (nested : parent.isSome = true → R.nested m.frames.records.size m.scope)
    (built : ∀ c m', declareClass name parent methods m = .ok () m' →
      m'.frames.get? m'.scope name.lexeme = some (.classObject c) → R.built parent c) :
    Steady R m (declareClass name parent methods) fun _ _ => True := by
  have nothing : Held R m .nil := trivial
  apply steady_bind (steady_define store name.lexeme nothing)
  intro _ m₁ run₁ stays₁ size
  have around := stays₁.scopeHeld scope
  -- the frame of `super` is the first one to be opened, as a name opens none
  rw [← size, ← stays₁.scope] at nested
  apply steady_bind (steady_methodScope stays₁.store around
    (fun c hc => (above c hc).later stays₁.older) nested)
  intro inner m₂ run₂ stays₂ inside
  have empty : ∀ other method, (Bindings.empty : Bindings Closure).get? other = some method →
      method.scope = inner := by
    intro _ _ no
    cases no
  apply steady_bind (steady_methodTable stays₂.store empty)
  intro table m₃ run₃ stays₃ kept
  apply steady_bind (steady_newIdentity stays₃.store)
  rintro id m₄ run₄ stays₄ ⟨hid, drawn⟩
  have stays := stays₁.trans (stays₂.trans stays₃)
  let c : Class := .make ⟨id, name.lexeme, table⟩ parent
  -- where the name is found, the class is what it stands for in the end
  unfold Steady
  cases found : m₄.frames.find? m₄.scope name.lexeme with
  | none =>
    simp only [Run.assignIn, found]
    exact .refl stays₄.store
  | some frame =>
    have last : Run.assignIn (fun m => m.frames.find? m.scope name.lexeme) name
        (.classObject c) m₄ =
        .ok () { m₄ with frames := m₄.frames.put frame name.lexeme (.classObject c) } := by
      simp only [Run.assignIn, found]
    have recorded : R.built parent c := by
      apply built c { m₄ with frames := m₄.frames.put frame name.lexeme (.classObject c) }
      · rw [declareClass, bind_ok run₁, bind_ok run₂, bind_ok run₃, bind_ok run₄]
        exact last
      · exact get?_put_of_find? found
    have own : BodyHeld R m₄ ⟨id, name.lexeme, table⟩ := by
      refine ⟨drawn, ?_⟩
      intro other method hmethod
      rw [kept other method hmethod]
      exact inside.later (stays₃.trans stays₄).older
    have held : Held R m₄ (.classObject c) := by
      cases parent with
      | none => exact ⟨recorded, own⟩
      | some p =>
        have less : p.body.id < id := by
          rw [hid]
          exact Nat.lt_of_lt_of_le (above p rfl).id_lt stays.older.serial
        exact ⟨recorded, less, own, (above p rfl).later (stays.trans stays₄).older⟩
    rw [last]
    exact ⟨.put stays₄.store held frame name.lexeme, trivial⟩

theorem YieldsData.steady {x : Run Value} (h : YieldsData x) (store : StoreHeld R m) :
    Steady R m x fun v m' => Held R m' v := by
  rcases h m with ⟨v, run, data⟩ | ⟨e, run⟩
  · exact .of_ok run (.refl store) data.held
  · unfold Steady
    rw [run]
    exact .refl store

theorem steady_checkArity (store : StoreHeld R m) (paren : Token) (expected actual : Nat) :
    Steady R m (checkArity paren expected actual) fun _ m' => m' = m ∧ actual = expected := by
  unfold checkArity
  by_cases same : actual = expected
  · rw [if_pos same]
    exact steady_pure store ⟨rfl, same⟩
  · rw [if_neg same]
    exact steady_fail store paren _

theorem steady_callHost (confined : Confined host) (store : StoreHeld R m) (called : Native)
    {arguments : List Value} (held : ∀ v ∈ arguments, Held R m v) (paren : Token) :
    Steady R m (callHost host called arguments paren) fun v m' => Held R m' v := by
  apply steady_bind (steady_countHostCall store)
  intro earlier m' _ stays _
  have held' : ∀ v ∈ arguments, Held R m' v := fun v mem => (held v mem).later stays.older
  cases result : host.call called arguments earlier with
  | error message => exact steady_fail stays.store paren _
  | ok v =>
    rcases confined called arguments earlier v result with data | ⟨w, mem, part⟩
    · exact steady_pure stays.store data.held
    · exact steady_pure stays.store ((held' w mem).part part)

theorem argumentFrame_held {params : List Token} {arguments : List Value}
    (held : ∀ v ∈ arguments, Held R m v) {name : String} {v : Value}
    (found : (argumentFrame params arguments).get? name = some v) : Held R m v := by
  rcases foldl_set_get? (fun entry : Token × Value => entry.1.lexeme) (fun entry => entry.2)
    found with no | ⟨entry, mem, rfl⟩
  · cases no
  · exact held _ (List.of_mem_zip mem).2

end Lox.Evaluation
