import Lox.Proofs.Evaluation.Chronicles

/-! # Scopes and classes have an end

  A scope is the list of its frames, and a class has its superclass in it; in the store that a
  program runs on, each is a link from one record to the next. Here the links are those that
  were made when frames were opened and classes were built. Whatever is looked for along them
  is found, or the last record is reached, in a number of steps that is known beforehand
  (`Walk`, `Climb`), and what is found is what the functions on scopes and classes find
  (`structure_is_well_founded`).
-/

namespace Lox.Evaluation

variable {m : Machine} {R : Records} {os : List Occasion}

/-! ### What is in the store -/

/-- The values of variables and fields, and what can be had of them: the methods of a class
    among the rest. -/
inductive Stored (m : Machine) : Value → Prop where
  | named {frame : FrameId} {name : String} {v : Value} :
      m.frames.lookup? frame name = some v → Stored m v
  | field {id : Nat} {record : Bindings Value} {name : String} {v : Value} :
      m.fields[id]? = some record → record.get? name = some v → Stored m v
  | part {v w : Value} : Stored m w → Part v w → Stored m v

theorem Stored.held {v : Value} (stored : Stored m v) (store : StoreHeld R m) : Held R m v := by
  induction stored with
  | named found => exact store.frames _ _ _ found
  | field record found => exact store.fields _ _ _ _ record found
  | part _ part ih => exact ih.part part

/-- The scope that a machine is in, and the scopes of the functions in its store. -/
inductive InView (m : Machine) : Scope → Prop where
  | current : InView m m.scope
  | closure {closure : Closure} : Stored m (.function closure) → InView m closure.scope

/-! ### Links -/

/-- A frame was opened with another one around it. -/
def Encloses (R : Records) (inner outer : FrameId) : Prop :=
  ∃ rest, R.nested inner (outer :: rest)

/-- A class was built on a superclass. -/
def Descends (R : Records) (c superclass : Class) : Prop :=
  R.built (some superclass) c

/-- A class of one identity was built on a superclass of another. -/
def Inherits (R : Records) (lower upper : Nat) : Prop :=
  ∃ c superclass, Descends R c superclass ∧ c.body.id = lower ∧ superclass.body.id = upper

/-- A class and all that it inherits from. -/
def lineage : Class → List Class
  | .base body => [.base body]
  | .derived body superclass => .derived body superclass :: lineage superclass

/-- What a class was built on. -/
def superclass? : Class → Option Class
  | .base _ => none
  | .derived _ superclass => some superclass

/-! ### Going along links -/

section

variable {α β : Type}

/-- Going from one thing to the next until something is found or there is no next, and the
    number of steps. -/
inductive Walk (next : α → α → Prop) (here : α → Option β) : Nat → α → Option β → Prop where
  | found {a : α} {b : β} : here a = some b → Walk next here 0 a (some b)
  | last {a : α} : here a = none → (∀ a', ¬next a a') → Walk next here 0 a none
  | further {steps : Nat} {a a' : α} {result : Option β} : here a = none → next a a' →
      Walk next here steps a' result → Walk next here (steps + 1) a result

/-- Going a number of times from one thing to the next, or fewer times where there is no
    next. -/
inductive Climb (next : α → α → Prop) : Nat → α → α → Prop where
  | arrived (a : α) : Climb next 0 a a
  | last {distance : Nat} {a : α} : (∀ a', ¬next a a') → Climb next (distance + 1) a a
  | further {distance : Nat} {a a' b : α} : next a a' → Climb next distance a' b →
      Climb next (distance + 1) a b

end

/-! ### Scopes -/

theorem Rooted.front {scope : Scope} (h : Rooted R scope) :
    ∃ front outer, scope = front :: outer := by
  cases h with
  | globals => exact ⟨0, [], rfl⟩
  | inside => exact ⟨_, _, rfl⟩

theorem Rooted.ends {scope : Scope} (h : Rooted R scope) : scope.getLast? = some 0 := by
  induction h with
  | globals => rfl
  | inside _ _ rooted ih =>
    obtain ⟨_, _, rfl⟩ := rooted.front
    rw [List.getLast?_cons_cons]
    exact ih

/-- A scope is not longer than the number of its innermost frame allows. -/
theorem Rooted.length_le {scope : Scope} (h : Rooted R scope) :
    ∀ front ∈ scope.head?, scope.length ≤ front + 1 := by
  induction h with
  | globals =>
    rintro _ ⟨⟩
    exact Nat.le_refl 1
  | @inside frame outer _ less rooted ih =>
    rintro _ ⟨⟩
    obtain ⟨next, rest, rfl⟩ := rooted.front
    exact Nat.succ_le_succ (Nat.le_trans (ih next rfl) (less next (List.mem_cons_self ..)))

/-- From every frame of a scope on, the frames are those that it was opened in. -/
theorem Rooted.links {scope : Scope} (h : Rooted R scope) {frame : FrameId} {outer : Scope}
    (suffix : frame :: outer <:+ scope) :
    frame = 0 ∧ outer = [] ∨ R.nested frame outer := by
  induction h with
  | globals =>
    rcases List.suffix_cons_iff.mp suffix with same | no
    · cases same
      exact .inl ⟨rfl, rfl⟩
    · cases List.suffix_nil.mp no
  | inside nested _ _ ih =>
    rcases List.suffix_cons_iff.mp suffix with same | inner
    · cases same
      exact .inr nested
    · exact ih inner

section

variable (outermost : ∀ outer, ¬R.nested 0 outer)
include outermost

/-- Looking for something along the frames of a scope is going along links. -/
theorem Rooted.walk {β : Type} (here : FrameId → Option β) {scope : Scope} (h : Rooted R scope) :
    ∀ front ∈ scope.head?, ∃ steps < scope.length,
      Walk (Encloses R) here steps front (scope.findSome? here) := by
  -- outwards, one frame at a time: the global frame is inside no other
  induction h with
  | globals =>
    rintro _ ⟨⟩
    refine ⟨0, Nat.zero_lt_one, ?_⟩
    cases found : here 0 with
    | some b =>
      rw [Machine.globals, List.findSome?_cons, found]
      exact .found found
    | none =>
      rw [Machine.globals, List.findSome?_cons, found]
      exact .last found fun _ ⟨_, nested⟩ => outermost _ nested
  | @inside frame outer nested _ rooted ih =>
    rintro _ ⟨⟩
    cases found : here frame with
    | some b =>
      rw [List.findSome?_cons, found]
      exact ⟨0, Nat.succ_pos _, .found found⟩
    | none =>
      obtain ⟨next, rest, rfl⟩ := rooted.front
      obtain ⟨steps, few, walk⟩ := ih next rfl
      rw [List.findSome?_cons, found]
      exact ⟨steps + 1, Nat.succ_lt_succ few, .further found ⟨rest, nested⟩ walk⟩

/-- The frame at a distance is reached along links. -/
theorem Rooted.climb {scope : Scope} (h : Rooted R scope) : ∀ front ∈ scope.head?,
    ∀ distance, ∃ target rest, Frames.ancestor scope distance = target :: rest ∧
      Climb (Encloses R) distance front target := by
  induction h with
  | globals =>
    rintro _ ⟨⟩ distance
    cases distance with
    | zero => exact ⟨0, [], rfl, .arrived 0⟩
    | succ distance => exact ⟨0, [], rfl, .last fun _ ⟨_, nested⟩ => outermost _ nested⟩
  | @inside frame outer nested _ rooted ih =>
    rintro _ ⟨⟩ distance
    obtain ⟨next, rest, rfl⟩ := rooted.front
    cases distance with
    | zero => exact ⟨frame, next :: rest, rfl, .arrived frame⟩
    | succ distance =>
      obtain ⟨target, beyond, reached, climb⟩ := ih next rfl distance
      exact ⟨target, beyond, reached, .further ⟨rest, nested⟩ climb⟩

end

/-- The first frame that has a name, as something that is looked for along frames. -/
theorem find?_eq_findSome? (frames : Frames Value) (scope : Scope) (name : String) :
    frames.find? scope name = scope.findSome? fun frame =>
      if (frames.lookup? frame name).isSome then some frame else none := by
  induction scope with
  | nil => rfl
  | cons frame outer ih =>
    unfold Frames.find? at ih ⊢
    rw [List.find?_cons, List.findSome?_cons, ih]
    cases (frames.lookup? frame name).isSome <;> rfl

/-! ### Classes -/

section

variable {c : Class}

theorem ClassHeld.length_le (h : ClassHeld R m c) : (lineage c).length ≤ c.body.id + 1 := by
  induction c with
  | base body => exact Nat.succ_le_succ (Nat.zero_le _)
  | derived body superclass ih =>
    have short := ih h.2.2.2
    have less : superclass.body.id < body.id := h.2.1
    rw [lineage, List.length_cons]
    show _ ≤ body.id + 1
    omega

theorem ClassHeld.links (h : ClassHeld R m c) :
    ∀ c' ∈ lineage c, R.built (superclass? c') c' := by
  induction c with
  | base body =>
    intro c' mem
    rw [List.mem_singleton.mp mem]
    exact h.1
  | derived body superclass ih =>
    exact List.forall_mem_cons.mpr ⟨h.1, ih h.2.2.2⟩

/-- Looking for a method is going along links. -/
theorem ClassHeld.walk (h : ClassHeld R m c)
    (made : ∀ {parent c}, R.built parent c → parent = superclass? c) (name : String) :
    ∃ steps < (lineage c).length, Walk (Descends R) (fun c => c.body.methods.get? name) steps c
      (c.findMethod? name) := by
  -- along the superclasses: a method of the class itself ends the walk at once
  induction c with
  | base body =>
    refine ⟨0, Nat.zero_lt_one, ?_⟩
    cases found : body.methods.get? name with
    | some method =>
      rw [Class.findMethod?, found]
      exact .found found
    | none =>
      rw [Class.findMethod?, found]
      refine .last found ?_
      intro superclass built
      cases made built
  | derived body superclass ih =>
    cases found : body.methods.get? name with
    | some method =>
      rw [Class.findMethod?, found]
      exact ⟨0, Nat.succ_pos _, .found found⟩
    | none =>
      obtain ⟨steps, short, walk⟩ := ih h.2.2.2
      rw [Class.findMethod?, found]
      exact ⟨steps + 1, Nat.succ_lt_succ short, .further found h.1 walk⟩

end

theorem built_superclass {parent : Option Class} {c : Class} (built : (records os).built parent c) :
    parent = superclass? c := by
  obtain ⟨o, _, config, _, builds⟩ := built
  obtain ⟨body, rfl, _⟩ := builds.body
  cases parent <;> rfl

/-! ### All together -/

/-- A scope that goes back to the global frame, as it was put together. -/
structure Grounded (R : Records) (m : Machine) (scope : Scope) : Prop where
  /-- From every frame on there is what the frame was opened in. -/
  links : ∀ frame outer, frame :: outer <:+ scope → frame = 0 ∧ outer = [] ∨ R.nested frame outer
  /-- The last frame is the global one. -/
  ends : scope.getLast? = some 0
  /-- There are no more frames in it than there are. -/
  short : scope.length ≤ m.frames.records.size
  /-- Reading a name ends. -/
  reads : ∀ front ∈ scope.head?, ∀ name, ∃ steps < scope.length,
    Walk (Encloses R) (m.frames.lookup? · name) steps front (m.frames.get? scope name)
  /-- Looking for the frame to assign a name in ends. -/
  assigns : ∀ front ∈ scope.head?, ∀ name, ∃ steps < scope.length,
    Walk (Encloses R)
      (fun frame => if (m.frames.lookup? frame name).isSome then some frame else none)
      steps front (m.frames.find? scope name)
  /-- Going out a distance ends. -/
  ancestors : ∀ front ∈ scope.head?, ∀ distance, ∃ target rest,
    Frames.ancestor scope distance = target :: rest ∧ Climb (Encloses R) distance front target

/-- A class that goes back to one without a superclass, as it was built. -/
structure Descended (R : Records) (m : Machine) (c : Class) : Prop where
  /-- It and all that it inherits from are as they were built. -/
  links : ∀ c' ∈ lineage c, R.built (superclass? c') c'
  /-- There are no more of them than identities were drawn. -/
  short : (lineage c).length ≤ m.serial
  /-- Looking for a method ends. -/
  methods : ∀ name, ∃ steps < (lineage c).length,
    Walk (Descends R) (fun c => c.body.methods.get? name) steps c (c.findMethod? name)

theorem ScopeHeld.grounded {scope : Scope} (h : ScopeHeld R m scope)
    (outermost : ∀ outer, ¬R.nested 0 outer) : Grounded R m scope := by
  refine ⟨fun _ _ => h.rooted.links, h.rooted.ends, ?_, ?_, ?_, h.rooted.climb outermost⟩
  · obtain ⟨frame, outer, rfl⟩ := h.rooted.front
    exact Nat.le_trans (h.rooted.length_le frame rfl) (h.below frame (List.mem_cons_self ..))
  · exact fun front hfront name =>
      h.rooted.walk outermost (m.frames.lookup? · name) front hfront
  · intro front hfront name
    rw [find?_eq_findSome?]
    exact h.rooted.walk outermost _ front hfront

theorem ClassHeld.descended {c : Class} (h : ClassHeld R m c)
    (made : ∀ {parent c}, R.built parent c → parent = superclass? c) : Descended R m c :=
  ⟨h.links, Nat.le_trans h.length_le h.id_lt, h.walk made⟩

/-- Where links lead to smaller numbers, there is no way back. -/
theorem not_transGen_self {next : Nat → Nat → Prop} (less : ∀ {a b}, next a b → b < a) (a : Nat) :
    ¬Relation.TransGen next a a := by
  have smaller : ∀ {b}, Relation.TransGen next a b → b < a := by
    intro b way
    induction way with
    | single link => exact less link
    | tail _ link ih => exact Nat.lt_trans (less link) ih
  exact fun way => Nat.lt_irrefl a (smaller way)

/-- Whatever programs a session has run, with whatever functions of the host, and however far
    the last one has got: a frame was opened in one scope and a class was built on one
    superclass, and following the links never leads back, so that no class is its own
    ancestor. At every moment the scope of the machine and those of the functions in its
    store are put together of these links, and so are the classes in its store; the links
    lead to the global frame and to a class without superclass, and reading and assigning
    names, going out and looking for methods along them end. -/
theorem structure_is_well_founded (begun : Begun os) :
    (∀ frame outer outer', (records os).nested frame outer → (records os).nested frame outer' →
      outer = outer') ∧
    (∀ parent parent' c c', (records os).built parent c → (records os).built parent' c' →
      c.body.id = c'.body.id → parent = parent' ∧ c = c') ∧
    (∀ frame, ¬Relation.TransGen (Encloses (records os)) frame frame) ∧
    (∀ id, ¬Relation.TransGen (Inherits (records os)) id id) ∧
    ∀ m, Moment os m →
      (∀ scope, InView m scope → Grounded (records os) m scope) ∧
      ∀ c, Stored m (.classObject c) → Descended (records os) m c := by
  have ordered := begun.ordered
  refine ⟨fun _ _ _ => ordered.nested_unique, fun _ _ _ _ => ordered.built_unique, ?_, ?_, ?_⟩
  · apply not_transGen_self
    rintro inner outer ⟨rest, nested⟩
    exact ordered.nested_less nested outer (List.mem_cons_self ..)
  · apply not_transGen_self
    rintro _ _ ⟨c, superclass, built, rfl, rfl⟩
    exact ordered.built_less built
  · intro m moment
    obtain ⟨store, scope⟩ := moment.held begun
    refine ⟨?_, ?_⟩
    · intro scope' inView
      cases inView with
      | current => exact scope.grounded ordered.globals_outermost
      | closure stored =>
        have held : ScopeHeld (records os) m _ := stored.held store
        exact held.grounded ordered.globals_outermost
    · intro c stored
      have held : ClassHeld (records os) m c := stored.held store
      exact held.descended built_superclass

/-- A class that is declared again, on a class that was built on the first one. -/
theorem structure_is_well_founded_redeclared :
    let host := Host.standard 0
    let source := "class A \x7b\x7d class B < A \x7b\x7d class A < B \x7b\x7d"
    let os : List Occasion := [⟨host, launch (.start host .unlimited) 4 source⟩]
    ∃ s' c, Session.run host 4 source (.start host .unlimited) = some ([], s') ∧
      s'.machine.global? "A" = some (.classObject c) ∧
      (lineage c).map (·.body.name) = ["A", "B", "A"] ∧ Descended (records os) s'.machine c ∧
      ¬Relation.TransGen (Inherits (records os)) c.body.id c.body.id := by
  intro host source os
  have accepted : (Session.prepare (.start host .unlimited) source).diagnostics = [] := by cbv
  let c : Class :=
    .derived ⟨2, "A", .empty⟩ (.derived ⟨1, "B", .empty⟩ (.base ⟨0, "A", .empty⟩))
  have ends : (Session.run host 4 source (.start host .unlimited)).map
      (fun outcome => (outcome.1, outcome.2.machine.global? "A")) =
        some ([], some (.classObject c)) := by cbv
  obtain ⟨⟨problems, s'⟩, ran, outcome⟩ := Option.map_eq_some_iff.mp ends
  obtain ⟨rfl, named⟩ := Prod.mk.inj outcome
  have confined : Confined host := (honest_standard 0).confined
  have begun : Begun os := .program 4 (.start host .unlimited) confined accepted
  have moment : Moment os s'.machine :=
    .between (.ran (.start host .unlimited) confined accepted ran)
  obtain ⟨_, _, _, acyclic, everywhere⟩ := structure_is_well_founded begun
  have stored : Stored s'.machine (.classObject c) := by
    obtain ⟨frame, _, found⟩ := List.exists_of_findSome?_eq_some named
    exact .named found
  exact ⟨s', c, ran, named, rfl, (everywhere s'.machine moment).2 c stored, acyclic c.body.id⟩

end Lox.Evaluation
