import Lox.Proofs.Evaluation.Anchoring
import Lox.Proofs.Evaluation.Sessions

/-! # Links throughout a session

  A session runs one program after another, each perhaps with another host, and between them
  names may be given to functions of the host. `Chronicle` lists the programs, and `records`
  has the links that were made in the course of any of them. As all programs draw on the same
  numbers, each link was made once (`Ordered.nested_unique`, `Ordered.built_unique`); and at
  every moment the machine holds its values by these links (`Moment.held`).
-/

namespace Lox.Evaluation

variable {host : Host} {m m' : Machine} {R R' : Records}

/-! ### More links -/

/-- Records that have all the links that others have. -/
structure Spans (R R' : Records) : Prop where
  nested : ∀ {frame outer}, R.nested frame outer → R'.nested frame outer
  built : ∀ {parent c}, R.built parent c → R'.built parent c

section

variable (more : Spans R R')
include more

theorem Rooted.extend {scope : Scope} (h : Rooted R scope) : Rooted R' scope := by
  induction h with
  | globals => exact .globals
  | inside nested less _ ih => exact .inside (more.nested nested) less ih

theorem ScopeHeld.extend {scope : Scope} (h : ScopeHeld R m scope) : ScopeHeld R' m scope :=
  ⟨h.rooted.extend more, h.below⟩

theorem BodyHeld.extend {body : ClassBody} (h : BodyHeld R m body) : BodyHeld R' m body :=
  ⟨h.1, fun name method found => (h.2 name method found).extend more⟩

theorem ClassHeld.extend {c : Class} (h : ClassHeld R m c) : ClassHeld R' m c := by
  induction c with
  | base body => exact ⟨more.built h.1, h.2.extend more⟩
  | derived body superclass ih =>
    obtain ⟨built, less, own, above⟩ := h
    exact ⟨more.built built, less, own.extend more, ih above⟩

theorem Held.extend {v : Value} (h : Held R m v) : Held R' m v := by
  cases v with
  | function closure => exact ScopeHeld.extend more h
  | classObject c => exact ClassHeld.extend more h
  | object o => exact ⟨h.1, h.2.extend more⟩
  | _ => trivial

theorem StoreHeld.extend (h : StoreHeld R m) : StoreHeld R' m :=
  ⟨fun frame name v found => (h.frames frame name v found).extend more,
    fun id record name v hrecord found =>
      (h.fields id record name v hrecord found).extend more⟩

theorem Anchored.extend {c : Config} (h : Anchored R host c) : Anchored R' host c := by
  refine ⟨h.store.extend more, h.scope.extend more, ?_, ?_, ?_⟩
  · obtain ⟨fuel, call, m⟩ := c
    cases call with
    | invoke =>
      exact ⟨h.operands.1.extend more, fun v hv => (h.operands.2 v hv).extend more⟩
    | enter => exact ⟨h.operands.1.extend more, fun v hv => (h.operands.2 v hv).extend more⟩
    | instantiate =>
      exact ⟨h.operands.1.extend more, fun v hv => (h.operands.2 v hv).extend more⟩
    | _ => trivial
  · exact fun c' frame outer reached nests => more.nested (h.nested c' frame outer reached nests)
  · exact fun c' parent built reached builds =>
      more.built (h.built c' parent built reached builds)

end

/-! ### Links that calls make -/

section

variable {c : Config} (confined : Confined host) (h : Anchored R host c)
include confined h

/-- What a call leaves behind. -/
theorem Anchored.after : Stays R c.machine (c.after host) := by
  obtain ⟨fuel, call, m⟩ := c
  have steady : SteadyAt R host fuel := steadyAt confined fuel
  cases call with
  | evaluate => exact (steady.evaluate h).stays
  | evaluateAll => exact (steady.evaluateAll h).stays
  | invoke => exact (steady.invoke h).stays
  | enter => exact (steady.enter h).stays
  | instantiate => exact (steady.instantiate h).stays
  | execute => exact (steady.execute h).stays
  | executeAll => exact (steady.executeAll h).stays
  | loop => exact (steady.loop h).stays
  | interpret => exact (steady_interpret confined h).stays

/-- A frame is opened in a scope whose frames were there before. -/
theorem Anchored.nests_less {frame : FrameId} {outer : Scope} (nests : Nests host c frame outer) :
    ∀ other ∈ outer, other < frame := by
  -- what evaluating a part comes to is held by the machine that it leaves
  have first : ∀ {fuel e m v m'}, Calls host c ⟨fuel, .evaluate e, m⟩ →
      evaluate host fuel e m = .ok v m' → Stays R m m' ∧ Held R m' v :=
    fun calls run => ((steadyAt confined _).evaluate (h.step calls (steadyAt confined _))).ok run
  cases nests with
  | block => exact h.scope.below
  | routine => exact h.operands.1.below
  | superLayer run => exact ((first .superclass run).1.scopeHeld h.scope).below
  | boundProperty run _ found => exact ((first .got run).2.2.findMethod found).below
  | boundSuper run scope =>
    obtain ⟨_, _, _, _, _, _, super, _, found, binding, same⟩ := ok_of_superMethod run
    cases same
    cases binding
    cases scope
    have above : ClassHeld R _ _ := h.store.getAt super
    exact (above.findMethod found).below
  | boundInitializer found => exact (h.operands.1.findMethod found).below

/-- A class is built on a class that was there before. -/
theorem Anchored.builds_less {parent built : Class} (builds : Builds host c (some parent) built) :
    parent.body.id < built.body.id := by
  obtain ⟨body, rfl, _, _, _, later⟩ := builds.body
  obtain ⟨_, _, _, does⟩ := builds
  cases does with
  | @derived fuel name superclass methods m m₁ m' _ _ run =>
    have evaluating := h.step .superclass (steadyAt confined fuel)
    obtain ⟨_, held⟩ := ((steadyAt confined fuel).evaluate evaluating).ok run
    -- the superclass had its identity when it was evaluated, the class gets its own after that
    have drawn : parent.body.id < m₁.serial := ClassHeld.id_lt held
    have ended : (Config.after host ⟨fuel, .evaluate superclass, m⟩).serial ≤ body.id :=
      later _ .superclass
    have same : Config.after host ⟨fuel, .evaluate superclass, m⟩ = m₁ := by
      show machineAfter (evaluate host fuel superclass m) = m₁
      rw [run]
      rfl
    rw [same] at ended
    exact Nat.lt_of_lt_of_le drawn ended

end

/-! ### Programs one after another -/

/-- A program that was started with a host. -/
structure Occasion where
  host : Host
  launch : Launch

/-- The machine that the program has left. -/
def Occasion.after (o : Occasion) : Machine :=
  o.launch.config.after o.host

/-- How a session came about with any hosts, and the programs that were started on the way, the
    last one first. Between programs, a global name may be given to data: to a function of the
    host, when one is registered. -/
inductive Chronicle : Session → List Occasion → Prop where
  | start (host : Host) (sink : Sink) : Chronicle (.start host sink) []
  | cleared {s : Session} {os : List Occasion} : Chronicle s os → Chronicle s.clearFlags os
  | given {s : Session} {os : List Occasion} {v : Value} (name : String) : Chronicle s os →
      IsData v → Chronicle { s with machine := s.machine.defineGlobal name v } os
  | refused {s s' : Session} {os : List Occasion} {host : Host} {fuel : Nat} {source : String}
      {problems : List Problem} : Chronicle s os → (s.prepare source).diagnostics ≠ [] →
      s.run host fuel source = some (problems, s') → Chronicle s' os
  | ran {s s' : Session} {os : List Occasion} {host : Host} {fuel : Nat} {source : String}
      {problems : List Problem} : Chronicle s os → Confined host →
      (s.prepare source).diagnostics = [] → s.run host fuel source = some (problems, s') →
      Chronicle s' (⟨host, launch s fuel source⟩ :: os)

/-- The programs that have been started, the last of which may not have ended. -/
inductive Begun : List Occasion → Prop where
  | never : Begun []
  | program {s : Session} {os : List Occasion} {host : Host} {source : String} (fuel : Nat) :
      Chronicle s os → Confined host → (s.prepare source).diagnostics = [] →
      Begun (⟨host, launch s fuel source⟩ :: os)

/-- The machines of a session: those between programs, and in the course of each program those
    on which calls are made and those that calls leave. -/
inductive Moment (os : List Occasion) : Machine → Prop where
  | between {s : Session} : Chronicle s os → Moment os s.machine
  | during {o : Occasion} {c : Config} : o ∈ os → Reaches o.host o.launch.config c →
      Moment os c.machine
  | after {o : Occasion} {c : Config} : o ∈ os → Reaches o.host o.launch.config c →
      Moment os (c.after o.host)

/-- The links that were made in the course of programs. -/
def records (os : List Occasion) : Records where
  nested frame outer :=
    ∃ o ∈ os, ∃ c, Reaches o.host o.launch.config c ∧ Nests o.host c frame outer
  built parent built :=
    ∃ o ∈ os, ∃ c, Reaches o.host o.launch.config c ∧ Builds o.host c parent built

theorem spans_cons (o : Occasion) (os : List Occasion) : Spans (records os) (records (o :: os)) :=
  ⟨fun ⟨o', mem, made⟩ => ⟨o', List.mem_cons_of_mem o mem, made⟩,
    fun ⟨o', mem, made⟩ => ⟨o', List.mem_cons_of_mem o mem, made⟩⟩

/-- Programs that were each started with a global frame, when the earlier ones had ended. -/
structure Ordered (os : List Occasion) : Prop where
  apart : os.Pairwise fun later earlier => Older earlier.after later.launch.machine
  outermost : ∀ o ∈ os, 0 < o.launch.machine.frames.records.size
  confined : ∀ o ∈ os, Confined o.host
  anchored : ∀ o ∈ os, Anchored (records os) o.host o.launch.config

section

variable {os : List Occasion} (h : Ordered os)
include h

/-- A number is drawn by one call of one program only. -/
theorem Ordered.once {mark : Machine → Nat} {Draws : Host → Config → Nat → Prop}
    (numbers : ∀ host, Numbers host mark (Draws host)) {o o' : Occasion} {c c' : Config}
    {n : Nat} (mem : o ∈ os) (mem' : o' ∈ os) (reached : Reaches o.host o.launch.config c)
    (reached' : Reaches o'.host o'.launch.config c') (draws : Draws o.host c n)
    (draws' : Draws o'.host c' n) : o = o' ∧ c = c' := by
  by_cases same : o = o'
  · subst same
    exact ⟨rfl, (numbers o.host).once reached reached' draws draws'⟩
  · have either : os.Pairwise fun o o' =>
        Older o'.after o.launch.machine ∨ Older o.after o'.launch.machine :=
      h.apart.imp Or.inl
    have symmetric : Std.Symm fun o o' : Occasion =>
        Older o'.after o.launch.machine ∨ Older o.after o'.launch.machine :=
      ⟨fun _ _ => Or.symm⟩
    obtain ⟨above, below⟩ : mark o.launch.machine ≤ n ∧ n < mark o.after :=
      (numbers o.host).within reached draws
    obtain ⟨above', below'⟩ : mark o'.launch.machine ≤ n ∧ n < mark o'.after :=
      (numbers o'.host).within reached' draws'
    -- one of the programs has ended when the other begins
    rcases either.forall mem mem' same with older | older
    · have later := (numbers o.host).grows older
      omega
    · have later := (numbers o.host).grows older
      omega

/-- A frame is opened in one scope only. -/
theorem Ordered.nested_unique {frame : FrameId} {outer outer' : Scope}
    (nested : (records os).nested frame outer) (nested' : (records os).nested frame outer') :
    outer = outer' := by
  obtain ⟨o, mem, c, reached, nests⟩ := nested
  obtain ⟨o', mem', c', reached', nests'⟩ := nested'
  obtain ⟨rfl, rfl⟩ := h.once nests_numbers mem mem' reached reached' ⟨_, nests⟩ ⟨_, nests'⟩
  exact (nests.unique nests').2

/-- An identity is that of one class, built on one superclass. -/
theorem Ordered.built_unique {parent parent' : Option Class} {c c' : Class}
    (built : (records os).built parent c) (built' : (records os).built parent' c')
    (same : c.body.id = c'.body.id) : parent = parent' ∧ c = c' := by
  obtain ⟨o, mem, config, reached, builds⟩ := built
  obtain ⟨o', mem', config', reached', builds'⟩ := built'
  obtain ⟨rfl, rfl⟩ := h.once builds_numbers mem mem' reached reached' ⟨_, _, builds, rfl⟩
    ⟨_, _, builds', same.symm⟩
  exact builds.unique builds'

theorem Ordered.reached {o : Occasion} {c : Config} (mem : o ∈ os)
    (reached : Reaches o.host o.launch.config c) : Anchored (records os) o.host c :=
  (h.anchored o mem).reach (h.confined o mem) reached

theorem Ordered.nested_less {frame : FrameId} {outer : Scope}
    (nested : (records os).nested frame outer) : ∀ other ∈ outer, other < frame := by
  obtain ⟨o, mem, c, reached, nests⟩ := nested
  exact (h.reached mem reached).nests_less (h.confined o mem) nests

theorem Ordered.built_less {parent c : Class} (built : (records os).built (some parent) c) :
    parent.body.id < c.body.id := by
  obtain ⟨o, mem, config, reached, builds⟩ := built
  exact (h.reached mem reached).builds_less (h.confined o mem) builds

/-- The global frame is inside no other. -/
theorem Ordered.globals_outermost (outer : Scope) : ¬(records os).nested 0 outer := by
  rintro ⟨o, mem, c, reached, nests⟩
  -- frames are opened when the global one is there
  have drawn := ((nests_numbers o.host).within reached ⟨outer, nests⟩).1
  exact absurd (h.outermost o mem) (Nat.not_lt.mpr drawn)

end

/-! ### Between programs -/

/-- What is true of a session between programs. -/
structure Chronicled (s : Session) (os : List Occasion) : Prop where
  ordered : Ordered os
  store : StoreHeld (records os) s.machine
  scope : s.machine.scope = Machine.globals
  outermost : 0 < s.machine.frames.records.size
  ended : ∀ o ∈ os, Older o.after s.machine

section

variable {s : Session} {os : List Occasion} {source : String} {fuel : Nat}

theorem serial_noteReferences {rs : List Binding.Reference} : ∀ {m : Machine},
    (m.noteReferences rs).serial = m.serial := by
  induction rs with
  | nil => exact rfl
  | cons r rest ih =>
    intro m
    rw [noteReferences_cons, ih]
    unfold Machine.noteReferences
    rw [List.foldl_cons, List.foldl_nil]
    cases r.hops <;> rfl

/-- Making a source text ready leaves all but the distances as it was. -/
theorem launch_machine (s : Session) (fuel : Nat) (source : String) :
    (launch s fuel source).machine.frames = s.machine.frames ∧
      (launch s fuel source).machine.fields = s.machine.fields ∧
      (launch s fuel source).machine.scope = s.machine.scope ∧
      (launch s fuel source).machine.serial = s.machine.serial := by
  obtain ⟨rs, _, session⟩ := prepare_session s source
  have machine : (launch s fuel source).machine = s.machine.noteReferences rs := by
    show (s.prepare source).session.machine = _
    rw [session]
  rw [machine]
  obtain ⟨frames, fields, scope⟩ : (s.machine.noteReferences rs).frames = s.machine.frames ∧ _ :=
    frames_noteReferences
  exact ⟨frames, fields, scope, serial_noteReferences⟩

theorem launch_older (s : Session) (fuel : Nat) (source : String) :
    Older s.machine (launch s fuel source).machine := by
  obtain ⟨frames, fields, _, serial⟩ := launch_machine s fuel source
  exact ⟨by rw [frames], by rw [fields], by rw [serial]⟩

/-- A program that is started is the last one. -/
theorem Chronicled.begin (h : Chronicled s os) (confined : Confined host) (fuel : Nat)
    (source : String) : Ordered (⟨host, launch s fuel source⟩ :: os) := by
  obtain ⟨frames, fields, scope, _⟩ := launch_machine s fuel source
  have older := launch_older s fuel source
  have outermost : 0 < (launch s fuel source).machine.frames.records.size := by
    rw [frames]
    exact h.outermost
  have more := spans_cons ⟨host, launch s fuel source⟩ os
  refine ⟨?_, ?_, ?_, ?_⟩
  · exact List.pairwise_cons.mpr
      ⟨fun o mem => (h.ended o mem).trans older, h.ordered.apart⟩
  · exact List.forall_mem_cons.mpr ⟨outermost, h.ordered.outermost⟩
  · exact List.forall_mem_cons.mpr ⟨confined, h.ordered.confined⟩
  · refine List.forall_mem_cons.mpr ⟨?_, fun o mem => (h.ordered.anchored o mem).extend more⟩
    refine ⟨(h.store.extend more).of_same older frames fields, ?_, trivial, ?_, ?_⟩
    · -- around a program there is the global frame only
      show ScopeHeld _ _ (launch s fuel source).machine.scope
      rw [scope, h.scope]
      refine ⟨.globals, ?_⟩
      intro frame hframe
      rw [List.mem_singleton.mp hframe]
      exact outermost
    · exact fun c frame outer reached nests => ⟨_, List.mem_cons_self .., c, reached, nests⟩
    · exact fun c parent built reached builds => ⟨_, List.mem_cons_self .., c, reached, builds⟩

/-- A run leaves the machine that the program has left. -/
theorem run_machine (accepted : (s.prepare source).diagnostics = []) {s' : Session}
    {problems : List Problem} (ran : s.run host fuel source = some (problems, s')) :
    s'.machine = (launch s fuel source).config.after host := by
  have yes : (s.prepare source).diagnostics.isEmpty = true := List.isEmpty_iff.mpr accepted
  rw [Session.run, if_pos yes, Session.execute] at ran
  show s'.machine = machineAfter
    (interpret host fuel (s.prepare source).program (s.prepare source).session.machine)
  split at ran
  · next m' run =>
    cases ran
    rw [run]
    rfl
  · next e m' run =>
    cases ran
    rw [run]
    rfl
  · cases ran

theorem chronicled_start (host : Host) (sink : Sink) : Chronicled (.start host sink) [] := by
  refine ⟨⟨.nil, nofun, nofun, nofun⟩, ⟨?_, ?_⟩, rfl, Nat.zero_lt_one, nofun⟩
  · intro frame name v found
    have found : (Machine.start host sink).frames.lookup? frame name = some v := found
    rw [Machine.start, Frames.child, lookup?_push] at found
    -- the only names are those of the functions of the host
    split at found
    · rcases foldl_set_get? (fun f : HostFunction => f.native.name) (fun f => .native f.native)
        found with no | ⟨f, _, rfl⟩
      · cases no
      · exact trivial
    · simp [Frames.lookup?, Frames.empty] at found
  · intro id record name v no _
    simp [Session.start, Machine.start] at no

/-- Every session that comes about is chronicled. -/
theorem Chronicle.chronicled (chronicle : Chronicle s os) : Chronicled s os := by
  induction chronicle with
  | start host sink => exact chronicled_start host sink
  | cleared _ ih => exact ⟨ih.ordered, ih.store, ih.scope, ih.outermost, ih.ended⟩
  | @given s os v name _ data ih =>
    -- a global name is put in the global frame
    have stays : Stays (records os) s.machine (s.machine.defineGlobal name v) :=
      .put ih.store data.held 0 name
    exact ⟨ih.ordered, stays.store, stays.scope.trans ih.scope,
      Nat.lt_of_lt_of_le ih.outermost stays.older.frames,
      fun o mem => (ih.ended o mem).trans stays.older⟩
  | @refused s s' os host fuel source problems _ complaints ran ih =>
    have no : ¬(s.prepare source).diagnostics.isEmpty = true :=
      fun empty => complaints (List.isEmpty_iff.mp empty)
    rw [Session.run, if_neg no] at ran
    cases ran
    obtain ⟨frames, fields, scope, _⟩ := launch_machine s fuel source
    have older := launch_older s fuel source
    exact ⟨ih.ordered, ih.store.of_same older frames fields, scope.trans ih.scope,
      Nat.lt_of_lt_of_le ih.outermost older.frames,
      fun o mem => (ih.ended o mem).trans older⟩
  | @ran s s' os host fuel source problems _ confined accepted ran ih =>
    -- however the run has ended, its machine is the one that the program has left
    have ordered := ih.begin confined fuel source
    have anchored := ordered.anchored _ (List.mem_cons_self ..)
    have stays := anchored.after confined
    obtain ⟨_, _, scope, _⟩ := launch_machine s fuel source
    have older := (launch_older s fuel source).trans stays.older
    rw [← run_machine accepted ran] at stays older
    refine ⟨ordered, stays.store, stays.scope.trans (scope.trans ih.scope),
      Nat.lt_of_lt_of_le ih.outermost older.frames, ?_⟩
    refine List.forall_mem_cons.mpr ⟨?_, fun o mem => (ih.ended o mem).trans older⟩
    rw [run_machine accepted ran]
    exact .refl _

theorem Begun.ordered (begun : Begun os) : Ordered os := by
  cases begun with
  | never => exact ⟨.nil, nofun, nofun, nofun⟩
  | program fuel chronicle confined _ => exact chronicle.chronicled.begin confined fuel _

/-- At every moment the machine holds its values, and the scope that it is in. -/
theorem Moment.held (begun : Begun os) (moment : Moment os m) :
    StoreHeld (records os) m ∧ ScopeHeld (records os) m m.scope := by
  cases moment with
  | between chronicle =>
    have h := chronicle.chronicled
    refine ⟨h.store, ?_⟩
    rw [h.scope]
    refine ⟨.globals, ?_⟩
    intro frame hframe
    rw [List.mem_singleton.mp hframe]
    exact h.outermost
  | during mem reached =>
    have anchored := begun.ordered.reached mem reached
    exact ⟨anchored.store, anchored.scope⟩
  | @after o c mem reached =>
    have anchored := begun.ordered.reached mem reached
    have stays := anchored.after (begun.ordered.confined o mem)
    exact ⟨stays.store, stays.scopeHeld anchored.scope⟩

end

end Lox.Evaluation
