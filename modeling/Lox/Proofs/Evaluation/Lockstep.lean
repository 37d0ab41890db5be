import Lox.Proofs.Evaluation.Places

/-! # Frames keep in step with scopes

  A call fits its machine when what it works on stands somewhere in the programs and the
  frames in view stand for the scopes around that place (`Fits`). A call that fits makes only
  calls that fit (`Fits.step`), and leaves a good machine behind (`soundAt`); the two are
  proved together, as a call is made on the machine that the calls before it have left.
-/

namespace Lox.Evaluation

open Binding Grammar

variable {L : Ledger} {host : Host} {m m' : Machine}

/-! ### Calls that fit -/

/-- What a call works on fits the machine. -/
def CallFits (L : Ledger) (m : Machine) : Call → Prop
  | .evaluate e => ExprPlaced L m e
  | .evaluateAll es => Placed L m (occurrencesAll es) ∧ Expr.allRespect es = true
  | .invoke f arguments _ => ValueFits L m f ∧ ∀ v ∈ arguments, ValueFits L m v
  | .enter closure arguments _ =>
    ClosureFits L m closure ∧ (∀ v ∈ arguments, ValueFits L m v) ∧
      arguments.length = closure.arity
  | .instantiate c arguments _ =>
    ClassFits L m c ∧ (∀ v ∈ arguments, ValueFits L m v) ∧ arguments.length = c.arity
  | .execute s => StmtPlaced L m s
  | .executeAll ss => BodyPlaced L m ss
  | .loop condition body => StmtPlaced L m (.whileLoop condition body)
  | .interpret ss => BodyPlaced L m ss

/-- A call fits a good machine, and the ledger has the frames that are opened and what is done
    from it on. -/
structure Fits (L : Ledger) (host : Host) (c : Config) : Prop where
  good : Good L c.machine
  call : CallFits L c.machine c.call
  witnessed : ∀ c' frame construct, Reaches host c c' → Opens host c' frame construct →
    L.created frame construct
  recorded : ∀ c' event, Reaches host c c' → Does host c' event → L.happened event

theorem Fits.into {c c' : Config} (fits : Fits L host c) (calls : Calls host c c')
    (good : Good L c'.machine) (call : CallFits L c'.machine c'.call) : Fits L host c' := by
  refine ⟨good, call, ?_, ?_⟩
  · intro c'' frame construct reached opens
    exact fits.witnessed c'' frame construct (.step calls reached) opens
  · intro c'' event reached does
    exact fits.recorded c'' event (.step calls reached) does

theorem Fits.opened {c : Config} (fits : Fits L host c) {frame : FrameId} {construct : Construct}
    (opens : Opens host c frame construct) : L.created frame construct :=
  fits.witnessed c frame construct (.refl c) opens

theorem Fits.did {c : Config} (fits : Fits L host c) {event : Event}
    (does : Does host c event) : L.happened event :=
  fits.recorded c event (.refl c) does

/-- What is known of the way control leaves a statement. -/
def FlowFits (L : Ledger) (m : Machine) : Flow → Prop
  | .next => True
  | .returned v => ValueFits L m v

theorem FlowFits.rescope {flow : Flow} (h : FlowFits L m flow) (scope : Scope) :
    FlowFits L { m with scope } flow := by
  have same : Grows m { m with scope } := .of_frames rfl
  cases flow with
  | next => trivial
  | returned v => exact ValueFits.grow h same

theorem FlowFits.result {flow : Flow} (h : FlowFits L m flow) : ValueFits L m flow.result := by
  cases flow with
  | next => trivial
  | returned v => exact h

/-- With some fuel, calls that fit are sound. -/
structure SoundAt (L : Ledger) (host : Host) (fuel : Nat) : Prop where
  evaluate : ∀ {e m}, Fits L host ⟨fuel, .evaluate e, m⟩ →
    Sound L m (evaluate host fuel e) fun v m' => ValueFits L m' v
  evaluateAll : ∀ {es m}, Fits L host ⟨fuel, .evaluateAll es, m⟩ →
    Sound L m (evaluateAll host fuel es) fun vs m' => ∀ v ∈ vs, ValueFits L m' v
  invoke : ∀ {f arguments paren m}, Fits L host ⟨fuel, .invoke f arguments paren, m⟩ →
    Sound L m (invoke host fuel f arguments paren) fun v m' => ValueFits L m' v
  enter : ∀ {closure arguments paren m}, Fits L host ⟨fuel, .enter closure arguments paren, m⟩ →
    Sound L m (enter host fuel closure arguments paren) fun v m' => ValueFits L m' v
  instantiate : ∀ {c arguments paren m}, Fits L host ⟨fuel, .instantiate c arguments paren, m⟩ →
    Sound L m (instantiate host fuel c arguments paren) fun v m' => ValueFits L m' v
  execute : ∀ {s m}, Fits L host ⟨fuel, .execute s, m⟩ →
    Sound L m (execute host fuel s) fun flow m' => FlowFits L m' flow ∧ Binds m' m'.scope s
  executeAll : ∀ {ss m}, Fits L host ⟨fuel, .executeAll ss, m⟩ →
    Sound L m (executeAll host fuel ss) fun flow m' => FlowFits L m' flow
  loop : ∀ {condition body m}, Fits L host ⟨fuel, .loop condition body, m⟩ →
    Sound L m (loop host fuel condition body) fun flow m' => FlowFits L m' flow

/-! ### One step -/

section

variable {e e' : Expr} {es : List Expr} {fuel fuel' : Nat}

/-- Where an expression has operators where operators should be, so have its parts. -/
theorem respects_part {m'' : Machine}
    (calls : Calls host ⟨fuel, .evaluate e, m⟩ ⟨fuel', .evaluate e', m''⟩)
    (respects : e.respects = true) : e'.respects = true := by
  cases calls <;> simp_all [Expr.respects]

theorem respects_arguments {callee : Expr} {paren : Token}
    (respects : (Expr.call callee paren es).respects = true) : Expr.allRespect es = true := by
  simp_all [Expr.respects]

/-- Evaluating a part of an expression, after some other parts. -/
theorem Fits.part (fits : Fits L host ⟨fuel, .evaluate e, m⟩) (kept : Kept L m m')
    (calls : Calls host ⟨fuel, .evaluate e, m⟩ ⟨fuel', .evaluate e', m'⟩)
    (sub : ∀ o ∈ occurrences e', o ∈ occurrences e) :
    Fits L host ⟨fuel', .evaluate e', m'⟩ := by
  have placed : ExprPlaced L m e := fits.call
  exact fits.into calls kept.good
    ⟨(placed.1.keep kept).sub sub, respects_part calls placed.2⟩

/-- What evaluating a part of an expression leaves for the part after it. -/
theorem Fits.evaluated {v : Value} (fits : Fits L host ⟨fuel, .evaluate e, m⟩)
    (sound : SoundAt L host fuel')
    (calls : Calls host ⟨fuel, .evaluate e, m⟩ ⟨fuel', .evaluate e', m⟩)
    (sub : ∀ o ∈ occurrences e', o ∈ occurrences e)
    (run : evaluate host fuel' e' m = .ok v m') : Kept L m m' ∧ ValueFits L m' v :=
  (sound.evaluate (fits.part (.refl fits.good) calls sub)).ok run

end

/-- Evaluating the arguments of a call, after its callee. -/
theorem Fits.arguments {callee : Expr} {paren : Token} {arguments : List Expr} {fuel : Nat}
    (fits : Fits L host ⟨fuel + 1, .evaluate (.call callee paren arguments), m⟩)
    (kept : Kept L m m') {f : Value} (run : evaluate host fuel callee m = .ok f m') :
    Fits L host ⟨fuel, .evaluateAll arguments, m'⟩ := by
  have placed : ExprPlaced L m (.call callee paren arguments) := fits.call
  exact fits.into (.arguments run) kept.good
    ⟨(placed.1.keep kept).sub fun o ho => List.mem_append_right (occurrences callee) ho,
      respects_arguments placed.2⟩

/-- The calls that evaluating an expression makes. -/
theorem step_evaluate {e : Expr} {fuel : Nat} {c : Config}
    (fits : Fits L host ⟨fuel, .evaluate e, m⟩) (calls : Calls host ⟨fuel, .evaluate e, m⟩ c)
    (sound : SoundAt L host c.fuel) : Fits L host c := by
  have same : Kept L m m := .refl fits.good
  -- the first part is called on the machine itself, the others on what those before have left
  cases calls with
  | grouping => exact fits.part same .grouping fun _ ho => ho
  | unary => exact fits.part same .unary fun _ ho => ho
  | binaryLeft => exact fits.part same .binaryLeft fun o ho => List.mem_append_left _ ho
  | @binaryRight _ left right _ _ _ _ run =>
    obtain ⟨kept, _⟩ := fits.evaluated sound .binaryLeft
      (fun o ho => List.mem_append_left (occurrences right) ho) run
    exact fits.part kept (.binaryRight run)
      fun o ho => List.mem_append_right (occurrences left) ho
  | logicalLeft => exact fits.part same .logicalLeft fun o ho => List.mem_append_left _ ho
  | @logicalRight _ left right _ _ _ _ run undecided =>
    obtain ⟨kept, _⟩ := fits.evaluated sound .logicalLeft
      (fun o ho => List.mem_append_left (occurrences right) ho) run
    exact fits.part kept (.logicalRight run undecided)
      fun o ho => List.mem_append_right (occurrences left) ho
  | assigned => exact fits.part same .assigned fun o ho => List.mem_append_left _ ho
  | callee => exact fits.part same .callee fun o ho => List.mem_append_left _ ho
  | @arguments _ callee _ arguments _ _ _ run =>
    obtain ⟨kept, _⟩ := fits.evaluated sound .callee
      (fun o ho => List.mem_append_left (occurrencesAll arguments) ho) run
    exact fits.arguments kept run
  | @invoke _ callee _ arguments _ _ _ _ _ run run' =>
    obtain ⟨kept, hf⟩ := fits.evaluated sound .callee
      (fun o ho => List.mem_append_left (occurrencesAll arguments) ho) run
    obtain ⟨kept', hvalues⟩ := (sound.evaluateAll (fits.arguments kept run)).ok run'
    exact fits.into (.invoke run run') kept'.good ⟨hf.grow kept'.grows, hvalues⟩
  | got => exact fits.part same .got fun _ ho => ho
  | setObject => exact fits.part same .setObject fun o ho => List.mem_append_right _ ho
  | @setValue _ object value _ _ _ _ run =>
    obtain ⟨kept, _⟩ := fits.evaluated sound .setObject
      (fun o ho => List.mem_append_right (occurrences value) ho) run
    exact fits.part kept (.setValue run)
      fun o ho => List.mem_append_left (occurrences object) ho

/-- The calls that evaluating arguments makes. -/
theorem step_evaluateAll {es : List Expr} {fuel : Nat} {c : Config}
    (fits : Fits L host ⟨fuel, .evaluateAll es, m⟩)
    (calls : Calls host ⟨fuel, .evaluateAll es, m⟩ c) (sound : SoundAt L host c.fuel) :
    Fits L host c := by
  obtain ⟨placed, respects⟩ : Placed L m (occurrencesAll es) ∧ Expr.allRespect es = true :=
    fits.call
  cases calls with
  | @first _ argument rest =>
    obtain ⟨here, _⟩ := Bool.and_eq_true_iff.mp respects
    exact fits.into .first fits.good
      ⟨placed.sub fun o ho => List.mem_append_left (occurrencesAll rest) ho, here⟩
  | @others _ argument rest _ _ _ run =>
    obtain ⟨here, others⟩ := Bool.and_eq_true_iff.mp respects
    have first := fits.into .first fits.good
      ⟨placed.sub fun o ho => List.mem_append_left (occurrencesAll rest) ho, here⟩
    obtain ⟨kept, _⟩ := (sound.evaluate first).ok run
    exact fits.into (.others run) kept.good
      ⟨(placed.keep kept).sub fun o ho => List.mem_append_right (occurrences argument) ho, others⟩

/-- A function runs in a frame of its own, which has its parameters. -/
theorem body_placed {closure : Closure} (fits : ClosureFits L m closure) {arguments : List Value}
    (enough : arguments.length = closure.arity)
    (created : L.created m.frames.records.size (.routine closure.declaration))
    (entered : L.happened (.entered closure m.frames.records.size)) :
    BodyPlaced L (activation closure arguments m) closure.declaration.body := by
  obtain ⟨isMethod, outer, sites, legible, standing, origin⟩ := fits
  refine ⟨.routine isMethod closure.declaration, [], outer, ?_,
    legible.body, ?_, (origin.grow (.child rfl)).enter entered⟩
  · intro site hsite
    apply sites
    rw [functionSites_eq, List.mem_append]
    exact .inr hsite
  · apply standing.child rfl created
    intro name hname
    -- before its first statement, a body has the parameters and nothing else
    apply argumentFrame_has enough
    simpa [declaredNames] using hname

theorem kept_activation (good : Good L m) {arguments : List Value}
    (values : ∀ v ∈ arguments, ValueFits L m v) (closure : Closure) :
    Kept L m { activation closure arguments m with scope := m.scope } :=
  .child good (fun _ _ found => argumentFrame_fits values found) rfl rfl rfl rfl

/-- A block runs in a frame of its own. -/
theorem StmtPlaced.block {body : List Stmt} (h : StmtPlaced L m (.block body))
    (created : L.created m.frames.records.size (.block body)) :
    BodyPlaced L (blockEntry m) body := by
  obtain ⟨outside, before, current, outer, sites, formed, standing, whole, housed⟩ := h
  refine ⟨.block body, [], .within outside before current :: outer, sites, formed, ?_,
    .block (housed.grow (.child rfl))⟩
  -- a block declares nothing in the scope around it, and so does what it is part of
  have around : Standing L m m.scope (Path.scopes (.within outside before current :: outer)) := by
    rw [scopes_within, scope?_append_none]
    · exact standing
    · rcases whole with rfl | ⟨_, none⟩
      · rfl
      · exact none
  exact around.child rfl created fun _ no => absurd no List.not_mem_nil

theorem kept_blockEntry (good : Good L m) : Kept L m { blockEntry m with scope := m.scope } := by
  have nothing : ∀ name v, (Bindings.empty : Bindings Value).get? name = some v →
      ValueFits L m v := fun _ _ no => nomatch no
  exact .child good nothing rfl rfl rfl rfl

/-- The calls that calling a value makes. -/
theorem step_invoke {f : Value} {arguments : List Value} {paren : Token} {fuel : Nat} {c : Config}
    (fits : Fits L host ⟨fuel, .invoke f arguments paren, m⟩)
    (calls : Calls host ⟨fuel, .invoke f arguments paren, m⟩ c) : Fits L host c := by
  obtain ⟨hf, values⟩ : ValueFits L m f ∧ ∀ v ∈ arguments, ValueFits L m v := fits.call
  cases calls with
  | function enough => exact fits.into (.function enough) fits.good ⟨hf, values, enough⟩
  | classObject enough => exact fits.into (.classObject enough) fits.good ⟨hf, values, enough⟩

/-- The call that entering a function makes. -/
theorem step_enter {closure : Closure} {arguments : List Value} {paren : Token} {fuel : Nat}
    {c : Config} (fits : Fits L host ⟨fuel, .enter closure arguments paren, m⟩)
    (calls : Calls host ⟨fuel, .enter closure arguments paren, m⟩ c) : Fits L host c := by
  obtain ⟨hclosure, values, enough⟩ : ClosureFits L m closure ∧
    (∀ v ∈ arguments, ValueFits L m v) ∧ arguments.length = closure.arity := fits.call
  cases calls with
  | body =>
    exact fits.into .body ((kept_activation fits.good values closure).good.rescope _)
      (body_placed hclosure enough (fits.opened .routine) (fits.did .entered))

/-- The call that making an instance makes: its initializer, bound to it. -/
theorem step_instantiate {ofClass : Class} {arguments : List Value} {paren : Token} {fuel : Nat}
    {c : Config} (fits : Fits L host ⟨fuel, .instantiate ofClass arguments paren, m⟩)
    (calls : Calls host ⟨fuel, .instantiate ofClass arguments paren, m⟩ c) : Fits L host c := by
  obtain ⟨hclass, values, enough⟩ : ClassFits L m ofClass ∧
    (∀ v ∈ arguments, ValueFits L m v) ∧ arguments.length = ofClass.arity := fits.call
  cases calls with
  | initializer made found bound =>
    obtain ⟨kept, same, frames⟩ := (sound_newInstance fits.good ofClass).ok made
    have hclass' := hclass.grow kept.grows
    have hmethod := hclass'.findMethod found
    -- the instance is there before the layer of its `this`, and making it opens no frame
    have opened : L.created _ (.thisLayer _) := fits.opened (.boundInitializer found)
    rw [← frames] at opened
    rw [← same] at hclass'
    obtain ⟨kept', hbound, declaration⟩ := (sound_bindMethod kept.good hmethod hclass' opened
      fun c m' run => fits.did (.boundInitializer made found run)).ok bound
    refine fits.into (.initializer made found bound) kept'.good ⟨hbound, ?_, ?_⟩
    · exact fun v hv => (values v hv).grow (kept.trans kept').grows
    · unfold Closure.arity
      rw [enough, declaration, Class.arity, found]
      rfl

/-- The calls that running a statement makes. -/
theorem step_execute (lawful : Lawful L) {s : Stmt} {fuel : Nat} {c : Config}
    (fits : Fits L host ⟨fuel, .execute s, m⟩) (calls : Calls host ⟨fuel, .execute s, m⟩ c)
    (sound : SoundAt L host c.fuel) : Fits L host c := by
  have placed : StmtPlaced L m s := fits.call
  cases calls with
  | expression =>
    exact fits.into .expression fits.good
      (placed.expr rfl (fun _ _ hsite => hsite) fun legible => legible)
  | printed =>
    exact fits.into .printed fits.good
      (placed.expr rfl (fun _ _ hsite => hsite) fun legible => legible.2)
  | declared => exact fits.into .declared fits.good placed.initializer
  | block =>
    exact fits.into .block ((kept_blockEntry fits.good).good.rescope _)
      (placed.block (fits.opened .block))
  | condition => exact fits.into .condition fits.good placed.condition
  | thenBranch run holds =>
    have first := fits.into .condition fits.good placed.condition
    obtain ⟨kept, _⟩ := (sound.evaluate first).ok run
    exact fits.into (.thenBranch run holds) kept.good (placed.keep kept).thenBranch
  | elseBranch run fails =>
    have first := fits.into .condition fits.good placed.condition
    obtain ⟨kept, _⟩ := (sound.evaluate first).ok run
    exact fits.into (.elseBranch run fails) kept.good (placed.keep kept).elseBranch
  | whileLoop => exact fits.into .whileLoop fits.good placed
  | returned =>
    exact fits.into .returned fits.good
      (placed.expr rfl (fun _ _ hsite => List.mem_cons_of_mem _ hsite)
        fun legible => legible.2 _ rfl)
  | superclass => exact fits.into .superclass fits.good (placed.superclass lawful)

/-- The calls that running statements makes. -/
theorem step_executeAll {ss : List Stmt} {fuel : Nat} {c : Config}
    (fits : Fits L host ⟨fuel, .executeAll ss, m⟩)
    (calls : Calls host ⟨fuel, .executeAll ss, m⟩ c) (sound : SoundAt L host c.fuel) :
    Fits L host c := by
  have placed : BodyPlaced L m ss := fits.call
  cases calls with
  | firstOf => exact fits.into .firstOf fits.good placed.first
  | restOf run =>
    have first := fits.into .firstOf fits.good placed.first
    obtain ⟨kept, _, binds⟩ := (sound.execute first).ok run
    exact fits.into (.restOf run) kept.good (placed.rest kept binds)

/-- The calls that a loop makes. -/
theorem step_loop {condition : Expr} {body : Stmt} {fuel : Nat} {c : Config}
    (fits : Fits L host ⟨fuel, .loop condition body, m⟩)
    (calls : Calls host ⟨fuel, .loop condition body, m⟩ c) (sound : SoundAt L host c.fuel) :
    Fits L host c := by
  have placed : StmtPlaced L m (.whileLoop condition body) := fits.call
  cases calls with
  | loopCondition => exact fits.into .loopCondition fits.good placed.loopCondition
  | loopBody run holds =>
    have first := fits.into .loopCondition fits.good placed.loopCondition
    obtain ⟨kept, _⟩ := (sound.evaluate first).ok run
    exact fits.into (.loopBody run holds) kept.good (placed.keep kept).loopBody
  | again run holds run' =>
    have first := fits.into .loopCondition fits.good placed.loopCondition
    obtain ⟨kept, _⟩ := (sound.evaluate first).ok run
    have second := fits.into (.loopBody run holds) kept.good (placed.keep kept).loopBody
    obtain ⟨kept', _⟩ := (sound.execute second).ok run'
    exact fits.into (.again run holds run') kept'.good (placed.keep (kept.trans kept'))

/-- The calls that running a program makes. -/
theorem step_interpret {ss : List Stmt} {fuel : Nat} {c : Config}
    (fits : Fits L host ⟨fuel, .interpret ss, m⟩)
    (calls : Calls host ⟨fuel, .interpret ss, m⟩ c) (sound : SoundAt L host c.fuel) :
    Fits L host c := by
  have placed : BodyPlaced L m ss := fits.call
  cases calls with
  | statement => exact fits.into .statement fits.good placed.first
  | statements run =>
    have first := fits.into .statement fits.good placed.first
    obtain ⟨kept, _, binds⟩ := (sound.execute first).ok run
    exact fits.into (.statements run) kept.good (placed.rest kept binds)

/-- A call that fits makes only calls that fit. -/
theorem Fits.step (lawful : Lawful L) {c c' : Config} (fits : Fits L host c)
    (calls : Calls host c c') (sound : SoundAt L host c'.fuel) : Fits L host c' := by
  obtain ⟨fuel, call, m⟩ := c
  cases call with
  | evaluate => exact step_evaluate fits calls sound
  | evaluateAll => exact step_evaluateAll fits calls sound
  | invoke => exact step_invoke fits calls
  | enter => exact step_enter fits calls
  | instantiate => exact step_instantiate fits calls
  | execute => exact step_execute lawful fits calls sound
  | executeAll => exact step_executeAll fits calls sound
  | loop => exact step_loop fits calls sound
  | interpret => exact step_interpret fits calls sound

/-! ### Whole runs -/

section

variable {fuel : Nat}

theorem sound_evaluate (lawful : Lawful L) (sound : SoundAt L host fuel) {e : Expr}
    (fits : Fits L host ⟨fuel + 1, .evaluate e, m⟩) :
    Sound L m (evaluate host (fuel + 1) e) fun v m' => ValueFits L m' v := by
  have placed : ExprPlaced L m e := fits.call
  -- a call at the end, or one whose result is the result
  have into : ∀ {e' m'}, Calls host ⟨fuel + 1, .evaluate e, m⟩ ⟨fuel, .evaluate e', m'⟩ →
      Sound L m' (evaluate host fuel e') fun v m'' => ValueFits L m'' v :=
    fun calls => sound.evaluate (fits.step lawful calls sound)
  cases e with
  | literal value =>
    apply sound_pure fits.good
    cases value <;> trivial
  | grouping inner => exact into .grouping
  | unary operator right =>
    rw [evaluate]
    apply sound_bind (into .unary)
    intro v m' _ kept _
    have known : isPrefixOperator operator.kind = true := by
      have respects := placed.2
      simp only [Expr.respects, Bool.and_eq_true] at respects
      exact respects.1.1
    exact (applyUnary_data operator v).sound (applyUnary_benign known v) kept.good
  | binary left operator right =>
    rw [evaluate]
    apply sound_bind (into .binaryLeft)
    intro a m' run kept _
    apply sound_bind (into (.binaryRight run))
    intro b m'' _ kept' _
    have known : 3 ≤ (precedence? operator.kind).getD 0 := by
      have respects := placed.2
      simp only [Expr.respects, Bool.and_eq_true, decide_eq_true_eq] at respects
      exact respects.1.1.2
    exact (applyBinary_data operator a b).sound (applyBinary_benign known a b) kept'.good
  | logical left operator right =>
    rw [evaluate]
    apply sound_bind (into .logicalLeft)
    intro a m' run kept ha
    -- the right operand is evaluated only where the left one leaves it open
    by_cases decided : decides operator a = true
    · rw [if_pos decided]
      exact sound_pure kept.good ha
    · rw [if_neg decided]
      exact into (.logicalRight run (Bool.eq_false_iff.mpr decided))
  | var node name => exact sound_readVariable fits.good node (placed.variable lawful)
  | assign node name value =>
    rw [evaluate]
    apply sound_bind (into .assigned)
    intro v m' _ kept hv
    apply sound_bind (sound_assignVariable kept.good node (placed.assigned lawful) hv)
    intro _ m'' _ kept' _
    exact sound_pure kept'.good (hv.grow kept'.grows)
  | call callee paren arguments =>
    rw [evaluate]
    apply sound_bind (into .callee)
    intro f m' run kept _
    apply sound_bind (sound.evaluateAll (fits.step lawful (.arguments run) sound))
    intro values m'' run' kept' _
    exact sound.invoke (fits.step lawful (.invoke run run') sound)
  | get object name =>
    rw [evaluate]
    apply sound_bind (into .got)
    intro v m' run kept hv
    cases v with
    | object target =>
      apply sound_property kept.good hv
      intro method field found
      exact ⟨fits.opened (.boundProperty run field found),
        fun c m'' bound => fits.did (.boundProperty run field found bound)⟩
    | _ => exact sound_fail kept.good name not_false
  | set object name value =>
    rw [evaluate]
    apply sound_bind (into .setObject)
    intro v m' run kept hv
    cases v with
    | object target =>
      apply sound_bind (into (.setValue run))
      intro w m'' _ kept' hw
      apply sound_bind (sound_setField kept'.good target name.lexeme hw)
      intro _ m₃ _ kept₃ _
      exact sound_pure kept₃.good (hw.grow kept₃.grows)
    | _ => exact sound_fail kept.good name not_false
  | thisRef node keyword =>
    obtain ⟨_, _, _, noted, found⟩ := Placed.this lawful fits.good placed.1
    exact .of_ok (readVariable_eq noted found) (.refl fits.good) (fits.good.getAt found)
  | superRef node keyword method =>
    obtain ⟨_, _, _, _, _, noted, super, this⟩ := Placed.super lawful fits.good placed.1
    apply sound_superMethod fits.good noted super this
    · intro bound m' run
      exact fits.opened (.boundSuper run)
    · intro found c m' own bound
      exact fits.did (.boundSuper noted super this own bound)

theorem sound_evaluateAll (lawful : Lawful L) (sound : SoundAt L host fuel) {es : List Expr}
    (fits : Fits L host ⟨fuel + 1, .evaluateAll es, m⟩) :
    Sound L m (evaluateAll host (fuel + 1) es) fun vs m' => ∀ v ∈ vs, ValueFits L m' v := by
  cases es with
  | nil => exact sound_pure fits.good fun _ no => nomatch no
  | cons argument rest =>
    rw [evaluateAll]
    apply sound_bind (sound.evaluate (fits.step lawful .first sound))
    intro v m' run kept hv
    apply sound_bind (sound.evaluateAll (fits.step lawful (.others run) sound))
    intro vs m'' _ kept' hvs
    apply sound_pure kept'.good
    intro w hw
    rcases List.mem_cons.mp hw with rfl | hw
    · exact hv.grow kept'.grows
    · exact hvs w hw

theorem sound_invoke (honest : Honest host) (lawful : Lawful L) (sound : SoundAt L host fuel)
    {f : Value} {arguments : List Value} {paren : Token}
    (fits : Fits L host ⟨fuel + 1, .invoke f arguments paren, m⟩) :
    Sound L m (invoke host (fuel + 1) f arguments paren) fun v m' => ValueFits L m' v := by
  cases f with
  | function closure =>
    rw [invoke]
    apply sound_bind (sound_checkArity fits.good paren closure.arity arguments.length)
    intro _ m' _ _ enough
    obtain ⟨rfl, enough⟩ := enough
    exact sound.enter (fits.step lawful (.function enough) sound)
  | native called =>
    rw [invoke]
    apply sound_bind (sound_checkArity fits.good paren called.arity arguments.length)
    intro _ m' _ _ enough
    obtain ⟨rfl, _⟩ := enough
    exact sound_callHost honest fits.good called fits.call.2 paren
  | classObject c =>
    rw [invoke]
    apply sound_bind (sound_checkArity fits.good paren c.arity arguments.length)
    intro _ m' _ _ enough
    obtain ⟨rfl, enough⟩ := enough
    exact sound.instantiate (fits.step lawful (.classObject enough) sound)
  | _ => exact sound_fail fits.good paren not_false

theorem sound_enter (lawful : Lawful L) (sound : SoundAt L host fuel) {closure : Closure}
    {arguments : List Value} {paren : Token}
    (fits : Fits L host ⟨fuel + 1, .enter closure arguments paren, m⟩) :
    Sound L m (enter host (fuel + 1) closure arguments paren) fun v m' => ValueFits L m' v := by
  have values : ∀ v ∈ arguments, ValueFits L m v := fits.call.2.1
  rw [enter]
  have opening : Sound L m (Run.child closure.scope
      (argumentFrame closure.declaration.params arguments)) fun scope m' =>
      { m' with scope } = activation closure arguments m :=
    .of_ok rfl (kept_activation fits.good values closure) rfl
  apply sound_bind opening
  intro scope m₁ _ kept₁ same
  have body := sound.executeAll (fits.step lawful .body sound)
  rw [← same] at body
  apply sound_bind (sound_within body fun flow m' here h => h.rescope here)
  intro flow m₂ _ kept₂ hflow
  -- an initializer gives its `this`, whatever its body has returned
  by_cases initializes : closure.isInitializer = true
  · rw [if_pos initializes]
    have hclosure := fits.call.1.grow (kept₁.trans kept₂).grows
    obtain ⟨target, found⟩ := hclosure.initializer initializes
    have run : Run.readAt closure.scope 0 (.synthetic "this" paren.line) m₂ =
        .ok (.object target) m₂ := by
      simp only [readAt_apply, Token.synthetic, found]
    exact .of_ok run (.refl kept₂.good) (kept₂.good.getAt found)
  · rw [if_neg initializes]
    exact sound_pure kept₂.good hflow.result

theorem sound_instantiate (lawful : Lawful L) (sound : SoundAt L host fuel) {c : Class}
    {arguments : List Value} {paren : Token}
    (fits : Fits L host ⟨fuel + 1, .instantiate c arguments paren, m⟩) :
    Sound L m (instantiate host (fuel + 1) c arguments paren) fun v m' => ValueFits L m' v := by
  have hclass : ClassFits L m c := fits.call.1
  rw [instantiate]
  apply sound_bind (sound_newInstance fits.good c)
  intro target m₁ made kept₁ holds
  obtain ⟨rfl, frames⟩ := holds
  have hclass₁ := hclass.grow kept₁.grows
  cases found : target.ofClass.initializer? with
  | none => exact sound_pure kept₁.good hclass₁
  | some initializer =>
    have opened : L.created m₁.frames.records.size (.thisLayer initializer.declaration) := by
      rw [frames]
      exact fits.opened (.boundInitializer found)
    apply sound_bind (sound_bindMethod kept₁.good (hclass₁.findMethod found) hclass₁ opened
      fun c m' run => fits.did (.boundInitializer made found run))
    intro bound m₂ hbound kept₂ _
    apply sound_bind (sound.enter (fits.step lawful (.initializer made found hbound) sound))
    intro _ m₃ _ kept₃ _
    exact sound_pure kept₃.good (hclass₁.grow (kept₂.trans kept₃).grows)

/-- A statement that declares nothing only has to leave the right value. -/
theorem sound_quiet {x : Run Flow} {s : Stmt} (quiet : declared? s = none)
    (h : Sound L m x fun flow m' => FlowFits L m' flow) :
    Sound L m x fun flow m' => FlowFits L m' flow ∧ Binds m' m'.scope s := by
  refine h.weaken fun flow m' _ fit => ⟨fit, ?_⟩
  intro name declares
  rw [quiet] at declares
  cases declares

/-- Of the branches only the one that is taken is executed. -/
theorem sound_ifElse (lawful : Lawful L) (sound : SoundAt L host fuel) {condition : Expr}
    {thenBranch : Stmt} {elseBranch : Option Stmt}
    (fits : Fits L host ⟨fuel + 1, .execute (.ifElse condition thenBranch elseBranch), m⟩) :
    Sound L m (execute host (fuel + 1) (.ifElse condition thenBranch elseBranch))
      fun flow m' => FlowFits L m' flow := by
  apply sound_bind (sound.evaluate (fits.step lawful .condition sound))
  intro c m' run kept _
  by_cases holds : c.isTruthy = true
  · rw [if_pos holds]
    have branch := sound.execute (fits.step lawful (.thenBranch run holds) sound)
    exact branch.weaken fun _ _ _ fit => fit.1
  · rw [if_neg holds]
    cases elseBranch with
    | none => exact sound_pure kept.good trivial
    | some stmt =>
      have fails := Bool.eq_false_iff.mpr holds
      have branch := sound.execute (fits.step lawful (.elseBranch run fails) sound)
      exact branch.weaken fun _ _ _ fit => fit.1

/-- A superclass is evaluated first, and then the class is declared in the same frame. -/
theorem sound_classDecl (lawful : Lawful L) (sound : SoundAt L host fuel) {name : Token}
    {superclass : Option Expr} {methods : List FunctionDecl}
    (fits : Fits L host ⟨fuel + 1, .execute (.classDecl name superclass methods), m⟩) :
    Sound L m (execute host (fuel + 1) (.classDecl name superclass methods)) fun flow m' =>
      FlowFits L m' flow ∧ Binds m' m'.scope (.classDecl name superclass methods) := by
  have placed : StmtPlaced L m (.classDecl name superclass methods) := fits.call
  cases superclass with
  | none =>
    obtain ⟨body, before, outer, sites, formed, standing, housed⟩ := placed.declaring rfl
    have declaring : Sound L m (declareClass name none methods) fun _ m' =>
        Binds m' m'.scope (.classDecl name none methods) := by
      refine sound_declareClass fits.good rfl standing housed (placed.plain lawful rfl)
        (fun site hsite => sites site (List.mem_append_right _ hsite))
        (fun method mem => routineLegible_of_mem mem formed.1.2 formed.2.2.2) nofun nofun ?_
      exact fun built m' run named => fits.did (does_declared_base run named)
    rw [execute]
    apply sound_bind declaring
    intro _ m' _ kept binds
    exact sound_pure kept.good ⟨trivial, binds⟩
  | some parent =>
    rw [execute]
    apply sound_bind (sound.evaluate (fits.step lawful .superclass sound))
    intro v m₁ run kept₁ hv
    apply sound_bind (sound_asClass kept₁.good (superclassToken name parent) v)
    intro c m' _ _ isClass
    obtain ⟨rfl, rfl⟩ := isClass
    have placed' := placed.keep kept₁
    obtain ⟨body, before, outer, sites, formed, standing, housed⟩ := placed'.declaring rfl
    have declaring : Sound L m' (declareClass name (some c) methods) fun _ m'' =>
        Binds m'' m''.scope (.classDecl name (some parent) methods) := by
      refine sound_declareClass kept₁.good rfl standing housed (placed'.plain lawful rfl)
        (fun site hsite => sites site (List.mem_append_right _ hsite))
        (fun method mem => routineLegible_of_mem mem formed.1.2 formed.2.2.2) ?_ ?_ ?_
      · intro c' same
        cases same
        exact hv
      · intro _
        -- the layer of `super` is opened once the superclass is known to be a class
        exact fits.opened (.superLayer run)
      · exact fun built m'' run' named => fits.did (does_declared_derived run run' named)
    apply sound_bind declaring
    intro _ m'' _ kept binds
    exact sound_pure kept.good ⟨trivial, binds⟩

theorem sound_execute (lawful : Lawful L) (sound : SoundAt L host fuel) {s : Stmt}
    (fits : Fits L host ⟨fuel + 1, .execute s, m⟩) :
    Sound L m (execute host (fuel + 1) s) fun flow m' =>
      FlowFits L m' flow ∧ Binds m' m'.scope s := by
  have placed : StmtPlaced L m s := fits.call
  have into : ∀ {e}, Calls host ⟨fuel + 1, .execute s, m⟩ ⟨fuel, .evaluate e, m⟩ →
      Sound L m (evaluate host fuel e) fun v m' => ValueFits L m' v :=
    fun calls => sound.evaluate (fits.step lawful calls sound)
  cases s with
  | expression value =>
    apply sound_quiet rfl
    rw [execute]
    apply sound_bind (into .expression)
    intro _ m' _ kept _
    exact sound_pure kept.good trivial
  | print keyword value =>
    apply sound_quiet rfl
    rw [execute]
    apply sound_bind (into .printed)
    intro v m' _ kept _
    apply sound_bind (sound_printLine kept.good keyword v.text)
    intro _ m'' _ kept' _
    exact sound_pure kept'.good trivial
  | varDecl name initializer =>
    cases initializer with
    | none =>
      rw [execute]
      have nothing : ValueFits L m .nil := trivial
      apply sound_bind (placed.define lawful fits.good rfl nothing)
      intro _ m' _ kept binds
      exact sound_pure kept.good ⟨trivial, binds⟩
    | some e =>
      rw [execute]
      apply sound_bind (into .declared)
      intro v m' _ kept hv
      apply sound_bind ((placed.keep kept).define lawful kept.good rfl hv)
      intro _ m'' _ kept' binds
      exact sound_pure kept'.good ⟨trivial, binds⟩
  | block body =>
    apply sound_quiet rfl
    rw [execute]
    apply sound_get
    have opening : Sound L m (Run.child m.scope .empty) fun scope m' =>
        { m' with scope } = blockEntry m :=
      .of_ok rfl (kept_blockEntry fits.good) rfl
    apply sound_bind opening
    intro scope m₁ _ kept same
    have inside := sound.executeAll (fits.step lawful .block sound)
    rw [← same] at inside
    exact sound_within inside fun flow m' here h => h.rescope here
  | ifElse condition thenBranch elseBranch => exact sound_quiet rfl (sound_ifElse lawful sound fits)
  | whileLoop condition body =>
    apply sound_quiet rfl
    rw [execute]
    exact sound.loop (fits.step lawful .whileLoop sound)
  | funDecl f =>
    -- the closure is made where it is declared, and its sites are those of the declaration
    obtain ⟨body, before, outer, sites, formed, standing, housed⟩ := placed.declaring rfl
    rw [execute]
    have declaring := sound_declareFunction fits.good standing housed (placed.plain lawful rfl)
      (fun site hsite => sites site (List.mem_cons_of_mem _ hsite)) formed
    apply sound_bind declaring
    intro _ m' _ kept binds
    exact sound_pure kept.good ⟨trivial, binds⟩
  | ret keyword value =>
    apply sound_quiet rfl
    cases value with
    | none => exact sound_pure fits.good trivial
    | some e =>
      rw [execute]
      apply sound_bind (into .returned)
      intro v m' _ kept hv
      exact sound_pure kept.good hv
  | classDecl name superclass methods => exact sound_classDecl lawful sound fits

theorem sound_executeAll (lawful : Lawful L) (sound : SoundAt L host fuel) {ss : List Stmt}
    (fits : Fits L host ⟨fuel + 1, .executeAll ss, m⟩) :
    Sound L m (executeAll host (fuel + 1) ss) fun flow m' => FlowFits L m' flow := by
  cases ss with
  | nil => exact sound_pure fits.good trivial
  | cons s rest =>
    rw [executeAll]
    apply sound_bind (sound.execute (fits.step lawful .firstOf sound))
    intro flow m' run kept holds
    -- the statements after a `return` are not reached, and their names need not be there
    cases flow with
    | next => exact sound.executeAll (fits.step lawful (.restOf run) sound)
    | returned v => exact sound_pure kept.good holds.1

theorem sound_loop (lawful : Lawful L) (sound : SoundAt L host fuel) {condition : Expr}
    {body : Stmt} (fits : Fits L host ⟨fuel + 1, .loop condition body, m⟩) :
    Sound L m (loop host (fuel + 1) condition body) fun flow m' => FlowFits L m' flow := by
  rw [loop]
  apply sound_bind (sound.evaluate (fits.step lawful .loopCondition sound))
  intro c m' run kept _
  by_cases holds : c.isTruthy = true
  · rw [if_pos holds]
    apply sound_bind (sound.execute (fits.step lawful (.loopBody run holds) sound))
    intro flow m'' run' kept' left
    cases flow with
    | next => exact sound.loop (fits.step lawful (.again run holds run') sound)
    | returned v => exact sound_pure kept'.good left.1
  · rw [if_neg holds]
    exact sound_pure kept.good trivial

/-- Calls that fit are sound, whatever the fuel. -/
theorem soundAt (honest : Honest host) (lawful : Lawful L) (fuel : Nat) :
    SoundAt L host fuel := by
  -- on the fuel: every call is made with less of it, also the body of a function
  induction fuel with
  | zero =>
    exact ⟨fun fits => sound_throw fits.good trivial, fun fits => sound_throw fits.good trivial,
      fun fits => sound_throw fits.good trivial, fun fits => sound_throw fits.good trivial,
      fun fits => sound_throw fits.good trivial, fun fits => sound_throw fits.good trivial,
      fun fits => sound_throw fits.good trivial, fun fits => sound_throw fits.good trivial⟩
  | succ fuel ih =>
    exact ⟨sound_evaluate lawful ih, sound_evaluateAll lawful ih, sound_invoke honest lawful ih,
      sound_enter lawful ih, sound_instantiate lawful ih, sound_execute lawful ih,
      sound_executeAll lawful ih, sound_loop lawful ih⟩

end

/-- Running a program is sound. -/
theorem sound_interpret (honest : Honest host) (lawful : Lawful L) {fuel : Nat} :
    ∀ {ss : List Stmt} {m : Machine}, Fits L host ⟨fuel, .interpret ss, m⟩ →
      Sound L m (interpret host fuel ss) fun _ _ => True
  | [], m, fits => sound_pure fits.good trivial
  | s :: rest, m, fits => by
    have sound := soundAt honest lawful fuel
    rw [interpret]
    apply sound_bind (sound.execute (fits.step lawful .statement sound))
    intro flow m' run kept _
    exact sound_interpret honest lawful (fits.step lawful (.statements run) sound)

/-- Every call in the course of a run fits, if the first one does. -/
theorem Fits.reach (honest : Honest host) (lawful : Lawful L) {c c' : Config}
    (reached : Reaches host c c') (fits : Fits L host c) : Fits L host c' := by
  -- from the first call on, as each call has its machine from those made before it
  induction reached with
  | refl => exact fits
  | step calls _ ih => exact ih (fits.step lawful calls (soundAt honest lawful _))

end Lox.Evaluation
