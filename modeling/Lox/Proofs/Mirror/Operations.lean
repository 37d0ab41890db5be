import Lox.Proofs.Mirror.Counterparts

/-! # Operations on machines that mirror each other

  `Agrees` says of two computations that on machines that mirror each other they end in the
  same way, with results that are related, and leave machines that mirror each other again.
  It holds of each operation of a machine whose operands mirror each other, and it is kept
  when computations are put together (`agrees_bind`).
-/

namespace Lox.Evaluation

variable {κ α β γ δ : Type} {μ : Mirror κ} {w : List κ} {here : Scope} {env : List κ}

/-- Results of two computations that mirror each other. Frames may have been opened. -/
def ResultMirrors (μ : Mirror κ) (w : List κ) (here : Scope) (P : List κ → α → β → Prop) :
    EStateM.Result Halt Machine α → EStateM.Result Halt Machine β → Prop
  | .ok a m, .ok b m' => ∃ w', Later w w' ∧ MachineMirrors μ w' here m m' ∧ P w' a b
  | .error e m, .error e' m' =>
    ∃ w', Later w w' ∧ MachineMirrors μ w' here m m' ∧ HaltMirrors μ e e'
  | _, _ => False

/-- Two computations that mirror each other wherever their machines do. -/
def Agrees (μ : Mirror κ) (w : List κ) (here : Scope) (x : Run α) (y : Run β)
    (P : List κ → α → β → Prop) : Prop :=
  ∀ m m', MachineMirrors μ w here m m' → ResultMirrors μ w here P (x m) (y m')

/-! ### Putting computations together -/

section

variable {x : Run α} {y : Run β} {P Q : List κ → α → β → Prop}

theorem agrees_pure {a : α} {b : β} (h : P w a b) : Agrees μ w here (pure a) (pure b) P :=
  fun _ _ mirrors => ⟨w, .refl w, mirrors, h⟩

theorem agrees_fail {t t' : Token} (h : μ.token t t') (cause : RuntimeCause) :
    Agrees μ w here (Run.fail t cause : Run α) (Run.fail t' cause : Run β) P :=
  fun _ _ mirrors => ⟨w, .refl w, mirrors, .fault ⟨h, .inl rfl⟩⟩

theorem agrees_undefined {t t' : Token} (h : μ.token t t') :
    Agrees μ w here (throw (.fault (.undefined t)) : Run α)
      (throw (.fault (.undefined t')) : Run β) P :=
  fun _ _ mirrors => ⟨w, .refl w, mirrors, .fault ⟨h, .inr ⟨rfl, rfl⟩⟩⟩

theorem agrees_starved :
    Agrees μ w here (throw .starved : Run α) (throw .starved : Run β) P :=
  fun _ _ mirrors => ⟨w, .refl w, mirrors, .starved⟩

theorem ResultMirrors.later {w' : List κ} (more : Later w w')
    {r : EStateM.Result Halt Machine α} {r' : EStateM.Result Halt Machine β}
    (h : ResultMirrors μ w' here P r r') : ResultMirrors μ w here P r r' := by
  cases r with
  | ok a m =>
    cases r' with
    | ok b m' =>
      obtain ⟨w'', more', mirrors, holds⟩ := h
      exact ⟨w'', more.trans more', mirrors, holds⟩
    | error e' m' => exact h.elim
  | error e m =>
    cases r' with
    | ok b m' => exact h.elim
    | error e' m' =>
      obtain ⟨w'', more', mirrors, halts⟩ := h
      exact ⟨w'', more.trans more', mirrors, halts⟩

theorem Agrees.weaken (h : Agrees μ w here x y P)
    (imp : ∀ w' a b, Later w w' → P w' a b → Q w' a b) : Agrees μ w here x y Q := by
  intro m m' mirrors
  have result := h m m' mirrors
  generalize x m = r at result ⊢
  generalize y m' = r' at result ⊢
  cases r with
  | ok a m₁ =>
    cases r' with
    | ok b m₁' =>
      obtain ⟨w', more, mirrors', holds⟩ := result
      exact ⟨w', more, mirrors', imp w' a b more holds⟩
    | error e' m₁' => exact result.elim
  | error e m₁ =>
    cases r' with
    | ok b m₁' => exact result.elim
    | error e' m₁' => exact result

/-- One computation and then another on each side. -/
theorem agrees_bind {f : α → Run γ} {g : β → Run δ} {R : List κ → γ → δ → Prop}
    (first : Agrees μ w here x y P)
    (second : ∀ w' a b, Later w w' → P w' a b → Agrees μ w' here (f a) (g b) R) :
    Agrees μ w here (x >>= f) (y >>= g) R := by
  intro m m' mirrors
  have result := first m m' mirrors
  show ResultMirrors μ w here R (EStateM.bind x f m) (EStateM.bind y g m')
  unfold EStateM.bind
  generalize x m = r at result ⊢
  generalize y m' = r' at result ⊢
  cases r with
  | ok a m₁ =>
    cases r' with
    | ok b m₁' =>
      -- frames that the first computations have opened count for the second ones
      obtain ⟨w', more, mirrors', holds⟩ := result
      exact (second w' a b more holds m₁ m₁' mirrors').later more
    | error e' m₁' => exact result.elim
  | error e m₁ =>
    cases r' with
    | ok b m₁' => exact result.elim
    | error e' m₁' => exact result

theorem agrees_map {f : α → γ} {g : β → δ} {R : List κ → γ → δ → Prop}
    (h : Agrees μ w here x y P) (imp : ∀ w' a b, P w' a b → R w' (f a) (g b)) :
    Agrees μ w here (f <$> x) (g <$> y) R := by
  have shape : Agrees μ w here (x >>= fun a => pure (f a)) (y >>= fun b => pure (g b)) R :=
    agrees_bind h fun w' a b _ holds => agrees_pure (imp w' a b holds)
  exact shape

/-- Both sides find themselves in the same scope. -/
theorem agrees_get {f : Machine → Run α} {g : Machine → Run β}
    (h : ∀ m m', m.scope = here → m'.scope = here → Agrees μ w here (f m) (g m') P) :
    Agrees μ w here (get >>= f) (get >>= g) P :=
  fun m m' mirrors => h m m' mirrors.scope mirrors.scope' m m' mirrors

theorem MachineMirrors.rescope {m m' : Machine} (h : MachineMirrors μ w here m m')
    (scope : Scope) : MachineMirrors μ w scope { m with scope } { m' with scope } :=
  { h with scope := rfl, scope' := rfl }

/-- Computations in another scope, from which both sides return. -/
theorem agrees_within {inner : Scope} (h : Agrees μ w inner x y P) :
    Agrees μ w here (Run.within inner x) (Run.within inner y) P := by
  intro m m' mirrors
  have result := h _ _ (mirrors.rescope inner)
  have start := mirrors.scope
  have start' := mirrors.scope'
  unfold Run.within
  -- the bodies end alike, and both machines go back to the scopes they came from
  generalize x { m with scope := inner } = r at result ⊢
  generalize y { m' with scope := inner } = r' at result ⊢
  cases r with
  | ok a m₁ =>
    cases r' with
    | ok b m₁' =>
      obtain ⟨w', more, mirrors', holds⟩ := result
      refine ⟨w', more, ?_, holds⟩
      rw [start, start']
      exact mirrors'.rescope here
    | error e' m₁' => exact result.elim
  | error e m₁ =>
    cases r' with
    | ok b m₁' => exact result.elim
    | error e' m₁' =>
      obtain ⟨w', more, mirrors', halts⟩ := result
      refine ⟨w', more, ?_, halts⟩
      rw [start, start']
      exact mirrors'.rescope here

end

/-! ### Reading -/

/-- The frame that a distance leads to is of the kind of the scope it leads to. -/
theorem Views.ancestor {scope : Scope} (h : Views w scope env) (distance : Nat) :
    Frames.ancestor scope distance = [] ∧ outward env distance = none ∨
      ∃ frame outer k, Frames.ancestor scope distance = frame :: outer ∧
        outward env distance = some k ∧ w[frame]? = some k := by
  induction distance generalizing scope env with
  | zero =>
    cases h with
    | nil => exact .inl ⟨rfl, rfl⟩
    | @cons frame k scope env found rest =>
      refine .inr ⟨frame, scope, k, ?_, ?_, found⟩
      · cases scope <;> rfl
      · cases env <;> rfl
  | succ distance ih =>
    cases h with
    | nil => exact .inl ⟨rfl, rfl⟩
    | @cons frame k scope env found rest =>
      cases rest with
      | nil => exact .inr ⟨frame, [], k, rfl, rfl, found⟩
      | cons found' rest' =>
        rw [Frames.ancestor, outward]
        exact ih (.cons found' rest')

theorem MachineMirrors.getAt {m m' : Machine} (h : MachineMirrors μ w here m m') {scope : Scope}
    (views : Views w scope env) {distance : Nat} {name name' : String}
    (names : ∀ k, outward env distance = some k → μ.names k name name') :
    Option.Rel (ValueMirrors μ w) (m.frames.getAt? scope distance name)
      (m'.frames.getAt? scope distance name') := by
  unfold Frames.getAt?
  rcases views.ancestor distance with ⟨nowhere, _⟩ | ⟨frame, outer, k, found, kind, mark⟩
  · rw [nowhere]
    exact .none
  · rw [found]
    exact h.frames frame k name name' mark (names k kind)

theorem agrees_defined {t t' : Token} (token : μ.token t t') {o o' : Option Value}
    (h : Option.Rel (ValueMirrors μ w) o o') :
    Agrees μ w here (Run.defined t o) (Run.defined t' o') (ValueMirrors μ) := by
  cases h with
  | some hv => exact agrees_pure hv
  | none => exact agrees_undefined token

theorem agrees_readAt {scope : Scope} (views : Views w scope env) {distance : Nat}
    {t t' : Token} (token : μ.token t t')
    (names : ∀ k, outward env distance = some k → μ.names k t.lexeme t'.lexeme) :
    Agrees μ w here (Run.readAt scope distance t) (Run.readAt scope distance t')
      (ValueMirrors μ) :=
  fun m m' mirrors => agrees_defined token (mirrors.getAt views names) m m' mirrors

theorem MachineMirrors.global {m m' : Machine} (h : MachineMirrors μ w here m m')
    (name : String) : Option.Rel (ValueMirrors μ w) (m.frames.get? Machine.globals name)
      (m'.frames.get? Machine.globals name) := by
  have found := h.frames 0 μ.plain name name h.globals (μ.names_plain.mpr rfl)
  have only : ∀ frames : Frames Value,
      frames.get? Machine.globals name = frames.lookup? 0 name := by
    intro frames
    unfold Frames.get? Machine.globals
    rw [List.findSome?_cons]
    cases frames.lookup? 0 name <;> rfl
  rw [only, only]
  exact found

theorem agrees_readVariable (views : Views w here env) {n n' : NodeId} {t t' : Token}
    (refers : μ.Refers env n t n' t') :
    Agrees μ w here (Run.readVariable n t) (Run.readVariable n' t') (ValueMirrors μ) := by
  intro m m' mirrors
  obtain ⟨token, noted⟩ := refers
  rw [readVariable_apply, readVariable_apply]
  rcases noted with ⟨distance, node, names⟩ | ⟨node, name⟩
  · obtain ⟨hops, hops'⟩ := mirrors.hops n n' _ node
    rw [hops, hops', mirrors.scope, mirrors.scope']
    exact agrees_defined token (mirrors.getAt views names) m m' mirrors
  · obtain ⟨hops, hops'⟩ := mirrors.hops n n' _ node
    rw [hops, hops', name]
    exact agrees_defined token (mirrors.global _) m m' mirrors

/-! ### Writing -/

/-- Putting values that mirror each other under names that stand for each other. -/
theorem MachineMirrors.put {m m' : Machine} (h : MachineMirrors μ w here m m')
    {frame : FrameId} {k : κ} (mark : w[frame]? = some k) {name name' : String}
    (names : μ.names k name name') {v v' : Value} (hv : ValueMirrors μ w v v') :
    MachineMirrors μ w here { m with frames := m.frames.put frame name v }
      { m' with frames := m'.frames.put frame name' v' } := by
  obtain ⟨below, _⟩ := List.getElem?_eq_some_iff.mp mark
  refine { h with size := ?_, size' := ?_, frames := ?_ }
  · exact Array.size_modify.trans h.size
  · exact Array.size_modify.trans h.size'
  · intro other k' n n' mark' names'
    by_cases same : frame = other
    · subst same
      obtain rfl : k = k' := Option.some.inj (mark.symm.trans mark')
      by_cases hname : n = name
      · subst hname
        obtain rfl : n' = name' := (μ.names_inj names' names).mp rfl
        rw [Frames.lookup?_put_self _ _ _ (h.size ▸ below),
          Frames.lookup?_put_self _ _ _ (h.size' ▸ below)]
        exact .some hv
      · -- a name that stands for another one is another one on both sides
        have hname' : n' ≠ name' := fun same => hname ((μ.names_inj names' names).mpr same)
        rw [Frames.lookup?_put_of_name_ne _ _ _ _ hname,
          Frames.lookup?_put_of_name_ne _ _ _ _ hname']
        exact h.frames _ _ _ _ mark names'
    · rw [Frames.lookup?_put_of_frame_ne _ _ _ _ same,
        Frames.lookup?_put_of_frame_ne _ _ _ _ same]
      exact h.frames _ _ _ _ mark' names'

theorem agrees_define (views : Views w here env) {t t' : Token} (declares : μ.Declares env t t')
    {v v' : Value} (hv : ValueMirrors μ w v v') :
    Agrees μ w here (Run.define t.lexeme v) (Run.define t'.lexeme v') fun _ _ _ => True := by
  intro m m' mirrors
  have defined : ∀ (m : Machine), m.scope = here → ∀ (name : String) (v : Value),
      Run.define name v m = .ok () { m with frames := m.frames.define here name v } := by
    intro m scope name v
    have frames : m.frames.define m.scope name v = m.frames.define here name v := by rw [scope]
    show EStateM.Result.ok () { m with frames := m.frames.define m.scope name v } = _
    rw [frames]
  rw [defined m mirrors.scope, defined m' mirrors.scope']
  cases views with
  | nil => exact ⟨w, .refl w, mirrors, trivial⟩
  | cons mark _ => exact ⟨w, .refl w, mirrors.put mark (declares.2 _ rfl) hv, trivial⟩

theorem MachineMirrors.findAt {m m' : Machine} (h : MachineMirrors μ w here m m') {scope : Scope}
    (views : Views w scope env) {distance : Nat} {name name' : String}
    (names : ∀ k, outward env distance = some k → μ.names k name name') :
    m.frames.findAt? scope distance name = none ∧ m'.frames.findAt? scope distance name' = none ∨
      ∃ frame k, m.frames.findAt? scope distance name = some frame ∧
        m'.frames.findAt? scope distance name' = some frame ∧ w[frame]? = some k ∧
        μ.names k name name' := by
  unfold Frames.findAt?
  rcases views.ancestor distance with ⟨nowhere, _⟩ | ⟨frame, outer, k, found, kind, mark⟩
  · rw [nowhere]
    exact .inl ⟨rfl, rfl⟩
  · rw [found]
    have values := h.frames frame k name name' mark (names k kind)
    dsimp only
    generalize m.frames.lookup? frame name = o at values ⊢
    generalize m'.frames.lookup? frame name' = o' at values ⊢
    cases values with
    | some hv => exact .inr ⟨frame, k, rfl, rfl, mark, names k kind⟩
    | none => exact .inl ⟨rfl, rfl⟩

/-- Assignments that find the same frame, or none. -/
theorem agrees_assignIn {t t' : Token} (token : μ.token t t') {v v' : Value}
    (hv : ValueMirrors μ w v v') {frame? frame?' : Machine → Option FrameId}
    (found : ∀ m m', MachineMirrors μ w here m m' → frame? m = none ∧ frame?' m' = none ∨
      ∃ frame k, frame? m = some frame ∧ frame?' m' = some frame ∧ w[frame]? = some k ∧
        μ.names k t.lexeme t'.lexeme) :
    Agrees μ w here (Run.assignIn frame? t v) (Run.assignIn frame?' t' v') fun _ _ _ => True := by
  intro m m' mirrors
  unfold Run.assignIn
  rcases found m m' mirrors with ⟨nowhere, nowhere'⟩ | ⟨frame, k, there, there', mark, names⟩
  · rw [nowhere, nowhere']
    exact agrees_undefined token m m' mirrors
  · rw [there, there']
    exact ⟨w, .refl w, mirrors.put mark names hv, trivial⟩

theorem agrees_assignVariable (views : Views w here env) {n n' : NodeId} {t t' : Token}
    (refers : μ.Refers env n t n' t') {v v' : Value} (hv : ValueMirrors μ w v v') :
    Agrees μ w here (Run.assignVariable n t v) (Run.assignVariable n' t' v')
      fun _ _ _ => True := by
  obtain ⟨token, noted⟩ := refers
  intro m m' mirrors
  rw [assignVariable_apply, assignVariable_apply]
  rcases noted with ⟨distance, node, names⟩ | ⟨node, name⟩
  · obtain ⟨hops, hops'⟩ := mirrors.hops n n' _ node
    rw [hops, hops']
    refine agrees_assignIn token hv ?_ m m' mirrors
    intro m m' mirrors
    rw [mirrors.scope, mirrors.scope']
    exact mirrors.findAt views names
  · obtain ⟨hops, hops'⟩ := mirrors.hops n n' _ node
    rw [hops, hops']
    refine agrees_assignIn token hv ?_ m m' mirrors
    intro m m' mirrors
    -- the only frame to look in is the outermost one
    have outermost : ∀ (frames : Frames Value) (name : String),
        frames.find? Machine.globals name =
          if (frames.lookup? 0 name).isSome then some 0 else none := by
      intro frames name
      unfold Frames.find? Machine.globals
      rw [List.find?_cons]
      cases frames.lookup? 0 name <;> rfl
    have names : μ.names μ.plain t.lexeme t'.lexeme := μ.names_plain.mpr name
    have values := mirrors.frames 0 μ.plain _ _ mirrors.globals names
    rw [outermost, outermost]
    generalize m.frames.lookup? 0 t.lexeme = o at values ⊢
    generalize m'.frames.lookup? 0 t'.lexeme = o' at values ⊢
    cases values with
    | some _ => exact .inr ⟨0, μ.plain, rfl, rfl, mirrors.globals, names⟩
    | none => exact .inl ⟨rfl, rfl⟩

/-! ### Frames, functions and instances -/

/-- Names and values of frames that mirror each other. -/
def FrameMirrors (μ : Mirror κ) (w : List κ) (k : κ) (b b' : Bindings Value) : Prop :=
  ∀ name name', μ.names k name name' →
    Option.Rel (ValueMirrors μ w) (b.get? name) (b'.get? name')

theorem frameMirrors_empty (k : κ) : FrameMirrors μ w k .empty .empty :=
  fun _ _ _ => .none

theorem FrameMirrors.set {k : κ} {b b' : Bindings Value} (h : FrameMirrors μ w k b b')
    {name name' : String} (names : μ.names k name name') {v v' : Value}
    (hv : ValueMirrors μ w v v') :
    FrameMirrors μ w k (b.set name v) (b'.set name' v') := by
  intro n n' names'
  by_cases same : n = name
  · subst same
    obtain rfl : n' = name' := (μ.names_inj names' names).mp rfl
    rw [Bindings.get?_set_self, Bindings.get?_set_self]
    exact .some hv
  · have same' : n' ≠ name' := fun eq => same ((μ.names_inj names' names).mpr eq)
    rw [Bindings.get?_set_of_ne _ _ same, Bindings.get?_set_of_ne _ _ same']
    exact h n n' names'

/-- Arguments are put under their parameters one after another, on top of those before. -/
theorem FrameMirrors.fill {k : κ} {vs vs' : List Value}
    (values : List.Forall₂ (ValueMirrors μ w) vs vs') :
    ∀ {ps ps' : List Token} {b b' : Bindings Value}, μ.Params k ps ps' →
    FrameMirrors μ w k b b' → FrameMirrors μ w k
      ((ps.zip vs).foldl (fun names (param, value) => names.set param.lexeme value) b)
      ((ps'.zip vs').foldl (fun names (param, value) => names.set param.lexeme value) b') := by
  induction values with
  | nil =>
    intro ps ps' b b' _ start
    rw [List.zip_nil_right, List.zip_nil_right]
    exact start
  | cons hv _ ih =>
    intro ps ps' b b' params start
    cases params with
    | nil => exact start
    | cons param params => exact ih params (start.set param.2 hv)

theorem argumentFrame_mirrors {k : κ} {ps ps' : List Token} (params : μ.Params k ps ps')
    {vs vs' : List Value} (values : List.Forall₂ (ValueMirrors μ w) vs vs') :
    FrameMirrors μ w k (argumentFrame ps vs) (argumentFrame ps' vs') :=
  FrameMirrors.fill values params (frameMirrors_empty k)

theorem MachineMirrors.child {m m' : Machine} (h : MachineMirrors μ w here m m') {k : κ}
    {b b' : Bindings Value} (names : FrameMirrors μ w k b b') :
    MachineMirrors μ (w ++ [k]) here { m with frames := ⟨m.frames.records.push b⟩ }
      { m' with frames := ⟨m'.frames.records.push b'⟩ } := by
  have more : Later w (w ++ [k]) := ⟨[k], rfl⟩
  refine { h with
    size := ?_
    size' := ?_
    frames := ?_
    fields := fun id name => valuesMirror_later more (h.fields id name)
    globals := more.get h.globals }
  · simp [h.size]
  · simp [h.size']
  · intro frame k' name name' mark names'
    show Option.Rel _ (Frames.lookup? ⟨m.frames.records.push b⟩ frame name)
      (Frames.lookup? ⟨m'.frames.records.push b'⟩ frame name')
    rw [lookup?_push, lookup?_push, h.size, h.size']
    by_cases new : frame = w.length
    · subst new
      rw [List.getElem?_concat_length] at mark
      cases mark
      rw [if_pos rfl, if_pos rfl]
      exact valuesMirror_later more (names name name' names')
    · rw [if_neg new, if_neg new]
      have old : frame < w.length := by
        obtain ⟨below, _⟩ := List.getElem?_eq_some_iff.mp mark
        rw [List.length_append] at below
        exact Nat.lt_of_le_of_ne (Nat.le_of_lt_succ below) new
      rw [List.getElem?_append_left old] at mark
      exact valuesMirror_later more (h.frames frame k' name name' mark names')

/-- A new frame of some kind inside a scope. -/
theorem agrees_child {outer : Scope} (views : Views w outer env) (k : κ) {b b' : Bindings Value}
    (names : FrameMirrors μ w k b b') :
    Agrees μ w here (Run.child outer b) (Run.child outer b') fun w' scope scope' =>
      scope = scope' ∧ Views w' scope (k :: env) := by
  intro m m' mirrors
  refine ⟨w ++ [k], ⟨[k], rfl⟩, mirrors.child names, ?_, ?_⟩
  · show m.frames.records.size :: outer = m'.frames.records.size :: outer
    rw [mirrors.size, mirrors.size']
  · refine .cons ?_ (views.later ⟨[k], rfl⟩)
    rw [mirrors.size]
    exact List.getElem?_concat_length

theorem MachineMirrors.ofSerial {m m' : Machine} (h : MachineMirrors μ w here m m')
    (more : Nat) : MachineMirrors μ w here { m with serial := m.serial + more }
      { m' with serial := m'.serial + more } :=
  { h with serial := congrArg (· + more) h.serial }

/-- Both sides have called the host as often as the other one, and go on doing so. -/
theorem agrees_countHostCall : Agrees μ w here Run.countHostCall Run.countHostCall
    fun _ earlier earlier' => earlier = earlier' :=
  fun _ _ mirrors => ⟨w, .refl w,
    { mirrors with hostCalls := congrArg (· + 1) mirrors.hostCalls }, mirrors.hostCalls⟩

theorem agrees_newClosure {f f' : FunctionDecl} {scope : Scope} {inner : List κ}
    (views : Views w scope env) (mirrors : FunctionMirrors μ (inner ++ env) f f')
    {isInitializer isInitializer' : Bool} (same : isInitializer = isInitializer') :
    Agrees μ w here (Run.newClosure f scope isInitializer)
      (Run.newClosure f' scope isInitializer') fun w' => RoutineMirrors μ w' inner :=
  fun _ _ machines =>
    ⟨w, .refl w, machines.ofSerial 1, machines.serial, rfl, same, env, views, mirrors⟩

theorem FunctionMirrors.name_eq {f f' : FunctionDecl} (h : FunctionMirrors μ env f f') :
    f.name.lexeme = f'.name.lexeme := by
  cases h with
  | mk k same params body => exact same.2

theorem FunctionMirrors.isInitializer_eq {f f' : FunctionDecl}
    (h : FunctionMirrors μ env f f') : f.isInitializer = f'.isInitializer := by
  unfold FunctionDecl.isInitializer
  rw [h.name_eq]

theorem agrees_newInstance {c c' : Class} (h : ClassMirrors μ w c c') :
    Agrees μ w here (Run.newInstance c) (Run.newInstance c') fun w' o o' =>
      o.id = o'.id ∧ o.ofClass = c ∧ o'.ofClass = c' ∧ ClassMirrors μ w' c c' := by
  intro m m' mirrors
  refine ⟨w, .refl w, { mirrors with instances := ?_, fields := ?_ }, mirrors.instances, rfl,
    rfl, h⟩
  · show (m.fields.push .empty).size = (m'.fields.push .empty).size
    rw [Array.size_push, Array.size_push, mirrors.instances]
  · intro id name
    show Option.Rel _ ((m.fields.push .empty)[id]?.bind _) ((m'.fields.push .empty)[id]?.bind _)
    rw [Array.getElem?_push, Array.getElem?_push, mirrors.instances]
    -- the new instances have no fields
    by_cases new : id = m'.fields.size
    · rw [if_pos new, if_pos new]
      exact .none
    · rw [if_neg new, if_neg new]
      exact mirrors.fields id name

theorem agrees_bindMethod {c c' : Closure} (hc : MethodMirrors μ w c c') {o o' : Instance}
    (ho : ValueMirrors μ w (.object o) (.object o')) :
    Agrees μ w here (Run.bindMethod c o) (Run.bindMethod c' o') (ClosureMirrors μ) := by
  obtain ⟨_, scope, initializer, env, views, declaration⟩ := hc
  unfold Run.bindMethod
  rw [← scope]
  have frame : FrameMirrors μ w μ.plain (.single "this" (.object o))
      (.single "this" (.object o')) := (frameMirrors_empty _).set μ.names_this ho
  apply agrees_bind (agrees_child views μ.plain frame)
  intro w' inside inside' _ opened
  obtain ⟨rfl, views'⟩ := opened
  have bound : Agrees μ w' here (Run.newClosure _ inside _) (Run.newClosure _ inside _)
      (ClosureMirrors μ) := agrees_newClosure views' declaration initializer
  exact bound

/-! ### Properties and output -/

theorem property_apply (o : Instance) (t : Token) (m : Machine) : Run.property o t m =
    match (m.fields[o.id]?).bind (·.get? t.lexeme) with
    | some value => (pure value : Run Value) m
    | none =>
      match o.ofClass.findMethod? t.lexeme with
      | some method => (Value.function <$> Run.bindMethod method o) m
      | none => (Run.fail t (.undefinedProperty t.lexeme) : Run Value) m := by
  unfold Run.property
  simp only [bind, EStateM.bind, get, getThe, MonadStateOf.get, EStateM.get]
  cases (m.fields[o.id]?).bind (·.get? t.lexeme) with
  | some value => rfl
  | none => cases o.ofClass.findMethod? t.lexeme <;> rfl

theorem agrees_property {o o' : Instance} (ho : ValueMirrors μ w (.object o) (.object o'))
    {t t' : Token} (same : μ.Same t t') :
    Agrees μ w here (Run.property o t) (Run.property o' t') (ValueMirrors μ) := by
  intro m m' mirrors
  obtain ⟨token, lexeme⟩ := same
  cases ho with
  | object id hclass =>
    have field := mirrors.fields o.id t.lexeme
    have found := hclass.findMethod t.lexeme
    rw [property_apply, property_apply, ← id, ← lexeme]
    generalize (m.fields[o.id]?).bind (·.get? t.lexeme) = v at field ⊢
    generalize (m'.fields[o.id]?).bind (·.get? t.lexeme) = v' at field ⊢
    -- a field hides a method of the same name on both sides
    cases field with
    | some hv => exact agrees_pure hv m m' mirrors
    | none =>
      generalize o.ofClass.findMethod? t.lexeme = f at found ⊢
      generalize o'.ofClass.findMethod? t.lexeme = f' at found ⊢
      cases found with
      | some hmethod =>
        have bound : Agrees μ w here (Run.bindMethod _ o) (Run.bindMethod _ o')
            (ClosureMirrors μ) := agrees_bindMethod hmethod (.object id hclass)
        exact agrees_map bound (fun _ _ _ => .function) m m' mirrors
      | none => exact agrees_fail token _ m m' mirrors

theorem agrees_setField {o o' : Instance} (id : o.id = o'.id) (name : String) {v v' : Value}
    (hv : ValueMirrors μ w v v') :
    Agrees μ w here (Run.setField o name v) (Run.setField o' name v') fun _ _ _ => True := by
  intro m m' mirrors
  refine ⟨w, .refl w, { mirrors with instances := ?_, fields := ?_ }, trivial⟩
  · show (m.fields.modify _ _).size = (m'.fields.modify _ _).size
    rw [Array.size_modify, Array.size_modify, mirrors.instances]
  · intro target n
    show Option.Rel _ ((m.fields.modify o.id (·.set name v))[target]?.bind _)
      ((m'.fields.modify o'.id (·.set name v'))[target]?.bind _)
    rw [Array.getElem?_modify, Array.getElem?_modify, ← id]
    have before := mirrors.fields target n
    by_cases same : o.id = target
    · rw [if_pos same, if_pos same]
      -- both sides have this instance, or neither
      by_cases there : target < m.fields.size
      · have there' : target < m'.fields.size := mirrors.instances ▸ there
        rw [Array.getElem?_eq_getElem there, Array.getElem?_eq_getElem there'] at before ⊢
        generalize m.fields[target] = r at before ⊢
        generalize m'.fields[target] = r' at before ⊢
        show Option.Rel _ ((r.set name v).get? n) ((r'.set name v').get? n)
        by_cases hname : n = name
        · subst hname
          rw [Bindings.get?_set_self, Bindings.get?_set_self]
          exact .some hv
        · rw [Bindings.get?_set_of_ne _ _ hname, Bindings.get?_set_of_ne _ _ hname]
          exact before
      · have nowhere : m.fields[target]? = none :=
          Array.getElem?_eq_none (Nat.le_of_not_lt there)
        have nowhere' : m'.fields[target]? = none :=
          Array.getElem?_eq_none (mirrors.instances ▸ Nat.le_of_not_lt there)
        rw [nowhere, nowhere']
        exact .none
    · rw [if_neg same, if_neg same]
      exact before

theorem agrees_printLine {t t' : Token} (token : μ.token t t') (line : String) :
    Agrees μ w here (Run.printLine t line) (Run.printLine t' line) fun _ _ _ => True := by
  intro m m' mirrors
  have written : ∀ sink : Sink, MachineMirrors μ w here { m with sink } { m' with sink } :=
    fun _ => { mirrors with sink := rfl }
  unfold Run.printLine
  rw [← mirrors.sink]
  by_cases fits : (m.sink.write (line ++ "\n").toUTF8.data).1 = true
  · simp only [fits, if_true]
    exact ⟨w, .refl w, written _, trivial⟩
  · simp only [fits]
    exact ⟨w, .refl w, written _, .fault ⟨token, .inl rfl⟩⟩

/-! ### Superclasses -/

theorem agrees_asClass {t t' : Token} (token : μ.token t t') {v v' : Value}
    (hv : ValueMirrors μ w v v') :
    Agrees μ w here (asClass t v) (asClass t' v') (ClassMirrors μ) := by
  cases hv with
  | classObject hc => exact agrees_pure hc
  | _ => exact agrees_fail token _

theorem agrees_asInstance {t t' : Token} (token : μ.token t t') {v v' : Value}
    (hv : ValueMirrors μ w v v') :
    Agrees μ w here (asInstance t v) (asInstance t' v') fun w' o o' =>
      ValueMirrors μ w' (.object o) (.object o') := by
  cases hv with
  | object id hc => exact agrees_pure (.object id hc)
  | _ => exact agrees_fail token _

theorem agrees_superMethod (views : Views w here env) {n n' : NodeId} {t t' u u' : Token}
    (refers : μ.Refers env n t n' t') (same : μ.Same u u') :
    Agrees μ w here (superMethod n t u) (superMethod n' t' u') (ValueMirrors μ) := by
  obtain ⟨token, noted⟩ := refers
  have hopsOf : Agrees μ w here (Run.hopsOf n) (Run.hopsOf n') fun _ h h' => h = h' ∧
      ∀ distance, h = some distance →
        ∀ k, outward env distance = some k → μ.names k t.lexeme t'.lexeme := by
    intro m m' mirrors
    have known : m.hops.get? n = m'.hops.get? n' ∧ ∀ distance, m.hops.get? n = some distance →
        ∀ k, outward env distance = some k → μ.names k t.lexeme t'.lexeme := by
      rcases noted with ⟨distance, node, names⟩ | ⟨node, name⟩
      · obtain ⟨hops, hops'⟩ := mirrors.hops n n' _ node
        rw [hops, hops']
        refine ⟨rfl, fun other eq => ?_⟩
        cases eq
        exact names
      · obtain ⟨hops, hops'⟩ := mirrors.hops n n' _ node
        rw [hops, hops']
        exact ⟨rfl, nofun⟩
    exact ⟨w, .refl w, mirrors, known⟩
  unfold superMethod
  apply agrees_bind hopsOf
  intro w₁ h h' more known
  obtain ⟨rfl, names⟩ := known
  cases h with
  | none => exact agrees_fail token _
  | some distance =>
    refine agrees_get fun m m' scope scope' => ?_
    dsimp only
    rw [scope, scope']
    have views₁ := views.later more
    apply agrees_bind (agrees_readAt views₁ token (names distance rfl))
    intro w₂ v v' more₂ hv
    apply agrees_bind (agrees_asClass token hv)
    intro w₃ c c' more₃ hc
    have views₃ := views₁.later (more₂.trans more₃)
    -- the scope just inside holds `this`, which stands for itself everywhere
    apply agrees_bind (agrees_readAt views₃ (μ.self_token token) fun _ _ => μ.names_this)
    intro w₄ v v' more₄ hv'
    apply agrees_bind (agrees_asInstance token hv')
    intro w₅ o o' more₅ ho
    have found := (hc.later (more₄.trans more₅)).findMethod u.lexeme
    rw [same.2] at found ⊢
    generalize c.findMethod? u'.lexeme = f at found ⊢
    generalize c'.findMethod? u'.lexeme = f' at found ⊢
    cases found with
    | some hmethod => exact agrees_map (agrees_bindMethod hmethod ho) fun _ _ _ => .function
    | none => exact agrees_fail same.1 _

end Lox.Evaluation
