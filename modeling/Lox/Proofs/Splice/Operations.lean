import Lox.Proofs.Splice.Counterparts

/-! # Operations on machines that correspond

  `Coincides` says of two computations that on machines that correspond they end in the same
  way, with results that are related, and leave machines that correspond again. It holds of
  each operation of a machine, and it is kept when computations are put together
  (`coincides_bind`). One of the sides may enter a scope of its own as long as nothing is
  declared in it (`coincides_extra`).
-/

namespace Lox.Evaluation

variable {α β : Type} {ν : Notes} {w : World} {seam : Seam} {here here' : Scope}

/-- Results of two computations that correspond. Frames may have been opened. -/
def ResultSplices (ν : Notes) (w : World) (here here' : Scope) (P : World → α → α → Prop) :
    EStateM.Result Halt Machine α → EStateM.Result Halt Machine α → Prop
  | .ok a m, .ok b m' => ∃ w', Later w w' ∧ MachineSplices ν w' here here' m m' ∧ P w' a b
  | .error e m, .error e' m' =>
    ∃ w', Later w w' ∧ MachineSplices ν w' here here' m m' ∧ e = e'
  | _, _ => False

/-- Two computations that do the same wherever their machines correspond. -/
def Coincides (ν : Notes) (w : World) (here here' : Scope) (x y : Run α)
    (P : World → α → α → Prop) : Prop :=
  ∀ m m', MachineSplices ν w here here' m m' → ResultSplices ν w here here' P (x m) (y m')

/-! ### Putting computations together -/

section

variable {x y : Run α} {P : World → α → α → Prop}

theorem coincides_pure {a b : α} (h : P w a b) :
    Coincides ν w here here' (pure a) (pure b) P :=
  fun _ _ splices => ⟨w, .refl w, splices, h⟩

theorem coincides_throw (halt : Halt) :
    Coincides ν w here here' (throw halt : Run α) (throw halt) P :=
  fun _ _ splices => ⟨w, .refl w, splices, rfl⟩

theorem coincides_fail (token : Token) (cause : RuntimeCause) :
    Coincides ν w here here' (Run.fail token cause : Run α) (Run.fail token cause) P :=
  coincides_throw _

/-- Both computations end with a result, or both with the same error. -/
theorem ResultSplices.cases {r r' : EStateM.Result Halt Machine α}
    (h : ResultSplices ν w here here' P r r') :
    (∃ a b m m' w', r = .ok a m ∧ r' = .ok b m' ∧ Later w w' ∧
      MachineSplices ν w' here here' m m' ∧ P w' a b) ∨
    ∃ e m m' w', r = .error e m ∧ r' = .error e m' ∧ Later w w' ∧
      MachineSplices ν w' here here' m m' := by
  cases r with
  | ok a m =>
    cases r' with
    | ok b m' =>
      obtain ⟨w', more, splices, holds⟩ := h
      exact .inl ⟨a, b, m, m', w', rfl, rfl, more, splices, holds⟩
    | error e' m' => exact h.elim
  | error e m =>
    cases r' with
    | ok b m' => exact h.elim
    | error e' m' =>
      obtain ⟨w', more, splices, rfl⟩ := h
      exact .inr ⟨e, m, m', w', rfl, rfl, more, splices⟩

theorem ResultSplices.later {w' : World} (more : Later w w')
    {r r' : EStateM.Result Halt Machine α} (h : ResultSplices ν w' here here' P r r') :
    ResultSplices ν w here here' P r r' := by
  rcases h.cases with ⟨a, b, m, m', w'', rfl, rfl, more', splices, holds⟩ |
    ⟨e, m, m', w'', rfl, rfl, more', splices⟩
  · exact ⟨w'', more.trans more', splices, holds⟩
  · exact ⟨w'', more.trans more', splices, rfl⟩

/-- One computation and then another on each side. -/
theorem coincides_bind {f g : α → Run β} {Q : World → β → β → Prop}
    (first : Coincides ν w here here' x y P)
    (second : ∀ w' a b, Later w w' → P w' a b → Coincides ν w' here here' (f a) (g b) Q) :
    Coincides ν w here here' (x >>= f) (y >>= g) Q := by
  intro m m' splices
  show ResultSplices ν w here here' Q (EStateM.bind x f m) (EStateM.bind y g m')
  unfold EStateM.bind
  rcases (first m m' splices).cases with ⟨a, b, m₁, m₁', w', run, run', more, splices', holds⟩ |
    ⟨e, m₁, m₁', w', run, run', more, splices'⟩
  · rw [run, run']
    exact (second w' a b more holds m₁ m₁' splices').later more
  · rw [run, run']
    exact ⟨w', more, splices', rfl⟩

theorem coincides_map {f : α → β} {Q : World → β → β → Prop}
    (h : Coincides ν w here here' x y P) (imp : ∀ w' a b, P w' a b → Q w' (f a) (f b)) :
    Coincides ν w here here' (f <$> x) (f <$> y) Q := by
  have shape : Coincides ν w here here' (x >>= fun a => pure (f a)) (y >>= fun b => pure (f b))
      Q := coincides_bind h fun w' a b _ holds => coincides_pure (imp w' a b holds)
  exact shape

theorem coincides_get {f g : Machine → Run α}
    (h : ∀ m m', m.scope = here → m'.scope = here' →
      Coincides ν w here here' (f m) (g m') P) :
    Coincides ν w here here' (get >>= f) (get >>= g) P :=
  fun m m' splices => h m m' splices.scope splices.scope' m m' splices

theorem MachineSplices.rescope {m m' : Machine} (h : MachineSplices ν w here here' m m')
    (scope scope' : Scope) :
    MachineSplices ν w scope scope' { m with scope } { m' with scope := scope' } :=
  { h with scope := rfl, scope' := rfl }

/-- Computations in scopes of their own, from which both sides return. -/
theorem coincides_within {inner inner' : Scope} (h : Coincides ν w inner inner' x y P) :
    Coincides ν w here here' (Run.within inner x) (Run.within inner' y) P := by
  intro m m' splices
  unfold Run.within
  rw [splices.scope, splices.scope']
  rcases (h _ _ (splices.rescope inner inner')).cases with
    ⟨a, b, m₁, m₁', w', run, run', more, splices', holds⟩ |
    ⟨e, m₁, m₁', w', run, run', more, splices'⟩
  · rw [run, run']
    exact ⟨w', more, splices'.rescope here here', holds⟩
  · rw [run, run']
    exact ⟨w', more, splices'.rescope here here', rfl⟩

end

/-! ### Distances -/

theorem ancestor_cons {scope : Scope} (inside : scope ≠ []) (frame : FrameId) (distance : Nat) :
    Frames.ancestor (frame :: scope) (distance + 1) = Frames.ancestor scope distance := by
  cases scope with
  | nil => exact absurd rfl inside
  | cons => rw [Frames.ancestor]

theorem ancestor_zero (scope : Scope) : Frames.ancestor scope 0 = scope := by
  cases scope with
  | nil => rfl
  | cons frame outer => cases outer <;> rfl

/-- Crossing one scope that both sides have. -/
theorem Seam.Shifts.outer {distance distance' : Nat}
    (h : seam.inner.Shifts distance distance') : distance = 0 ∧ distance' = 0 ∨
      ∃ d d', distance = d + 1 ∧ distance' = d' + 1 ∧ seam.Shifts d d' := by
  cases distance with
  | zero =>
    left
    cases seam with
    | none => exact ⟨rfl, h.symm⟩
    | some depth =>
      rcases h with ⟨_, same⟩ | ⟨out, _⟩
      · exact ⟨rfl, same⟩
      · exact absurd out (Nat.not_lt_zero _)
  | succ d =>
    right
    cases seam with
    | none => exact ⟨d, d, rfl, h.symm, rfl⟩
    | some depth =>
      rcases h with ⟨inside, same⟩ | ⟨out, same⟩
      · exact ⟨d, d, rfl, same, .inl ⟨Nat.lt_of_succ_lt_succ inside, rfl⟩⟩
      · obtain rfl : d = distance' := Nat.succ.inj same
        have out : depth < d := Nat.lt_of_succ_lt_succ out
        exact ⟨d, d - 1, rfl, by omega, .inr ⟨out, by omega⟩⟩

/-- Distances that lead to the same scope lead to frames that stand for each other. -/
theorem Spliced.ancestor {scope scope' : Scope} (h : Spliced w seam scope scope')
    {distance distance' : Nat} (shifts : seam.Shifts distance distance') :
    ∃ frame frame' outer outer', Frames.ancestor scope distance = frame :: outer ∧
      Frames.ancestor scope' distance' = frame' :: outer' ∧ w[frame]? = some (some frame') := by
  induction h generalizing distance distance' with
  | @last frame frame' mark => exact ⟨frame, frame', [], [], rfl, rfl, mark⟩
  | @kept seam frame frame' scope scope' mark rest ih =>
    rcases shifts.outer with ⟨rfl, rfl⟩ | ⟨d, d', rfl, rfl, shifts'⟩
    · exact ⟨frame, frame', scope, scope', ancestor_zero _, ancestor_zero _, mark⟩
    · rw [ancestor_cons rest.ne_nil.1, ancestor_cons rest.ne_nil.2]
      exact ih shifts'
  | extra mark rest ih =>
    rcases shifts with ⟨inside, _⟩ | ⟨_, rfl⟩
    · exact absurd inside (Nat.not_lt_zero _)
    · rw [ancestor_cons rest.ne_nil.1]
      exact ih rfl

/-- In a scope that is not the additional one, both sides are in frames that stand for each
    other. -/
theorem Spliced.front {scope scope' : Scope} (h : Spliced w seam scope scope')
    (inside : seam ≠ some 0) : ∃ frame frame' outer outer', scope = frame :: outer ∧
      scope' = frame' :: outer' ∧ w[frame]? = some (some frame') := by
  cases h with
  | last mark => exact ⟨_, _, _, _, rfl, rfl, mark⟩
  | kept mark _ => exact ⟨_, _, _, _, rfl, rfl, mark⟩
  | extra => exact absurd rfl inside

/-! ### Reading -/

theorem MachineSplices.getAt {m m' : Machine} (h : MachineSplices ν w here here' m m')
    {scope scope' : Scope} (scopes : Spliced w seam scope scope') {distance distance' : Nat}
    (shifts : seam.Shifts distance distance') (name : String) :
    Option.Rel (ValueSplices ν w) (m.frames.getAt? scope distance name)
      (m'.frames.getAt? scope' distance' name) := by
  unfold Frames.getAt?
  obtain ⟨frame, frame', outer, outer', there, there', mark⟩ := scopes.ancestor shifts
  rw [there, there']
  exact h.frames frame frame' name mark

theorem coincides_defined (token : Token) {o o' : Option Value}
    (h : Option.Rel (ValueSplices ν w) o o') :
    Coincides ν w here here' (Run.defined token o) (Run.defined token o') (ValueSplices ν) := by
  cases h with
  | some hv => exact coincides_pure hv
  | none => exact coincides_throw _

theorem coincides_readAt {scope scope' : Scope} (scopes : Spliced w seam scope scope')
    {distance distance' : Nat} (shifts : seam.Shifts distance distance') (token : Token) :
    Coincides ν w here here' (Run.readAt scope distance token)
      (Run.readAt scope' distance' token) (ValueSplices ν) :=
  fun m m' splices =>
    coincides_defined token (splices.getAt scopes shifts token.lexeme) m m' splices

theorem get?_globals (frames : Frames Value) (name : String) :
    frames.get? Machine.globals name = frames.lookup? 0 name := by
  unfold Frames.get? Machine.globals
  rw [List.findSome?_cons]
  cases frames.lookup? 0 name <;> rfl

theorem find?_globals (frames : Frames Value) (name : String) :
    frames.find? Machine.globals name =
      if (frames.lookup? 0 name).isSome then some 0 else none := by
  unfold Frames.find? Machine.globals
  rw [List.find?_cons]
  cases frames.lookup? 0 name <;> rfl

theorem coincides_readVariable (scopes : Spliced w seam here here') {n n' : NodeId}
    (refers : ν.Refers seam n n') (token : Token) :
    Coincides ν w here here' (Run.readVariable n token) (Run.readVariable n' token)
      (ValueSplices ν) := by
  intro m m' splices
  rw [readVariable_apply, readVariable_apply, splices.hops, splices.hops', splices.scope,
    splices.scope']
  unfold Notes.Refers at refers
  generalize ν.long.get? n = o at refers ⊢
  generalize ν.short.get? n' = o' at refers ⊢
  cases refers with
  | some shifts =>
    exact coincides_defined token (splices.getAt scopes shifts token.lexeme) m m' splices
  | none =>
    rw [get?_globals, get?_globals]
    exact coincides_defined token (splices.frames 0 0 _ splices.globals) m m' splices

/-! ### Writing -/

/-- Putting values that correspond into frames that stand for each other. -/
theorem MachineSplices.put {m m' : Machine} (h : MachineSplices ν w here here' m m')
    {frame frame' : FrameId} (mark : w[frame]? = some (some frame')) (name : String)
    {v v' : Value} (hv : ValueSplices ν w v v') :
    MachineSplices ν w here here' { m with frames := m.frames.put frame name v }
      { m' with frames := m'.frames.put frame' name v' } := by
  obtain ⟨there, _⟩ := List.getElem?_eq_some_iff.mp mark
  have size' : (m'.frames.put frame' name v').records.size = m'.frames.records.size :=
    Array.size_modify
  refine { h with
    size := Array.size_modify.trans h.size
    below := fun f f' mark' => size'.symm ▸ h.below f f' mark'
    onto := fun f' below => h.onto f' (size' ▸ below)
    frames := ?_
    extra := ?_ }
  · intro other other' n mark'
    by_cases same : frame = other
    · subst same
      obtain rfl : frame' = other' := by
        rw [mark] at mark'
        exact Option.some.inj (Option.some.inj mark')
      by_cases hname : n = name
      · subst hname
        rw [Frames.lookup?_put_self _ _ _ (h.size ▸ there),
          Frames.lookup?_put_self _ _ _ (h.below _ _ mark)]
        exact .some hv
      · rw [Frames.lookup?_put_of_name_ne _ _ _ _ hname,
          Frames.lookup?_put_of_name_ne _ _ _ _ hname]
        exact h.frames _ _ _ mark
    · -- a frame stands for one frame only
      have same' : frame' ≠ other' := by
        rintro rfl
        exact same (h.apart _ _ _ mark mark')
      rw [Frames.lookup?_put_of_frame_ne _ _ _ _ same,
        Frames.lookup?_put_of_frame_ne _ _ _ _ same']
      exact h.frames _ _ _ mark'
  · intro other n mark'
    have differ : frame ≠ other := by
      rintro rfl
      rw [mark] at mark'
      cases mark'
    exact (Frames.lookup?_put_of_frame_ne _ _ _ _ differ).trans (h.extra other n mark')

theorem coincides_define (scopes : Spliced w seam here here') (inside : seam ≠ some 0)
    (name : String) {v v' : Value} (hv : ValueSplices ν w v v') :
    Coincides ν w here here' (Run.define name v) (Run.define name v') fun _ _ _ => True := by
  intro m m' splices
  obtain ⟨frame, frame', outer, outer', rfl, rfl, mark⟩ := scopes.front inside
  have defined : ∀ (m : Machine) (frame : FrameId) (outer : Scope), m.scope = frame :: outer →
      ∀ v : Value, Run.define name v m =
        .ok () { m with frames := m.frames.put frame name v } := by
    intro m frame outer scope v
    show EStateM.Result.ok () { m with frames := m.frames.define m.scope name v } = _
    rw [scope]
    rfl
  rw [defined m _ _ splices.scope, defined m' _ _ splices.scope']
  exact ⟨w, .refl w, splices.put mark name hv, trivial⟩

/-- Assignments that find frames that stand for each other, or none. -/
theorem coincides_assignIn (token : Token) {v v' : Value} (hv : ValueSplices ν w v v')
    {frame? frame?' : Machine → Option FrameId}
    (found : ∀ m m', MachineSplices ν w here here' m m' →
      Option.Rel (fun frame frame' => w[frame]? = some (some frame')) (frame? m)
        (frame?' m')) :
    Coincides ν w here here' (Run.assignIn frame? token v) (Run.assignIn frame?' token v')
      fun _ _ _ => True := by
  intro m m' splices
  have frames := found m m' splices
  unfold Run.assignIn
  generalize frame? m = o at frames ⊢
  generalize frame?' m' = o' at frames ⊢
  cases frames with
  | some mark => exact ⟨w, .refl w, splices.put mark token.lexeme hv, trivial⟩
  | none => exact coincides_throw _ m m' splices

/-- Frames that stand for each other have the same names. -/
theorem MachineSplices.found {m m' : Machine} (h : MachineSplices ν w here here' m m')
    {frame frame' : FrameId} (mark : w[frame]? = some (some frame')) (name : String) :
    Option.Rel (fun f f' => w[f]? = some (some f'))
      (if (m.frames.lookup? frame name).isSome then some frame else none)
      (if (m'.frames.lookup? frame' name).isSome then some frame' else none) := by
  have values := h.frames frame frame' name mark
  generalize m.frames.lookup? frame name = o at values ⊢
  generalize m'.frames.lookup? frame' name = o' at values ⊢
  cases values with
  | some _ => exact .some mark
  | none => exact .none

theorem coincides_assignVariable (scopes : Spliced w seam here here') {n n' : NodeId}
    (refers : ν.Refers seam n n') (token : Token) {v v' : Value}
    (hv : ValueSplices ν w v v') :
    Coincides ν w here here' (Run.assignVariable n token v) (Run.assignVariable n' token v')
      fun _ _ _ => True := by
  intro m m' splices
  rw [assignVariable_apply, assignVariable_apply, splices.hops, splices.hops']
  unfold Notes.Refers at refers
  generalize ν.long.get? n = o at refers ⊢
  generalize ν.short.get? n' = o' at refers ⊢
  cases refers with
  | some shifts =>
    refine coincides_assignIn token hv ?_ m m' splices
    intro m m' splices
    obtain ⟨frame, frame', outer, outer', there, there', mark⟩ := scopes.ancestor shifts
    rw [splices.scope, splices.scope']
    unfold Frames.findAt?
    rw [there, there']
    exact splices.found mark token.lexeme
  | none =>
    refine coincides_assignIn token hv ?_ m m' splices
    intro m m' splices
    rw [find?_globals, find?_globals]
    exact splices.found splices.globals token.lexeme

/-! ### New frames -/

/-- Names and values of new frames that correspond. -/
abbrev FrameSplices (ν : Notes) (w : World) : Bindings Value → Bindings Value → Prop :=
  Namewise (ValueSplices ν w)

theorem frameSplices_fill {vs vs' : List Value}
    (values : List.Forall₂ (ValueSplices ν w) vs vs') :
    ∀ (params : List Token) {b b' : Bindings Value}, FrameSplices ν w b b' →
    FrameSplices ν w
      ((params.zip vs).foldl (fun names (param, value) => names.set param.lexeme value) b)
      ((params.zip vs').foldl (fun names (param, value) => names.set param.lexeme value) b') := by
  induction values with
  | nil =>
    intro params b b' start
    rw [List.zip_nil_right]
    exact start
  | cons hv _ ih =>
    intro params b b' start
    cases params with
    | nil => exact start
    | cons param params => exact ih params (start.set param.lexeme hv)

theorem argumentFrame_splices (params : List Token) {vs vs' : List Value}
    (values : List.Forall₂ (ValueSplices ν w) vs vs') :
    FrameSplices ν w (argumentFrame params vs) (argumentFrame params vs') :=
  frameSplices_fill values params namewise_empty

theorem getElem?_concat {w : World} {next : Option FrameId} {frame : FrameId}
    {kept : Option FrameId} (mark : (w ++ [next])[frame]? = some kept) :
    frame = w.length ∧ kept = next ∨ frame ≠ w.length ∧ w[frame]? = some kept := by
  by_cases new : frame = w.length
  · subst new
    rw [List.getElem?_concat_length] at mark
    exact .inl ⟨rfl, (Option.some.inj mark).symm⟩
  · obtain ⟨below, _⟩ := List.getElem?_eq_some_iff.mp mark
    rw [List.length_append] at below
    have old : frame < w.length := Nat.lt_of_le_of_ne (Nat.le_of_lt_succ below) new
    rw [List.getElem?_append_left old] at mark
    exact .inr ⟨new, mark⟩

/-- New frames on both sides, which stand for each other. -/
theorem MachineSplices.child {m m' : Machine} (h : MachineSplices ν w here here' m m')
    {b b' : Bindings Value} (names : FrameSplices ν w b b') :
    MachineSplices ν (w ++ [some m'.frames.records.size]) here here'
      { m with frames := ⟨m.frames.records.push b⟩ }
      { m' with frames := ⟨m'.frames.records.push b'⟩ } := by
  have more : Later w (w ++ [some m'.frames.records.size]) := ⟨_, rfl⟩
  refine { h with
    size := by simp [h.size]
    globals := more.get h.globals
    fields := fun id name => optionSplices_later more (h.fields id name)
    frames := ?_
    below := ?_
    apart := ?_
    onto := ?_
    extra := ?_ }
  · intro frame frame' name mark
    show Option.Rel _ (Frames.lookup? ⟨m.frames.records.push b⟩ frame name)
      (Frames.lookup? ⟨m'.frames.records.push b'⟩ frame' name)
    rw [lookup?_push, lookup?_push, h.size]
    rcases getElem?_concat mark with ⟨new, kept⟩ | ⟨old, mark⟩
    · cases kept
      rw [if_pos new, if_pos rfl]
      exact optionSplices_later more (names name)
    · rw [if_neg old, if_neg (Nat.ne_of_lt (h.below frame frame' mark))]
      exact optionSplices_later more (h.frames frame frame' name mark)
  · intro frame frame' mark
    show frame' < (m'.frames.records.push b').size
    rw [Array.size_push]
    rcases getElem?_concat mark with ⟨_, kept⟩ | ⟨_, mark⟩
    · cases kept
      exact Nat.lt_succ_self _
    · exact Nat.lt_succ_of_lt (h.below frame frame' mark)
  · intro frame other frame' mark mark'
    rcases getElem?_concat mark with ⟨new, kept⟩ | ⟨_, mark⟩
    · cases kept
      rcases getElem?_concat mark' with ⟨new', _⟩ | ⟨_, mark'⟩
      · exact new.trans new'.symm
      · exact absurd (h.below other _ mark') (Nat.lt_irrefl _)
    · rcases getElem?_concat mark' with ⟨_, kept⟩ | ⟨_, mark'⟩
      · cases kept
        exact absurd (h.below frame _ mark) (Nat.lt_irrefl _)
      · exact h.apart frame other frame' mark mark'
  · intro frame' below
    have below : frame' < m'.frames.records.size + 1 := by
      simpa using below
    rcases Nat.lt_succ_iff_lt_or_eq.mp below with old | rfl
    · obtain ⟨frame, mark⟩ := h.onto frame' old
      exact ⟨frame, more.get mark⟩
    · exact ⟨w.length, List.getElem?_concat_length⟩
  · intro frame name mark
    show Frames.lookup? ⟨m.frames.records.push b⟩ frame name = none
    rw [lookup?_push, h.size]
    rcases getElem?_concat mark with ⟨_, kept⟩ | ⟨old, mark⟩
    · cases kept
    · rw [if_neg old]
      exact h.extra frame name mark

theorem coincides_child {scope scope' : Scope} (scopes : Spliced w seam scope scope')
    {b b' : Bindings Value} (names : FrameSplices ν w b b') :
    Coincides ν w here here' (Run.child scope b) (Run.child scope' b') fun w' =>
      Spliced w' seam.inner := by
  intro m m' splices
  have more : Later w (w ++ [some m'.frames.records.size]) := ⟨_, rfl⟩
  refine ⟨_, more, splices.child names, .kept ?_ (scopes.later more)⟩
  rw [splices.size]
  exact List.getElem?_concat_length

/-- A new frame without names on one side, which nothing stands for. -/
theorem MachineSplices.childExtra {m m' : Machine} (h : MachineSplices ν w here here' m m') :
    MachineSplices ν (w ++ [none]) here here'
      { m with frames := ⟨m.frames.records.push .empty⟩ } m' := by
  have more : Later w (w ++ [none]) := ⟨_, rfl⟩
  have old : ∀ {frame frame' : FrameId}, (w ++ [none])[frame]? = some (some frame') →
      frame ≠ w.length ∧ w[frame]? = some (some frame') := by
    intro frame frame' mark
    rcases getElem?_concat mark with ⟨_, kept⟩ | both
    · cases kept
    · exact both
  refine { h with
    size := by simp [h.size]
    globals := more.get h.globals
    fields := fun id name => optionSplices_later more (h.fields id name)
    below := fun frame frame' mark => h.below frame frame' (old mark).2
    apart := fun frame other frame' mark mark' =>
      h.apart frame other frame' (old mark).2 (old mark').2
    onto := fun frame' below => (h.onto frame' below).imp fun _ mark => more.get mark
    frames := ?_
    extra := ?_ }
  · intro frame frame' name mark
    show Option.Rel _ (Frames.lookup? ⟨m.frames.records.push .empty⟩ frame name) _
    rw [lookup?_push, h.size, if_neg (old mark).1]
    exact optionSplices_later more (h.frames frame frame' name (old mark).2)
  · intro frame name mark
    show Frames.lookup? ⟨m.frames.records.push .empty⟩ frame name = none
    rw [lookup?_push, h.size]
    rcases getElem?_concat mark with ⟨new, _⟩ | ⟨differ, mark⟩
    · rw [if_pos new]
      rfl
    · rw [if_neg differ]
      exact h.extra frame name mark

/-- A computation in a new scope without names, from which it returns. -/
def inNewScope (x : Run α) : Run α := do
  let scope ← Run.child (← get).scope .empty
  Run.within scope x

theorem coincides_inNewScope {x y : Run α} {P : World → α → α → Prop}
    (scopes : Spliced w seam here here')
    (h : ∀ w' inner inner', Later w w' → Spliced w' seam.inner inner inner' →
      Coincides ν w' inner inner' x y P) :
    Coincides ν w here here' (inNewScope x) (inNewScope y) P := by
  refine coincides_get fun m m' scope scope' => ?_
  rw [scope, scope']
  apply coincides_bind (coincides_child scopes namewise_empty)
  intro w' inner inner' more scopes'
  exact coincides_within (h w' inner inner' more scopes')

/-- One side runs in a new scope without names, the other one where it is. -/
theorem coincides_extra {x y : Run α} {P : World → α → α → Prop}
    (scopes : Spliced w none here here')
    (h : ∀ w' inner, Later w w' → Spliced w' (some 0) inner here' →
      Coincides ν w' inner here' x y P) :
    Coincides ν w here here' (inNewScope x) y P := by
  intro m m' splices
  have more : Later w (w ++ [none]) := ⟨_, rfl⟩
  have mark : (w ++ [none])[m.frames.records.size]? = some none := by
    rw [splices.size]
    exact List.getElem?_concat_length
  have start := splices.scope
  have inside : Spliced (w ++ [none]) (some 0) (m.frames.records.size :: m.scope) here' :=
    .extra mark (start ▸ scopes.later more)
  -- the first machine, with the new frame open
  have opened : MachineSplices ν (w ++ [none]) (m.frames.records.size :: m.scope) here'
      { m with
        frames := ⟨m.frames.records.push .empty⟩
        scope := m.frames.records.size :: m.scope } m' :=
    { splices.childExtra with scope := rfl }
  show ResultSplices ν w here here' P
    (Run.within (m.frames.records.size :: m.scope) x
      { m with frames := ⟨m.frames.records.push .empty⟩ }) (y m')
  unfold Run.within
  rcases ((h _ _ more inside _ m' opened).later more).cases with
    ⟨a, b, m₁, m₁', w', run, run', more', splices', holds⟩ |
    ⟨e, m₁, m₁', w', run, run', more', splices'⟩
  · dsimp only
    rw [run, run']
    exact ⟨w', more', { splices' with scope := start }, holds⟩
  · dsimp only
    rw [run, run']
    exact ⟨w', more', { splices' with scope := start }, rfl⟩

/-! ### Functions and instances -/

theorem MachineSplices.ofSerial {m m' : Machine} (h : MachineSplices ν w here here' m m') :
    MachineSplices ν w here here' { m with serial := m.serial + 1 }
      { m' with serial := m'.serial + 1 } :=
  { h with serial := congrArg (· + 1) h.serial }

/-- Both sides have called the host as often as the other one, and go on doing so. -/
theorem coincides_countHostCall : Coincides ν w here here' Run.countHostCall Run.countHostCall
    fun _ earlier earlier' => earlier = earlier' :=
  fun _ _ splices => ⟨w, .refl w,
    { splices with hostCalls := congrArg (· + 1) splices.hostCalls }, splices.hostCalls⟩

theorem coincides_newClosure (around : Seam → Seam) {f f' : FunctionDecl}
    {scope scope' : Scope} (inside : around seam ≠ some 0) (scopes : Spliced w seam scope scope')
    (declaration : FunctionSplices ν (around seam) f f') (isInitializer : Bool) :
    Coincides ν w here here' (Run.newClosure f scope isInitializer)
      (Run.newClosure f' scope' isInitializer) fun w' => RoutineSplices ν w' around :=
  fun _ _ splices =>
    ⟨w, .refl w, splices.ofSerial, splices.serial, rfl, seam, inside, scopes, declaration⟩

theorem coincides_newInstance {c c' : Class} (h : ClassSplices ν w c c') :
    Coincides ν w here here' (Run.newInstance c) (Run.newInstance c') fun w' o o' =>
      o.id = o'.id ∧ o.ofClass = c ∧ o'.ofClass = c' ∧ ClassSplices ν w' c c' := by
  intro m m' splices
  refine ⟨w, .refl w, { splices with instances := ?_, fields := ?_ }, splices.instances, rfl,
    rfl, h⟩
  · show (m.fields.push .empty).size = (m'.fields.push .empty).size
    rw [Array.size_push, Array.size_push, splices.instances]
  · intro id name
    show Option.Rel _ ((m.fields.push .empty)[id]?.bind _) ((m'.fields.push .empty)[id]?.bind _)
    rw [Array.getElem?_push, Array.getElem?_push, splices.instances]
    by_cases new : id = m'.fields.size
    · rw [if_pos new, if_pos new]
      exact .none
    · rw [if_neg new, if_neg new]
      exact splices.fields id name

theorem coincides_bindMethod {c c' : Closure} (hc : MethodSplices ν w c c') {o o' : Instance}
    (ho : ValueSplices ν w (.object o) (.object o')) :
    Coincides ν w here here' (Run.bindMethod c o) (Run.bindMethod c' o') (ClosureSplices ν) := by
  obtain ⟨_, initializer, seam, _, scopes, declaration⟩ := hc
  unfold Run.bindMethod
  rw [← initializer]
  have frame : FrameSplices ν w (.single "this" (.object o)) (.single "this" (.object o')) :=
    namewise_empty.set "this" ho
  apply coincides_bind (coincides_child scopes frame)
  intro w' inside inside' _ scopes'
  exact coincides_newClosure id seam.inner_ne scopes' declaration c.isInitializer

/-! ### Properties and output -/

theorem coincides_property {o o' : Instance} (ho : ValueSplices ν w (.object o) (.object o'))
    (token : Token) :
    Coincides ν w here here' (Run.property o token) (Run.property o' token)
      (ValueSplices ν) := by
  intro m m' splices
  cases ho with
  | object id hclass =>
    have field := splices.fields o.id token.lexeme
    have found := hclass.findMethod token.lexeme
    rw [property_apply, property_apply, ← id]
    generalize (m.fields[o.id]?).bind (·.get? token.lexeme) = v at field ⊢
    generalize (m'.fields[o.id]?).bind (·.get? token.lexeme) = v' at field ⊢
    cases field with
    | some hv => exact coincides_pure hv m m' splices
    | none =>
      generalize o.ofClass.findMethod? token.lexeme = f at found ⊢
      generalize o'.ofClass.findMethod? token.lexeme = f' at found ⊢
      cases found with
      | some hmethod =>
        have bound : Coincides ν w here here' (Run.bindMethod _ o) (Run.bindMethod _ o')
            (ClosureSplices ν) := coincides_bindMethod hmethod (.object id hclass)
        exact coincides_map bound (fun _ _ _ => .function) m m' splices
      | none => exact coincides_fail token _ m m' splices

theorem coincides_setField {o o' : Instance} (id : o.id = o'.id) (name : String)
    {v v' : Value} (hv : ValueSplices ν w v v') :
    Coincides ν w here here' (Run.setField o name v) (Run.setField o' name v')
      fun _ _ _ => True := by
  intro m m' splices
  refine ⟨w, .refl w, { splices with instances := ?_, fields := ?_ }, trivial⟩
  · show (m.fields.modify _ _).size = (m'.fields.modify _ _).size
    rw [Array.size_modify, Array.size_modify, splices.instances]
  · intro target n
    show Option.Rel _ ((m.fields.modify o.id (·.set name v))[target]?.bind _)
      ((m'.fields.modify o'.id (·.set name v'))[target]?.bind _)
    rw [Array.getElem?_modify, Array.getElem?_modify, ← id]
    have before := splices.fields target n
    by_cases same : o.id = target
    · rw [if_pos same, if_pos same]
      -- both sides have this instance, or neither
      by_cases there : target < m.fields.size
      · have there' : target < m'.fields.size := splices.instances ▸ there
        rw [Array.getElem?_eq_getElem there, Array.getElem?_eq_getElem there'] at before ⊢
        generalize m.fields[target] = r at before ⊢
        generalize m'.fields[target] = r' at before ⊢
        show Option.Rel _ ((r.set name v).get? n) ((r'.set name v').get? n)
        by_cases hname : n = name
        · subst hname
          rw [Bindings.get?_set_self, Bindings.get?_set_self]
          exact .some hv
        · rw [Bindings.get?_set_of_ne _ _ hname, Bindings.get?_set_of_ne _ _ hname]
          exact before
      · have nowhere : m.fields[target]? = none :=
          Array.getElem?_eq_none (Nat.le_of_not_lt there)
        have nowhere' : m'.fields[target]? = none :=
          Array.getElem?_eq_none (splices.instances ▸ Nat.le_of_not_lt there)
        rw [nowhere, nowhere']
        exact .none
    · rw [if_neg same, if_neg same]
      exact before

theorem coincides_printLine (token : Token) (line : String) :
    Coincides ν w here here' (Run.printLine token line) (Run.printLine token line)
      fun _ _ _ => True := by
  intro m m' splices
  unfold Run.printLine
  rw [← splices.sink]
  by_cases fits : (m.sink.write (line ++ "\n").toUTF8.data).1 = true
  · simp only [fits, if_true]
    exact ⟨w, .refl w, { splices with sink := rfl }, trivial⟩
  · simp only [fits]
    exact ⟨w, .refl w, { splices with sink := rfl }, rfl⟩

/-! ### Superclasses -/

theorem coincides_asClass (token : Token) {v v' : Value} (hv : ValueSplices ν w v v') :
    Coincides ν w here here' (asClass token v) (asClass token v') (ClassSplices ν) := by
  cases hv with
  | classObject hc => exact coincides_pure hc
  | _ => exact coincides_fail token _

theorem coincides_asInstance (token : Token) {v v' : Value} (hv : ValueSplices ν w v v') :
    Coincides ν w here here' (asInstance token v) (asInstance token v') fun w' o o' =>
      ValueSplices ν w' (.object o) (.object o') := by
  cases hv with
  | object id hc => exact coincides_pure (.object id hc)
  | _ => exact coincides_fail token _

theorem coincides_superMethod (scopes : Spliced w seam here here') {n n' : NodeId}
    (refers : ν.RefersUp seam n n') (keyword method : Token) :
    Coincides ν w here here' (superMethod n keyword method) (superMethod n' keyword method)
      (ValueSplices ν) := by
  have hopsOf : Coincides ν w here here' (Run.hopsOf n) (Run.hopsOf n') fun _ =>
      Option.Rel fun d d' => seam.Shifts d d' ∧ seam.Shifts (d - 1) (d' - 1) := by
    intro m m' splices
    refine ⟨w, .refl w, splices, ?_⟩
    rw [splices.hops, splices.hops']
    exact refers
  unfold superMethod
  apply coincides_bind hopsOf
  intro w₁ o o' more₁ shifts
  cases shifts with
  | none => exact coincides_fail keyword _
  | some shifts =>
    refine coincides_get fun m m' scope scope' => ?_
    dsimp only
    rw [scope, scope']
    have scopes₁ := scopes.later more₁
    apply coincides_bind (coincides_readAt scopes₁ shifts.1 keyword)
    intro w₂ v v' more₂ hv
    apply coincides_bind (coincides_asClass keyword hv)
    intro w₃ c c' more₃ hc
    have scopes₃ := scopes₁.later (more₂.trans more₃)
    apply coincides_bind (coincides_readAt scopes₃ shifts.2 _)
    intro w₄ v v' more₄ hv'
    apply coincides_bind (coincides_asInstance keyword hv')
    intro w₅ o o' more₅ ho
    have found := (hc.later (more₄.trans more₅)).findMethod method.lexeme
    generalize c.findMethod? method.lexeme = f at found ⊢
    generalize c'.findMethod? method.lexeme = f' at found ⊢
    cases found with
    | some hmethod =>
      exact coincides_map (coincides_bindMethod hmethod ho) fun _ _ _ => .function
    | none => exact coincides_fail method _

end Lox.Evaluation
