import Lox.Proofs.Evaluation.Lockstep

/-! # Where references lead

  A reference is looked up at its noted distance. On a machine whose frames stand for the
  scopes around the reference, the frame at that distance is the one of the scope that
  declares the name, and it has the name, unless the reference assigns to the variable that
  is being declared around it.
-/

namespace Lox.Evaluation

open Binding

variable {L : Ledger} {host : Host} {m m' : Machine}

/-! ### Frames and scopes at a distance -/

theorem forall₂_getElem? {α β : Type} {R : α → β → Prop} {as : List α} {bs : List β}
    (h : List.Forall₂ R as bs) {d : Nat} {b : β} (hb : bs[d]? = some b) :
    ∃ a, as[d]? = some a ∧ R a b := by
  induction h generalizing d with
  | nil => cases hb
  | @cons a b' as bs first _ ih =>
    cases d with
    | zero =>
      cases hb
      exact ⟨a, rfl, first⟩
    | succ d => exact ih hb

theorem Standing.get {scope : Scope} {scopes : List (Construct × List String)}
    (h : Standing L m scope scopes) {d : Nat} {entry : Construct × List String}
    (hd : scopes[d]? = some entry) :
    ∃ frame, scope[d]? = some frame ∧ FrameFits L m frame entry := by
  obtain ⟨frames, rfl, fits, _⟩ := h
  obtain ⟨frame, hframe, fit⟩ := forall₂_getElem? fits hd
  obtain ⟨below, _⟩ := List.getElem?_eq_some_iff.mp hframe
  exact ⟨frame, (List.getElem?_append_left below).trans hframe, fit⟩

theorem mem_declaredNames_append {before : List Stmt} {s : Stmt} {n : String}
    (h : n ∈ declaredNames (before ++ [s])) :
    n ∈ declaredNames before ∨ ∃ token, declared? s = some token ∧ n = token.lexeme := by
  cases declares : declared? s with
  | none =>
    rw [declaredNames_append_none declares] at h
    exact .inl h
  | some token =>
    rw [declaredNames_append_some declares, List.mem_append, List.mem_singleton] at h
    rcases h with old | new
    · exact .inl old
    · exact .inr ⟨token, rfl, new⟩

/-- Before a statement of a body the scopes are those of the places in it, but for the name it
    declares. -/
theorem viewFrom_get {body : Body} {before : List Stmt} {current : Stmt} {outer : Path} {d : Nat}
    {construct : Construct} {names : List String}
    (h : (viewFrom body (before ++ [current]) outer)[d]? = some (construct, names)) :
    ∃ names', (viewFrom body before outer)[d]? = some (construct, names') ∧
      ∀ n ∈ names, n ∈ names' ∨ (body.scope? []).isSome = true ∧
        ∃ token, declared? current = some token ∧ n = token.lexeme := by
  have outside : ∀ {entry : Construct × List String} {d : Nat},
      (entry :: outer.scopes)[d + 1]? = some (construct, names) →
      outer.scopes[d]? = some (construct, names) := fun h => h
  -- only the innermost scope gets a name, and the global one is not among the scopes
  cases body with
  | program => exact ⟨names, h, fun n hn => .inl hn⟩
  | block ss =>
    cases d with
    | succ d => exact ⟨names, outside h, fun n hn => .inl hn⟩
    | zero =>
      cases h
      refine ⟨_, rfl, ?_⟩
      intro n hn
      rcases mem_declaredNames_append hn with old | new
      · exact .inl old
      · exact .inr ⟨rfl, new⟩
  | routine isMethod f =>
    cases d with
    | succ d => exact ⟨names, outside h, fun n hn => .inl hn⟩
    | zero =>
      cases h
      refine ⟨_, rfl, ?_⟩
      intro n hn
      rcases List.mem_append.mp hn with param | inner
      · exact .inl (List.mem_append_left _ param)
      · rcases mem_declaredNames_append inner with old | new
        · exact .inl (List.mem_append_right _ old)
        · exact .inr ⟨rfl, new⟩

/-! ### References -/

/-- Whether a reference assigns to the local variable in whose initializer it stands. -/
def Premature (path : Path) (initialized : Option Token) : Occurrence → Prop
  | .assign _ name =>
    path.isLocal = true ∧ ∃ declared, initialized = some declared ∧ declared.lexeme = name.lexeme
  | _ => False

/-- No other reference in an initializer is to the variable that is declared. -/
theorem name_ne_of_initialized (lawful : Lawful L) {path : Path} {token : Token} {o : Occurrence}
    (site : L.sites (.occurrence path (some token) o)) (isLocal : path.isLocal = true)
    (timely : ¬Premature path (some token) o) : o.name.lexeme ≠ token.lexeme := by
  obtain ⟨_, named, proper⟩ := lawful.proper _ site
  have isName := named token rfl
  intro same
  cases o with
  | read node name =>
    have allowed := lawful.accepted _ site
    have both : (path.isLocal && (some token).any (·.lexeme == name.lexeme)) = true :=
      Bool.and_eq_true_iff.mpr ⟨isLocal, beq_iff_eq.mpr same.symm⟩
    rw [violation, if_pos both] at allowed
    cases allowed
  | assign node name => exact timely ⟨isLocal, token, rfl, same.symm⟩
  -- no variable is spelled like a keyword
  | self node keyword =>
    have spelled : keyword.lexeme = Keyword.thisWord.spelling := proper.1.2 _ proper.2
    exact isName_ne_spelling isName .thisWord (same.symm.trans spelled)
  | parent node keyword =>
    have spelled : keyword.lexeme = Keyword.superWord.spelling := proper.1.2 _ proper.2
    exact isName_ne_spelling isName .superWord (same.symm.trans spelled)

/-- The frame at the noted distance is the one of the scope that declares the name, and has
    it. -/
theorem placed_leads (lawful : Lawful L) (good : Good L m) {o : Occurrence}
    (placed : Placed L m [o]) {d : Nat} (noted : m.hops.get? o.node = some d) :
    ∃ path initialized construct names frame,
      L.sites (.occurrence path initialized o) ∧ path.hops? o.name = some d ∧
      path.scopes[d]? = some (construct, names) ∧ o.name.lexeme ∈ names ∧
      m.scope[d]? = some frame ∧ L.created frame construct ∧
      (¬Premature path initialized o → Bound m frame o.name.lexeme) := by
  obtain ⟨body, before, current, outer, initialized, sites, standing, pending, _⟩ := placed
  have site := sites o (List.mem_singleton.mpr rfl)
  have hops : Path.hops? (.within body before current :: outer) o.name = some d :=
    (good.hops _ _ _ site).symm.trans noted
  obtain ⟨below, known, _⟩ := List.findIdx?_eq_some_iff_getElem.mp hops
  obtain ⟨⟨construct, names⟩, hentry⟩ : ∃ entry,
      (Path.scopes (.within body before current :: outer))[d] = entry := ⟨_, rfl⟩
  have hscope := List.getElem?_eq_some_iff.mpr ⟨below, hentry⟩
  rw [hentry] at known
  have mem : o.name.lexeme ∈ names := List.contains_iff_mem.mp known
  -- the frames stand for the scopes before the statement, in which what it declares is not
  -- there yet
  have hview := hscope
  rw [scopes_within] at hview
  obtain ⟨names', hbefore, more⟩ := viewFrom_get hview
  obtain ⟨frame, hframe, created, bound⟩ := standing.get hbefore
  refine ⟨.within body before current :: outer, initialized, construct, names, frame, site, hops,
    hscope, mem, hframe, created, ?_⟩
  intro timely
  rcases more _ mem with old | ⟨isLocal, token, declares, same⟩
  · exact bound _ old
  · rcases pending token declares with rfl | other
    · exact absurd same (name_ne_of_initialized lawful site isLocal timely)
    · exact absurd same (other o (List.mem_singleton.mpr rfl))

/-! ### Looking references up -/

/-- A reference that is looked up stands somewhere, and the frames in view fit. -/
theorem accesses_placed (honest : Honest host) (lawful : Lawful L) {c : Config} {o : Occurrence}
    (fits : Fits L host c) (access : Accesses host c o m) : Good L m ∧ Placed L m [o] := by
  cases access with
  | read => exact ⟨fits.good, fits.call.1⟩
  | self => exact ⟨fits.good, fits.call.1⟩
  | parent => exact ⟨fits.good, fits.call.1⟩
  | @assign fuel _ _ _ _ _ _ run =>
    have sound := soundAt honest lawful fuel
    obtain ⟨kept, _⟩ := (sound.evaluate (fits.step lawful .assigned sound)).ok run
    have placed : Placed L _ (_ ++ [_]) := fits.call.1
    exact ⟨kept.good, (placed.keep kept).sub fun o ho => List.mem_append_right _ ho⟩

theorem assignVariable_eq {node : NodeId} {name : Token} {d : Nat} {frame : FrameId}
    (noted : m.hops.get? node = some d)
    (found : m.frames.findAt? m.scope d name.lexeme = some frame) (v : Value) :
    Run.assignVariable node name v m =
      .ok () { m with frames := m.frames.put frame name.lexeme v } := by
  simp only [assignVariable_apply, noted, Run.assignIn, found]

/-- Looking up a reference does not fail for a missing variable, if the frame at its distance
    has its name. -/
theorem access_ne_undefined (honest : Honest host) (lawful : Lawful L) {c : Config}
    {o : Occurrence} (fits : Fits L host c) (access : Accesses host c o m) {d : Nat}
    (noted : m.hops.get? o.node = some d) {frame : FrameId} (hframe : m.scope[d]? = some frame)
    (bound : Bound m frame o.name.lexeme) {e : Expr} (call : c.call = .evaluate e) (t : Token)
    (m' : Machine) : evaluate host c.fuel e c.machine ≠ .error (.fault (.undefined t)) m' := by
  obtain ⟨good, placed⟩ := accesses_placed honest lawful fits access
  obtain ⟨v, hv⟩ := Option.isSome_iff_exists.mp bound
  rw [← getAt?_eq hframe] at hv
  cases access with
  | @read _ node name =>
    cases call
    have run : Run.readVariable node name m = .ok v m := readVariable_eq noted hv
    show Run.readVariable node name m ≠ _
    rw [run]
    simp
  | @self _ node keyword =>
    cases call
    have run : Run.readVariable node keyword m = .ok v m := readVariable_eq noted hv
    show Run.readVariable node keyword m ≠ _
    rw [run]
    simp
  | parent =>
    cases call
    obtain ⟨_, _, _, _, _, noted, super, this⟩ := placed.super lawful good
    show superMethod _ _ _ m ≠ _
    rw [superMethod_found noted super this]
    split
    · exact nofun
    · exact nofun
  | @assign fuel node name value m₀ _ w run =>
    cases call
    -- its value is there already, so that only the target could be missing
    have put : Run.assignVariable node name w m =
        .ok () { m with frames := m.frames.put frame name.lexeme w } :=
      assignVariable_eq noted (findAt?_eq hframe bound) w
    have whole : evaluate host (fuel + 1) (.assign node name value) m₀ =
        .ok w { m with frames := m.frames.put frame name.lexeme w } := by
      rw [evaluate]
      show EStateM.bind _ _ m₀ = _
      rw [EStateM.bind, run]
      show EStateM.bind _ _ m = _
      rw [EStateM.bind, put]
      rfl
    rw [whole]
    simp

end Lox.Evaluation
