import Lox.Proofs.Evaluation.Sessions
import Lox.Proofs.Mirror.Copies

/-! # Sessions that mirror each other

  Two sessions are similar when their machines mirror each other up to the identities of
  nodes, whichever identities were used up and whatever was noted under those that no
  program has. A program and its copy do the same in similar sessions, which are similar
  again afterwards (`execute_similar`), and every session that can be reached is similar to
  itself (`Reached.similar_self`).
-/

namespace Lox.Evaluation

open Binding

/-! ### Reachable sessions -/

/-- How a session comes about. The source texts that were run in it are listed, the last one
    first. -/
inductive Reached (host : Host) : Session → List String → Prop where
  | start (sink : Sink) : Reached host (.start host sink) []
  | cleared {s : Session} {texts : List String} :
      Reached host s texts → Reached host s.clearFlags texts
  | ran {s s' : Session} {texts : List String} {fuel : Nat} {source : String}
      {problems : List Problem} : Reached host s texts →
      s.run host fuel source = some (problems, s') → Reached host s' (source :: texts)

variable {host : Host} {s s' t t' : Session} {texts : List String} {source : String}

theorem Reached.history (reached : Reached host s texts) :
    ∃ launches, History host s launches := by
  induction reached with
  | start sink => exact ⟨_, .start sink⟩
  | cleared _ ih =>
    obtain ⟨launches, history⟩ := ih
    exact ⟨_, history.cleared⟩
  | @ran s s' texts fuel source problems _ ran ih =>
    obtain ⟨launches, history⟩ := ih
    by_cases accepted : (s.prepare source).diagnostics = []
    · exact ⟨_, history.ran accepted ran⟩
    · exact ⟨_, history.refused accepted ran⟩

theorem Reached.settled (honest : Honest host) (reached : Reached host s texts) :
    ∃ launches, Settled host s launches := by
  obtain ⟨launches, history⟩ := reached.history
  exact ⟨launches, history.settled honest⟩

/-! ### Nodes of a session -/

/-- Whether a node was given out in a session, and with which distance. -/
def notes (s : Session) (node : NodeId) (distance : Option Nat) : Prop :=
  node < s.fresh ∧ s.machine.hops.get? node = distance

/-- A session that has kept the nodes of another one. -/
structure Advances (s s' : Session) : Prop where
  fresh : s.fresh ≤ s'.fresh
  hops : ∀ node, node < s.fresh → s'.machine.hops.get? node = s.machine.hops.get? node

theorem Advances.refl (s : Session) : Advances s s :=
  ⟨Nat.le_refl _, fun _ _ => rfl⟩

theorem Advances.notes {n : NodeId} {distance : Option Nat} (h : Advances s s')
    (noted : notes s n distance) : notes s' n distance :=
  ⟨Nat.lt_of_lt_of_le noted.1 h.fresh, (h.hops n noted.1).trans noted.2⟩

theorem noteReferences_eq {rs : List Reference} : ∀ m : Machine,
    ∃ hops, m.noteReferences rs = { m with hops } := by
  induction rs with
  | nil => exact fun m => ⟨m.hops, rfl⟩
  | cons r rest ih =>
    intro m
    rw [noteReferences_cons]
    obtain ⟨hops, later⟩ := ih (m.noteReferences [r])
    have first : ∃ hops, m.noteReferences [r] = { m with hops } := by
      unfold Machine.noteReferences
      rw [List.foldl_cons, List.foldl_nil]
      cases r.hops with
      | none => exact ⟨m.hops, rfl⟩
      | some d => exact ⟨m.hops.insert r.node d, rfl⟩
    obtain ⟨hops', first⟩ := first
    rw [later, first]
    exact ⟨hops, rfl⟩

/-- Making a source text ready changes nothing of a machine but the distances. -/
theorem prepare_machine (s : Session) (source : String) :
    ∃ hops, (s.prepare source).session.machine = { s.machine with hops } := by
  obtain ⟨rs, _, session⟩ := prepare_session s source
  rw [session]
  exact noteReferences_eq s.machine

theorem prepare_advances (s : Session) (source : String) :
    Advances s (s.prepare source).session := by
  obtain ⟨rs, new, session⟩ := prepare_session s source
  rw [session]
  exact ⟨Grammar.readProgram_fresh_le _ _,
    fun _ below => hops_noteReferences_old (fun r hr => (new r hr).1) below⟩

/-- A text that is refused leaves nothing behind but nodes and their distances. -/
theorem run_refused {fuel : Nat} {problems : List Problem}
    (refused : (s.prepare source).diagnostics ≠ [])
    (ran : s.run host fuel source = some (problems, s')) :
    problems = (s.prepare source).diagnostics.map .refused ∧ Advances s s' ∧
      ∃ hops, s'.machine = { s.machine with hops } := by
  rw [Session.run, if_neg (mt List.isEmpty_iff.mp refused)] at ran
  cases ran
  have ready := prepare_advances s source
  exact ⟨rfl, ⟨ready.fresh, ready.hops⟩, prepare_machine s source⟩

theorem run_accepted {fuel : Nat} (accepted : (s.prepare source).diagnostics = []) :
    s.run host fuel source =
      Session.execute host fuel (s.prepare source).program (s.prepare source).session := by
  rw [Session.run, if_pos (List.isEmpty_iff.mpr accepted)]

/-- A text of which nothing is reported was accepted, and its program came to its end. -/
theorem run_unreported {fuel : Nat} (ran : s.run host fuel source = some ([], s')) :
    (s.prepare source).diagnostics = [] ∧
      interpret host fuel (s.prepare source).program (s.prepare source).session.machine =
        .ok () s'.machine ∧ s'.fresh = (s.prepare source).session.fresh := by
  have accepted : (s.prepare source).diagnostics = [] := by
    by_contra refused
    have reported := (run_refused refused ran).1
    exact refused (List.map_eq_nil_iff.mp reported.symm)
  rw [run_accepted accepted, Session.execute] at ran
  split at ran
  · next m run =>
    cases ran
    exact ⟨accepted, run, rfl⟩
  · cases ran
  · cases ran

/-- A text that can be read is made ready to run, whatever is found in it. -/
theorem prepare_read (quiet : complaints s source = []) : s.prepare source =
    { diagnostics := (resolve (readIn s source).value).diagnostics
      program := (readIn s source).value
      session :=
        { s with
          fresh := (readIn s source).fresh
          machine := s.machine.noteReferences (resolve (readIn s source).value).references } } := by
  rw [prepare_eq, quiet]
  rfl

theorem complaints_eq_nil_iff : complaints s source = [] ↔
    Lexical.errors source = [] ∧ (readIn s source).errors = [] := by
  unfold complaints Grammar.Reading.diagnostics
  rw [List.append_eq_nil_iff, List.map_eq_nil_iff, List.map_eq_nil_iff]

theorem accepted_iff : (s.prepare source).diagnostics = [] ↔
    complaints s source = [] ∧ (resolve (readIn s source).value).errors = [] := by
  constructor
  · intro accepted
    refine ⟨?_, (prepare_accepted accepted).2.1⟩
    by_contra complaining
    rw [prepare_eq, if_neg (mt List.isEmpty_iff.mp complaining)] at accepted
    exact complaining accepted
  · intro ⟨quiet, clean⟩
    rw [prepare_read quiet]
    exact List.map_eq_nil_iff.mpr clean

theorem references_distinct (s : Session) (source : String) :
    ((resolve (readIn s source).value).references.map (·.node)).Nodup := by
  rw [resolve_readIn]
  exact (Grammar.readProgram_sites s.fresh (Lexical.tokens source)).1.1.sublist
    (reference_nodes_sublist _)

/-- The distances that are found in a text are noted under its nodes. -/
theorem prepare_recorded {launches : List Launch} (settled : Settled host s launches)
    (quiet : complaints s source = []) :
    Recorded (notes (s.prepare source).session) (resolve (readIn s source).value) := by
  intro r hr
  rw [prepare_read quiet]
  have fresh := references_fresh r hr
  exact ⟨fresh.2, hops_noteReferences_of_mem (references_distinct s source) hr
    (settled.unnoted r.node fresh.1)⟩

/-! ### Similar sessions -/

section

variable {T U : Token → Token → Prop} (relines : Relines T)

/-- Whether the machines of two sessions mirror each other, between two programs. -/
def Similar (s t : Session) : Prop :=
  ∃ w, MachineMirrors (copying relines (notes s) (notes t)) w Machine.globals s.machine t.machine

variable {relines} {relines' : Relines U}

theorem copying_widens (more : ∀ t t', T t t' → U t t') (left : Advances s s')
    (right : Advances t t') : (copying relines (notes s) (notes t)).Widens id
      (copying relines' (notes s') (notes t')) :=
  ⟨fun token => more _ _ token, fun noted => ⟨left.notes noted.1, right.notes noted.2⟩,
    Iff.rfl, rfl⟩

/-- Sessions stay similar when more nodes are given out and more distances are noted. -/
theorem Similar.advance (h : Similar relines s t) (more : ∀ t t', T t t' → U t t')
    (left : Advances s s') (right : Advances t t')
    (same : ∃ hops, s'.machine = { s.machine with hops })
    (same' : ∃ hops, t'.machine = { t.machine with hops }) : Similar relines' s' t' := by
  obtain ⟨w, mirrors⟩ := h
  have wide : (copying relines (notes s) (notes t)).Widens id
      (copying relines' (notes s') (notes t')) := copying_widens more left right
  obtain ⟨hops, same⟩ := same
  obtain ⟨hops', same'⟩ := same'
  have noted : ∀ node node' distance,
      (copying relines' (notes s') (notes t')).node node node' distance →
      hops.get? node = distance ∧ hops'.get? node' = distance := by
    rintro node node' distance ⟨⟨_, here⟩, ⟨_, there⟩⟩
    rw [same] at here
    rw [same'] at there
    exact ⟨here, there⟩
  refine ⟨w.map id, ?_⟩
  have result := mirrors.widen wide noted
  rw [← same, ← same'] at result
  exact result

/-- Whether a computation may leave a machine behind, however it ends. -/
def Leaves {α : Type} (x : Run α) (m m' : Machine) : Prop :=
  (∃ a, x m = .ok a m') ∨ ∃ e, x m = .error e m'

/-- What two runs report. -/
inductive ProblemsMirror {κ : Type} (μ : Mirror κ) : List Problem → List Problem → Prop where
  | none : ProblemsMirror μ [] []
  | fault {e e' : RuntimeError} : μ.Faults e e' → ProblemsMirror μ [.fault e] [.fault e']

theorem notes_congr (fresh : s'.fresh = s.fresh) (hops : s'.machine.hops = s.machine.hops) :
    notes s' = notes s := by
  unfold notes
  rw [fresh, hops]

/-- Sessions on machines that mirror each other, and have the distances of similar ones, are
    similar. -/
theorem MachineMirrors.similar {w : List Unit}
    (mirrors : MachineMirrors (copying relines (notes s) (notes t)) w Machine.globals
      s'.machine t'.machine) (hops : s'.machine.hops = s.machine.hops)
    (hops' : t'.machine.hops = t.machine.hops) (fresh : s'.fresh = s.fresh)
    (fresh' : t'.fresh = t.fresh) : Similar relines s' t' := by
  refine ⟨w, ?_⟩
  rw [notes_congr fresh hops, notes_congr fresh' hops']
  exact mirrors

variable {Alike : Value → Value → Prop} {fuel : Nat}

/-- A program and its copy do the same in similar sessions. -/
theorem execute_similar (discreet : Discreet Alike host)
    (looks : ∀ w v v', ValueMirrors (copying relines (notes s) (notes t)) w v v' → Alike v v')
    (similar : Similar relines s t) {p p' : List Stmt}
    (programs : StmtsMirror (copying relines (notes s) (notes t)) [()] p p')
    (keeps : ∀ m', Leaves (interpret host fuel p) s.machine m' → m'.hops = s.machine.hops)
    (keeps' : ∀ m', Leaves (interpret host fuel p') t.machine m' → m'.hops = t.machine.hops) :
    Option.Rel (fun r r' => ProblemsMirror (copying relines (notes s) (notes t)) r.1 r'.1 ∧
        Similar relines r.2 r'.2)
      (Session.execute host fuel p s) (Session.execute host fuel p' t) := by
  obtain ⟨w, mirrors⟩ := similar
  have views : Views w Machine.globals [()] := .cons mirrors.globals .nil
  have agrees : Agrees _ w Machine.globals (interpret host fuel p) (interpret host fuel p') _ :=
    agrees_interpret discreet looks views programs
  have result := agrees _ _ mirrors
  -- whatever machines are left behind, they keep the distances and hence the nodes
  have after : ∀ w₁ m m',
      MachineMirrors (copying relines (notes s) (notes t)) w₁ Machine.globals m m' →
      Leaves (interpret host fuel p) s.machine m →
      Leaves (interpret host fuel p') t.machine m' → ∀ flag flag',
      Similar relines { s with machine := m, hadRuntimeError := flag }
        { t with machine := m', hadRuntimeError := flag' } :=
    fun _ m m' mirrors₁ left right _ _ =>
      mirrors₁.similar (keeps m left) (keeps' m' right) rfl rfl
  unfold Session.execute
  generalize run : interpret host fuel p s.machine = r at result ⊢
  generalize run' : interpret host fuel p' t.machine = r' at result ⊢
  cases r with
  | ok a m =>
    cases r' with
    | ok b m' =>
      obtain ⟨w₁, _, mirrors₁, _⟩ := result
      exact .some ⟨.none, after w₁ m m' mirrors₁ (.inl ⟨_, run⟩) (.inl ⟨_, run'⟩) _ _⟩
    | error e' m' => exact result.elim
  | error e m =>
    cases r' with
    | ok b m' => exact result.elim
    | error e' m' =>
      obtain ⟨w₁, _, mirrors₁, halts⟩ := result
      cases halts with
      | fault faults =>
        exact .some ⟨.fault faults, after w₁ m m' mirrors₁ (.inr ⟨_, run⟩) (.inr ⟨_, run'⟩) _ _⟩
      | starved => exact .none

/-- An accepted program leaves the distances alone. -/
theorem interpret_hops {launches : List Launch} (honest : Honest host)
    (settled : Settled host s launches) (accepted : (s.prepare source).diagnostics = [])
    (m' : Machine) (left : Leaves (interpret host fuel (s.prepare source).program)
      (s.prepare source).session.machine m') :
    m'.hops = (s.prepare source).session.machine.hops := by
  have fits : Fits _ host (launch s fuel source).config := settled.launch_fits accepted
  have sound := sound_interpret honest (settled.lawful_cons accepted) fits
  rcases left with ⟨_, run⟩ | ⟨_, run⟩
  · exact (sound.ok run).1.hops
  · exact (sound.error run).hops

variable (relines) in
/-- A text that is read as a copy of an accepted text is accepted too, and the programs
    mirror each other once both are ready to run. -/
theorem prepare_copies {launches launches' : List Launch} {g : Nat → Nat} {source' : String}
    (settled : Settled host s launches) (settled' : Settled host t launches')
    (accepted : (s.prepare source).diagnostics = []) (quiet : complaints t source' = [])
    (copies : Stmt.bareAll (readIn t source').value =
      Stmt.bareAll (Stmt.relineAll g (readIn s source).value))
    (tokens : ∀ t ∈ Lexical.tokens source, T t (t.reline g)) :
    (t.prepare source').diagnostics = [] ∧
      StmtsMirror (copying relines (notes (s.prepare source).session)
          (notes (t.prepare source').session)) [()]
        (s.prepare source).program (t.prepare source').program := by
  obtain ⟨read, clean⟩ := accepted_iff.mp accepted
  have made : Stmt.AllOver (fun t => T t (t.reline g)) (readIn s source).value :=
    Grammar.readProgram_over (complaints_eq_nil_iff.mp read).2 tokens
  obtain ⟨clean', mirrors⟩ := copy_stmts relines _ copies made
    ⟨clean, prepare_recorded settled read⟩ (prepare_recorded settled' quiet)
  refine ⟨accepted_iff.mpr ⟨quiet, clean'⟩, ?_⟩
  rw [(prepare_accepted accepted).1, (prepare_read quiet : t.prepare source' = _)]
  rw [prepare_read quiet] at mirrors
  exact mirrors

variable (relines) in
/-- Whether a text is accepted does not depend on the session. -/
theorem accepted_anywhere {launches launches' : List Launch} (settled : Settled host s launches)
    (settled' : Settled host t launches') (accepted : (s.prepare source).diagnostics = [])
    (tokens : ∀ t ∈ Lexical.tokens source, T t t) :
    (t.prepare source).diagnostics = [] ∧
      StmtsMirror (copying relines (notes (s.prepare source).session)
          (notes (t.prepare source).session)) [()]
        (s.prepare source).program (t.prepare source).program := by
  obtain ⟨lexical, read⟩ := complaints_eq_nil_iff.mp (accepted_iff.mp accepted).1
  obtain ⟨read', copies⟩ := Grammar.readProgram_same t.fresh read
  refine prepare_copies relines settled settled' accepted
    (complaints_eq_nil_iff.mpr ⟨lexical, read'⟩) ?_ tokens (g := id)
  rw [Stmt.relineAll_id]
  exact copies

/-- An accepted text does the same in similar sessions. -/
theorem Similar.run {launches launches' : List Launch} (discreet : Discreet Alike host)
    (looks : ∀ w v v', ValueMirrors (copying relines' (notes (s.prepare source).session)
      (notes (t.prepare source).session)) w v v' → Alike v v')
    (honest : Honest host) (settled : Settled host s launches)
    (settled' : Settled host t launches') (similar : Similar relines s t)
    (accepted : (s.prepare source).diagnostics = []) (more : ∀ t t', T t t' → U t t')
    (tokens : ∀ t ∈ Lexical.tokens source, U t t) :
    Option.Rel (fun r r' => ProblemsMirror (copying relines' (notes (s.prepare source).session)
        (notes (t.prepare source).session)) r.1 r'.1 ∧ Similar relines' r.2 r'.2)
      (s.run host fuel source) (t.run host fuel source) := by
  obtain ⟨accepted', programs⟩ :=
    accepted_anywhere relines' settled settled' accepted tokens
  have ready : Similar relines' (s.prepare source).session (t.prepare source).session :=
    similar.advance more (prepare_advances s source) (prepare_advances t source)
      (prepare_machine s source) (prepare_machine t source)
  rw [run_accepted accepted, run_accepted accepted']
  exact execute_similar discreet looks ready programs
    (interpret_hops honest settled accepted) (interpret_hops honest settled' accepted')

end

/-! ### Where tokens come from -/

/-- Whether a token is one of a source text, or made up on the line of one. -/
def ComesFrom (source : String) (t : Token) : Prop :=
  t ∈ Lexical.tokens source ∨ ∃ u ∈ Lexical.tokens source, t = .synthetic "this" u.line

theorem ComesFrom.self {t : Token} (h : ComesFrom source t) :
    ComesFrom source (.synthetic "this" t.line) := by
  rcases h with here | ⟨u, here, rfl⟩
  · exact .inr ⟨t, here, rfl⟩
  · exact .inr ⟨u, here, rfl⟩

/-- Whether a token comes from one of some source texts. -/
def Known (texts : List String) (t : Token) : Prop :=
  ∃ source ∈ texts, ComesFrom source t

theorem relines_known (texts : List String) : Relines fun t t' => t = t' ∧ Known texts t where
  kind := fun h => congrArg Token.kind h.1
  lexeme := fun h => congrArg Token.lexeme h.1
  self := by
    rintro t _ ⟨rfl, source, mem, comes⟩
    exact ⟨rfl, source, mem, comes.self⟩

theorem blurs_known (g : Nat → Nat) (texts : List String) :
    Blurs g fun t t' => t = t' ∧ Known texts t := by
  rintro t _ ⟨rfl, _⟩
  rfl

theorem similar_start (host : Host) (sink : Sink) :
    Similar (relines_known []) (.start host sink) (.start host sink) := by
  refine ⟨[()], rfl, rfl, ?_, rfl, ?_, rfl, rfl, rfl, rfl, rfl, ?_, rfl⟩
  · rintro frame k name _ _ rfl
    cases found : (Machine.start host sink).frames.lookup? frame name with
    | none =>
      have nothing : (Session.start host sink).machine.frames.lookup? frame name = none := found
      rw [nothing]
      exact .none
    | some v =>
      have something : (Session.start host sink).machine.frames.lookup? frame name = some v :=
        found
      rw [something]
      refine .some (IsData.mirrors ?_)
      -- there is nothing but the functions of the host
      rw [Machine.start, Frames.child, lookup?_push] at found
      split at found
      · rcases foldl_set_get? (fun f : HostFunction => f.native.name) (fun f => .native f.native)
          found with no | ⟨f, _, rfl⟩
        · cases no
        · exact trivial
      · simp [Frames.lookup?, Frames.empty] at found
  · intro id name
    exact .none
  · rintro node node' distance ⟨⟨below, _⟩, _⟩
    exact absurd below (Nat.not_lt_zero node)

/-- Every session is similar to itself. -/
theorem Reached.similar_self {Alike : Value → Value → Prop} (discreet : Discreet Alike host)
    {g : Nat → Nat} (coarse : ∀ v v', SameOutline g v v' → Alike v v')
    (reached : Reached host s texts) : Similar (relines_known texts) s s := by
  have honest : Honest host := discreet.honest fun v => coarse v v rfl
  induction reached with
  | start sink => exact similar_start host sink
  | cleared _ ih =>
    exact ih.advance (fun _ _ h => h) ⟨Nat.le_refl _, fun _ _ => rfl⟩
      ⟨Nat.le_refl _, fun _ _ => rfl⟩ ⟨_, rfl⟩ ⟨_, rfl⟩
  | @ran s s' texts fuel source problems reached ran ih =>
    obtain ⟨launches, settled⟩ := reached.settled honest
    have more : ∀ t t', t = t' ∧ Known texts t → t = t' ∧ Known (source :: texts) t :=
      fun _ _ ⟨same, text, mem, comes⟩ => ⟨same, text, List.mem_cons_of_mem _ mem, comes⟩
    by_cases accepted : (s.prepare source).diagnostics = []
    · have tokens : ∀ t ∈ Lexical.tokens source, t = t ∧ Known (source :: texts) t :=
        fun t ht => ⟨rfl, source, List.mem_cons_self .., .inl ht⟩
      have looks : ∀ w v v', ValueMirrors (copying (relines_known (source :: texts))
          (notes (s.prepare source).session) (notes (s.prepare source).session)) w v v' →
          Alike v v' :=
        fun w v v' h => coarse v v' (ValueMirrors.sameOutline (blurs_known g _) w v v' h)
      have again : Option.Rel _ (s.run host fuel source) (s.run host fuel source) :=
        ih.run discreet looks honest settled settled accepted more tokens
      rw [ran] at again
      cases again with
      | some both => exact both.2
    -- a text that is refused changes nothing but the number of the next node
    · obtain ⟨_, advances, machine⟩ := run_refused accepted ran
      exact ih.advance more advances advances machine machine

end Lox.Evaluation
