import Lox.Proofs.Lexical.Joining
import Lox.Proofs.Mirror.Refusals

/-! # Running a text in one piece or in two

  Two texts with a newline between them are read as the statements of the one and then those
  of the other, the latter on later lines. The names of the second text are related to the
  same declarations as on its own, for nothing at the top level is seen as a scope, and to
  know their distances early does no harm to the first text. So both ways print the same,
  report the same and leave the same values (`one_piece_or_two`).

  The same token may be in both texts. Which of them a reported token comes from is told by
  moving the second text down: its tokens move along, and no others do (`Reports`). Behind the
  last line of all other texts, they can be told by their lines (`Shifted.of_lt`).
-/

namespace Lox

/-! ### Programs one after the other -/

theorem Stmt.bareAll_eq_append {ss as bs : List Stmt}
    (h : Stmt.bareAll ss = Stmt.bareAll (as ++ bs)) :
    ∃ as' bs', ss = as' ++ bs' ∧ Stmt.bareAll as' = Stmt.bareAll as ∧
      Stmt.bareAll bs' = Stmt.bareAll bs := by
  induction as generalizing ss with
  | nil => exact ⟨[], ss, rfl, rfl, h⟩
  | cons a as ih =>
    rw [List.cons_append, Stmt.bareAll] at h
    obtain ⟨a', rest, rfl, first, later⟩ := Stmt.bareAll_eq_cons h
    obtain ⟨as', bs', rfl, same, same'⟩ := ih later
    refine ⟨a' :: as', bs', rfl, ?_, same'⟩
    rw [Stmt.bareAll, Stmt.bareAll, first, same]

namespace Binding

/-- No statement makes a scope of the top level. -/
theorem after_top : ∀ s : Stmt, Layers.after [] s = []
  | .varDecl _ _ | .funDecl _ | .classDecl _ _ _ => rfl
  | .ifElse _ thenBranch none => after_top thenBranch
  | .ifElse _ thenBranch (some elseBranch) => by
    rw [Layers.after, after_top thenBranch, after_top elseBranch]
  | .whileLoop _ body => after_top body
  | .expression _ | .print _ _ | .block _ | .ret _ _ => rfl

/-- What is found in a program does not depend on those before it. -/
theorem resolve_append (p q : List Stmt) : resolve (p ++ q) = resolve p ++ resolve q := by
  unfold resolve
  induction p with
  | nil =>
    rw [inStmts]
    rfl
  | cons s p ih => rw [List.cons_append, inStmts, inStmts, after_top, ih, append_assoc]

end Binding

namespace Evaluation

open Binding

variable {host : Host} {fuel : Nat}

theorem interpret_cons {s : Stmt} {p : List Stmt} {m m' : Machine} {flow : Flow}
    (run : execute host fuel s m = .ok flow m') :
    interpret host fuel (s :: p) m = interpret host fuel p m' := by
  rw [interpret]
  show EStateM.bind (execute host fuel s) _ m = _
  rw [EStateM.bind, run]

theorem interpret_cons_ok {s : Stmt} {p : List Stmt} {m m' : Machine}
    (run : interpret host fuel (s :: p) m = .ok () m') :
    ∃ flow m₁, execute host fuel s m = .ok flow m₁ ∧ interpret host fuel p m₁ = .ok () m' := by
  cases first : execute host fuel s m with
  | ok flow m₁ =>
    rw [interpret_cons first] at run
    exact ⟨flow, m₁, rfl, run⟩
  | error e m₁ =>
    rw [interpret] at run
    replace run : EStateM.bind (execute host fuel s) _ m = _ := run
    rw [EStateM.bind, first] at run
    cases run

/-- A program goes on where those before it have ended. -/
theorem interpret_append {p q : List Stmt} {m m' : Machine}
    (run : interpret host fuel p m = .ok () m') :
    interpret host fuel (p ++ q) m = interpret host fuel q m' := by
  induction p generalizing m with
  | nil =>
    cases run
    rfl
  | cons s p ih =>
    obtain ⟨flow, m₁, first, later⟩ := interpret_cons_ok run
    rw [List.cons_append, interpret_cons first]
    exact ih later

/-- After the first statements of a program, the others still fit. -/
theorem Fits.remaining {L : Ledger} (honest : Honest host) (lawful : Lawful L)
    {p q : List Stmt} {m m' : Machine} (fits : Fits L host ⟨fuel, .interpret (p ++ q), m⟩)
    (run : interpret host fuel p m = .ok () m') :
    Fits L host ⟨fuel, .interpret q, m'⟩ ∧ m'.hops = m.hops := by
  induction p generalizing m with
  | nil =>
    cases run
    exact ⟨fits, rfl⟩
  | cons s p ih =>
    obtain ⟨flow, m₁, first, later⟩ := interpret_cons_ok run
    have sound := soundAt honest lawful fuel
    have kept := ((sound.execute (fits.step lawful .statement sound)).ok first).1
    obtain ⟨fits', hops⟩ := ih (fits.step lawful (.statements first) sound) later
    exact ⟨fits', hops.trans kept.hops⟩

/-! ### Tokens of several texts -/

section

variable (texts : List String) (b : String) (g : Nat → Nat)

/-- Tokens that are the same if they come from some texts, and on other lines if they come from
    another one. -/
def Shifted (t t' : Token) : Prop :=
  t = t' ∧ Known texts t ∨ ComesFrom b t ∧ t' = t.reline g

theorem relines_shifted : Relines (Shifted texts b g) where
  kind := by
    rintro t t' (⟨rfl, _⟩ | ⟨_, rfl⟩)
    · rfl
    · rfl
  lexeme := by
    rintro t t' (⟨rfl, _⟩ | ⟨_, rfl⟩)
    · rfl
    · rfl
  self := by
    rintro t t' (⟨rfl, text, mem, comes⟩ | ⟨comes, rfl⟩)
    · exact .inl ⟨rfl, text, mem, comes.self⟩
    · exact .inr ⟨comes.self, rfl⟩

theorem blurs_shifted : Blurs (fun _ => 0) (Shifted texts b g) := by
  rintro t t' (⟨rfl, _⟩ | ⟨_, rfl⟩)
  · rfl
  · rfl

end

/-- What two runs report that mirror each other: nothing, or the same error with tokens that
    stand for each other. -/
inductive SameFault (T : Token → Token → Prop) : List Problem → List Problem → Prop where
  | none : SameFault T [] []
  | fault {e : RuntimeError} {t' : Token} : T e.token t' →
      SameFault T [.fault e] [.fault { e with token := t' }]

theorem ProblemsMirror.sameFault {T : Token → Token → Prop} {relines : Relines T}
    {N N' : NodeId → Option Nat → Prop} {ps ps' : List Problem}
    (h : ProblemsMirror (copying relines N N') ps ps') : SameFault T ps ps' := by
  cases h with
  | none => exact .none
  | @fault e e' faults =>
    obtain ⟨token, cause⟩ := e
    obtain ⟨token', cause'⟩ := e'
    obtain ⟨same, reason⟩ := faults
    -- the name in a message is the lexeme of the token
    have causes : cause' = cause := by
      rcases reason with reason | ⟨here, there⟩
      · exact reason.symm
      · have here : cause = .undefinedVariable token.lexeme := congrArg RuntimeError.cause here
        have there : cause' = .undefinedVariable token'.lexeme :=
          congrArg RuntimeError.cause there
        rw [here, there]
        exact congrArg _ (relines.lexeme same).symm
    subst causes
    exact .fault same

/-! ### A text on later lines -/

section

variable {s : Session} {b : String} {texts : List String} {launches : List Launch}

/-- Whether a text is accepted on its own. -/
def StandsAlone (source : String) : Prop :=
  let reading := Grammar.readProgram 0 (Lexical.tokens source)
  Lexical.errors source = [] ∧ reading.errors = [] ∧ (resolve reading.value).errors = []

/-- What is accepted on its own is accepted in every session. -/
theorem StandsAlone.accepted (alone : StandsAlone b) (settled : Settled host s launches) :
    (s.prepare b).diagnostics = [] := by
  obtain ⟨lexical, read, clean⟩ := alone
  have accepted : ((Session.start host .unlimited).prepare b).diagnostics = [] :=
    accepted_iff.mpr ⟨complaints_eq_nil_iff.mpr ⟨lexical, read⟩, clean⟩
  exact (accepted_anywhere relines_eq (settled_start host .unlimited) settled accepted
    fun _ _ => rfl).1

/-- How the tokens of a text `i` lines down are moved if the text is `k` lines down. -/
def moved (i k : Nat) (line : Nat) : Nat :=
  line - i + k

theorem map_moved (i k : Nat) (ts : List Token) :
    (ts.map (Token.reline (· + i))).map (Token.reline (moved i k)) =
      ts.map (Token.reline (· + k)) := by
  rw [List.map_map]
  refine List.map_congr_left fun t _ => ?_
  show { t with line := t.line + i - i + k } = { t with line := t.line + k }
  rw [Nat.add_sub_cancel]

theorem bodyOf_lowered (i k : Nat) (b : String) :
    (Grammar.bodyOf (Lexical.tokens (Lexical.lowered i b))).map (Token.reline (moved i k)) =
      (Grammar.bodyOf (Lexical.tokens b)).map (Token.reline (· + k)) := by
  rw [Lexical.tokens_lowered, Lexical.bodyOf_reline, map_moved]

/-- A text is accepted on any lines if it is on some. -/
theorem prepare_lowered (texts : List String) (settled : Settled host s launches) {i : Nat}
    (clean : Lexical.errors b = [])
    (accepted : (s.prepare (Lexical.lowered i b)).diagnostics = []) (k : Nat) :
    (s.prepare (Lexical.lowered k b)).diagnostics = [] ∧
      StmtsMirror (copying (relines_shifted texts (Lexical.lowered i b) (moved i k))
          (notes (s.prepare (Lexical.lowered i b)).session)
          (notes (s.prepare (Lexical.lowered k b)).session)) [()]
        (s.prepare (Lexical.lowered i b)).program (s.prepare (Lexical.lowered k b)).program := by
  have read := (complaints_eq_nil_iff.mp (accepted_iff.mp accepted).1).2
  have joined : Grammar.bodyOf (Lexical.tokens (Lexical.lowered k b)) = Grammar.bodyOf [] ++
      (Grammar.bodyOf (Lexical.tokens (Lexical.lowered i b))).map (Token.reline (moved i k)) := by
    rw [bodyOf_lowered, Lexical.tokens_lowered, Lexical.bodyOf_reline]
    rfl
  have none : (Grammar.readProgram 0 []).errors = [] := rfl
  obtain ⟨read', copies⟩ : (readIn s (Lexical.lowered k b)).errors = [] ∧
      Stmt.bareAll (readIn s (Lexical.lowered k b)).value =
        Stmt.bareAll (Stmt.relineAll (moved i k) (readIn s (Lexical.lowered i b)).value) :=
    Grammar.readProgram_append _ joined none read
  exact prepare_copies _ settled settled accepted
    (complaints_eq_nil_iff.mpr ⟨Lexical.errors_lowered k clean, read'⟩) copies
    fun t mem => .inr ⟨.inl mem, rfl⟩

variable (fuel) in
/-- A text does the same on any lines, but for the lines of its own tokens. -/
theorem run_lowered (discreet : Discreet (SameOutline fun _ => 0) host)
    (reached : Reached host s texts) (settled : Settled host s launches) {i : Nat}
    (clean : Lexical.errors b = [])
    (accepted : (s.prepare (Lexical.lowered i b)).diagnostics = []) (k : Nat) :
    Option.Rel (fun r r' => SameFault (Shifted texts (Lexical.lowered i b) (moved i k)) r.1 r'.1)
      (s.run host fuel (Lexical.lowered i b)) (s.run host fuel (Lexical.lowered k b)) := by
  have honest : Honest host := discreet.honest (sameOutline_refl _)
  obtain ⟨accepted', programs⟩ := prepare_lowered texts settled clean accepted k
  have ready : Similar (relines_shifted texts (Lexical.lowered i b) (moved i k))
      (s.prepare (Lexical.lowered i b)).session (s.prepare (Lexical.lowered k b)).session :=
    (reached.similar_self discreet fun _ _ h => h).advance (fun _ _ => .inl)
      (prepare_advances s _) (prepare_advances s _) (prepare_machine s _) (prepare_machine s _)
  rw [run_accepted accepted, run_accepted accepted']
  exact optionRel_imp (fun _ _ related => related.1.sameFault)
    (execute_similar discreet (ValueMirrors.sameOutline (blurs_shifted _ _ _)) ready programs
      (interpret_hops honest settled accepted) (interpret_hops honest settled accepted'))

end

/-! ### Both texts in one piece -/

section

variable {s s₁ : Session} {a b : String} {texts : List String} {launches launches₁ : List Launch}

/-- Two accepted texts with a newline between them are accepted, and make up a program of two
    parts that mirror theirs, on whatever lines the second text is taken alone. -/
theorem prepare_join (texts : List String) (i : Nat) (settled : Settled host s launches)
    (settled₁ : Settled host s₁ launches₁) (accepted : (s.prepare a).diagnostics = [])
    (clean₁ : Lexical.errors b = [])
    (accepted₁ : (s₁.prepare (Lexical.lowered i b)).diagnostics = []) :
    let joined := s.prepare (a ++ "\n" ++ b)
    let relines := relines_shifted (a :: texts) (Lexical.lowered i b)
      (moved i (Lexical.linesBefore a))
    joined.diagnostics = [] ∧ ∃ p q, joined.program = p ++ q ∧
      StmtsMirror (copying relines (notes (s.prepare a).session) (notes joined.session)) [()]
        (s.prepare a).program p ∧
      StmtsMirror (copying relines (notes (s₁.prepare (Lexical.lowered i b)).session)
        (notes joined.session)) [()] (s₁.prepare (Lexical.lowered i b)).program q := by
  intro joined relines
  obtain ⟨quiet, clean⟩ := accepted_iff.mp accepted
  obtain ⟨quiet₁, resolved₁⟩ := accepted_iff.mp accepted₁
  obtain ⟨lexical, read⟩ := complaints_eq_nil_iff.mp quiet
  have read₁ := (complaints_eq_nil_iff.mp quiet₁).2
  have body := Lexical.bodyOf_tokens_join lexical b
  rw [← bodyOf_lowered i] at body
  obtain ⟨readJ, same⟩ : (readIn s (a ++ "\n" ++ b)).errors = [] ∧
      Stmt.bareAll (readIn s (a ++ "\n" ++ b)).value =
        Stmt.bareAll ((readIn s a).value ++ Stmt.relineAll (moved i (Lexical.linesBefore a))
          (readIn s₁ (Lexical.lowered i b)).value) :=
    Grammar.readProgram_append _ body read read₁
  have quietJ : complaints s (a ++ "\n" ++ b) = [] :=
    complaints_eq_nil_iff.mpr ⟨Lexical.errors_join lexical clean₁, readJ⟩
  obtain ⟨p, q, split, sameP, sameQ⟩ := Stmt.bareAll_eq_append same
  -- the names of each part are related as in the part alone
  have recorded := prepare_recorded settled quietJ
  rw [split, resolve_append, recorded_append] at recorded
  have tokens : Stmt.AllOver (fun t => Shifted (a :: texts) (Lexical.lowered i b)
      (moved i (Lexical.linesBefore a)) t (t.reline id)) (readIn s a).value :=
    Grammar.readProgram_over read fun t mem =>
      .inl ⟨rfl, a, List.mem_cons_self .., .inl mem⟩
  have tokens₁ : Stmt.AllOver (fun t => Shifted (a :: texts) (Lexical.lowered i b)
      (moved i (Lexical.linesBefore a)) t (t.reline (moved i (Lexical.linesBefore a))))
      (readIn s₁ (Lexical.lowered i b)).value :=
    Grammar.readProgram_over read₁ fun t mem => .inr ⟨.inl mem, rfl⟩
  rw [← Stmt.relineAll_id (readIn s a).value] at sameP
  obtain ⟨cleanP, mirrorsP⟩ := copy_stmts relines _ sameP tokens
    ⟨clean, prepare_recorded settled quiet⟩ recorded.1
  obtain ⟨cleanQ, mirrorsQ⟩ := copy_stmts relines _ sameQ tokens₁
    ⟨resolved₁, prepare_recorded settled₁ quiet₁⟩ recorded.2
  have acceptedJ : (s.prepare (a ++ "\n" ++ b)).diagnostics = [] := by
    refine accepted_iff.mpr ⟨quietJ, ?_⟩
    rw [split, resolve_append, errors_append]
    exact List.append_eq_nil_iff.mpr ⟨cleanP, cleanQ⟩
  refine ⟨acceptedJ, p, q, (prepare_accepted acceptedJ).1.trans split, ?_, ?_⟩
  · rw [(prepare_accepted accepted).1]
    exact mirrorsP
  · rw [(prepare_accepted accepted₁).1]
    exact mirrorsQ

theorem execute_append {p q : List Stmt} {m : Machine}
    (run : interpret host fuel p s.machine = .ok () m) :
    Session.execute host fuel (p ++ q) s = Session.execute host fuel q { s with machine := m } := by
  unfold Session.execute
  rw [interpret_append run]

/-- Both parts of an accepted program leave the distances alone. -/
theorem parts_hops {launches : List Launch} {source : String} {p q : List Stmt} {m : Machine}
    (honest : Honest host) (settled : Settled host s launches)
    (accepted : (s.prepare source).diagnostics = [])
    (parts : (s.prepare source).program = p ++ q)
    (run : interpret host fuel p (s.prepare source).session.machine = .ok () m) :
    m.hops = (s.prepare source).session.machine.hops ∧
      ∀ m', Leaves (interpret host fuel q) m m' → m'.hops = m.hops := by
  have fits : Fits (ledger host (launch s fuel source :: launches)) host
      ⟨fuel, .interpret (s.prepare source).program, (s.prepare source).session.machine⟩ :=
    settled.launch_fits accepted
  rw [parts] at fits
  have lawful : Lawful (ledger host (launch s fuel source :: launches)) :=
    settled.lawful_cons accepted
  obtain ⟨remaining, hops⟩ := fits.remaining honest lawful run
  refine ⟨hops, ?_⟩
  have sound := sound_interpret honest lawful remaining
  rintro m' (⟨_, run'⟩ | ⟨_, run'⟩)
  · exact (sound.ok run').1.hops
  · exact (sound.error run').hops

/-- The first text does the same, whether or not more of the program is known, and comes to a
    session that is similar to the one after the first text alone. -/
theorem first_part_similar {source c : String} {g : Nat → Nat} {p q : List Stmt}
    {relines : Relines (Shifted (a :: texts) c g)}
    (discreet : Discreet (SameOutline fun _ => 0) host) (reached : Reached host s texts)
    (settled : Settled host s launches) (accepted : (s.prepare a).diagnostics = [])
    (run : interpret host fuel (s.prepare a).program (s.prepare a).session.machine =
      .ok () s₁.machine) (fresh : s₁.fresh = (s.prepare a).session.fresh)
    (acceptedJ : (s.prepare source).diagnostics = [])
    (split : (s.prepare source).program = p ++ q)
    (programs : StmtsMirror (copying relines (notes (s.prepare a).session)
      (notes (s.prepare source).session)) [()] (s.prepare a).program p) :
    ∃ m, interpret host fuel p (s.prepare source).session.machine = .ok () m ∧
      Similar relines s₁ { (s.prepare source).session with machine := m } := by
  have honest : Honest host := discreet.honest (sameOutline_refl _)
  have ready : Similar relines (s.prepare a).session (s.prepare source).session := by
    refine (reached.similar_self discreet fun _ _ h => h).advance ?_ (prepare_advances s _)
      (prepare_advances s _) (prepare_machine s _) (prepare_machine s _)
    rintro t t' ⟨same, text, mem, comes⟩
    exact .inl ⟨same, text, List.mem_cons_of_mem a mem, comes⟩
  obtain ⟨w, mirrors⟩ := ready
  have views : Views w Machine.globals [()] := .cons mirrors.globals .nil
  have agrees : Agrees _ w Machine.globals (interpret host fuel (s.prepare a).program)
      (interpret host fuel p) _ :=
    agrees_interpret discreet (ValueMirrors.sameOutline (blurs_shifted _ _ _)) views programs
  have result := agrees _ _ mirrors
  rw [run] at result
  generalize runP : interpret host fuel p (s.prepare source).session.machine = r at result
  cases r with
  | error e m => exact result.elim
  | ok done m =>
    obtain ⟨w₁, _, mirrors₁, _⟩ := result
    exact ⟨m, rfl, mirrors₁.similar (interpret_hops honest settled accepted _ (.inl ⟨_, run⟩))
      (parts_hops honest settled acceptedJ split runP).1 fresh rfl⟩

variable (fuel) in
/-- The second text alone, on whatever lines, and both texts in one piece do the same. -/
theorem run_joined (discreet : Discreet (SameOutline fun _ => 0) host)
    (reached : Reached host s texts) (ran : s.run host fuel a = some ([], s₁))
    (settled₁ : Settled host s₁ launches₁) (clean : Lexical.errors b = []) {i : Nat}
    (accepted₁ : (s₁.prepare (Lexical.lowered i b)).diagnostics = []) :
    Option.Rel (fun two one =>
        SameFault (Shifted (a :: texts) (Lexical.lowered i b) (moved i (Lexical.linesBefore a)))
          two.1 one.1 ∧
        SameStore (fun _ => 0) two.2.machine one.2.machine)
      (s₁.run host fuel (Lexical.lowered i b)) (s.run host fuel (a ++ "\n" ++ b)) := by
  have honest : Honest host := discreet.honest (sameOutline_refl _)
  obtain ⟨launches, settled⟩ := reached.settled honest
  obtain ⟨accepted, run, fresh⟩ := run_unreported ran
  obtain ⟨acceptedJ, p, q, split, programsP, programsQ⟩ :=
    prepare_join texts i settled settled₁ accepted clean accepted₁
  generalize relines_shifted (a :: texts) (Lexical.lowered i b)
    (moved i (Lexical.linesBefore a)) = relines at programsP programsQ
  obtain ⟨m, runP, middle⟩ := first_part_similar discreet reached settled accepted run fresh
    acceptedJ split programsP
  obtain ⟨hopsP, hopsQ⟩ := parts_hops honest settled acceptedJ split runP
  -- the second text starts from machines that mirror each other
  have ready : Similar relines (s₁.prepare (Lexical.lowered i b)).session
      { (s.prepare (a ++ "\n" ++ b)).session with machine := m } :=
    middle.advance (fun _ _ h => h) (prepare_advances s₁ _) (.refl _) (prepare_machine s₁ _)
      ⟨_, rfl⟩
  have same : notes { (s.prepare (a ++ "\n" ++ b)).session with machine := m } =
      notes (s.prepare (a ++ "\n" ++ b)).session := notes_congr rfl hopsP
  rw [← same] at programsQ
  have blurs := blurs_shifted (a :: texts) (Lexical.lowered i b) (moved i (Lexical.linesBefore a))
  have both := execute_similar discreet (ValueMirrors.sameOutline blurs) ready programsQ
    (interpret_hops honest settled₁ accepted₁) hopsQ
  rw [run_accepted accepted₁, run_accepted acceptedJ, split, execute_append runP]
  exact optionRel_imp (fun _ _ related =>
    ⟨related.1.sameFault, related.2.sameStore blurs⟩) both

end

/-! ### One piece or two -/

section

variable {s s₁ : Session} {a b : String} {texts : List String}

/-- Whether these problems are reported if a text is run some lines further down. -/
def Reports (host : Host) (fuel : Nat) (s : Session) (source : String) (k : Nat)
    (problems : List Problem) : Prop :=
  ∃ s', s.run host fuel (Lexical.lowered k source) = some (problems, s')

/-- What the run of the second text and the run of both together report: nothing, or the same
    error with the same token. The token comes from the second text if the error is reported as
    many lines further down as the text is moved down; then both together report it after all
    lines of the first text. Otherwise the error stays where it is. -/
inductive SameReport (a b : String) (texts : List String) (reports : Nat → List Problem → Prop) :
    List Problem → List Problem → Prop where
  | none : SameReport a b texts reports [] []
  | earlier {e : RuntimeError} : Known (a :: texts) e.token → (∀ k, reports k [.fault e]) →
      SameReport a b texts reports [.fault e] [.fault e]
  | later {e : RuntimeError} : ComesFrom b e.token →
      (∀ k, reports k [.fault { e with token := e.token.reline (· + k) }]) →
      SameReport a b texts reports [.fault e]
        [.fault { e with token := e.token.reline (· + Lexical.linesBefore a) }]

/-- No report of a text both stays where it is and moves with the text. -/
theorem Reports.not_moves_of_stays {e : RuntimeError} (stays : Reports host fuel s b 1 [.fault e]) :
    ¬Reports host fuel s b 1 [.fault { e with token := e.token.reline (· + 1) }] := by
  obtain ⟨s₁, first⟩ := stays
  rintro ⟨s₂, second⟩
  rw [first] at second
  simp only [Option.some.injEq, Prod.mk.injEq, List.cons.injEq, Problem.fault.injEq] at second
  have lines := congrArg (·.token.line) second.1.1
  exact Nat.succ_ne_self _ lines.symm

theorem ComesFrom.line_le {t : Token} (h : ComesFrom a t) : t.line ≤ Lexical.linesBefore a := by
  rcases h with mem | ⟨u, mem, rfl⟩
  · exact (Lexical.line_of_token mem).2
  · exact (Lexical.line_of_token mem).2

/-- Some texts have a last line. -/
theorem exists_last_line (texts : List String) : ∃ i, ∀ t, Known texts t → t.line ≤ i := by
  induction texts with
  | nil => exact ⟨0, fun t ⟨text, mem, _⟩ => nomatch mem⟩
  | cons a texts ih =>
    obtain ⟨i, last⟩ := ih
    refine ⟨max (Lexical.linesBefore a) i, ?_⟩
    rintro t ⟨text, mem, comes⟩
    rcases List.mem_cons.mp mem with rfl | mem
    · exact Nat.le_trans comes.line_le (Nat.le_max_left _ _)
    · exact Nat.le_trans (last t ⟨text, mem, comes⟩) (Nat.le_max_right _ _)

/-- A token of a text that is moved down stands as far down, and is one of the text where it
    was. -/
theorem ComesFrom.lowered {t : Token} {i : Nat} (h : ComesFrom (Lexical.lowered i b) t) :
    i < t.line ∧ ComesFrom b (t.reline (moved i 0)) := by
  have of_mem : ∀ u ∈ Lexical.tokens (Lexical.lowered i b),
      i < u.line ∧ u.reline (moved i 0) ∈ Lexical.tokens b := by
    intro u mem
    rw [Lexical.tokens_lowered] at mem
    obtain ⟨u', mem', rfl⟩ := List.mem_map.mp mem
    refine ⟨Nat.lt_add_of_pos_left (Lexical.line_of_token mem').1, ?_⟩
    have back : (u'.reline (· + i)).reline (moved i 0) = u' := by
      show { u' with line := u'.line + i - i + 0 } = u'
      rw [Nat.add_sub_cancel]
      rfl
    exact back.symm ▸ mem'
  rcases h with mem | ⟨u, mem, rfl⟩
  · exact ⟨(of_mem t mem).1, .inl (of_mem t mem).2⟩
  · exact ⟨(of_mem u mem).1, .inr ⟨_, (of_mem u mem).2, rfl⟩⟩

section

variable {g : Nat → Nat} {t t' : Token} {i : Nat} (last : ∀ t, Known texts t → t.line ≤ i)

theorem Shifted.of_le (h : Shifted texts (Lexical.lowered i b) g t t') (near : t.line ≤ i) :
    t = t' ∧ Known texts t :=
  h.resolve_right fun ⟨comes, _⟩ => Nat.not_le_of_lt comes.lowered.1 near

include last in
/-- Behind the last line of some texts there are only tokens of the text that is moved down. -/
theorem Shifted.of_lt (h : Shifted texts (Lexical.lowered i b) g t t') (far : i < t.line) :
    ComesFrom (Lexical.lowered i b) t ∧ t' = t.reline g :=
  h.resolve_left fun ⟨_, known⟩ => Nat.not_le_of_lt far (last t known)

end

/-- What is reported of the text behind the last line of the others tells where the token comes
    from, and so what is reported of it on any lines and in one piece with the other text. -/
theorem sameReport_of_marked {i : Nat} (last : ∀ t, Known (a :: texts) t → t.line ≤ i)
    {reports : Nat → List Problem → Prop} {ps ps₀ ps₁ : List Problem}
    (alone : SameFault (Shifted (a :: texts) (Lexical.lowered i b) (moved i 0)) ps ps₀)
    (both : SameFault (Shifted (a :: texts) (Lexical.lowered i b)
      (moved i (Lexical.linesBefore a))) ps ps₁)
    (anywhere : ∀ k, ∃ ps', reports k ps' ∧
      SameFault (Shifted (a :: texts) (Lexical.lowered i b) (moved i k)) ps ps') :
    SameReport a b texts reports ps₀ ps₁ := by
  cases alone with
  | none =>
    cases both
    exact .none
  | @fault e t₀ here =>
    obtain ⟨token, cause⟩ := e
    obtain ⟨t₁, there, rfl⟩ : ∃ t₁, Shifted (a :: texts) (Lexical.lowered i b)
        (moved i (Lexical.linesBefore a)) token t₁ ∧ ps₁ = [.fault ⟨t₁, cause⟩] := by
      cases both with
      | fault there => exact ⟨_, there, rfl⟩
    have reported : ∀ k, ∃ t', reports k [.fault ⟨t', cause⟩] ∧
        Shifted (a :: texts) (Lexical.lowered i b) (moved i k) token t' := by
      intro k
      obtain ⟨ps', reported, same⟩ := anywhere k
      cases same with
      | fault same => exact ⟨_, reported, same⟩
    rcases Nat.lt_or_ge i token.line with far | near
    · obtain ⟨comes, rfl⟩ := here.of_lt last far
      obtain ⟨_, rfl⟩ := there.of_lt last far
      have moves : ∀ k, token.reline (moved i k) =
          (token.reline (moved i 0)).reline (· + k) := fun k => rfl
      rw [moves]
      refine .later comes.lowered.2 fun k => ?_
      obtain ⟨t', reported, same⟩ := reported k
      obtain ⟨_, rfl⟩ := same.of_lt last far
      exact reported
    · obtain ⟨rfl, known⟩ := here.of_le near
      obtain ⟨rfl, _⟩ := there.of_le near
      refine .earlier known fun k => ?_
      obtain ⟨t', reported, same⟩ := reported k
      obtain ⟨rfl, _⟩ := same.of_le near
      exact reported

/-- If the run of a text reports nothing and another text is accepted on its own, then to run
    the other text next and to run both in one piece comes to the same: they print the same,
    leave the same values and report the same, further down if it is about the other text. -/
theorem one_piece_or_two (discreet : Discreet (SameOutline fun _ => 0) host)
    (reached : Reached host s texts) (ran : s.run host fuel a = some ([], s₁))
    (alone : StandsAlone b) :
    Option.Rel (fun two one => SameReport a b texts (Reports host fuel s₁ b) two.1 one.1 ∧
        SameStore (fun _ => 0) two.2.machine one.2.machine)
      (s₁.run host fuel b) (s.run host fuel (a ++ "\n" ++ b)) := by
  have honest : Honest host := discreet.honest (sameOutline_refl _)
  have reached₁ := reached.ran ran
  obtain ⟨launches₁, settled₁⟩ := reached₁.settled honest
  have clean := alone.1
  have here : (s₁.prepare (Lexical.lowered 0 b)).diagnostics = [] := by
    rw [Lexical.lowered_zero]
    exact alone.accepted settled₁
  -- behind all lines of the texts before it, the tokens of the text can be told by their lines
  obtain ⟨i, last⟩ := exists_last_line (a :: texts)
  have far := (prepare_lowered [] settled₁ clean here i).1
  have alike := run_joined fuel discreet reached ran settled₁ clean here
  have both := run_joined fuel discreet reached ran settled₁ clean far
  have anywhere := fun k => run_lowered fuel discreet reached₁ settled₁ clean far k
  have first := anywhere 0
  rw [Lexical.lowered_zero] at alike first
  generalize s.run host fuel (a ++ "\n" ++ b) = one at alike both
  generalize two' : s₁.run host fuel b = two at alike first
  generalize s₁.run host fuel (Lexical.lowered i b) = marked at both anywhere first
  cases alike with
  | none => exact .none
  | @some two one same =>
    cases first with
    | @some ps _ alone' =>
      cases both with
      | some both =>
        refine .some ⟨sameReport_of_marked last alone' both.1 fun k => ?_, same.2⟩
        have again := anywhere k
        generalize moved' : s₁.run host fuel (Lexical.lowered k b) = result at again
        cases again with
        | @some _ result again => exact ⟨result.1, ⟨result.2, moved'⟩, again⟩

/-- The theorem at a first text that ends in a comment and a second one that stops at a token
    that is in both of them, the parenthesis of the call. -/
theorem one_piece_or_two_after_comment :
    let host := Host.standard 0
    let s := Session.start host .unlimited
    let a := "fun f() \x7b\x7d // f"
    let b := "f(f);"
    ∃ s₁, s.run host 9 a = some ([], s₁) ∧ StandsAlone b ∧
      Option.Rel (fun two one => SameReport a b [] (Reports host 9 s₁ b) two.1 one.1 ∧
          SameStore (fun _ => 0) two.2.machine one.2.machine)
        (s₁.run host 9 b) (s.run host 9 (a ++ "\n" ++ b)) := by
  intro host s a b
  have reports : (s.run host 9 a).map (·.1) = some [] := by cbv
  obtain ⟨⟨_, s₁⟩, ran, rfl⟩ := Option.map_eq_some_iff.mp reports
  have alone : StandsAlone b := by
    unfold StandsAlone
    cbv
  exact ⟨s₁, ran, alone, one_piece_or_two (discreet_standard 0) (.start .unlimited) ran alone⟩

end

end Evaluation

end Lox
