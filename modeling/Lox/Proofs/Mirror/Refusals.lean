import Lox.Proofs.Mirror.Similarity

/-! # Refused texts leave no trace

  A text that is refused uses up identities of nodes, and if it was refused for its names it
  leaves their distances behind. Neither is ever seen again: without the refused texts, the
  others print the same, report the same and leave the same values
  (`refused_runs_leave_no_trace`).
-/

namespace Lox.Evaluation

variable {host : Host} {s s' t : Session} {texts texts' : List String}

/-! ### Sequences of runs -/

/-- One run of a source text. -/
structure Passage where
  /-- The session before it. -/
  before : Session
  /-- The fuel it was given. -/
  fuel : Nat
  /-- The text. -/
  source : String
  /-- What it reported. -/
  problems : List Problem
  /-- The session after it. -/
  after : Session

namespace Passage

/-- What was asked for. -/
def request (p : Passage) : Nat × String :=
  (p.fuel, p.source)

/-- Whether the text was refused. -/
def isRefused (p : Passage) : Bool :=
  p.problems.any (·.isCompileTime)

/-- What a refused text does: it is reported why, and of the machine nothing changes but the
    distances of references. -/
def Refused (p : Passage) : Prop :=
  (∃ ds : List Diagnostic, ds ≠ [] ∧ p.problems = ds.map .refused) ∧
    ∃ hops, p.after.machine = { p.before.machine with hops }

/-- What is reported of a text that is not refused: a runtime error at most. -/
def Ran (p : Passage) : Prop :=
  p.problems = [] ∨ ∃ e, p.problems = [.fault e]

end Passage

/-- Runs source texts one after another, as far as all of them return. -/
def passages (host : Host) : List (Nat × String) → Session → Option (List Passage × Session)
  | [], s => some ([], s)
  | (fuel, source) :: rest, s =>
    match s.run host fuel source with
    | none => none
    | some (problems, s') =>
      match passages host rest s' with
      | none => none
      | some (later, last) => some (⟨s, fuel, source, problems, s'⟩ :: later, last)

theorem passages_cons {fuel : Nat} {source : String} {rest : List (Nat × String)}
    {ps : List Passage} {last : Session}
    (h : passages host ((fuel, source) :: rest) s = some (ps, last)) :
    ∃ problems s' later, s.run host fuel source = some (problems, s') ∧
      passages host rest s' = some (later, last) ∧
      ps = ⟨s, fuel, source, problems, s'⟩ :: later := by
  rw [passages] at h
  cases ran : s.run host fuel source with
  | none =>
    rw [ran] at h
    cases h
  | some result =>
    obtain ⟨problems, s'⟩ := result
    rw [ran] at h
    dsimp only at h
    cases more : passages host rest s' with
    | none =>
      rw [more] at h
      cases h
    | some result =>
      obtain ⟨later, last'⟩ := result
      rw [more] at h
      cases h
      exact ⟨problems, s', later, rfl, more, rfl⟩

/-! ### What is left behind -/

/-- Whether two machines hold the same: the same output, as many calls of the host, and the
    same values in every frame and every field, up to the identities of nodes and the lines
    that `g` does not tell apart. -/
structure SameStore (g : Nat → Nat) (m m' : Machine) : Prop where
  sink : m.sink = m'.sink
  globals : ∀ name, Option.Rel (SameOutline g) (m.global? name) (m'.global? name)
  frames : m.frames.records.size = m'.frames.records.size
  values : ∀ frame name,
    Option.Rel (SameOutline g) (m.frames.lookup? frame name) (m'.frames.lookup? frame name)
  instances : m.fields.size = m'.fields.size
  fields : ∀ (id : Nat) (name : String), Option.Rel (SameOutline g)
    ((m.fields[id]?).bind (·.get? name)) ((m'.fields[id]?).bind (·.get? name))
  serial : m.serial = m'.serial
  hostCalls : m.hostCalls = m'.hostCalls

section

variable {T : Token → Token → Prop} {relines : Relines T} {g : Nat → Nat}

theorem MachineMirrors.sameStore {N N' : NodeId → Option Nat → Prop} {w : List Unit}
    {here : Scope} {m m' : Machine} (blurs : Blurs g T)
    (h : MachineMirrors (copying relines N N') w here m m') : SameStore g m m' := by
  have outlines : ∀ {o o' : Option Value},
      Option.Rel (ValueMirrors (copying relines N N') w) o o' →
      Option.Rel (SameOutline g) o o' := optionRel_imp fun _ _ hv => hv.sameOutline blurs
  refine ⟨h.sink, fun name => outlines (h.global name), h.size.trans h.size'.symm, ?_,
    h.instances, fun id name => outlines (h.fields id name), h.serial, h.hostCalls⟩
  intro frame name
  by_cases below : frame < w.length
  · have mark : w[frame]? = some () := List.getElem?_eq_getElem below
    exact outlines (h.frames frame () name name mark rfl)
  · -- outside of all frames there is nothing
    have nothing : ∀ {m : Machine}, m.frames.records.size = w.length →
        m.frames.lookup? frame name = none := by
      intro m size
      unfold Frames.lookup?
      rw [Array.getElem?_eq_none (size ▸ Nat.le_of_not_lt below)]
      rfl
    rw [nothing h.size, nothing h.size']
    exact .none

theorem Similar.sameStore (blurs : Blurs g T) (h : Similar relines s t) :
    SameStore g s.machine t.machine := by
  obtain ⟨w, mirrors⟩ := h
  exact mirrors.sameStore blurs

end

/-- Whether two runs of the same text come to the same. -/
structure SamePassage (p p' : Passage) : Prop where
  request : p.request = p'.request
  problems : p.problems = p'.problems
  before : SameStore id p.before.machine p'.before.machine
  after : SameStore id p.after.machine p'.after.machine

/-! ### Without the refused texts -/

theorem relines_eq : Relines (Eq : Token → Token → Prop) where
  kind := congrArg Token.kind
  lexeme := congrArg Token.lexeme
  self := by
    rintro t _ rfl
    rfl

theorem blurs_eq (g : Nat → Nat) : Blurs g (Eq : Token → Token → Prop) := by
  rintro t _ rfl
  rfl

theorem sameOutline_refl (g : Nat → Nat) (v : Value) : SameOutline g v v := rfl

theorem eq_of_problemsMirror {N N' : NodeId → Option Nat → Prop} {ps ps' : List Problem}
    (h : ProblemsMirror (copying relines_eq N N') ps ps') : ps = ps' := by
  cases h with
  | none => rfl
  | @fault e e' faults =>
    obtain ⟨token, cause⟩ := e
    obtain ⟨token', cause'⟩ := e'
    obtain ⟨rfl, rfl | ⟨here, there⟩⟩ : token = token' ∧ _ := faults
    · rfl
    · rw [here, there]

/-- What a run reports tells whether its text was refused. -/
theorem run_cases {fuel : Nat} {source : String} {problems : List Problem}
    (ran : s.run host fuel source = some (problems, s')) :
    (Passage.isRefused ⟨s, fuel, source, problems, s'⟩ = true ∧
        Passage.Refused ⟨s, fuel, source, problems, s'⟩ ∧ Advances s s') ∨
      (Passage.isRefused ⟨s, fuel, source, problems, s'⟩ = false ∧
        Passage.Ran ⟨s, fuel, source, problems, s'⟩ ∧ (s.prepare source).diagnostics = []) := by
  by_cases accepted : (s.prepare source).diagnostics = []
  · right
    rw [run_accepted accepted, Session.execute] at ran
    split at ran
    · cases ran
      exact ⟨rfl, .inl rfl, accepted⟩
    · cases ran
      exact ⟨rfl, .inr ⟨_, rfl⟩, accepted⟩
    · cases ran
  · left
    obtain ⟨rfl, advances, machine⟩ := run_refused accepted ran
    refine ⟨?_, ⟨⟨_, accepted, rfl⟩, machine⟩, advances⟩
    cases found : (s.prepare source).diagnostics with
    | nil => exact absurd found accepted
    | cons d ds =>
      simp [Passage.isRefused, Problem.isCompileTime]

/-- Similar sessions go through the same, except that one of them is spared the refused
    texts. -/
theorem passages_similar (discreet : Discreet (SameOutline id) host) {last : Session}
    {requests : List (Nat × String)} : ∀ {s t : Session} {texts texts' : List String}
    {ps : List Passage}, Reached host s texts → Reached host t texts' →
    Similar relines_eq s t → passages host requests s = some (ps, last) →
    (∀ p ∈ ps, (p.isRefused = true → p.Refused) ∧ (p.isRefused = false → p.Ran)) ∧
    ∃ ps' last', passages host ((ps.filter (!·.isRefused)).map Passage.request) t =
        some (ps', last') ∧
      List.Forall₂ SamePassage (ps.filter (!·.isRefused)) ps' ∧
      Similar relines_eq last last' := by
  have honest : Honest host := discreet.honest (sameOutline_refl id)
  induction requests with
  | nil =>
    intro s t texts texts' ps _ _ similar passed
    cases passed
    exact ⟨nofun, [], t, rfl, .nil, similar⟩
  | cons request rest ih =>
    intro s t texts texts' ps reached reached' similar passed
    obtain ⟨fuel, source⟩ := request
    obtain ⟨problems, s', later, ran, more, rfl⟩ := passages_cons passed
    rcases run_cases ran with ⟨marked, refused, advances⟩ | ⟨marked, finished, accepted⟩
    · -- the other session stays where it is
      have similar' : Similar relines_eq s' t :=
        similar.advance (fun _ _ h => h) advances (.refl t) refused.2 ⟨_, rfl⟩
      obtain ⟨kinds, ps', last', passed', same, similar''⟩ :=
        ih (reached.ran ran) reached' similar' more
      refine ⟨?_, ps', last', ?_, ?_, similar''⟩
      · intro p mem
        rcases List.mem_cons.mp mem with rfl | mem
        · exact ⟨fun _ => refused, fun no => absurd (marked.symm.trans no) nofun⟩
        · exact kinds p mem
      · rw [List.filter_cons_of_neg (by simp [marked])]
        exact passed'
      · rw [List.filter_cons_of_neg (by simp [marked])]
        exact same
    · -- both run the text, and come to the same
      obtain ⟨launches, settled⟩ := reached.settled honest
      obtain ⟨launches', settled'⟩ := reached'.settled honest
      have looks : ∀ w v v', ValueMirrors (copying relines_eq (notes (s.prepare source).session)
          (notes (t.prepare source).session)) w v v' → SameOutline id v v' :=
        ValueMirrors.sameOutline (blurs_eq id)
      have both : Option.Rel _ (s.run host fuel source) (t.run host fuel source) :=
        similar.run discreet looks honest settled settled' accepted (fun _ _ h => h)
          (fun _ _ => rfl)
      generalize ran' : t.run host fuel source = result at both
      rw [ran] at both
      cases both with
      | @some _ result related =>
        obtain ⟨problems', t'⟩ := result
        obtain ⟨reports, similar'⟩ := related
        obtain rfl : problems = problems' := eq_of_problemsMirror reports
        obtain ⟨kinds, ps', last', passed', same, similar''⟩ :=
          ih (reached.ran ran) (reached'.ran ran') similar' more
        refine ⟨?_, ⟨t, fuel, source, problems, t'⟩ :: ps', last', ?_, ?_, similar''⟩
        · intro p mem
          rcases List.mem_cons.mp mem with rfl | mem
          · exact ⟨fun yes => absurd (marked.symm.trans yes) nofun, fun _ => finished⟩
          · exact kinds p mem
        · rw [List.filter_cons_of_pos (by simp [marked]), List.map_cons]
          show passages host ((fuel, source) :: _) t = _
          rw [passages, ran']
          dsimp only
          rw [passed']
        · rw [List.filter_cons_of_pos (by simp [marked])]
          exact .cons ⟨rfl, rfl, similar.sameStore (blurs_eq id), similar'.sameStore (blurs_eq id)⟩
            same

/-- Each run of a sequence refuses its text, prints nothing and changes no variable and no
    field, or reports a runtime error at most. Without the refused texts the other runs
    return as before, print the same, report the same and leave the same values. -/
theorem refused_runs_leave_no_trace (discreet : Discreet (SameOutline id) host)
    (reached : Reached host s texts) {requests : List (Nat × String)} {ps : List Passage}
    {last : Session} (passed : passages host requests s = some (ps, last)) :
    (∀ p ∈ ps, (p.isRefused = true → p.Refused) ∧ (p.isRefused = false → p.Ran)) ∧
    ∃ ps' last', passages host ((ps.filter (!·.isRefused)).map Passage.request) s =
        some (ps', last') ∧
      List.Forall₂ SamePassage (ps.filter (!·.isRefused)) ps' ∧
      SameStore id last.machine last'.machine := by
  have itself : Similar relines_eq s s :=
    (reached.similar_self discreet fun _ _ h => h).advance (fun _ _ h => h.1) (.refl s) (.refl s)
      ⟨_, rfl⟩ ⟨_, rfl⟩
  obtain ⟨kinds, ps', last', passed', same, similar⟩ :=
    passages_similar discreet reached reached itself passed
  exact ⟨kinds, ps', last', passed', same, similar.sameStore (blurs_eq id)⟩

/-- The theorem at three texts, of which the second one is refused for its names. -/
theorem refused_runs_leave_no_trace_between :
    let host := Host.standard 0
    let first := (9, "var a = \"x\";")
    let second := (9, "\x7b var b; \x7b b; \x7d var b; \x7d")
    let third := (9, "\x7b var b = a; print b; \x7d")
    ∃ ps last, passages host [first, second, third] (.start host .unlimited) = some (ps, last) ∧
      ps.map (·.isRefused) = [false, true, false] ∧
      ∃ ps' last', passages host ((ps.filter (!·.isRefused)).map Passage.request)
          (.start host .unlimited) = some (ps', last') ∧
        List.Forall₂ SamePassage (ps.filter (!·.isRefused)) ps' ∧
        SameStore id last.machine last'.machine := by
  intro host first second third
  have marks : (passages host [first, second, third] (.start host .unlimited)).map
      (fun result => result.1.map (·.isRefused)) = some [false, true, false] := by cbv
  obtain ⟨⟨ps, last⟩, passed, marked⟩ := Option.map_eq_some_iff.mp marks
  exact ⟨ps, last, passed, marked,
    (refused_runs_leave_no_trace (discreet_standard 0) (.start .unlimited) passed).2⟩

end Lox.Evaluation
