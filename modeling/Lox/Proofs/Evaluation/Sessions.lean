import Lox.Proofs.Binding.Violations
import Lox.Proofs.Evaluation.References
import Lox.Session

/-! # Scopes throughout a session

  A session runs one source text after another on the same machine, and closures of earlier
  programs may be called from later ones. `History` lists the programs that were started, and
  `Settled` is what is true between any two of them. From it, every reference that is looked
  up in the course of any run is found in the frame of the scope that declares it
  (`references_lead_to_their_scopes`).
-/

namespace Lox.Evaluation

open Binding

/-! ### Histories -/

/-- A program that was started on a machine. -/
structure Launch where
  fuel : Nat
  program : List Stmt
  machine : Machine

/-- The call with which a program starts. -/
def Launch.config (l : Launch) : Config :=
  ⟨l.fuel, .interpret l.program, l.machine⟩

/-- The program of a source text, on the machine of a session made ready for it. -/
def launch (s : Session) (fuel : Nat) (source : String) : Launch :=
  ⟨fuel, (s.prepare source).program, (s.prepare source).session.machine⟩

/-- How a session came about, and the programs that were started on the way, the last one
    first. A source text with any error is not started. -/
inductive History (host : Host) : Session → List Launch → Prop where
  | start (sink : Sink) : History host (.start host sink) []
  | cleared {s : Session} {launches : List Launch} :
      History host s launches → History host s.clearFlags launches
  | refused {s s' : Session} {launches : List Launch} {fuel : Nat} {source : String}
      {problems : List Problem} : History host s launches →
      (s.prepare source).diagnostics ≠ [] → s.run host fuel source = some (problems, s') →
      History host s' launches
  | ran {s s' : Session} {launches : List Launch} {fuel : Nat} {source : String}
      {problems : List Problem} : History host s launches →
      (s.prepare source).diagnostics = [] → s.run host fuel source = some (problems, s') →
      History host s' (launch s fuel source :: launches)

/-- Whether a site is one of the programs that were started. -/
def Sited (launches : List Launch) (site : Site) : Prop :=
  ∃ l ∈ launches, site ∈ programSites l.program

/-- Whether a frame was opened for a construct in the course of one of the programs. -/
def Created (host : Host) (launches : List Launch) (frame : FrameId) (construct : Construct) :
    Prop :=
  ∃ l ∈ launches, ∃ c, Reaches host l.config c ∧ Opens host c frame construct

/-- Whether something was done with classes, methods or functions in the course of one of the
    programs. -/
def Happened (host : Host) (launches : List Launch) (event : Event) : Prop :=
  ∃ l ∈ launches, ∃ c, Reaches host l.config c ∧ Does host c event

/-- What there is to know of the programs that were started. -/
def ledger (host : Host) (launches : List Launch) : Ledger :=
  ⟨Sited launches, Created host launches, Happened host launches⟩

/-! ### More programs -/

/-- A ledger that knows all that another one does. -/
structure Extends (L L' : Ledger) : Prop where
  sites : ∀ site, L.sites site → L'.sites site
  created : ∀ frame construct, L.created frame construct → L'.created frame construct
  happened : ∀ event, L.happened event → L'.happened event

section

variable {L L' : Ledger} {m : Machine} (more : Extends L L')
include more

theorem Standing.extend {scope : Scope} {scopes : List (Construct × List String)}
    (h : Standing L m scope scopes) : Standing L' m scope scopes := by
  obtain ⟨frames, hscope, fits, below⟩ := h
  refine ⟨frames, hscope, ?_, below⟩
  apply fits.imp
  intro frame entry fit
  exact ⟨more.created frame entry.1 fit.1, fit.2⟩

section

variable {made c : Closure} {name : Token} {superclass : Option Expr}
  {methods : List FunctionDecl}

theorem MadeBy.extend {around : Scope} {parent : Option Class}
    (h : MadeBy L m name superclass methods parent made around) :
    MadeBy L' m name superclass methods parent made around := by
  obtain ⟨⟨body, declared, found⟩, inherits, scope⟩ := h
  exact ⟨⟨body, more.happened _ declared, found⟩, inherits, scope⟩

theorem BoundTo.extend {target : Instance} (h : BoundTo L m c made target) :
    BoundTo L' m c made target :=
  ⟨more.happened _ h.happened, h.declaration, h.scope⟩

theorem Housed.extend {body : Body} {outer : Path} {scope : Scope}
    (h : Housed L m body outer scope) : Housed L' m body outer scope := by
  induction h with
  | program => exact .program
  | block _ ih => exact .block ih
  | function entered _ ih => exact .function (more.happened _ entered) ih
  | method entered bound made _ ih =>
    exact .method (more.happened _ entered) (bound.extend more) (made.extend more) ih

theorem Origin.extend {isMethod : Bool} {outer : Path} (h : Origin L m c isMethod outer) :
    Origin L' m c isMethod outer := by
  cases h with
  | function no housed => exact .function no (housed.extend more)
  | method bound made housed =>
    exact .method (bound.extend more) (made.extend more) (housed.extend more)

theorem MethodOrigin.extend {path : Path}
    (h : MethodOrigin L m made name superclass methods path) :
    MethodOrigin L' m made name superclass methods path := by
  obtain ⟨making, housed⟩ := h
  exact ⟨making.extend more, housed.extend more⟩

end

theorem ClosureFits.extend {c : Closure} (h : ClosureFits L m c) : ClosureFits L' m c := by
  obtain ⟨isMethod, outer, sites, formed, standing, origin⟩ := h
  exact ⟨isMethod, outer, fun site hsite => more.sites site (sites site hsite), formed,
    standing.extend more, origin.extend more⟩

theorem MethodFits.extend {c : Closure} (h : MethodFits L m c) : MethodFits L' m c := by
  obtain ⟨name, superclass, methods, path, sites, formed, standing, origin⟩ := h
  exact ⟨name, superclass, methods, path, fun site hsite => more.sites site (sites site hsite),
    formed, standing.extend more, origin.extend more⟩

theorem ClassFits.extend {c : Class} (h : ClassFits L m c) : ClassFits L' m c := by
  induction c with
  | base body => exact fun name method found => (h name method found).extend more
  | derived body superclass ih =>
    exact ⟨fun name method found => (h.1 name method found).extend more, ih h.2⟩

theorem ValueFits.extend {v : Value} (h : ValueFits L m v) : ValueFits L' m v := by
  cases v with
  | function c => exact ClosureFits.extend more h
  | classObject c => exact ClassFits.extend more h
  | object o => exact ClassFits.extend more h
  | _ => trivial

end

/-! ### Noted distances -/

theorem noteReferences_cons (m : Machine) (r : Reference) (rest : List Reference) :
    m.noteReferences (r :: rest) = (m.noteReferences [r]).noteReferences rest := rfl

theorem hops_noteReferences_singleton (m : Machine) (r : Reference) (node : NodeId) :
    (m.noteReferences [r]).hops.get? node =
      if r.node = node then r.hops.or (m.hops.get? node) else m.hops.get? node := by
  unfold Machine.noteReferences
  rw [List.foldl_cons, List.foldl_nil]
  cases r.hops with
  | none =>
    rw [Option.none_or, ite_self]
  | some d =>
    show (m.hops.insert r.node d).get? node = _
    rw [Std.TreeMap.get?_eq_getElem?, Std.TreeMap.get?_eq_getElem?, Std.TreeMap.getElem?_insert]
    simp

/-- References of other nodes do not matter. -/
theorem hops_noteReferences_of_ne {node : NodeId} {rs : List Reference} : ∀ {m : Machine},
    (∀ r ∈ rs, r.node ≠ node) → (m.noteReferences rs).hops.get? node = m.hops.get? node := by
  induction rs with
  | nil => exact fun _ => rfl
  | cons r rest ih =>
    intro m others
    have first := others r (List.mem_cons_self ..)
    have later := fun r' hr' => others r' (List.mem_cons_of_mem r hr')
    rw [noteReferences_cons, ih later, hops_noteReferences_singleton, if_neg first]

/-- Of references with different nodes, each one is noted. -/
theorem hops_noteReferences_of_mem {rs : List Reference} : ∀ {m : Machine} {r : Reference},
    (rs.map (·.node)).Nodup → r ∈ rs → m.hops.get? r.node = none →
    (m.noteReferences rs).hops.get? r.node = r.hops := by
  induction rs with
  | nil => exact fun _ no => nomatch no
  | cons first rest ih =>
    intro m r distinct mem unnoted
    rw [List.map_cons, List.nodup_cons] at distinct
    rw [noteReferences_cons]
    rcases List.mem_cons.mp mem with rfl | mem
    · have others : ∀ r' ∈ rest, r'.node ≠ r.node := by
        intro r' hr' same
        exact distinct.1 (same ▸ List.mem_map_of_mem hr')
      rw [hops_noteReferences_of_ne others, hops_noteReferences_singleton, if_pos rfl, unnoted,
        Option.or_none]
    · have other : first.node ≠ r.node := by
        intro same
        exact distinct.1 (same ▸ List.mem_map_of_mem mem)
      apply ih distinct.2 mem
      rw [hops_noteReferences_singleton, if_neg other]
      exact unnoted

theorem frames_noteReferences {rs : List Reference} : ∀ {m : Machine},
    (m.noteReferences rs).frames = m.frames ∧ (m.noteReferences rs).fields = m.fields ∧
      (m.noteReferences rs).scope = m.scope := by
  induction rs with
  | nil => exact ⟨rfl, rfl, rfl⟩
  | cons r rest ih =>
    intro m
    rw [noteReferences_cons, ih.1, ih.2.1, ih.2.2]
    unfold Machine.noteReferences
    rw [List.foldl_cons, List.foldl_nil]
    cases r.hops <;> exact ⟨rfl, rfl, rfl⟩

/-! ### References of sites -/

theorem node?_of_reference? {site : Site} {r : Reference} (h : site.reference? = some r) :
    site.node? = some r.node := by
  cases site with
  | occurrence path initialized o =>
    cases o with
    | self node keyword =>
      rw [Site.reference?] at h
      split at h
      · cases h
      · cases h
        rfl
    | _ =>
      cases h
      rfl
  | _ => cases h

theorem reference_nodes_sublist : ∀ sites : List Site,
    ((sites.filterMap Site.reference?).map (·.node)).Sublist (sites.filterMap Site.node?)
  | [] => .slnil
  | site :: rest => by
    have later := reference_nodes_sublist rest
    cases h : site.reference? with
    | some r =>
      rw [List.filterMap_cons_some h, List.filterMap_cons_some (node?_of_reference? h)]
      exact later.cons_cons r.node
    | none =>
      rw [List.filterMap_cons_none h]
      cases hnode : site.node? with
      | none =>
        rw [List.filterMap_cons_none hnode]
        exact later
      | some n =>
        rw [List.filterMap_cons_some hnode]
        exact later.cons n

/-- Among sites of which no two have the same node, a node stands at one. -/
theorem eq_of_node {node : NodeId} {sites : List Site}
    (distinct : (sites.filterMap Site.node?).Nodup) {site site' : Site} (h : site ∈ sites)
    (h' : site' ∈ sites) (hnode : site.node? = some node) (hnode' : site'.node? = some node) :
    site = site' := by
  induction sites with
  | nil => cases h
  | cons first rest ih =>
    -- the first one has its node to itself
    have alone : ∀ other ∈ rest, first.node? = some node → other.node? ≠ some node := by
      intro other hother here there
      rw [List.filterMap_cons_some here, List.nodup_cons] at distinct
      exact distinct.1 (List.mem_filterMap.mpr ⟨other, hother, there⟩)
    have later : (rest.filterMap Site.node?).Nodup :=
      distinct.sublist ((List.sublist_cons_self first rest).filterMap _)
    rcases List.mem_cons.mp h with rfl | mem
    · rcases List.mem_cons.mp h' with rfl | mem'
      · rfl
      · exact absurd hnode' (alone site' mem' hnode)
    · rcases List.mem_cons.mp h' with rfl | mem'
      · exact absurd hnode (alone site mem hnode')
      · exact ih later mem mem'

/-- A reference that breaks no rule is noted. -/
theorem reference?_of_accepted {path : Path} {initialized : Option Token} {o : Occurrence}
    (accepted : violation (.occurrence path initialized o) = none) :
    (Site.occurrence path initialized o).reference? = some ⟨o.node, o.name, path.hops? o.name⟩ := by
  cases o with
  | self node keyword =>
    rw [violation] at accepted
    split at accepted
    · cases accepted
    · next inside =>
      rw [Site.reference?, if_neg inside]
      rfl
  | _ => rfl

/-! ### Making a source text ready -/

/-- What is read of a source text in a session. -/
def readIn (s : Session) (source : String) : Grammar.Reading (List Stmt) :=
  Grammar.readProgram s.fresh (Lexical.tokens source)

/-- What speaks against a source text before its names are looked at. -/
def complaints (s : Session) (source : String) : List Diagnostic :=
  (Lexical.errors source).map (·.diagnostic) ++ (readIn s source).diagnostics

theorem prepare_eq (s : Session) (source : String) : s.prepare source =
    if (complaints s source).isEmpty then
      { diagnostics := (resolve (readIn s source).value).diagnostics
        program := (readIn s source).value
        session :=
          { s with
            fresh := (readIn s source).fresh
            machine := s.machine.noteReferences (resolve (readIn s source).value).references } }
    else
      { diagnostics := complaints s source
        program := []
        session := { s with fresh := (readIn s source).fresh } } := rfl

theorem resolve_readIn (s : Session) (source : String) :
    resolve (readIn s source).value = found (programSites (readIn s source).value) :=
  resolve_eq (Grammar.readProgram_wellFormed _ _)

/-- The distances that are noted are those of nodes that were not there before. -/
theorem references_fresh {s : Session} {source : String} :
    ∀ r ∈ (resolve (readIn s source).value).references,
      s.fresh ≤ r.node ∧ r.node < (readIn s source).fresh := by
  intro r hr
  rw [resolve_readIn] at hr
  have mem := (reference_nodes_sublist _).subset (List.mem_map_of_mem hr)
  exact (Grammar.readProgram_sites s.fresh (Lexical.tokens source)).1.2 r.node mem

/-- A source text changes a session only by new nodes and their distances. -/
theorem prepare_session (s : Session) (source : String) : ∃ rs : List Reference,
    (∀ r ∈ rs, s.fresh ≤ r.node ∧ r.node < (readIn s source).fresh) ∧
      (s.prepare source).session =
        { s with fresh := (readIn s source).fresh, machine := s.machine.noteReferences rs } := by
  rw [prepare_eq]
  by_cases clean : (complaints s source).isEmpty = true
  · rw [if_pos clean]
    exact ⟨_, references_fresh, rfl⟩
  · rw [if_neg clean]
    exact ⟨[], nofun, rfl⟩

/-- What an accepted source text comes to. -/
theorem prepare_accepted {s : Session} {source : String}
    (accepted : (s.prepare source).diagnostics = []) :
    (s.prepare source).program = (readIn s source).value ∧
      (resolve (readIn s source).value).errors = [] ∧
      (s.prepare source).session =
        { s with
          fresh := (readIn s source).fresh
          machine := s.machine.noteReferences (resolve (readIn s source).value).references } := by
  rw [prepare_eq] at accepted ⊢
  by_cases clean : (complaints s source).isEmpty = true
  · rw [if_pos clean] at accepted ⊢
    exact ⟨rfl, List.map_eq_nil_iff.mp accepted, rfl⟩
  · -- complaints are no reason to accept
    rw [if_neg clean] at accepted
    exact absurd (List.isEmpty_iff.mpr accepted) clean

/-! ### Between two programs -/

/-- What is true of a session between two programs. -/
structure Settled (host : Host) (s : Session) (launches : List Launch) : Prop where
  lawful : Lawful (ledger host launches)
  good : Good (ledger host launches) s.machine
  scope : s.machine.scope = Machine.globals
  outermost : 0 < s.machine.frames.records.size
  numbered : ∀ site node, Sited launches site → site.node? = some node → node < s.fresh
  distinct : ∀ site site' node, Sited launches site → Sited launches site' →
    site.node? = some node → site'.node? = some node → site = site'
  unnoted : ∀ node, s.fresh ≤ node → s.machine.hops.get? node = none

variable {host : Host} {s : Session} {launches : List Launch}

theorem start_good (host : Host) (sink : Sink) :
    Good (ledger host []) (Machine.start host sink) := by
  refine ⟨?_, ?_, ?_⟩
  · intro frame name v found
    rw [Machine.start, Frames.child, lookup?_push] at found
    split at found
    · rcases foldl_set_get? (fun f : HostFunction => f.native.name) (fun f => .native f.native)
        found with no | ⟨f, _, rfl⟩
      · cases no
      · exact trivial
    · simp [Frames.lookup?, Frames.empty] at found
  · intro id record name v no _
    simp [Machine.start] at no
  · intro path initialized o hsite
    obtain ⟨_, no, _⟩ := hsite
    cases no

theorem settled_start (host : Host) (sink : Sink) : Settled host (.start host sink) [] := by
  refine ⟨⟨?_, ?_⟩, start_good host sink, rfl, ?_, ?_, ?_, ?_⟩
  · intro site hsite
    obtain ⟨_, no, _⟩ := hsite
    cases no
  · intro site hsite
    obtain ⟨_, no, _⟩ := hsite
    cases no
  · exact Nat.zero_lt_one
  · intro site node hsite
    obtain ⟨_, no, _⟩ := hsite
    cases no
  · intro site site' node hsite
    obtain ⟨_, no, _⟩ := hsite
    cases no
  · intro node _
    rfl

/-- New nodes leave the distances of the others alone. -/
theorem hops_noteReferences_old {rs : List Reference}
    (fresh : ∀ r ∈ rs, s.fresh ≤ r.node) {node : NodeId} (old : node < s.fresh) :
    (s.machine.noteReferences rs).hops.get? node = s.machine.hops.get? node := by
  apply hops_noteReferences_of_ne
  intro r hr same
  have := fresh r hr
  rw [same] at this
  exact absurd old (Nat.not_lt.mpr this)

theorem noteReferences_good {L L' : Ledger} {m : Machine} {rs : List Reference} (good : Good L m)
    (more : Extends L L')
    (hops : ∀ path initialized o, L'.sites (.occurrence path initialized o) →
      (m.noteReferences rs).hops.get? o.node = path.hops? o.name) :
    Good L' (m.noteReferences rs) := by
  obtain ⟨frames, fields, _⟩ : (m.noteReferences rs).frames = m.frames ∧ _ := frames_noteReferences
  have grows : Grows m (m.noteReferences rs) := .of_frames frames
  refine ⟨?_, ?_, hops⟩
  · intro frame name v found
    rw [frames] at found
    exact ((good.frames frame name v found).extend more).grow grows
  · intro id record name v hrecord found
    rw [fields] at hrecord
    exact ((good.fields id record name v hrecord found).extend more).grow grows

/-- A source text that is refused leaves a session settled. -/
theorem Settled.refuse (h : Settled host s launches) {source : String} {s' : Session}
    (machine : s'.machine = (s.prepare source).session.machine)
    (fresh : s'.fresh = (s.prepare source).session.fresh) : Settled host s' launches := by
  obtain ⟨rs, new, session⟩ := prepare_session s source
  have raised : s.fresh ≤ (readIn s source).fresh := Grammar.readProgram_fresh_le _ _
  rw [session] at machine fresh
  have old : ∀ node, node < s.fresh → s'.machine.hops.get? node = s.machine.hops.get? node := by
    intro node below
    rw [machine]
    exact hops_noteReferences_old (fun r hr => (new r hr).1) below
  obtain ⟨frames, _, scope⟩ :
    (s.machine.noteReferences rs).frames = s.machine.frames ∧ _ := frames_noteReferences
  refine ⟨h.lawful, ?_, ?_, ?_, ?_, h.distinct, ?_⟩
  · rw [machine]
    -- nothing was started, so that there are no more sites and no more frames than before
    apply noteReferences_good h.good ⟨fun _ h => h, fun _ _ h => h, fun _ h => h⟩
    intro path initialized o hsite
    have below := h.numbered _ o.node hsite rfl
    exact (hops_noteReferences_old (fun r hr => (new r hr).1) below).trans
      (h.good.hops path initialized o hsite)
  · rw [machine]
    exact scope.trans h.scope
  · rw [machine]
    show 0 < (s.machine.noteReferences rs).frames.records.size
    rw [frames]
    exact h.outermost
  · intro site node hsite hnode
    rw [fresh]
    exact Nat.lt_of_lt_of_le (h.numbered site node hsite hnode) raised
  · intro node above
    rw [fresh] at above
    rw [machine]
    have others : ∀ r ∈ rs, r.node ≠ node := by
      intro r hr same
      have below := (new r hr).2
      rw [same] at below
      exact absurd above (Nat.not_le.mpr below)
    show (s.machine.noteReferences rs).hops.get? node = none
    rw [hops_noteReferences_of_ne others]
    exact h.unnoted node (Nat.le_trans raised above)

/-! ### Starting a program -/

theorem extends_cons (host : Host) (l : Launch) (launches : List Launch) :
    Extends (ledger host launches) (ledger host (l :: launches)) := by
  refine ⟨?_, ?_, ?_⟩
  · intro site hsite
    obtain ⟨l', mem, hsite⟩ := hsite
    exact ⟨l', List.mem_cons_of_mem l mem, hsite⟩
  · intro frame construct hcreated
    obtain ⟨l', mem, hcreated⟩ := hcreated
    exact ⟨l', List.mem_cons_of_mem l mem, hcreated⟩
  · intro event happened
    obtain ⟨l', mem, happened⟩ := happened
    exact ⟨l', List.mem_cons_of_mem l mem, happened⟩

section

variable {source : String} {fuel : Nat}

/-- A site of one of the earlier programs, or of the one that is started. -/
theorem sited_cons (accepted : (s.prepare source).diagnostics = []) {site : Site}
    (h : Sited (launch s fuel source :: launches) site) :
    site ∈ programSites (readIn s source).value ∨ Sited launches site := by
  obtain ⟨l, mem, hsite⟩ := h
  rcases List.mem_cons.mp mem with rfl | mem
  · left
    rw [← (prepare_accepted accepted).1]
    exact hsite
  · exact .inr ⟨l, mem, hsite⟩

/-- The sites of an accepted source text break no rule. -/
theorem violation_eq_none (accepted : (s.prepare source).diagnostics = []) {site : Site}
    (h : site ∈ programSites (readIn s source).value) : violation site = none := by
  have errors := (prepare_accepted accepted).2.1
  rw [resolve_readIn] at errors
  exact List.filterMap_eq_nil_iff.mp errors site h

theorem Settled.lawful_cons (h : Settled host s launches)
    (accepted : (s.prepare source).diagnostics = []) :
    Lawful (ledger host (launch s fuel source :: launches)) := by
  have made := Grammar.readProgram_sites s.fresh (Lexical.tokens source)
  refine ⟨?_, ?_⟩
  · intro site hsite
    rcases sited_cons accepted hsite with new | old
    · exact violation_eq_none accepted new
    · exact h.lawful.accepted site old
  · intro site hsite
    rcases sited_cons accepted hsite with new | old
    · exact (made.2 site new).imp (Lexical.tokens_spelled source)
    · exact h.lawful.proper site old

theorem node_of_site {site : Site} (h : site ∈ programSites (readIn s source).value)
    {node : NodeId} (hnode : site.node? = some node) :
    s.fresh ≤ node ∧ node < (readIn s source).fresh := by
  have mem : node ∈ (programSites (readIn s source).value).filterMap Site.node? :=
    List.mem_filterMap.mpr ⟨site, h, hnode⟩
  exact (Grammar.readProgram_sites s.fresh (Lexical.tokens source)).1.2 node mem

/-- No two nodes of the programs of a session have one identity. -/
theorem Settled.distinct_cons (h : Settled host s launches)
    (accepted : (s.prepare source).diagnostics = []) (site site' : Site) (node : NodeId)
    (hsite : Sited (launch s fuel source :: launches) site)
    (hsite' : Sited (launch s fuel source :: launches) site')
    (hnode : site.node? = some node) (hnode' : site'.node? = some node) : site = site' := by
  -- the nodes of the program that is started come after all earlier ones
  have apart : ∀ new ∈ programSites (readIn s source).value, ∀ old, Sited launches old →
      new.node? = some node → old.node? ≠ some node := by
    intro new hnew old hold isNew isOld
    exact absurd (h.numbered old node hold isOld) (Nat.not_lt.mpr (node_of_site hnew isNew).1)
  rcases sited_cons accepted hsite with new | old
  · rcases sited_cons accepted hsite' with new' | old'
    · exact eq_of_node (Grammar.readProgram_sites s.fresh (Lexical.tokens source)).1.1 new new'
        hnode hnode'
    · exact absurd hnode' (apart site new site' old' hnode)
  · rcases sited_cons accepted hsite' with new' | old'
    · exact absurd hnode (apart site' new' site old hnode')
    · exact h.distinct site site' node old old' hnode hnode'

/-- The distances noted for an accepted source text are those of its sites, and those of the
    earlier programs are still there. -/
theorem Settled.hops_cons (h : Settled host s launches)
    (accepted : (s.prepare source).diagnostics = []) (path : Path) (initialized : Option Token)
    (o : Occurrence)
    (hsite : Sited (launch s fuel source :: launches) (.occurrence path initialized o)) :
    (s.machine.noteReferences (resolve (readIn s source).value).references).hops.get? o.node =
      path.hops? o.name := by
  rcases sited_cons accepted hsite with new | old
  · -- its node is new, so that nothing was noted for it before
    have noted := reference?_of_accepted (violation_eq_none accepted new)
    have mem := List.mem_filterMap.mpr ⟨_, new, noted⟩
    have distinct := (Grammar.readProgram_sites s.fresh (Lexical.tokens source)).1.1.sublist
      (reference_nodes_sublist _)
    rw [resolve_readIn]
    exact hops_noteReferences_of_mem distinct mem (h.unnoted o.node (node_of_site new rfl).1)
  · have below := h.numbered _ o.node old rfl
    rw [hops_noteReferences_old (fun r hr => (references_fresh r hr).1) below]
    exact h.good.hops path initialized o old

/-- An accepted source text is read without an error. -/
theorem readIn_errors (accepted : (s.prepare source).diagnostics = []) :
    (readIn s source).errors = [] := by
  rw [prepare_eq] at accepted
  by_cases clean : (complaints s source).isEmpty = true
  · have none := List.append_eq_nil_iff.mp (List.isEmpty_iff.mp clean)
    exact List.map_eq_nil_iff.mp none.2
  · rw [if_neg clean] at accepted
    exact absurd (List.isEmpty_iff.mpr accepted) clean

/-- An accepted source text starts with a call that fits. -/
theorem Settled.launch_fits (h : Settled host s launches)
    (accepted : (s.prepare source).diagnostics = []) :
    Fits (ledger host (launch s fuel source :: launches)) host (launch s fuel source).config := by
  obtain ⟨program, _, session⟩ := prepare_accepted accepted
  have machine : (launch s fuel source).machine =
      s.machine.noteReferences (resolve (readIn s source).value).references := by
    show (s.prepare source).session.machine = _
    rw [session]
  obtain ⟨frames, _, scope⟩ : (s.machine.noteReferences
    (resolve (readIn s source).value).references).frames = s.machine.frames ∧ _ :=
      frames_noteReferences
  have globals : (launch s fuel source).machine.scope = Machine.globals := by
    rw [machine, scope]
    exact h.scope
  refine ⟨?_, ?_, ?_, ?_⟩
  · show Good _ (launch s fuel source).machine
    rw [machine]
    exact noteReferences_good h.good (extends_cons ..) (h.hops_cons accepted)
  · -- around a program there is the global frame and no scope
    refine ⟨.program, [], [], ?_, ?_, ⟨[], globals, .nil, ?_⟩, ?_⟩
    · exact fun site hsite => ⟨_, List.mem_cons_self .., hsite⟩
    · show AllLegible (s.prepare source).program
      rw [program]
      exact ⟨Grammar.readProgram_wellFormed _ _,
        Grammar.readProgram_over (readIn_errors accepted) fun _ _ => trivial⟩
    · show ∀ frame ∈ (launch s fuel source).machine.scope, frame < _
      rw [globals]
      intro frame hframe
      rw [List.mem_singleton.mp hframe]
      show 0 < (launch s fuel source).machine.frames.records.size
      rw [machine, frames]
      exact h.outermost
    · show Housed _ _ _ _ (launch s fuel source).machine.scope
      rw [globals]
      exact .program
  · exact fun c frame construct reached opens => ⟨_, List.mem_cons_self .., c, reached, opens⟩
  · exact fun c event reached does => ⟨_, List.mem_cons_self .., c, reached, does⟩

/-- All nodes of the programs of a session come before the next one that is free. -/
theorem Settled.numbered_cons (h : Settled host s launches)
    (accepted : (s.prepare source).diagnostics = []) {site : Site} {node : NodeId}
    (hsite : Sited (launch s fuel source :: launches) site) (hnode : site.node? = some node) :
    node < (s.prepare source).session.fresh := by
  -- making a program ready changes a session in the same way whether it is refused or not
  have ready : Settled host (s.prepare source).session launches := h.refuse rfl rfl
  rcases sited_cons accepted hsite with new | old
  · rw [(prepare_accepted accepted).2.2]
    exact (node_of_site new hnode).2
  · exact ready.numbered site node old hnode

/-- A program that has ended leaves a session settled. -/
theorem Settled.run (h : Settled host s launches)
    (accepted : (s.prepare source).diagnostics = []) {s' : Session}
    (fresh : s'.fresh = (s.prepare source).session.fresh)
    (kept : Kept (ledger host (launch s fuel source :: launches))
      (launch s fuel source).machine s'.machine) :
    Settled host s' (launch s fuel source :: launches) := by
  have ready : Settled host (s.prepare source).session launches := h.refuse rfl rfl
  refine ⟨h.lawful_cons accepted, kept.good, kept.scope.trans ready.scope, ?_, ?_,
    h.distinct_cons accepted, ?_⟩
  · exact Nat.lt_of_lt_of_le ready.outermost kept.grows.size
  · intro site node hsite hnode
    rw [fresh]
    exact h.numbered_cons accepted hsite hnode
  · intro node above
    rw [fresh] at above
    rw [kept.hops]
    exact ready.unnoted node above

end

/-- Every session that comes about is settled. -/
theorem History.settled (honest : Honest host) (history : History host s launches) :
    Settled host s launches := by
  induction history with
  | start sink => exact settled_start host sink
  | cleared _ ih =>
    exact ⟨ih.lawful, ih.good, ih.scope, ih.outermost, ih.numbered, ih.distinct, ih.unnoted⟩
  | @refused s s' launches fuel source problems _ complaints ran ih =>
    have no : ¬(s.prepare source).diagnostics.isEmpty = true :=
      fun empty => complaints (List.isEmpty_iff.mp empty)
    rw [Session.run, if_neg no] at ran
    cases ran
    exact ih.refuse rfl rfl
  | @ran s s' launches fuel source problems _ accepted ran ih =>
    have yes : (s.prepare source).diagnostics.isEmpty = true := List.isEmpty_iff.mpr accepted
    have fits : Fits _ host (launch s fuel source).config := ih.launch_fits accepted
    have sound := sound_interpret honest (ih.lawful_cons accepted) fits
    rw [Session.run, if_pos yes, Session.execute] at ran
    -- whether the program ended well or with a fault, the machine is kept
    split at ran
    · next m' run =>
      cases ran
      exact ih.run accepted rfl (sound.ok run).1
    · next e m' run =>
      cases ran
      exact ih.run accepted rfl (sound.error run)
    · cases ran

/-! ### References in the course of a session -/

/-- A reference that is looked up in a call leads to the frame of the scope in which its name
    is declared. -/
def LeadsToScope (host : Host) (launches : List Launch) (c : Config) (o : Occurrence)
    (m : Machine) (d : Nat) : Prop :=
  ∃ path initialized construct names frame,
    -- where it stands, and nothing else of its identity does
    Sited launches (.occurrence path initialized o) ∧
    (∀ site, Sited launches site → site.node? = some o.node →
      site = .occurrence path initialized o) ∧
    -- the scope in which its name is found from there
    path.hops? o.name = some d ∧ path.scopes[d]? = some (construct, names) ∧
    o.name.lexeme ∈ names ∧
    -- the frame at the distance is no other than the one opened for that scope
    d < m.scope.length ∧ Frames.ancestor m.scope d = frame :: m.scope.drop (d + 1) ∧
    Created host launches frame construct ∧
    -- it has the name, and looking it up does not fail
    (¬Premature path initialized o →
      (m.frames.lookup? frame o.name.lexeme).isSome = true ∧
      ∀ e, c.call = .evaluate e → ∀ t m',
        evaluate host c.fuel e c.machine ≠ .error (.fault (.undefined t)) m')

/-- Whenever a reference with a noted distance is looked up, in whichever program of a session
    and however far into it, there are as many frames around, and the frame at the distance
    is the one that was opened for the scope in which its name is declared. The frame has the
    name, unless the reference assigns to the local variable in whose initializer it
    stands. -/
theorem references_lead_to_their_scopes (honest : Honest host)
    (history : History host s launches) {source : String}
    (accepted : (s.prepare source).diagnostics = []) {fuel : Nat} {c : Config}
    (reached : Reaches host (launch s fuel source).config c) {o : Occurrence} {m : Machine}
    (access : Accesses host c o m) {d : Nat} (noted : m.hops.get? o.node = some d) :
    LeadsToScope host (launch s fuel source :: launches) c o m d := by
  have settled := history.settled honest
  have lawful : Lawful (ledger host (launch s fuel source :: launches)) :=
    settled.lawful_cons accepted
  -- however far into the run, the call fits and the frames in view stand for its scopes
  have fits := (settled.launch_fits accepted).reach honest lawful reached
  obtain ⟨good, placed⟩ := accesses_placed honest lawful fits access
  obtain ⟨path, initialized, construct, names, frame, site, hops, scope, mem, hframe, created,
    bound⟩ := placed_leads lawful good placed noted
  obtain ⟨below, _⟩ := List.getElem?_eq_some_iff.mp hframe
  have alone : ∀ other, Sited (launch s fuel source :: launches) other →
      other.node? = some o.node → other = .occurrence path initialized o :=
    fun other hother hnode => settled.distinct_cons accepted other _ _ hother site hnode rfl
  refine ⟨path, initialized, construct, names, frame, site, alone, hops, scope, mem, below,
    ancestor_eq_cons hframe, created, ?_⟩
  intro timely
  refine ⟨bound timely, ?_⟩
  intro e call t m'
  exact access_ne_undefined honest lawful fits access noted hframe (bound timely) call t m'

/-- The variable of a block, read in a block inside it. -/
theorem references_lead_to_their_scopes_nested :
    let host := Host.standard 0
    let l := launch (.start host .unlimited) 7 "\x7b var a; \x7b a; \x7d \x7d"
    ∃ c m, Reaches host l.config c ∧ Accesses host c (.read 0 ⟨.identifier, "a", 1⟩) m ∧
      m.hops.get? 0 = some 1 ∧ LeadsToScope host [l] c (.read 0 ⟨.identifier, "a", 1⟩) m 1 := by
  intro host l
  have accepted : (Session.prepare (.start host .unlimited)
      "\x7b var a; \x7b a; \x7d \x7d").diagnostics = [] := by cbv
  have program : l.program = [.block [.varDecl ⟨.identifier, "a", 1⟩ none,
      .block [.expression (.var 0 ⟨.identifier, "a", 1⟩)]]] := by cbv
  have noted : l.machine.hops.get? 0 = some 1 := by cbv
  have config : l.config = ⟨7, .interpret [.block [.varDecl ⟨.identifier, "a", 1⟩ none,
      .block [.expression (.var 0 ⟨.identifier, "a", 1⟩)]]], l.machine⟩ :=
    congrArg (fun p => Config.mk 7 (.interpret p) l.machine) program
  have reached : ∃ c m, Reaches host l.config c ∧
      Accesses host c (.read 0 ⟨.identifier, "a", 1⟩) m ∧ m.hops = l.machine.hops := by
    rw [config]
    exact ⟨_, _, .step .statement (.step .block (.step (.restOf rfl) (.step .firstOf
      (.step .block (.step .firstOf (.step .expression (.refl _))))))), .read, rfl⟩
  obtain ⟨c, m, reached, access, same⟩ := reached
  have noted' : m.hops.get? 0 = some 1 := by
    rw [same]
    exact noted
  exact ⟨c, m, reached, access, noted', references_lead_to_their_scopes (honest_standard 0)
    (.start .unlimited) accepted reached access noted'⟩

end Lox.Evaluation
