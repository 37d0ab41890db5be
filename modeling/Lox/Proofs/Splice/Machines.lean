import Lox.Proofs.Evaluation.Sessions
import Lox.Proofs.Splice.Insertion

/-! # Machines with other distances

  A machine is intact if no frame that it refers to is missing and all code that it holds has
  nodes below some node (`Intact`). With another table of distances, which differs from that
  node on, it corresponds to itself (`Intact.splices`). The machines that come up in the course
  of a session are intact (`intact_in_course`).
-/

namespace Lox.Evaluation

open Binding Grammar

/-! ### A machine and itself -/

section

variable {m : Machine} {base : NodeId} {hops : Hops}

/-- Whether a scope has frames, all of which are there. -/
def Backed (m : Machine) (scope : Scope) : Prop :=
  scope ≠ [] ∧ ∀ frame ∈ scope, frame < m.frames.records.size

/-- Whether the frames that a closure keeps are there and its code has nodes below some
    node. -/
def ClosureIntact (m : Machine) (base : NodeId) (c : Closure) : Prop :=
  Backed m c.scope ∧ ∀ node ∈ functionNodes c.declaration, node < base

/-- Whether the methods of a class are so, those it inherits included. -/
def ClassIntact (m : Machine) (base : NodeId) : Class → Prop
  | .base body =>
    ∀ name method, body.methods.get? name = some method → ClosureIntact m base method
  | .derived body superclass =>
    (∀ name method, body.methods.get? name = some method → ClosureIntact m base method) ∧
      ClassIntact m base superclass

/-- Whether all that a value refers to is so. -/
def ValueIntact (m : Machine) (base : NodeId) : Value → Prop
  | .function c => ClosureIntact m base c
  | .classObject c => ClassIntact m base c
  | .object o => ClassIntact m base o.ofClass
  | _ => True

/-- Whether nothing in a machine refers to a frame that is not there, and all code in it has
    nodes below some node. -/
structure Intact (m : Machine) (base : NodeId) : Prop where
  globals : 0 < m.frames.records.size
  scope : Backed m m.scope
  frames : ∀ frame name v, m.frames.lookup? frame name = some v → ValueIntact m base v
  fields : ∀ (id : Nat) (name : String) (v : Value),
    (m.fields[id]?).bind (·.get? name) = some v → ValueIntact m base v

/-- Whether a table has the distances of a machine for all nodes below some node. -/
def AgreesBelow (m : Machine) (base : NodeId) (hops : Hops) : Prop :=
  ∀ node < base, m.hops.get? node = hops.get? node

/-- The world in which each frame of a machine stands for itself. -/
def itself (m : Machine) : World :=
  (List.range m.frames.records.size).map some

theorem itself_get {frame : FrameId} (there : frame < m.frames.records.size) :
    (itself m)[frame]? = some (some frame) := by
  simp [itself, there]

theorem of_itself_get {frame : FrameId} {kept : Option FrameId}
    (mark : (itself m)[frame]? = some kept) :
    kept = some frame ∧ frame < m.frames.records.size := by
  simp only [itself, List.getElem?_map, Option.map_eq_some_iff] at mark
  obtain ⟨frame', found, rfl⟩ := mark
  obtain ⟨there, same⟩ := List.getElem?_eq_some_iff.mp found
  rw [List.length_range] at there
  rw [List.getElem_range] at same
  exact ⟨congrArg some same.symm, there⟩

theorem Backed.splices {scope : Scope} (h : Backed m scope) :
    Spliced (itself m) none scope scope := by
  obtain ⟨inside, there⟩ := h
  induction scope with
  | nil => exact absurd rfl inside
  | cons frame outer ih =>
    obtain ⟨first, others⟩ := List.forall_mem_cons.mp there
    cases outer with
    | nil => exact .last (itself_get first)
    | cons next outer => exact .kept (itself_get first) (ih nofun others)

section

variable (old : AgreesBelow m base hops)
include old

theorem ClosureIntact.splices {c : Closure} (h : ClosureIntact m base c) {around : Seam → Seam}
    (stays : around none = none) : RoutineSplices ⟨m.hops, hops⟩ (itself m) around c c := by
  refine ⟨rfl, rfl, none, ?_, h.1.splices, ?_⟩
  · rw [stays]
    exact Seam.none_ne
  · rw [stays]
    exact function_self c.declaration fun node mem => old node (h.2 node mem)

theorem methods_splice {methods : Bindings Closure}
    (h : ∀ name method, methods.get? name = some method → ClosureIntact m base method) :
    Namewise (MethodSplices ⟨m.hops, hops⟩ (itself m)) methods methods := by
  intro name
  cases found : methods.get? name with
  | none => exact .none
  | some method => exact .some ((h name method found).splices old rfl)

theorem ClassIntact.splices : ∀ {c : Class}, ClassIntact m base c →
    ClassSplices ⟨m.hops, hops⟩ (itself m) c c
  | .base _, h => .base ⟨rfl, rfl, methods_splice old h⟩
  | .derived _ _, h => .derived ⟨rfl, rfl, methods_splice old h.1⟩ (ClassIntact.splices h.2)

theorem ValueIntact.splices {v : Value} (h : ValueIntact m base v) :
    ValueSplices ⟨m.hops, hops⟩ (itself m) v v := by
  cases v with
  | function c => exact .function (ClosureIntact.splices old h rfl)
  | classObject c => exact .classObject (ClassIntact.splices old h)
  | object o => exact .object rfl (ClassIntact.splices old h)
  | _ => exact IsData.splices trivial

theorem optionIntact_splices {o : Option Value} (h : ∀ v, o = some v → ValueIntact m base v) :
    Option.Rel (ValueSplices ⟨m.hops, hops⟩ (itself m)) o o := by
  cases o with
  | none => exact .none
  | some v => exact .some ((h v rfl).splices old)

/-- A machine corresponds to itself with the other table. -/
theorem Intact.splices (h : Intact m base) :
    MachineSplices ⟨m.hops, hops⟩ (itself m) m.scope m.scope m { m with hops } where
  size := by simp [itself]
  frames := by
    intro frame frame' name mark
    obtain ⟨same, _⟩ := of_itself_get mark
    cases same
    exact optionIntact_splices old (h.frames frame name)
  below := by
    intro frame frame' mark
    obtain ⟨same, there⟩ := of_itself_get mark
    cases same
    exact there
  apart := by
    intro frame other frame' mark mark'
    exact Option.some.inj ((of_itself_get mark).1.symm.trans (of_itself_get mark').1)
  onto := fun frame there => ⟨frame, itself_get there⟩
  extra := by
    intro frame name mark
    exact nomatch (of_itself_get mark).1
  globals := itself_get h.globals
  instances := rfl
  fields := fun id name => optionIntact_splices old (h.fields id name)
  serial := rfl
  hostCalls := rfl
  sink := rfl
  scope := rfl
  scope' := rfl
  hops := rfl
  hops' := rfl

end

end

/-! ### Machines of a session -/

section

variable {L : Ledger} {m : Machine} {base : NodeId}

theorem Standing.backed {scope : Scope} {scopes : List (Construct × List String)}
    (h : Standing L m scope scopes) : Backed m scope := by
  obtain ⟨frames, rfl, _, below⟩ := h
  exact ⟨List.append_ne_nil_of_right_ne_nil frames (List.cons_ne_nil 0 []), below⟩

/-- Whether the programs that ran have nodes below some node. -/
def Ledger.Below (L : Ledger) (base : NodeId) : Prop :=
  ∀ site node, L.sites site → site.node? = some node → node < base

theorem Ledger.Below.function (h : L.Below base) {outer : Path} {body : Body} {f : FunctionDecl}
    (formed : RoutineWellFormed f) (sites : ∀ site ∈ functionSites outer body f, L.sites site) :
    ∀ node ∈ functionNodes f, node < base := by
  intro node mem
  rw [← nodes_functionSites outer body f formed] at mem
  obtain ⟨site, hsite, hnode⟩ := List.mem_filterMap.mp mem
  exact h site node (sites site hsite) hnode

theorem ClosureFits.intact {c : Closure} (h : ClosureFits L m c) (below : L.Below base) :
    ClosureIntact m base c := by
  obtain ⟨isMethod, outer, sites, legible, standing, _⟩ := h
  exact ⟨standing.backed, below.function legible.1 sites⟩

theorem MethodFits.intact {c : Closure} (h : MethodFits L m c) (below : L.Below base) :
    ClosureIntact m base c := by
  obtain ⟨name, superclass, methods, path, sites, legible, standing, _⟩ := h
  exact ⟨standing.backed, below.function legible.1 sites⟩

theorem ClassFits.intact (below : L.Below base) : ∀ {c : Class}, ClassFits L m c →
    ClassIntact m base c
  | .base _, h => fun name method found => (h name method found).intact below
  | .derived _ _, h =>
    ⟨fun name method found => (h.1 name method found).intact below, ClassFits.intact below h.2⟩

theorem ValueFits.intact {v : Value} (h : ValueFits L m v) (below : L.Below base) :
    ValueIntact m base v := by
  cases v with
  | function c => exact ClosureFits.intact h below
  | classObject c => exact ClassFits.intact below h
  | object o => exact ClassFits.intact below h
  | _ => exact trivial

theorem Good.intact (good : Good L m) {scopes : List (Construct × List String)}
    (standing : Standing L m m.scope scopes) (below : L.Below base) : Intact m base where
  globals := by
    obtain ⟨frames, hscope, _, inside⟩ := standing
    exact inside 0 (hscope ▸ List.mem_append_right frames (List.mem_singleton_self 0))
  scope := standing.backed
  frames := fun frame name v found => (good.frames frame name v found).intact below
  fields := by
    intro id name v found
    obtain ⟨record, hrecord, found⟩ := Option.bind_eq_some_iff.mp found
    exact (good.fields id record name v hrecord found).intact below

end

/-- A machine on which a statement is executed, in whichever program of a session and however
    far into it, is intact below the node that is free next, and it has the distances found in
    the program. -/
theorem intact_in_course {host : Host} (honest : Honest host) {s : Session}
    {launches : List Launch} (history : History host s launches) {source : String}
    (accepted : (s.prepare source).diagnostics = []) {fuel fuel' : Nat} {statement : Stmt}
    {m : Machine}
    (reached : Reaches host (launch s fuel source).config ⟨fuel', .execute statement, m⟩) :
    Intact m (s.prepare source).session.fresh ∧
      Recorded (Lists m.hops) (resolve (readIn s source).value) := by
  have settled := history.settled honest
  have lawful : Lawful (ledger host (launch s fuel source :: launches)) :=
    settled.lawful_cons accepted
  have fits := (settled.launch_fits accepted).reach honest lawful reached
  obtain ⟨_, _, _, _, _, _, standing, _⟩ := fits.call
  refine ⟨fits.good.intact standing fun site node hsite hnode =>
    settled.numbered_cons accepted hsite hnode, ?_⟩
  intro r hr
  rw [resolve_readIn] at hr
  obtain ⟨site, hsite, found⟩ := List.mem_filterMap.mp hr
  cases site with
  | occurrence path initialized o =>
    rw [reference?_of_accepted (violation_eq_none accepted hsite)] at found
    cases found
    rw [← (prepare_accepted accepted).1] at hsite
    exact fits.good.hops path initialized o ⟨_, List.mem_cons_self .., hsite⟩
  | _ => cases found

end Lox.Evaluation
