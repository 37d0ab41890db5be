import Lox.Proofs.Evaluation.Chronicles

/-! # The last write wins

  A field of an instance gets a value where an assignment to a property is evaluated, and nowhere
  else. `writes` lists what is written in the course of a call, in order, whichever expressions
  the instances were had by. What a field holds after a call is what was last written to it, or
  what it held before (`fields_after`); so, where a call is made, it holds what was last written
  to it since an outer call (`LeadsTo.fields`), and in the session (`Logged.fields`).
-/

namespace Lox.Evaluation

variable {host : Host} {fuel : Nat} {m m' : Machine} {c c' : Config}
  {cs : List Config}

/-! ### Writes -/

/-- What was written last to a field, if anything was. -/
def lastWrite? (id : Nat) (name : String) (log : List Write) : Option Value :=
  log.reverse.findSome? fun w => if w.target = id ∧ w.name = name then some w.value else none

theorem lastWrite?_append (id : Nat) (name : String) (earlier later : List Write) :
    lastWrite? id name (earlier ++ later) =
      (lastWrite? id name later).or (lastWrite? id name earlier) := by
  unfold lastWrite?
  rw [List.reverse_append, List.findSome?_append]

/-- A write leaves other fields as they are. -/
theorem field?_afterWrite_of_ne {w : Write} {id : Nat} {name : String}
    (other : id ≠ w.target ∨ name ≠ w.name) :
    field? (afterWrite m w) id name = field? m id name := by
  unfold field? afterWrite
  rw [Array.getElem?_modify]
  split
  · next same =>
    have differs : name ≠ w.name := other.resolve_left (not_not_intro same.symm)
    cases m.fields[id]? with
    | none => rfl
    | some record => exact Bindings.get?_set_of_ne record w.value differs
  · rfl

/-- A field of an instance that is there holds what is written to it. -/
theorem field?_afterWrite_self {w : Write} (below : w.target < m.fields.size) :
    field? (afterWrite m w) w.target w.name = some w.value := by
  unfold field? afterWrite
  rw [Array.getElem?_modify, if_pos rfl, Array.getElem?_eq_getElem below]
  exact Bindings.get?_set_self _ w.name w.value

theorem field?_afterWrite {w : Write} (below : w.target < m.fields.size) (id : Nat)
    (name : String) :
    field? (afterWrite m w) id name = (lastWrite? id name [w]).or (field? m id name) := by
  have single : lastWrite? id name [w] =
      if w.target = id ∧ w.name = name then some w.value else none := by
    simp [lastWrite?]
  rw [single]
  by_cases same : w.target = id ∧ w.name = name
  · obtain ⟨rfl, rfl⟩ := same
    rw [if_pos ⟨rfl, rfl⟩]
    exact field?_afterWrite_self below
  · rw [if_neg same]
    rw [not_and_or] at same
    exact field?_afterWrite_of_ne (same.imp Ne.symm Ne.symm)

theorem size_afterWrite (m : Machine) (w : Write) : (afterWrite m w).fields.size = m.fields.size :=
  Array.size_modify

theorem field?_foldl_afterWrite {log : List Write} (below : ∀ w ∈ log, w.target < m.fields.size)
    (id : Nat) (name : String) :
    field? (log.foldl afterWrite m) id name = (lastWrite? id name log).or (field? m id name) := by
  induction log generalizing m with
  | nil => rfl
  | cons w log ih =>
    obtain ⟨here, later⟩ := List.forall_mem_cons.mp below
    have later : ∀ w' ∈ log, w'.target < (afterWrite m w).fields.size := by
      rw [size_afterWrite]
      exact later
    have split : w :: log = [w] ++ log := rfl
    rw [List.foldl_cons, ih later, field?_afterWrite here, split, lastWrite?_append,
      Option.or_assoc]

theorem size_foldl_afterWrite (log : List Write) (m : Machine) :
    (log.foldl afterWrite m).fields.size = m.fields.size := by
  induction log generalizing m with
  | nil => rfl
  | cons w log ih => rw [List.foldl_cons, ih, size_afterWrite]

/-- What is written in the course of a call, in order. -/
def writes (host : Host) (c : Config) : List Write :=
  ((parts host c).attach.flatMap fun part => writes host part.1) ++ ownWrites host c
termination_by c.depth
decreasing_by exact calls_depth (mem_parts.mp part.2)

theorem writes_eq (host : Host) (c : Config) :
    writes host c = (parts host c).flatMap (writes host) ++ ownWrites host c := by
  rw [writes, ← List.flatMap_map, List.attach_map_subtype_val]

/-! ### Fields after calls -/

theorem Linked.fields (h : Linked host m cs m') (id : Nat) (name : String)
    (each : ∀ c ∈ cs, field? (c.after host) id name =
      (lastWrite? id name (writes host c)).or (field? c.machine id name)) :
    field? m' id name =
      (lastWrite? id name (cs.flatMap (writes host))).or (field? m id name) := by
  induction cs generalizing m with
  | nil => exact h id name
  | cons c cs ih =>
    obtain ⟨first, others⟩ := List.forall_mem_cons.mp each
    rw [List.flatMap_cons, lastWrite?_append, Option.or_assoc, ih h.2 others, first, h.1 id name]

/-- What is written itself by a call is written to an instance that is there. -/
theorem ownWrites_below {R : Records} (confined : Confined host) (h : Anchored R host c) :
    ∀ w ∈ ownWrites host c, w.target < (c.after host).fields.size := by
  intro w mem
  unfold ownWrites at mem
  split at mem
  · next fuel object name value m =>
    split at mem
    · next target m₁ run =>
      have steady : SteadyAt R host fuel := steadyAt confined fuel
      obtain ⟨_, held⟩ := (steady.evaluate (h.step .setObject steady)).ok run
      have made : target.id < m₁.fields.size := held.1
      have inside := Config.older host ⟨fuel, .evaluate value, m₁⟩
      have calls : Calls host ⟨fuel + 1, .evaluate (.set object name value), m⟩
          ⟨fuel, .evaluate value, m₁⟩ := .setValue run
      have ended := calls_end calls
      -- the instance was there when its expression was evaluated, before the value was
      split at mem
      · cases List.mem_singleton.mp mem
        exact Nat.lt_of_lt_of_le made (inside.trans ended).fields
      · cases mem
    · cases mem
  · cases mem

/-- After a call a field holds what was last written to it in the course of the call, or else
    what it held before. -/
theorem fields_after {R : Records} (confined : Confined host) {c : Config}
    (h : Anchored R host c) (id : Nat) (name : String) :
    field? (c.after host) id name =
      (lastWrite? id name (writes host c)).or (field? c.machine id name) := by
  -- first the parts, each of them shallower than the call, and then what it writes itself
  obtain ⟨m', turns, own⟩ := parts_in_turn host c
  have inside := turns.linked.fields id name fun part mem =>
    fields_after confined (h.step (mem_parts.mp mem) (steadyAt confined _)) id name
  have below : ∀ w ∈ ownWrites host c, w.target < m'.fields.size := by
    have below := ownWrites_below confined h
    rw [own, size_foldl_afterWrite] at below
    exact below
  rw [writes_eq, lastWrite?_append, Option.or_assoc, ← inside, own, field?_foldl_afterWrite below]
termination_by c.depth
decreasing_by exact calls_depth (mem_parts.mp mem)

/-! ### Fields before calls -/

/-- A call is made in the course of another one, after the given writes. -/
inductive LeadsTo (host : Host) : Config → List Write → Config → Prop where
  | refl (c : Config) : LeadsTo host c [] c
  | step {c part c' : Config} {earlier later : List Config} {log : List Write} :
      parts host c = earlier ++ part :: later → LeadsTo host part log c' →
      LeadsTo host c (earlier.flatMap (writes host) ++ log) c'

theorem LeadsTo.reaches {log : List Write} (h : LeadsTo host c log c') : Reaches host c c' := by
  induction h with
  | refl => exact .refl _
  | step split _ ih =>
    refine .step (mem_parts.mp ?_) ih
    rw [split]
    exact List.mem_append_right _ (List.mem_cons_self ..)

/-- A later statement of a program comes after what the first one writes. -/
theorem LeadsTo.later {s : Stmt} {rest : List Stmt} {flow : Flow} {log : List Write}
    (run : execute host fuel s m = .ok flow m')
    (leads : LeadsTo host ⟨fuel, .interpret rest, m'⟩ log c) :
    LeadsTo host ⟨fuel, .interpret (s :: rest), m⟩
      (writes host ⟨fuel, .execute s, m⟩ ++ log) c := by
  have split : parts host ⟨fuel, .interpret (s :: rest), m⟩ =
      [⟨fuel, .execute s, m⟩] ++ ⟨fuel, .interpret rest, m'⟩ :: [] := by
    cases fuel <;> simp [parts, executing, run]
  have both := LeadsTo.step split leads
  rw [List.flatMap_singleton] at both
  exact both

/-- Of every call that is made it can be said what was written before. -/
theorem Reaches.leadsTo (h : Reaches host c c') : ∃ log, LeadsTo host c log c' := by
  induction h with
  | refl c => exact ⟨[], .refl c⟩
  | step calls _ ih =>
    obtain ⟨log, leads⟩ := ih
    obtain ⟨earlier, later, split⟩ := List.append_of_mem (mem_parts.mpr calls)
    exact ⟨_, .step split leads⟩

theorem Linked.until {earlier later : List Config}
    (h : Linked host m (earlier ++ c :: later) m') : Linked host m earlier c.machine := by
  induction earlier generalizing m with
  | nil => exact h.1
  | cons first earlier ih => exact ⟨h.1, ih h.2⟩

/-- Where a call is made, a field holds what was last written to it since an outer call was
    made, or else what it held then. -/
theorem LeadsTo.fields {R : Records} (confined : Confined host) (h : Anchored R host c)
    {log : List Write} (leads : LeadsTo host c log c') (id : Nat) (name : String) :
    field? c'.machine id name = (lastWrite? id name log).or (field? c.machine id name) := by
  -- from the outer call inwards: what comes before a part are the parts before it
  induction leads with
  | refl => rfl
  | @step c part c' earlier later log split _ ih =>
    have inside : ∀ part ∈ parts host c, Anchored R host part :=
      fun part mem => h.step (mem_parts.mp mem) (steadyAt confined _)
    obtain ⟨m', turns, _⟩ := parts_in_turn host c
    rw [split] at turns inside
    have before := turns.linked.until.fields id name fun part mem =>
      fields_after confined (inside part (List.mem_append_left _ mem)) id name
    rw [ih (inside part (List.mem_append_right _ (List.mem_cons_self ..))), before,
      lastWrite?_append, Option.or_assoc]

/-! ### Fields in a session -/

/-- What was written in the course of programs. -/
def sessionWrites : List Occasion → List Write
  | [] => []
  | o :: earlier => sessionWrites earlier ++ writes o.host o.launch.config

/-- A call that is made in a session, after all that was written in it until then. -/
inductive Logged (os : List Occasion) : Host → List Write → Config → Prop where
  | inside {later earlier : List Occasion} {o : Occasion} {log : List Write} {c : Config} :
      os = later ++ o :: earlier → LeadsTo o.host o.launch.config log c →
      Logged os o.host (sessionWrites earlier ++ log) c

section

variable {s : Session} {os : List Occasion} {o : Occasion} {log : List Write}

theorem Chronicle.begun (h : Chronicle s os) : Begun os := by
  induction h with
  | start => exact .never
  | cleared _ ih => exact ih
  | given _ _ _ ih => exact ih
  | refused _ _ _ ih => exact ih
  | ran chronicle confined accepted _ _ => exact .program _ chronicle confined accepted

theorem Begun.suffix {later : List Occasion} (begun : Begun (later ++ os)) : Begun os := by
  induction later with
  | nil => exact begun
  | cons o later ih =>
    cases begun with
    | program _ chronicle _ _ => exact ih chronicle.begun

theorem field?_launch (s : Session) (fuel : Nat) (source : String) (id : Nat) (name : String) :
    field? (launch s fuel source).machine id name = field? s.machine id name := by
  obtain ⟨_, fields, _⟩ := launch_machine s fuel source
  rw [field?, fields]
  rfl

theorem Chronicle.anchored {host : Host} (chronicle : Chronicle s os) (confined : Confined host)
    (fuel : Nat) (source : String) : Anchored (records (⟨host, launch s fuel source⟩ :: os)) host
      (launch s fuel source).config :=
  (chronicle.chronicled.begin confined fuel source).anchored _ (List.mem_cons_self ..)

/-- Between programs a field holds what was last written to it. -/
theorem Chronicle.fields (chronicle : Chronicle s os) (id : Nat) (name : String) :
    field? s.machine id name = lastWrite? id name (sessionWrites os) := by
  induction chronicle with
  | start host sink => rfl
  | cleared _ ih => exact ih
  | given _ _ _ ih => exact ih
  | @refused s s' os host fuel source problems _ complaints ran ih =>
    have no : ¬(s.prepare source).diagnostics.isEmpty = true :=
      fun empty => complaints (List.isEmpty_iff.mp empty)
    rw [Session.run, if_neg no] at ran
    cases ran
    exact (field?_launch s fuel source id name).trans ih
  | @ran s s' os host fuel source problems chronicle confined accepted ran ih =>
    -- the program has left its machine, and was launched on the one between programs
    rw [run_machine accepted ran, sessionWrites, lastWrite?_append, ← ih,
      ← field?_launch s fuel source]
    exact fields_after confined (chronicle.anchored confined fuel source) id name

theorem Logged.reached {host : Host} (h : Logged os host log c) :
    ∃ o ∈ os, o.host = host ∧ Reaches host o.launch.config c := by
  cases h with
  | @inside later earlier o _ _ split leads =>
    refine ⟨o, ?_, rfl, leads.reaches⟩
    rw [split]
    exact List.mem_append_right _ (List.mem_cons_self ..)

theorem Logged.anchored {host : Host} (begun : Begun os) (h : Logged os host log c) :
    Confined host ∧ Anchored (records os) host c := by
  obtain ⟨o, started, rfl, reached⟩ := h.reached
  exact ⟨begun.ordered.confined o started, begun.ordered.reached started reached⟩

/-- Where a call is made, a field holds what was last written to it. -/
theorem Logged.fields {host : Host} (begun : Begun os) (h : Logged os host log c) (id : Nat)
    (name : String) : field? c.machine id name = lastWrite? id name log := by
  cases h with
  | @inside later earlier o log _ split leads =>
    rw [split] at begun
    cases begun.suffix with
    | @program s _ host source fuel chronicle confined accepted =>
      rw [lastWrite?_append, ← chronicle.fields, ← field?_launch s fuel source]
      exact leads.fields confined (chronicle.anchored confined fuel source) id name

end

end Lox.Evaluation
