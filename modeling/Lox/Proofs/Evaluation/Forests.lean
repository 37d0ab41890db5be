import Mathlib.Order.Bounds.Basic
import Lox.Proofs.Evaluation.Activations
import Lox.Proofs.Evaluation.Courses

/-! # Forests of scopes

  Scopes are made on their own or inside one another, and so their frames form a forest, in
  which values are given to names by declaration, by name or by distance (`Forest`). A frame
  is linked to the first frame of the scope that it was opened in. To find a name by walking
  along these links, or to go out just as many of them as lead to the nearest frame that has
  the name, comes to the same; and where no frame in reach has it, both ways are in vain, at
  whatever distance (`names_and_distances_agree`).
-/

namespace Lox.Evaluation

variable {m m' : Machine} {scopes : List Scope} {scope : Scope} {frame target : FrameId}

/-! ### Access by name and by distance -/

/-- Reads a name in the first frame of a scope that has it. -/
def readBy (scope : Scope) (name : Token) : Run Value := do
  Run.defined name ((← get).frames.get? scope name.lexeme)

/-- Gives a name a new value in the first frame of a scope that has it. -/
def assignBy (scope : Scope) (name : Token) (v : Value) : Run Unit := do
  let frames ← Run.defined name ((← get).frames.assign? scope name.lexeme v)
  modify fun m => { m with frames }

/-- Gives a name a new value in the frame at a distance from a scope. -/
def assignAt (scope : Scope) (distance : Nat) (name : Token) (v : Value) : Run Unit := do
  let frames ← Run.defined name ((← get).frames.assignAt? scope distance name.lexeme v)
  modify fun m => { m with frames }

/-- What is assigned by name is put into the frame that is found for the name. -/
theorem assignBy_eq (scope : Scope) (name : Token) (v : Value) :
    assignBy scope name v = Run.assignIn (fun m => m.frames.find? scope name.lexeme) name v := by
  funext m
  show (Run.defined name (m.frames.assign? scope name.lexeme v) >>= _) m = _
  unfold Frames.assign? Run.assignIn
  dsimp only
  cases m.frames.find? scope name.lexeme <;> rfl

/-- What is assigned at a distance is put into the frame there, if it has the name. -/
theorem assignAt_eq (scope : Scope) (distance : Nat) (name : Token) (v : Value) :
    assignAt scope distance name v =
      Run.assignIn (fun m => m.frames.findAt? scope distance name.lexeme) name v := by
  funext m
  show (Run.defined name (m.frames.assignAt? scope distance name.lexeme v) >>= _) m = _
  unfold Frames.assignAt? Run.assignIn
  dsimp only
  cases m.frames.findAt? scope distance name.lexeme <;> rfl

/-- A reference is read at its distance from the current scope, if that was noted, and by its
    name among the globals otherwise. -/
theorem readVariable_by (node : NodeId) (name : Token) (m : Machine) :
    Run.readVariable node name m =
      match m.hops.get? node with
      | some distance => Run.readAt m.scope distance name m
      | none => readBy Machine.globals name m := by
  rw [readVariable_apply]
  cases m.hops.get? node <;> rfl

/-- A reference is given a value at its distance from the current scope, if that was noted,
    and by its name among the globals otherwise. -/
theorem assignVariable_by (node : NodeId) (name : Token) (v : Value) (m : Machine) :
    Run.assignVariable node name v m =
      match m.hops.get? node with
      | some distance => assignAt m.scope distance name v m
      | none => assignBy Machine.globals name v m := by
  rw [assignVariable_apply]
  cases m.hops.get? node with
  | some distance => exact (congrFun (assignAt_eq m.scope distance name v) m).symm
  | none => exact (congrFun (assignBy_eq Machine.globals name v) m).symm

theorem readBy_of_some {name : Token} {v : Value}
    (found : m.frames.get? scope name.lexeme = some v) : readBy scope name m = .ok v m := by
  show Run.defined name (m.frames.get? scope name.lexeme) m = _
  rw [found]
  rfl

theorem readBy_of_none {name : Token} (missing : m.frames.get? scope name.lexeme = none) :
    readBy scope name m = .error (.fault (.undefined name)) m := by
  show Run.defined name (m.frames.get? scope name.lexeme) m = _
  rw [missing]
  rfl

theorem readAt_of_some {name : Token} {distance : Nat} {v : Value}
    (found : m.frames.getAt? scope distance name.lexeme = some v) :
    Run.readAt scope distance name m = .ok v m := by
  show Run.defined name (m.frames.getAt? scope distance name.lexeme) m = _
  rw [found]
  rfl

theorem readAt_of_none {name : Token} {distance : Nat}
    (missing : m.frames.getAt? scope distance name.lexeme = none) :
    Run.readAt scope distance name m = .error (.fault (.undefined name)) m := by
  show Run.defined name (m.frames.getAt? scope distance name.lexeme) m = _
  rw [missing]
  rfl

theorem assignIn_of_some {frame? : Machine → Option FrameId} {name : Token} {v : Value}
    (found : frame? m = some frame) : Run.assignIn frame? name v m =
      .ok () { m with frames := m.frames.put frame name.lexeme v } := by
  rw [Run.assignIn, found]

theorem assignIn_of_none {frame? : Machine → Option FrameId} {name : Token} {v : Value}
    (missing : frame? m = none) :
    Run.assignIn frame? name v m = .error (.fault (.undefined name)) m := by
  rw [Run.assignIn, missing]

/-- A value that was given to a name is in the frame that was found for it. -/
theorem assignIn_ok {frame? : Machine → Option FrameId} {name : Token} {v : Value}
    (run : Run.assignIn frame? name v m = .ok () m') :
    ∃ frame, frame? m = some frame ∧
      m' = { m with frames := m.frames.put frame name.lexeme v } := by
  cases found : frame? m with
  | none =>
    rw [assignIn_of_none found] at run
    cases run
  | some frame =>
    rw [assignIn_of_some found] at run
    cases run
    exact ⟨frame, rfl, rfl⟩

/-! ### Forests -/

/-- A machine whose frames come from making scopes and giving values to names in them, in any
    order, with the scopes that were made. -/
inductive Forest : Machine → List Scope → Prop where
  | bare {m : Machine} : m.frames = .empty → Forest m []
  | root {m m' : Machine} {scopes : List Scope} {scope : Scope} : Forest m scopes →
      Run.child [] .empty m = .ok scope m' → Forest m' (scope :: scopes)
  | child {m m' : Machine} {scopes : List Scope} {outer scope : Scope} : Forest m scopes →
      outer ∈ scopes → Run.child outer .empty m = .ok scope m' → Forest m' (scope :: scopes)
  | define {m : Machine} {scopes : List Scope} {scope : Scope} (name : String) (v : Value) :
      Forest m scopes → scope ∈ scopes →
      Forest { m with frames := m.frames.define scope name v } scopes
  | assign {m m' : Machine} {scopes : List Scope} {scope : Scope} {name : Token} {v : Value} :
      Forest m scopes → scope ∈ scopes → assignBy scope name v m = .ok () m' → Forest m' scopes
  | assignAt {m m' : Machine} {scopes : List Scope} {scope : Scope} {distance : Nat}
      {name : Token} {v : Value} : Forest m scopes → scope ∈ scopes →
      assignAt scope distance name v m = .ok () m' → Forest m' scopes

/-- A frame was opened in a scope that starts with another one. -/
def OpenedIn (scopes : List Scope) (inner outer : FrameId) : Prop :=
  ∃ rest, inner :: outer :: rest ∈ scopes

/-- So many links lead outwards from one frame to another. -/
inductive Outward (scopes : List Scope) : Nat → FrameId → FrameId → Prop where
  | here (frame : FrameId) : Outward scopes 0 frame frame
  | further {distance : Nat} {frame next target : FrameId} : OpenedIn scopes frame next →
      Outward scopes distance next target → Outward scopes (distance + 1) frame target

/-- So many links lead outwards from a scope to a frame. -/
def LeadsOut (scopes : List Scope) (scope : Scope) (distance : Nat) (target : FrameId) : Prop :=
  ∃ front ∈ scope.head?, Outward scopes distance front target

/-- The numbers of links that lead from a scope to a frame that has a name. -/
def distances (scopes : List Scope) (m : Machine) (scope : Scope) (name : String) : Set Nat :=
  {distance | ∃ target, LeadsOut scopes scope distance target ∧ Bound m target name}

/-! ### The frames of a scope -/

/-- Scopes that go back to a beginning by scopes that were made, and start with different
    frames. -/
structure Rows (m : Machine) (scopes : List Scope) : Prop where
  nonempty : ∀ scope ∈ scopes, scope ≠ []
  outer : ∀ frame outer, frame :: outer ∈ scopes → outer = [] ∨ outer ∈ scopes
  unique : ∀ frame outer outer', frame :: outer ∈ scopes → frame :: outer' ∈ scopes →
    outer = outer'
  below : ∀ scope ∈ scopes, ∀ frame ∈ scope, frame < m.frames.records.size

theorem Rows.of_size (rows : Rows m scopes)
    (size : m'.frames.records.size = m.frames.records.size) : Rows m' scopes :=
  ⟨rows.nonempty, rows.outer, rows.unique, size ▸ rows.below⟩

/-- The frame that is opened is another one than those before. -/
theorem Rows.child (rows : Rows m scopes) {outer : Scope} (place : outer = [] ∨ outer ∈ scopes)
    (run : Run.child outer .empty m = .ok scope m') : Rows m' (scope :: scopes) := by
  obtain ⟨rfl, rfl⟩ : scope = m.frames.records.size :: outer ∧
      m' = { m with frames := ⟨m.frames.records.push .empty⟩ } := by
    cases run
    exact ⟨rfl, rfl⟩
  -- no scope that is there has the new frame
  have fresh : ∀ rest, m.frames.records.size :: rest ∉ scopes := by
    intro rest mem
    exact Nat.lt_irrefl _ (rows.below _ mem _ (List.mem_cons_self ..))
  have size : (m.frames.records.push Bindings.empty).size = m.frames.records.size + 1 :=
    Array.size_push _
  have older : ∀ scope ∈ scopes, ∀ frame ∈ scope,
      frame < (m.frames.records.push Bindings.empty).size := by
    intro scope mem frame hframe
    rw [size]
    exact Nat.lt_succ_of_lt (rows.below scope mem frame hframe)
  refine ⟨?_, ?_, ?_, ?_⟩
  · exact List.forall_mem_cons.mpr ⟨List.cons_ne_nil _ _, rows.nonempty⟩
  · intro frame outer' mem
    rcases List.mem_cons.mp mem with same | mem
    · cases same
      exact place.imp_right (List.mem_cons_of_mem _)
    · exact (rows.outer frame outer' mem).imp_right (List.mem_cons_of_mem _)
  · intro frame outer₁ outer₂ mem₁ mem₂
    rcases List.mem_cons.mp mem₁ with same₁ | mem₁ <;>
      rcases List.mem_cons.mp mem₂ with same₂ | mem₂
    · cases same₁
      cases same₂
      rfl
    · cases same₁
      exact absurd mem₂ (fresh outer₂)
    · cases same₂
      exact absurd mem₁ (fresh outer₁)
    · exact rows.unique frame outer₁ outer₂ mem₁ mem₂
  · refine List.forall_mem_cons.mpr ⟨?_, older⟩
    intro frame hframe
    rcases List.mem_cons.mp hframe with rfl | hframe
    · exact size.symm ▸ Nat.lt_succ_self _
    · rcases place with rfl | place
      · cases hframe
      · exact older outer place frame hframe

theorem size_put (frames : Frames Value) (frame : FrameId) (name : String) (v : Value) :
    (frames.put frame name v).records.size = frames.records.size :=
  Array.size_modify

theorem Rows.assignIn (rows : Rows m scopes) {frame? : Machine → Option FrameId} {name : Token}
    {v : Value} (run : Run.assignIn frame? name v m = .ok () m') : Rows m' scopes := by
  obtain ⟨frame, _, rfl⟩ := assignIn_ok run
  exact rows.of_size (size_put _ _ _ _)

theorem Forest.rows (forest : Forest m scopes) : Rows m scopes := by
  induction forest with
  | bare => exact ⟨nofun, nofun, nofun, nofun⟩
  | root _ run ih => exact ih.child (.inl rfl) run
  | child _ mem run ih => exact ih.child (.inr mem) run
  | @define m _ scope name v _ mem ih =>
    apply ih.of_size
    cases scope with
    | nil => rfl
    | cons frame outer => exact size_put _ _ _ _
  | assign _ _ run ih => exact ih.assignIn (assignBy_eq .. ▸ run)
  | assignAt _ _ run ih => exact ih.assignIn (assignAt_eq .. ▸ run)

/-- Going out along links is going along the list of frames. -/
theorem Rows.outward_iff (rows : Rows m scopes) {outer : Scope}
    (mem : frame :: outer ∈ scopes) {distance : Nat} :
    Outward scopes distance frame target ↔ (frame :: outer)[distance]? = some target := by
  -- on the distance: a frame is in front of one scope only, so each step outwards is along it
  induction distance generalizing frame outer with
  | zero =>
    constructor
    · rintro ⟨⟩
      rfl
    · rintro ⟨⟩
      exact .here _
  | succ distance ih =>
    rw [List.getElem?_cons_succ]
    constructor
    · intro h
      cases h with
      | @further _ _ next _ linked later =>
        obtain ⟨rest, linked⟩ := linked
        obtain rfl := rows.unique frame _ _ mem linked
        have made := (rows.outer frame _ mem).resolve_left (List.cons_ne_nil _ _)
        exact (ih made).mp later
    · intro found
      cases outer with
      | nil => cases found
      | cons next rest =>
        have made := (rows.outer frame _ mem).resolve_left (List.cons_ne_nil _ _)
        exact .further ⟨rest, mem⟩ ((ih made).mpr found)

theorem Rows.leadsOut_iff (rows : Rows m scopes) (mem : scope ∈ scopes) {distance : Nat} :
    LeadsOut scopes scope distance target ↔ scope[distance]? = some target := by
  obtain ⟨front, outer, rfl⟩ := List.exists_cons_of_ne_nil (rows.nonempty scope mem)
  rw [← rows.outward_iff mem]
  constructor
  · rintro ⟨_, ⟨⟩, outward⟩
    exact outward
  · exact fun outward => ⟨front, rfl, outward⟩

theorem Rows.mem_distances (rows : Rows m scopes) (mem : scope ∈ scopes) {name : String}
    {distance : Nat} : distance ∈ distances scopes m scope name ↔
      ∃ target, scope[distance]? = some target ∧ Bound m target name :=
  exists_congr fun _ => and_congr_left' (rows.leadsOut_iff mem)

/-! ### Finding a name -/

theorem get?_of_find? {frames : Frames Value} {name : String}
    (found : frames.find? scope name = some frame) :
    frames.get? scope name = frames.lookup? frame name := by
  induction scope with
  | nil => cases found
  | cons first outer ih =>
    rw [Frames.find?, List.find?_cons] at found
    rw [Frames.get?, List.findSome?_cons]
    cases here : frames.lookup? first name with
    | some v =>
      rw [here] at found
      cases found
      exact here.symm
    | none =>
      rw [here] at found
      exact ih found

/-- The nearest frame that has a name is the one that is found by walking. -/
theorem Rows.find?_of_isLeast (rows : Rows m scopes) (mem : scope ∈ scopes) {name : String}
    {distance : Nat} (least : IsLeast (distances scopes m scope name) distance) :
    ∃ target, scope[distance]? = some target ∧ Bound m target name ∧
      m.frames.find? scope name = some target := by
  obtain ⟨target, there, bound⟩ := (rows.mem_distances mem).mp least.1
  refine ⟨target, there, bound, List.find?_eq_some_iff_getElem.mpr ⟨bound, ?_⟩⟩
  obtain ⟨below, same⟩ := List.getElem?_eq_some_iff.mp there
  refine ⟨distance, below, same, ?_⟩
  intro nearer less
  -- a frame before it that had the name would be nearer
  rw [Bool.not_eq_true', ← Bool.not_eq_true]
  intro bound'
  have near : nearer ∈ distances scopes m scope name :=
    (rows.mem_distances mem).mpr ⟨_, List.getElem?_eq_getElem (less.trans below), bound'⟩
  exact Nat.not_le_of_lt less (least.2 near)

theorem Rows.not_bound (rows : Rows m scopes) (mem : scope ∈ scopes) {name : String}
    (nowhere : distances scopes m scope name = ∅) : ∀ frame ∈ scope, ¬Bound m frame name := by
  intro frame hframe bound
  obtain ⟨distance, there⟩ := List.mem_iff_getElem?.mp hframe
  have : distance ∈ distances scopes m scope name :=
    (rows.mem_distances mem).mpr ⟨frame, there, bound⟩
  rw [nowhere] at this
  exact this

theorem ancestor_suffix (scope : Scope) (distance : Nat) :
    Frames.ancestor scope distance <:+ scope := by
  fun_induction Frames.ancestor scope distance with
  | case1 _ _ _ _ ih => exact ih.trans (List.suffix_cons ..)
  | case2 => exact List.suffix_rfl

section

variable {name : String} (missing : ∀ frame ∈ scope, ¬Bound m frame name)
include missing

theorem find?_of_not_bound : m.frames.find? scope name = none :=
  List.find?_eq_none.mpr missing

theorem get?_of_not_bound : m.frames.get? scope name = none :=
  List.findSome?_eq_none_iff.mpr fun frame mem =>
    Option.not_isSome_iff_eq_none.mp (missing frame mem)

/-- However far one goes, one stays among the frames of the scope. -/
theorem findAt?_of_not_bound (distance : Nat) : m.frames.findAt? scope distance name = none := by
  unfold Frames.findAt?
  have among := (ancestor_suffix scope distance).subset
  split
  · next frame _ reached =>
    rw [reached] at among
    exact if_neg (missing frame (among (List.mem_cons_self ..)))
  · rfl

theorem getAt?_of_not_bound (distance : Nat) : m.frames.getAt? scope distance name = none := by
  unfold Frames.getAt?
  have among := (ancestor_suffix scope distance).subset
  split
  · next frame _ reached =>
    rw [reached] at among
    exact Option.not_isSome_iff_eq_none.mp (missing frame (among (List.mem_cons_self ..)))
  · rfl

end

/-! ### By name or by distance -/

/-- In every forest of scopes: if the frames that have a name can be reached from a scope and
    the nearest one is so many links away, reading the name and reading it at that distance
    yield the same value, and giving it a value and giving it at that distance come to the
    same. If there is no such frame, all of these complain of the name, at any distance, and
    leave everything as it is. -/
theorem names_and_distances_agree (forest : Forest m scopes) (mem : scope ∈ scopes)
    (name : Token) :
    (∀ distance, IsLeast (distances scopes m scope name.lexeme) distance →
      (∃ v, readBy scope name m = .ok v m ∧ Run.readAt scope distance name m = .ok v m) ∧
      ∀ v, ∃ m', assignBy scope name v m = .ok () m' ∧
        assignAt scope distance name v m = .ok () m') ∧
    (distances scopes m scope name.lexeme = ∅ →
      ∃ e : RuntimeError, e.token = name ∧
        e.message = "Undefined variable '" ++ name.lexeme ++ "'." ∧
        readBy scope name m = .error (.fault e) m ∧
        (∀ v, assignBy scope name v m = .error (.fault e) m) ∧
        ∀ distance, Run.readAt scope distance name m = .error (.fault e) m ∧
          ∀ v, assignAt scope distance name v m = .error (.fault e) m) := by
  have rows := forest.rows
  constructor
  · intro distance least
    obtain ⟨target, there, bound, found⟩ := rows.find?_of_isLeast mem least
    obtain ⟨v, value⟩ := Option.isSome_iff_exists.mp bound
    have byName : m.frames.get? scope name.lexeme = some v := (get?_of_find? found).trans value
    have byDistance : m.frames.getAt? scope distance name.lexeme = some v :=
      (getAt?_eq there name.lexeme).trans value
    refine ⟨⟨v, readBy_of_some byName, readAt_of_some byDistance⟩, ?_⟩
    intro v'
    rw [assignBy_eq, assignAt_eq]
    exact ⟨{ m with frames := m.frames.put target name.lexeme v' }, assignIn_of_some found,
      assignIn_of_some (findAt?_eq there bound)⟩
  · intro nowhere
    have missing := rows.not_bound mem nowhere
    refine ⟨.undefined name, rfl, rfl, readBy_of_none (get?_of_not_bound missing), ?_, ?_⟩
    · intro v
      rw [assignBy_eq]
      exact assignIn_of_none (find?_of_not_bound missing)
    · intro distance
      refine ⟨readAt_of_none (getAt?_of_not_bound missing distance), fun v => ?_⟩
      rw [assignAt_eq]
      exact assignIn_of_none (findAt?_of_not_bound missing distance)

/-- The theorem in the innermost of three scopes: `a` is declared in both others, and `b`
    nowhere. -/
theorem names_and_distances_agree_shadowed :
    let a : Token := ⟨.identifier, "a", 1⟩
    let b : Token := ⟨.identifier, "b", 1⟩
    let m := { Machine.start [] .unlimited with
      frames := ⟨#[.single "a" (.bool true), .single "a" (.bool false), .empty]⟩ }
    let scopes := [[2, 1, 0], [1, 0], [0]]
    Forest m scopes ∧ IsLeast (distances scopes m [2, 1, 0] "a") 1 ∧
      (∃ v, readBy [2, 1, 0] a m = .ok v m ∧ Run.readAt [2, 1, 0] 1 a m = .ok v m) ∧
      distances scopes m [2, 1, 0] "b" = ∅ ∧
      ∃ e : RuntimeError, e.message = "Undefined variable 'b'." ∧
        Run.readAt [2, 1, 0] 7 b m = .error (.fault e) m := by
  intro a b m scopes
  let bare : Machine := { Machine.start [] .unlimited with frames := .empty }
  have inner : Forest { bare with frames := ⟨#[.empty, .empty, .empty]⟩ } scopes :=
    .child (.child (.root (.bare (m := bare) rfl) rfl) (List.mem_cons_self ..) rfl)
      (List.mem_cons_self ..) rfl
  have forest : Forest m scopes :=
    .define "a" (.bool false)
      (.define "a" (.bool true) inner (show [0] ∈ scopes by decide))
      (show [1, 0] ∈ scopes by decide)
  have mem : [2, 1, 0] ∈ scopes := List.mem_cons_self ..
  have at_one : 1 ∈ distances scopes m [2, 1, 0] "a" :=
    (forest.rows.mem_distances mem).mpr ⟨1, rfl, rfl⟩
  have least : IsLeast (distances scopes m [2, 1, 0] "a") 1 := by
    refine ⟨at_one, ?_⟩
    intro distance near
    rcases Nat.eq_zero_or_pos distance with rfl | further
    · obtain ⟨target, there, bound⟩ := (forest.rows.mem_distances mem).mp near
      cases there
      cases bound
    · exact further
  have nowhere : distances scopes m [2, 1, 0] "b" = ∅ := by
    apply Set.eq_empty_of_forall_notMem
    intro distance near
    obtain ⟨target, there, bound⟩ := (forest.rows.mem_distances mem).mp near
    have among : target ∈ [2, 1, 0] := List.mem_of_getElem? there
    simp only [List.mem_cons, List.not_mem_nil, or_false] at among
    rcases among with rfl | rfl | rfl <;> cases bound
  obtain ⟨reached, unreached⟩ := names_and_distances_agree forest mem a
  obtain ⟨_, lost⟩ := names_and_distances_agree forest mem b
  obtain ⟨e, _, message, _, _, far⟩ := lost nowhere
  exact ⟨forest, least, (reached 1 least).1, nowhere, e, message, (far 7).1⟩

end Lox.Evaluation
