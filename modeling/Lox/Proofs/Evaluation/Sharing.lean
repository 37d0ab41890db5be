import Lox.Proofs.Evaluation.Forests

/-! # Writes are seen where the frame is shared

  Scopes that were made inside one another have frames in common. A value that is given to a
  name in one frame is seen from exactly those scopes that lead out to this frame with no
  nearer frame that has the name (`Unhidden`); from all others, and under all other names,
  everything looks as before (`writes_are_seen_where_shared`).
-/

namespace Lox.Evaluation

variable {α : Type} {m m' : Machine} {scopes : List Scope} {scope : Scope} {written : FrameId}
  {name : String} {v : Value}

/-! ### What is seen -/

/-- What a computation came to, whatever became of its machine. -/
def answer : EStateM.Result Halt Machine α → Except Halt α
  | .ok a _ => .ok a
  | .error e _ => .error e

/-- The nearest frame from a scope that has a name. -/
def Nearest (scopes : List Scope) (m : Machine) (scope : Scope) (name : String)
    (frame : FrameId) : Prop :=
  ∃ distance, IsLeast (distances scopes m scope name) distance ∧
    LeadsOut scopes scope distance frame

/-- The frame at a distance from a scope, or the last one if there are not so many links. -/
def Located (scopes : List Scope) (scope : Scope) (distance : Nat) (frame : FrameId) : Prop :=
  LeadsOut scopes scope distance frame ∨
    ∃ fewer < distance, LeadsOut scopes scope fewer frame ∧ ∀ next, ¬OpenedIn scopes frame next

/-- A frame is on the way out from a scope, and none that is nearer has the name. -/
def Unhidden (scopes : List Scope) (m : Machine) (scope : Scope) (name : String)
    (frame : FrameId) : Prop :=
  ∃ distance, LeadsOut scopes scope distance frame ∧
    ∀ nearer < distance, nearer ∉ distances scopes m scope name

/-- From the scopes that see a write, reading the name yields the value; from other scopes, and
    under other names, reading comes to what it did before. -/
def Shows (scopes : List Scope) (m m' : Machine) (name : String) (v : Value)
    (sees : Scope → Prop) : Prop :=
  ∀ scope ∈ scopes, ∀ token : Token,
    (token.lexeme = name ∧ sees scope → answer (readBy scope token m') = .ok v) ∧
    (¬(token.lexeme = name ∧ sees scope) →
      answer (readBy scope token m') = answer (readBy scope token m))

/-- A frame that has the name is the nearest one just if it is not hidden. -/
theorem nearest_iff (bound : Bound m written name) :
    Nearest scopes m scope name written ↔ Unhidden scopes m scope name written := by
  constructor
  · rintro ⟨distance, least, leads⟩
    exact ⟨distance, leads, fun nearer less near => Nat.not_le_of_lt less (least.2 near)⟩
  · rintro ⟨distance, leads, first⟩
    have there : distance ∈ distances scopes m scope name := ⟨written, leads, bound⟩
    exact ⟨distance, ⟨there, fun near mem => Nat.le_of_not_lt fun less => first near less mem⟩,
      leads⟩

/-- The frame that walking finds is the nearest one. -/
theorem Rows.nearest_of_find? (rows : Rows m scopes) (mem : scope ∈ scopes)
    (found : m.frames.find? scope name = some written) :
    Nearest scopes m scope name written := by
  rw [nearest_iff (bound_of_find? found)]
  obtain ⟨_, distance, below, there, first⟩ := List.find?_eq_some_iff_getElem.mp found
  refine ⟨distance, (rows.leadsOut_iff mem).mpr (there ▸ List.getElem?_eq_getElem below), ?_⟩
  intro nearer less near
  obtain ⟨frame, at_nearer, bound⟩ := (rows.mem_distances mem).mp near
  obtain ⟨_, rfl⟩ := List.getElem?_eq_some_iff.mp at_nearer
  have missing := first nearer less
  rw [Bool.not_eq_true', ← Bool.not_eq_true] at missing
  exact missing bound

theorem LeadsOut.further {front next : FrameId} {rest : Scope} {distance : Nat}
    (leads : LeadsOut scopes (next :: rest) distance written)
    (made : front :: next :: rest ∈ scopes) :
    LeadsOut scopes (front :: next :: rest) (distance + 1) written := by
  obtain ⟨_, ⟨⟩, outward⟩ := leads
  exact ⟨front, rfl, .further ⟨rest, made⟩ outward⟩

theorem Rows.located_of_ancestor (rows : Rows m scopes) (mem : scope ∈ scopes)
    {distance : Nat} {outer : Scope}
    (reached : Frames.ancestor scope distance = written :: outer) :
    Located scopes scope distance written := by
  fun_induction Frames.ancestor scope distance with
  | case1 front next rest distance ih =>
    have made := (rows.outer front _ mem).resolve_left (List.cons_ne_nil _ _)
    rcases ih made reached with leads | ⟨fewer, less, leads, last⟩
    · exact .inl (leads.further mem)
    · exact .inr ⟨fewer + 1, Nat.succ_lt_succ less, leads.further mem, last⟩
  | case2 scope distance outermost =>
    subst reached
    have here : LeadsOut scopes (written :: outer) 0 written := ⟨written, rfl, .here written⟩
    cases distance with
    | zero => exact .inl here
    | succ distance =>
      -- there is nothing around the frame, or one would have gone on
      right
      refine ⟨0, Nat.succ_pos _, here, ?_⟩
      rintro next ⟨rest, linked⟩
      cases rows.unique written _ _ linked mem
      exact outermost written next rest distance rfl rfl

theorem Rows.located_of_findAt? (rows : Rows m scopes) (mem : scope ∈ scopes)
    {distance : Nat} (found : m.frames.findAt? scope distance name = some written) :
    Located scopes scope distance written := by
  unfold Frames.findAt? at found
  split at found
  · next frame outer reached =>
    obtain ⟨_, same⟩ := Option.ite_none_right_eq_some.mp found
    cases same
    exact rows.located_of_ancestor mem reached
  · cases found

/-! ### Reading after a write -/

theorem get?_put_of_name_ne (frames : Frames Value) {other : String} (ne : other ≠ name) :
    (frames.put written name v).get? scope other = frames.get? scope other := by
  unfold Frames.get?
  congr 1
  funext frame
  exact frames.lookup?_put_of_name_ne frame written v ne

/-- A value is seen from a scope that has the frame, if no frame before it has the name. -/
theorem get?_put_of_unhidden (below : written < m.frames.records.size) {distance : Nat}
    (there : scope[distance]? = some written)
    (first : ∀ nearer : Nat, nearer < distance → ∀ frame, scope[nearer]? = some frame →
      ¬Bound m frame name) :
    (m.frames.put written name v).get? scope name = some v := by
  induction scope generalizing distance with
  | nil => cases there
  | cons front outer ih =>
    rw [Frames.get?, List.findSome?_cons]
    by_cases same : front = written
    · rw [same, Frames.lookup?_put_self _ _ _ below]
    · cases distance with
      | zero => exact absurd (Option.some.inj there) same
      | succ distance =>
        have missing : m.frames.lookup? front name = none :=
          Option.not_isSome_iff_eq_none.mp (first 0 (Nat.succ_pos _) front rfl)
        rw [Frames.lookup?_put_of_frame_ne _ _ _ _ (Ne.symm same), missing]
        exact ih there fun nearer less frame => first (nearer + 1) (Nat.succ_lt_succ less) frame

/-- A value is not seen from a scope that does not have the frame, or has it only behind one
    that has the name. -/
theorem get?_put_of_hidden
    (hidden : ∀ distance, scope[distance]? = some written →
      ∃ nearer : Nat, nearer < distance ∧
        ∃ frame, scope[nearer]? = some frame ∧ Bound m frame name) :
    (m.frames.put written name v).get? scope name = m.frames.get? scope name := by
  induction scope with
  | nil => rfl
  | cons front outer ih =>
    have other : written ≠ front := by
      rintro rfl
      obtain ⟨_, less, _⟩ := hidden 0 rfl
      exact absurd less (Nat.not_lt_zero _)
    rw [Frames.get?, Frames.get?, List.findSome?_cons, List.findSome?_cons,
      Frames.lookup?_put_of_frame_ne _ _ _ _ other]
    cases here : m.frames.lookup? front name with
    | some old => rfl
    | none =>
      apply ih
      intro distance there
      obtain ⟨nearer, less, frame, at_nearer, bound⟩ := hidden (distance + 1) there
      cases nearer with
      | zero =>
        -- the first frame does not have the name
        cases at_nearer
        rw [Bound, here] at bound
        cases bound
      | succ nearer => exact ⟨nearer, Nat.lt_of_succ_lt_succ less, frame, at_nearer, bound⟩

theorem answer_readBy_congr {token : Token}
    (same : m'.frames.get? scope token.lexeme = m.frames.get? scope token.lexeme) :
    answer (readBy scope token m') = answer (readBy scope token m) := by
  cases found : m.frames.get? scope token.lexeme with
  | some w => rw [readBy_of_some found, readBy_of_some (same.trans found), answer, answer]
  | none => rw [readBy_of_none found, readBy_of_none (same.trans found), answer, answer]

/-- What is put into a frame is seen from the scopes from which the frame is not hidden. -/
theorem Rows.shows_put (rows : Rows m scopes) (below : written < m.frames.records.size) :
    Shows scopes m { m with frames := m.frames.put written name v } name v
      fun scope => Unhidden scopes m scope name written := by
  intro scope mem token
  constructor
  -- nothing nearer hides the frame
  · rintro ⟨rfl, distance, leads, first⟩
    have seen : (m.frames.put written token.lexeme v).get? scope token.lexeme = some v := by
      refine get?_put_of_unhidden below ((rows.leadsOut_iff mem).mp leads) ?_
      intro nearer less frame there bound
      exact first nearer less ((rows.mem_distances mem).mpr ⟨frame, there, bound⟩)
    rw [readBy_of_some seen, answer]
  -- something nearer hides it, or another name is asked for
  · intro unseen
    apply answer_readBy_congr
    by_cases same : token.lexeme = name
    · subst same
      apply get?_put_of_hidden
      intro distance there
      by_contra first
      refine unseen ⟨rfl, distance, (rows.leadsOut_iff mem).mpr there, ?_⟩
      intro nearer less near
      obtain ⟨frame, at_nearer, bound⟩ := (rows.mem_distances mem).mp near
      exact first ⟨nearer, less, frame, at_nearer, bound⟩
    · exact get?_put_of_name_ne _ same

theorem Shows.congr {sees sees' : Scope → Prop} (h : Shows scopes m m' name v sees)
    (same : ∀ scope ∈ scopes, sees' scope ↔ sees scope) : Shows scopes m m' name v sees' := by
  intro scope mem token
  rw [same scope mem]
  exact h scope mem token

/-! ### All together -/

theorem Rows.shows_assignIn (rows : Rows m scopes) {frame? : Machine → Option FrameId}
    {token : Token} (run : Run.assignIn frame? token v m = .ok () m')
    (found : frame? m = some written) (bound : Bound m written token.lexeme) :
    Shows scopes m m' token.lexeme v fun other => Nearest scopes m other token.lexeme written := by
  obtain ⟨_, same, rfl⟩ := assignIn_ok run
  obtain rfl := Option.some.inj (found.symm.trans same)
  exact (rows.shows_put (below_of_bound bound)).congr fun _ _ => nearest_iff bound

/-- In every forest of scopes: a value that is given to a name, by name or by distance, is
    seen under this name from the scopes whose nearest frame that has the name is the one it
    was written to, which is the nearest one from where it was given or the one at the
    distance. A value that is declared is seen from the scopes that lead out to the one it
    was declared in without a nearer frame that has the name. All else reads as before. -/
theorem writes_are_seen_where_shared (forest : Forest m scopes) (mem : scope ∈ scopes)
    (v : Value) :
    (∀ (name : Token) m', assignBy scope name v m = .ok () m' →
      ∃ written, Nearest scopes m scope name.lexeme written ∧
        Shows scopes m m' name.lexeme v fun other => Nearest scopes m other name.lexeme written) ∧
    (∀ distance (name : Token) m', assignAt scope distance name v m = .ok () m' →
      ∃ written, Located scopes scope distance written ∧
        Shows scopes m m' name.lexeme v fun other => Nearest scopes m other name.lexeme written) ∧
    ∀ name, ∃ front ∈ scope.head?,
      Shows scopes m { m with frames := m.frames.define scope name v } name v
        fun other => Unhidden scopes m other name front := by
  have rows := forest.rows
  refine ⟨?_, ?_, ?_⟩
  · intro name m' run
    rw [assignBy_eq] at run
    obtain ⟨written, found, _⟩ := assignIn_ok run
    exact ⟨written, rows.nearest_of_find? mem found,
      rows.shows_assignIn run found (bound_of_find? found)⟩
  · intro distance name m' run
    rw [assignAt_eq] at run
    obtain ⟨written, found, _⟩ := assignIn_ok run
    exact ⟨written, rows.located_of_findAt? mem found,
      rows.shows_assignIn run found (bound_of_findAt? found)⟩
  · intro name
    obtain ⟨front, outer, rfl⟩ := List.exists_cons_of_ne_nil (rows.nonempty scope mem)
    exact ⟨front, rfl, rows.shows_put (rows.below _ mem front (List.mem_cons_self ..))⟩

/-- The theorem at a scope with two others inside, one of which has a name of its own: what is
    given to the name through the first is seen in the outer one, and not from the second. -/
theorem writes_are_seen_where_shared_siblings :
    let n : Token := ⟨.identifier, "n", 1⟩
    let m := { Machine.start [] .unlimited with
      frames := ⟨#[.single "n" .nil, .empty, .single "n" .nil]⟩ }
    let scopes := [[2, 0], [1, 0], [0]]
    Forest m scopes ∧ ∃ m', assignBy [1, 0] n (.bool true) m = .ok () m' ∧
      answer (readBy [0] n m') = .ok (.bool true) ∧
      answer (readBy [2, 0] n m') = answer (readBy [2, 0] n m) := by
  intro n m scopes
  let bare : Machine := { Machine.start [] .unlimited with frames := .empty }
  have inner : Forest { bare with frames := ⟨#[.empty, .empty, .empty]⟩ } scopes :=
    .child (.child (.root (.bare (m := bare) rfl) rfl) (List.mem_cons_self ..) rfl)
      (show [0] ∈ [[1, 0], [0]] by decide) rfl
  have forest : Forest m scopes :=
    .define "n" .nil (.define "n" .nil inner (show [0] ∈ scopes by decide))
      (show [2, 0] ∈ scopes by decide)
  have rows := forest.rows
  obtain ⟨assigned, _, _⟩ :=
    writes_are_seen_where_shared forest (show [1, 0] ∈ scopes by decide) (.bool true)
  let m' := { m with frames := ⟨#[.single "n" (.bool true), .empty, .single "n" .nil]⟩ }
  obtain ⟨written, nearest, shows⟩ := assigned n m' rfl
  -- the nearest frame with the name is the outer one
  obtain rfl : written = 0 := by
    obtain ⟨distance, least, leads⟩ := nearest
    obtain ⟨target, there, bound, found⟩ := rows.find?_of_isLeast (by decide) least
    cases found
    exact Option.some.inj (((rows.leadsOut_iff (by decide)).mp leads).symm.trans there)
  refine ⟨forest, m', rfl, ?_, ?_⟩
  · exact (shows [0] (by decide) n).1 ⟨rfl, rows.nearest_of_find? (by decide) rfl⟩
  · refine (shows [2, 0] (by decide) n).2 ?_
    rintro ⟨_, distance, least, leads⟩
    obtain ⟨target, there, bound, found⟩ := rows.find?_of_isLeast (by decide) least
    cases found
    cases ((rows.leadsOut_iff (by decide)).mp leads).symm.trans there

end Lox.Evaluation
