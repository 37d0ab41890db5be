import Lox.Proofs.Evaluation.Sessions

/-! # Identities of nodes

  References get their identities from one counter, which goes on from one reading of tokens
  to the next, whatever becomes of each of them. So no two references of all the trees that
  were read have one identity, and the table of distances, which is kept under identities,
  never holds under a node what was found for another one: after any number of walks over
  the trees, in any order, it has for each node of a tree that was walked over what the walk
  finds there (`identities_never_collide`).
-/

namespace Lox.Evaluation

open Binding Grammar

/-! ### The nodes of a tree -/

/-- The identities of the references in an expression. -/
def exprNodes (e : Expr) : List NodeId :=
  (occurrences e).map (·.node)

/-- The identities of the references in an expression that may be absent. -/
def optionNodes : Option Expr → List NodeId
  | some e => exprNodes e
  | none => []

mutual

/-- The identities of the references in a statement. -/
def stmtNodes : Stmt → List NodeId
  | .expression value => exprNodes value
  | .print _ value => exprNodes value
  | .varDecl _ initializer => optionNodes initializer
  | .block body => treeNodes body
  | .ifElse condition thenBranch none => exprNodes condition ++ stmtNodes thenBranch
  | .ifElse condition thenBranch (some elseBranch) =>
    exprNodes condition ++ stmtNodes thenBranch ++ stmtNodes elseBranch
  | .whileLoop condition body => exprNodes condition ++ stmtNodes body
  | .funDecl f => functionNodes f
  | .ret _ value => optionNodes value
  | .classDecl _ superclass methods => optionNodes superclass ++ methodNodes methods

/-- The identities of the references in statements. -/
def treeNodes : List Stmt → List NodeId
  | [] => []
  | s :: rest => stmtNodes s ++ treeNodes rest

/-- The identities of the references in a function or method. -/
def functionNodes : FunctionDecl → List NodeId
  | ⟨_, _, body⟩ => treeNodes body

/-- The identities of the references in methods. -/
def methodNodes : List FunctionDecl → List NodeId
  | [] => []
  | method :: rest => functionNodes method ++ methodNodes rest

end

/-! ### Nodes and sites -/

theorem nodes_exprSites (path : Path) (initialized : Option Token) (e : Expr) :
    (exprSites path initialized e).filterMap Site.node? = exprNodes e := by
  unfold exprSites exprNodes
  rw [List.filterMap_map]
  simp [Function.comp_def, Site.node?]

theorem nodes_optionSites (path : Path) (initialized : Option Token) (o : Option Expr) :
    (optionSites path initialized o).filterMap Site.node? = optionNodes o := by
  cases o with
  | none => rfl
  | some e => exact nodes_exprSites path initialized e

/-- Parameters are no references. -/
theorem nodes_parameterSites : ∀ params earlier : List Token,
    (parameterSites earlier params).filterMap Site.node? = []
  | [], _ => rfl
  | _ :: rest, earlier => nodes_parameterSites rest (earlier ++ [_])

theorem nodes_superclassSites (path : Path) (name : Token) {superclass : Option Expr}
    (named : NamesSuperclass superclass) :
    (superclassSites path name superclass).filterMap Site.node? = optionNodes superclass := by
  cases superclass with
  | none => rfl
  | some e =>
    obtain ⟨node, parent, rfl⟩ := named e rfl
    rfl

mutual

/-- In a form that can be read, every reference is at one of the sites. -/
theorem nodes_stmtSites (path : Path) : ∀ s : Stmt, WellFormed s →
    (stmtSites path s).filterMap Site.node? = stmtNodes s
  | .expression value, _ => nodes_exprSites path none value
  | .print _ value, _ => nodes_exprSites path none value
  | .varDecl name initializer, _ => nodes_optionSites path (some name) initializer
  | .block body, formed => by
    rw [stmtSites, stmtNodes, nodes_bodySites path _ [] body formed]
  | .ifElse condition thenBranch none, formed => by
    rw [stmtSites, stmtNodes, List.filterMap_append, nodes_exprSites,
      nodes_stmtSites path thenBranch formed.2]
  | .ifElse condition thenBranch (some elseBranch), formed => by
    rw [stmtSites, stmtNodes, List.filterMap_append, List.filterMap_append, nodes_exprSites,
      nodes_stmtSites path thenBranch formed.1.2, nodes_stmtSites path elseBranch formed.2.2]
  | .whileLoop condition body, formed => by
    rw [stmtSites, stmtNodes, List.filterMap_append, nodes_exprSites,
      nodes_stmtSites path body formed.2]
  | .funDecl f, formed => by
    rw [stmtSites, stmtNodes, ← nodes_functionSites path (.routine false f) f formed]
    rfl
  | .ret _ value, _ => nodes_optionSites path none value
  | .classDecl name superclass methods, formed => by
    rw [stmtSites, stmtNodes, List.filterMap_append, ← nodes_superclassSites path name formed.1,
      nodes_methodSites path _ methods formed.2]
    rfl

theorem nodes_bodySites (outer : Path) (body : Body) (before : List Stmt) :
    ∀ ss : List Stmt, AllWellFormed ss →
      (bodySites outer body before ss).filterMap Site.node? = treeNodes ss
  | [], _ => rfl
  | s :: rest, formed => by
    rw [bodySites, treeNodes, List.filterMap_append, nodes_stmtSites _ s formed.1,
      nodes_bodySites outer body _ rest formed.2]

theorem nodes_functionSites (outer : Path) (body : Body) : ∀ f : FunctionDecl,
    RoutineWellFormed f → (functionSites outer body f).filterMap Site.node? = functionNodes f
  | ⟨_, params, stmts⟩, formed => by
    rw [functionSites, functionNodes, List.filterMap_append, nodes_parameterSites,
      nodes_bodySites outer body [] stmts formed, List.nil_append]

theorem nodes_methodSites (outer : Path) (into : FunctionDecl → Step) :
    ∀ methods : List FunctionDecl, MethodsWellFormed methods →
      (methodSites outer into methods).filterMap Site.node? = methodNodes methods
  | [], _ => rfl
  | method :: rest, formed => by
    rw [methodSites, methodNodes, List.filterMap_append,
      nodes_functionSites _ _ method formed.1, nodes_methodSites outer into rest formed.2]

end

theorem nodes_programSites {program : List Stmt} (formed : AllWellFormed program) :
    (programSites program).filterMap Site.node? = treeNodes program :=
  nodes_bodySites [] .program [] program formed

/-! ### Readings that share a counter -/

/-- A use of the counter of identities. -/
inductive Attempt where
  /-- A program is read. -/
  | program (tokens : List Token)
  /-- An expression is read. -/
  | expression (tokens : List Token)
  /-- A reading is given up after so many identities were drawn. -/
  | abandoned (drawn : Nat)

namespace Attempt

/-- The tree that comes of an attempt, if any. There is a tree of what could be read of a
    program with errors; an expression stands as a statement of its own. -/
def tree? (fresh : NodeId) : Attempt → Option (List Stmt)
  | program tokens => some (readProgram fresh tokens).value
  | expression tokens => (readExpression fresh tokens).value.map fun e => [.expression e]
  | abandoned _ => none

/-- The counter after an attempt. -/
def counter (fresh : NodeId) : Attempt → NodeId
  | program tokens => (readProgram fresh tokens).fresh
  | expression tokens => (readExpression fresh tokens).fresh
  | abandoned drawn => fresh + drawn

end Attempt

/-- The trees that come of attempts one after another. -/
def forest : NodeId → List Attempt → List (List Stmt)
  | _, [] => []
  | fresh, attempt :: rest =>
    (attempt.tree? fresh).toList ++ forest (attempt.counter fresh) rest

theorem readExpression_made (fresh : NodeId) (tokens : List Token) :
    fresh ≤ (readExpression fresh tokens).fresh ∧
      ∀ e, (readExpression fresh tokens).value = some e →
        Numbered fresh (exprNodes e) (readExpression fresh tokens).fresh := by
  have supplied : Supplied (· ∈ tokens) (start fresh tokens) :=
    fun t ht => (List.takeWhile_subset _) ht
  have reads : Yields (· ∈ tokens) nestedExpression _ := yields_nestedExpression
  have raised := reads.raises _ supplied
  unfold readExpression
  cases run : nestedExpression (start fresh tokens) with
  | ok e s =>
    rw [run] at raised
    refine ⟨raised, ?_⟩
    intro e' he'
    have made := reads.value supplied run
    by_cases clean : s.recorded.isEmpty = true
    · simp only [clean, if_true, Option.some.injEq] at he'
      subst he'
      exact made.1
    · simp [clean] at he'
  | error e s =>
    rw [run] at raised
    exact ⟨raised, nofun⟩

/-- A tree has a form that can be read, and its nodes lie between the counter before and
    after. -/
theorem Attempt.made (fresh : NodeId) (attempt : Attempt) :
    fresh ≤ attempt.counter fresh ∧ ∀ tree, attempt.tree? fresh = some tree →
      AllWellFormed tree ∧ Numbered fresh (treeNodes tree) (attempt.counter fresh) := by
  cases attempt with
  | program tokens =>
    refine ⟨readProgram_fresh_le fresh tokens, ?_⟩
    intro tree htree
    cases htree
    have formed := readProgram_wellFormed fresh tokens
    have made := (readProgram_sites fresh tokens).1
    rw [nodes_programSites formed] at made
    exact ⟨formed, made⟩
  | expression tokens =>
    obtain ⟨raised, made⟩ := readExpression_made fresh tokens
    refine ⟨raised, ?_⟩
    intro tree htree
    obtain ⟨e, he, rfl⟩ := Option.map_eq_some_iff.mp htree
    have nodes : treeNodes [.expression e] = exprNodes e := by
      simp [treeNodes, stmtNodes]
    rw [nodes]
    exact ⟨⟨trivial, trivial⟩, made e he⟩
  | abandoned drawn =>
    exact ⟨Nat.le_add_right fresh drawn, nofun⟩

theorem forest_made : ∀ (attempts : List Attempt) (fresh : NodeId),
    (∀ tree ∈ forest fresh attempts, AllWellFormed tree) ∧
      ∃ hi, fresh ≤ hi ∧ Numbered fresh ((forest fresh attempts).flatMap treeNodes) hi
  | [], fresh => ⟨nofun, fresh, Nat.le_refl _, .nil⟩
  | attempt :: rest, fresh => by
    obtain ⟨raised, made⟩ := attempt.made fresh
    obtain ⟨formed, hi, above, numbered⟩ := forest_made rest (attempt.counter fresh)
    rw [forest]
    cases htree : attempt.tree? fresh with
    | none =>
      simp only [Option.toList_none, List.nil_append]
      exact ⟨formed, hi, Nat.le_trans raised above, numbered.widen raised (Nat.le_refl _)⟩
    | some tree =>
      obtain ⟨formed', numbered'⟩ := made tree htree
      simp only [Option.toList_some, List.singleton_append, List.flatMap_cons]
      exact ⟨List.forall_mem_cons.mpr ⟨formed', formed⟩, hi, Nat.le_trans raised above,
        numbered'.append numbered raised above⟩

/-! ### Walks over the trees -/

/-- The distance that a walk over a tree finds for a node, if it finds one. -/
def distance? (tree : List Stmt) (node : NodeId) : Option Nat :=
  ((resolve tree).references.find? (·.node = node)).bind (·.hops)

/-- A walk over one of the trees; the distances that it finds are noted on the machine. -/
def walk (trees : List (List Stmt)) (m : Machine) (i : Nat) : Machine :=
  match trees[i]? with
  | some tree => m.noteReferences (resolve tree).references
  | none => m

/-- Only nodes of a tree are noted in a walk over it, and each of them once. -/
theorem references_nodes {tree : List Stmt} (formed : AllWellFormed tree) :
    ((resolve tree).references.map (·.node)).Sublist (treeNodes tree) := by
  rw [resolve_eq formed, ← nodes_programSites formed]
  exact reference_nodes_sublist _

/-- Of references with different nodes, a distance that is found is noted in place of an
    earlier one. -/
theorem hops_noteReferences {rs : List Reference} (distinct : (rs.map (·.node)).Nodup)
    (node : NodeId) (m : Machine) : (m.noteReferences rs).hops.get? node =
      ((rs.find? (·.node = node)).bind (·.hops)).or (m.hops.get? node) := by
  induction rs generalizing m with
  | nil => rfl
  | cons r rest ih =>
    rw [List.map_cons, List.nodup_cons] at distinct
    rw [noteReferences_cons]
    by_cases here : r.node = node
    · -- no other reference is to this node
      have others : ∀ r' ∈ rest, r'.node ≠ node := by
        intro r' hr' same
        exact distinct.1 (here ▸ same ▸ List.mem_map_of_mem hr')
      rw [hops_noteReferences_of_ne others, hops_noteReferences_singleton, if_pos here,
        List.find?_cons_of_pos (by simpa using here), Option.bind_some]
    · rw [ih distinct.2, hops_noteReferences_singleton, if_neg here,
        List.find?_cons_of_neg (by simpa using here)]

section

variable {trees : List (List Stmt)}

/-- A node stands in one tree only. -/
theorem eq_of_mem_nodes (distinct : (trees.flatMap treeNodes).Nodup) {i j : Nat}
    {tree other : List Stmt} (htree : trees[i]? = some tree) (hother : trees[j]? = some other)
    {node : NodeId} (mem : node ∈ treeNodes tree) (mem' : node ∈ treeNodes other) : i = j := by
  have apart := (List.nodup_flatMap.mp distinct).2
  by_contra different
  obtain ⟨hi, rfl⟩ := List.getElem?_eq_some_iff.mp htree
  obtain ⟨hj, rfl⟩ := List.getElem?_eq_some_iff.mp hother
  rcases Nat.lt_or_gt_of_ne different with less | more
  · exact (List.pairwise_iff_getElem.mp apart i j hi hj less) mem mem'
  · exact (List.pairwise_iff_getElem.mp apart j i hj hi more) mem' mem

variable (formed : ∀ tree ∈ trees, AllWellFormed tree)
include formed

/-- Nothing is noted for what is no node of a tree. -/
theorem hops_walks_of_notMem {node : NodeId} (other : node ∉ trees.flatMap treeNodes)
    (walks : List Nat) : ∀ m : Machine,
    (walks.foldl (walk trees) m).hops.get? node = m.hops.get? node := by
  induction walks with
  | nil => exact fun _ => rfl
  | cons j rest ih =>
    intro m
    rw [List.foldl_cons, ih]
    unfold walk
    cases htree : trees[j]? with
    | none => rfl
    | some tree =>
      have member := List.mem_of_getElem? htree
      apply hops_noteReferences_of_ne
      intro r hr hnode
      have mem := (references_nodes (formed tree member)).subset (List.mem_map_of_mem hr)
      exact other (List.mem_flatMap.mpr ⟨tree, member, hnode ▸ mem⟩)

/-- A walk over a tree notes what it finds for the nodes of that tree, and leaves those of
    the others alone. -/
theorem hops_walk (distinct : (trees.flatMap treeNodes).Nodup) {i : Nat} {tree : List Stmt}
    (htree : trees[i]? = some tree) {node : NodeId} (mem : node ∈ treeNodes tree) (m : Machine)
    (j : Nat) : (walk trees m j).hops.get? node =
      if j = i then (distance? tree node).or (m.hops.get? node) else m.hops.get? node := by
  unfold walk
  cases hother : trees[j]? with
  | none =>
    have different : j ≠ i := by
      intro same
      rw [same, htree] at hother
      cases hother
    rw [if_neg different]
  | some other =>
    have known := formed other (List.mem_of_getElem? hother)
    have nodes := references_nodes known
    by_cases same : j = i
    · subst same
      rw [htree] at hother
      cases hother
      have own := (List.nodup_flatMap.mp distinct).1 tree (List.mem_of_getElem? htree)
      rw [if_pos rfl]
      exact hops_noteReferences (own.sublist nodes) node m
    · rw [if_neg same]
      -- another tree notes references of its own nodes only
      apply hops_noteReferences_of_ne
      intro r hr hnode
      have mem' : node ∈ treeNodes other := nodes.subset (hnode ▸ List.mem_map_of_mem hr)
      exact same (eq_of_mem_nodes distinct hother htree mem' mem)

/-- What is noted for a node after any number of walks. -/
theorem hops_walks (distinct : (trees.flatMap treeNodes).Nodup) {i : Nat} {tree : List Stmt}
    (htree : trees[i]? = some tree) {node : NodeId} (mem : node ∈ treeNodes tree)
    (walks : List Nat) : ∀ m : Machine, (walks.foldl (walk trees) m).hops.get? node =
      if i ∈ walks then (distance? tree node).or (m.hops.get? node) else m.hops.get? node := by
  induction walks with
  | nil => exact fun _ => rfl
  | cons j rest ih =>
    intro m
    rw [List.foldl_cons, ih, hops_walk formed distinct htree mem]
    by_cases here : j = i
    · -- a second walk over the tree finds what the first one has found
      cases distance? tree node <;> simp [here]
    · have elsewhere : i ≠ j := fun same => here same.symm
      simp [here, elsewhere]

end

/-- Whatever is read, with or without errors, and whatever is given up on the way: of all the
    trees that come of it no two references have one identity. And on a machine that has
    noted nothing yet from the start of the counter on, after any number of walks over the
    trees, there is under each node what the walks over its tree find for it, and nothing if
    there was no such walk; what is noted under identities of no node stays as it was. -/
theorem identities_never_collide (fresh : NodeId) (attempts : List Attempt) :
    ((forest fresh attempts).flatMap treeNodes).Nodup ∧
    ∀ m : Machine, (∀ node, fresh ≤ node → m.hops.get? node = none) →
      ∀ walks : List Nat,
        (∀ i tree, (forest fresh attempts)[i]? = some tree → ∀ node ∈ treeNodes tree,
          (walks.foldl (walk (forest fresh attempts)) m).hops.get? node =
            if i ∈ walks then distance? tree node else none) ∧
        ∀ node, node ∉ (forest fresh attempts).flatMap treeNodes →
          (walks.foldl (walk (forest fresh attempts)) m).hops.get? node = m.hops.get? node := by
  obtain ⟨formed, hi, _, distinct, bounds⟩ := forest_made attempts fresh
  refine ⟨distinct, ?_⟩
  intro m unnoted walks
  refine ⟨?_, ?_⟩
  · intro i tree htree node mem
    have drawn := bounds node
      (List.mem_flatMap.mpr ⟨tree, List.mem_of_getElem? htree, mem⟩)
    rw [hops_walks formed distinct htree mem, unnoted node drawn.1, Option.or_none]
  · intro node other
    exact hops_walks_of_notMem formed other walks m

/-- Two programs and an expression, with a reading given up in between. -/
theorem identities_never_collide_between :
    let attempts : List Attempt := [.program (Lexical.tokens "\x7b var a; a; \x7d"), .abandoned 3,
      .expression (Lexical.tokens "b = b"),
      .program (Lexical.tokens "\x7b var a; \x7b a; \x7d \x7d")]
    let m := [0, 2, 1, 0].foldl (walk (forest 0 attempts)) (.start [] .unlimited)
    m.hops.get? 0 = some 0 ∧ m.hops.get? 6 = none ∧ m.hops.get? 7 = some 1 := by
  intro attempts m
  have noted := ((identities_never_collide 0 attempts).2 (.start [] .unlimited) (fun _ _ => rfl)
    [0, 2, 1, 0]).1
  have trees : forest 0 attempts = [
      [.block [.varDecl ⟨.identifier, "a", 1⟩ none,
        .expression (.var 0 ⟨.identifier, "a", 1⟩)]],
      [.expression (.assign 6 ⟨.identifier, "b", 1⟩ (.var 5 ⟨.identifier, "b", 1⟩))],
      [.block [.varDecl ⟨.identifier, "a", 1⟩ none,
        .block [.expression (.var 7 ⟨.identifier, "a", 1⟩)]]]] := by cbv
  have stands := fun i : Nat => congrArg (fun trees : List (List Stmt) => trees[i]?) trees
  refine ⟨?_, ?_, ?_⟩
  · exact (noted 0 _ (stands 0) 0 (by decide)).trans (by cbv)
  · exact (noted 1 _ (stands 1) 6 (by decide)).trans (by cbv)
  · exact (noted 2 _ (stands 2) 7 (by decide)).trans (by cbv)

end Lox.Evaluation
