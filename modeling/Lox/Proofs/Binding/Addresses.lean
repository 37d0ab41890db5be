import Lox.Proofs.Evaluation.Activations
import Lox.Proofs.Evaluation.Identities

/-! # Distances as lexical addresses

  The walk over a program keeps a stack of layers and changes it as it goes. The distance that
  it notes for a reference can nevertheless be read off the place of the reference alone: it
  is the index of the first of the scopes around it that has declared the name by then
  (`distances_are_lexical_addresses`). After a statement the stack is what it was before,
  but for the names that the statement declares, which join the innermost layer (`Gains`).

  There is one exception. A `this` that stands in no class is reported and not looked up, and
  so nothing is noted for it even where something of that name is in scope. In the tokens of a
  source text there is no such thing, because no name is spelled `this`.
-/

namespace Lox.Binding

open Grammar Evaluation

/-! ### Layers between statements -/

/-- Layers that have gained names in the innermost one, if there is one, all of which may be
    read, and are otherwise the same. -/
def Gains (names : List String) : Layers → Layers → Prop
  | [], after => after = []
  | layer :: outer, after =>
    ∃ layer', after = layer' :: outer ∧
      ∀ x, layer'.get? x = if x ∈ names then some .defined else layer.get? x

theorem Gains.refl (layers : Layers) : Gains [] layers layers := by
  cases layers with
  | nil => rfl
  | cons layer outer => exact ⟨layer, rfl, fun _ => rfl⟩

theorem Gains.define {layers after : Layers} {names : List String} (name : Token)
    (h : Gains names (layers.define name) after) : Gains (name.lexeme :: names) layers after := by
  cases layers with
  | nil => exact h
  | cons layer outer =>
    obtain ⟨layer', same, gained⟩ := h
    refine ⟨layer', same, fun x => ?_⟩
    rw [gained x]
    by_cases later : x ∈ names
    · simp [later]
    · by_cases here : x = name.lexeme
      · simp [here]
      · simp [later, here, Bindings.get?_set_of_ne]

/-- After statements the innermost layer has gained what they declare. -/
theorem gains_after : ∀ (ss : List Stmt) (layers : Layers), AllWellFormed ss →
    Gains (declaredNames ss) layers (ss.foldl Layers.after layers)
  | [], layers, _ => .refl layers
  | s :: rest, layers, formed => by
    have later := gains_after rest (layers.after s) formed.2
    rw [List.foldl_cons]
    cases h : declared? s with
    | none =>
      have same : declaredNames (s :: rest) = declaredNames rest := by
        rw [declaredNames, List.filterMap_cons_none h, declaredNames]
      rw [same]
      rwa [after_eq layers formed.1, h] at later ⊢
    | some name =>
      have more : declaredNames (s :: rest) = name.lexeme :: declaredNames rest := by
        rw [declaredNames, List.filterMap_cons_some h, List.map_cons, declaredNames]
      rw [more]
      rw [after_eq layers formed.1, h] at later ⊢
      exact later.define name

/-- Statements are walked over one after another, in one context, and nothing but the layers
    is passed on. -/
theorem inStmts_append (context : Context) : ∀ (ss : List Stmt) (layers : Layers)
    (rest : List Stmt), inStmts context layers (ss ++ rest) =
      inStmts context layers ss ++ inStmts context (ss.foldl Layers.after layers) rest
  | [], _, _ => rfl
  | s :: ss, layers, rest => by
    rw [List.cons_append, inStmts, inStmts, List.foldl_cons, inStmts_append context ss,
      append_assoc]

/-! ### What is noted at a site -/

/-- Whether a reference is a `this` that stands in no class. -/
def isStray (path : Path) : Occurrence → Bool
  | .self _ _ => path.inherits?.isNone
  | _ => false

/-- The lexical address of a reference at a path: none if it is stray, and otherwise the
    number of scopes between it and the first one that declares its name. -/
def address? (path : Path) (o : Occurrence) : Option Nat :=
  if isStray path o then none else path.hops? o.name

theorem reference?_occurrence (path : Path) (initialized : Option Token) (o : Occurrence) :
    (Site.occurrence path initialized o).reference? =
      if isStray path o then none else some ⟨o.node, o.name, path.hops? o.name⟩ := by
  cases o with
  | self node keyword => rfl
  | read | assign | parent => rfl

/-- Among sites with different nodes, what is found for the node of one is its address. -/
theorem find_reference {sites : List Site} (distinct : (sites.filterMap Site.node?).Nodup)
    {path : Path} {initialized : Option Token} {o : Occurrence}
    (mem : .occurrence path initialized o ∈ sites) :
    ((sites.filterMap Site.reference?).find? (·.node = o.node)).bind (·.hops) =
      address? path o := by
  -- no two sites have the same node, so a reference to the node is one of this site
  have here : ∀ r ∈ sites.filterMap Site.reference?, r.node = o.node →
      (Site.occurrence path initialized o).reference? = some r := by
    intro r hr same
    obtain ⟨site, hsite, refers⟩ := List.mem_filterMap.mp hr
    have node := node?_of_reference? refers
    rw [same] at node
    rw [eq_of_node distinct mem hsite rfl node]
    exact refers
  rw [address?]
  by_cases stray : isStray path o = true
  · have none : (sites.filterMap Site.reference?).find? (·.node = o.node) = none := by
      rw [List.find?_eq_none]
      intro r hr same
      have refers := here r hr (of_decide_eq_true same)
      rw [reference?_occurrence, if_pos stray] at refers
      cases refers
    rw [none, if_pos stray]
    rfl
  · have noted : (Site.occurrence path initialized o).reference? =
        some ⟨o.node, o.name, path.hops? o.name⟩ := by
      rw [reference?_occurrence, if_neg stray]
    -- a reference of the site is found, and it is the one that the site notes
    have found : ((sites.filterMap Site.reference?).find? (·.node = o.node)).isSome := by
      rw [List.find?_isSome]
      exact ⟨_, List.mem_filterMap.mpr ⟨_, mem, noted⟩, decide_eq_true rfl⟩
    obtain ⟨r, hr⟩ := Option.isSome_iff_exists.mp found
    have refers := here r (List.mem_of_find?_eq_some hr) (by simpa using List.find?_some hr)
    rw [noted] at refers
    cases refers
    rw [hr, if_neg stray]
    rfl

/-- In no class, nothing is called `this` if all tokens are spelled as their kinds demand. -/
theorem hops?_eq_none_of_stray {path : Path} {initialized : Option Token} {o : Occurrence}
    (proper : (Site.occurrence path initialized o).Proper Lexical.Spelled)
    (stray : isStray path o = true) : path.hops? o.name = none := by
  obtain ⟨around, _, named⟩ := proper
  cases o with
  | self node keyword =>
    have outside : ∀ step ∈ path, step.inherits? = none :=
      List.findSome?_eq_none_iff.mp (Option.isNone_iff_eq_none.mp stray)
    have word : keyword.lexeme = Keyword.thisWord.spelling := named.1.2 _ named.2
    apply List.findIdx?_eq_none_iff.mpr
    intro entry mem
    have absent := scopes_ne_spelling around outside mem .thisWord
    rw [← word] at absent
    simpa [Occurrence.name] using absent
  | read | assign | parent => cases stray

/-- Whatever was read, with or without errors: a walk over it comes to each of its references
    once and looks up none of them twice, and what it notes for one is the lexical address that
    the reference has by its place, in place of an earlier entry if there is an address, and
    nothing else is noted. In the tokens of a source text no reference without an address has
    one by its name. From statement to statement the walk keeps its context and its layers, but
    for the names that are declared in the innermost one. -/
theorem distances_are_lexical_addresses (fresh : NodeId) (tokens : List Token) :
    let program := (readProgram fresh tokens).value
    let noted := fun m : Machine => m.noteReferences (resolve program).references
    ((programSites program).filterMap Site.node? = treeNodes program ∧
      (treeNodes program).Nodup ∧ ((resolve program).references.map (·.node)).Nodup) ∧
    (∀ (m : Machine) path initialized o,
      .occurrence path initialized o ∈ programSites program →
      (noted m).hops.get? o.node = (address? path o).or (m.hops.get? o.node)) ∧
    (∀ (m : Machine) node, node ∉ treeNodes program →
      (noted m).hops.get? node = m.hops.get? node) ∧
    ((∃ source, tokens = Lexical.tokens source) → ∀ path initialized o,
      .occurrence path initialized o ∈ programSites program →
      address? path o = path.hops? o.name) ∧
    AllWellFormed program ∧
    ∀ context layers ss, AllWellFormed ss →
      (∀ rest, inStmts context layers (ss ++ rest) =
        inStmts context layers ss ++ inStmts context (ss.foldl Layers.after layers) rest) ∧
      Gains (declaredNames ss) layers (ss.foldl Layers.after layers) := by
  intro program noted
  have formed : AllWellFormed program := readProgram_wellFormed fresh tokens
  have nodes := nodes_programSites formed
  obtain ⟨⟨distinct, _⟩, proper⟩ := readProgram_sites fresh tokens
  have different : ((resolve program).references.map (·.node)).Nodup :=
    (nodes ▸ distinct).sublist (references_nodes formed)
  have references : (resolve program).references =
      (programSites program).filterMap Site.reference? := by
    rw [resolve_eq formed]
    rfl
  refine ⟨⟨nodes, nodes ▸ distinct, different⟩, ?_, ?_, ?_, formed, ?_⟩
  · intro m path initialized o mem
    show (m.noteReferences _).hops.get? _ = _
    rw [hops_noteReferences different, references, find_reference distinct mem]
  · intro m node other
    apply hops_noteReferences_of_ne
    intro r hr same
    exact other (same ▸ (references_nodes formed).subset (List.mem_map_of_mem hr))
  · rintro ⟨source, rfl⟩ path initialized o mem
    rw [address?]
    split
    · next stray =>
      -- in a source text a keyword is spelled like no name, so that no scope has a stray one
      have spelled := (proper _ mem).imp (Lexical.tokens_spelled source)
      exact (hops?_eq_none_of_stray spelled stray).symm
    · rfl
  · intro context layers ss formed
    exact ⟨inStmts_append context ss layers, gains_after ss layers formed⟩

/-- The theorem at `class A < B { m() { { super.m; } } }`: the block, the method and the
    `this` of the class are between the reference and its declaration. -/
theorem distances_are_lexical_addresses_in_method :
    let name := fun text : String => (⟨.identifier, text, 1⟩ : Token)
    let keyword : Token := ⟨.keyword .superWord, "super", 1⟩
    let call := Stmt.expression (.superRef 1 keyword (name "m"))
    let method : FunctionDecl := ⟨name "m", [], [.block [call]]⟩
    let whole := Stmt.classDecl (name "A") (some (.var 0 (name "B"))) [method]
    let path : Path := [.within (.block [call]) [] call,
      .within (.routine true method) [] (.block [call]),
      .inClass (name "A") (some (.var 0 (name "B"))) [method] method,
      .within .program [] whole]
    let tokens := Lexical.tokens "class A < B \x7b m() \x7b \x7b super.m; \x7d \x7d \x7d"
    let program := (readProgram 0 tokens).value
    let noted := (Machine.start [] .unlimited).noteReferences (resolve program).references
    .occurrence path none (.parent 1 keyword) ∈ programSites program ∧
      path.hops? keyword = some 3 ∧ noted.hops.get? 1 = some 3 := by
  intro name keyword call method whole path tokens program noted
  have tree : program = [whole] := by
    simp only [program, tokens]
    cbv
  have site : .occurrence path none (.parent 1 keyword) ∈ programSites program := by
    rw [tree]
    exact List.mem_of_getElem? (i := 3) rfl
  have found := (distances_are_lexical_addresses 0 tokens).2.1 (.start [] .unlimited) _ _ _ site
  exact ⟨site, by cbv, found.trans (by cbv)⟩

/-- A `this` in no class is not looked up: with the tokens `fun f(this) { this; }`, the parameter
    being a name that is spelled like the keyword, it stands in a scope that declares its name,
    and nothing is noted for it. -/
theorem stray_this_has_no_address :
    let word := fun k : Keyword => (⟨.keyword k, k.spelling, 1⟩ : Token)
    let sign := fun p : Punctuator => (⟨.punctuator p, p.spelling, 1⟩ : Token)
    let name := fun text : String => (⟨.identifier, text, 1⟩ : Token)
    let tokens := [word .funWord, name "f", sign .leftParen, name "this", sign .rightParen,
      sign .leftBrace, word .thisWord, sign .semicolon, sign .rightBrace]
    let read := Stmt.expression (.thisRef 0 (word .thisWord))
    let f : FunctionDecl := ⟨name "f", [name "this"], [read]⟩
    let path : Path := [.within (.routine false f) [] read, .within .program [] (.funDecl f)]
    let program := (readProgram 0 tokens).value
    let noted := (Machine.start [] .unlimited).noteReferences (resolve program).references
    .occurrence path none (.self 0 (word .thisWord)) ∈ programSites program ∧
      path.hops? (word .thisWord) = some 0 ∧ noted.hops.get? 0 = none := by
  intro word sign name tokens read f path program noted
  have tree : program = [.funDecl f] := by cbv
  refine ⟨?_, by cbv, by cbv⟩
  rw [tree]
  exact List.mem_of_getElem? (i := 2) rfl

end Lox.Binding
