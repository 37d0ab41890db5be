import Lox.Proofs.Binding.Sites
import Lox.Proofs.Grammar.Yields

/-! # What is always true of a tree

  Whatever the tokens, and whether or not errors are recorded on the way, the trees that are
  read have three properties: they have a form that can be read (`WellFormed`), the
  identities of their nodes are all different and lie between those of the counter before
  and after, and their names and keywords are tokens of the input of the right kind.
-/

namespace Lox.Grammar

open Binding

variable {T : Token → Prop}

/-! ### Expressions -/

/-- Identities that are all different and lie between two bounds. -/
def Numbered (lo : Nat) (ids : List Nat) (hi : Nat) : Prop :=
  ids.Nodup ∧ ∀ n ∈ ids, lo ≤ n ∧ n < hi

namespace Numbered

variable {lo mid hi : Nat} {ids others : List Nat}

theorem nil : Numbered lo [] hi :=
  ⟨List.nodup_nil, fun _ h => nomatch h⟩

theorem singleton (n : Nat) : Numbered n [n] (n + 1) := by
  refine ⟨by simp, ?_⟩
  intro m hm
  rw [List.mem_singleton] at hm
  omega

theorem widen {lo' hi' : Nat} (h : Numbered lo ids hi) (below : lo' ≤ lo)
    (above : hi ≤ hi') : Numbered lo' ids hi' := by
  refine ⟨h.1, ?_⟩
  intro n hn
  have := h.2 n hn
  omega

/-- Identities of two ranges, one after the other. -/
theorem append (h : Numbered lo ids mid) (hs : Numbered mid others hi) (below : lo ≤ mid)
    (above : mid ≤ hi) : Numbered lo (ids ++ others) hi := by
  refine ⟨?_, ?_⟩
  · rw [List.nodup_append]
    refine ⟨h.1, hs.1, ?_⟩
    intro a ha b hb
    have := h.2 a ha
    have := hs.2 b hb
    omega
  · intro n hn
    rcases List.mem_append.mp hn with hn | hn
    · have := h.2 n hn
      omega
    · have := hs.2 n hn
      omega

/-- The order of the identities does not matter. -/
theorem swap (h : Numbered lo (ids ++ others) hi) : Numbered lo (others ++ ids) hi := by
  refine ⟨(List.perm_append_comm.nodup_iff).mp h.1, ?_⟩
  intro n hn
  exact h.2 n (List.perm_append_comm.mem_iff.mp hn)

end Numbered

/-- What is known of references that were read. -/
def RefsMade (T : Token → Prop) (lo : Nat) (os : List Occurrence) (hi : Nat) : Prop :=
  Numbered lo (os.map (·.node)) hi ∧ ∀ o ∈ os, o.Proper T

namespace RefsMade

variable {lo mid hi : Nat} {os others : List Occurrence}

theorem nil : RefsMade T lo [] hi :=
  ⟨.nil, fun _ h => nomatch h⟩

theorem singleton {o : Occurrence} (proper : o.Proper T) :
    RefsMade T o.node [o] (o.node + 1) := by
  refine ⟨.singleton o.node, ?_⟩
  intro o' ho'
  rw [List.mem_singleton] at ho'
  rw [ho']
  exact proper

theorem widen {lo' hi' : Nat} (h : RefsMade T lo os hi) (below : lo' ≤ lo)
    (above : hi ≤ hi') : RefsMade T lo' os hi' :=
  ⟨h.1.widen below above, h.2⟩

theorem append (h : RefsMade T lo os mid) (hs : RefsMade T mid others hi) (below : lo ≤ mid)
    (above : mid ≤ hi) : RefsMade T lo (os ++ others) hi := by
  refine ⟨?_, ?_⟩
  · rw [List.map_append]
    exact h.1.append hs.1 below above
  · intro o ho
    rcases List.mem_append.mp ho with ho | ho
    · exact h.2 o ho
    · exact hs.2 o ho

theorem swap (h : RefsMade T lo (os ++ others) hi) : RefsMade T lo (others ++ os) hi := by
  have numbered := h.1
  rw [List.map_append] at numbered
  refine ⟨?_, ?_⟩
  · rw [List.map_append]
    exact numbered.swap
  · intro o ho
    exact h.2 o (List.perm_append_comm.mem_iff.mp ho)

end RefsMade

/-- What is known of an expression that was read. -/
def ExprMade (T : Token → Prop) (lo : Nat) (e : Expr) (hi : Nat) : Prop :=
  RefsMade T lo (occurrences e) hi

/-- What is known of an expression that may be absent. -/
def OptionMade (T : Token → Prop) (lo : Nat) (o : Option Expr) (hi : Nat) : Prop :=
  ∀ e, o = some e → ExprMade T lo e hi

theorem refsMade_all {lo hi : Nat} {es : List Expr} (h : Chained (ExprMade T) lo es hi) :
    RefsMade T lo (occurrencesAll es) hi := by
  induction h with
  | nil _ => exact .nil
  | cons below le made rest ih =>
    exact (RefsMade.append made ih le rest.le).widen below (Nat.le_refl _)

/-- The operators of a level refer to nothing themselves. -/
theorem occurrences_node {level : Level} (h : level ∈ levels) (left : Expr) (operator : Token)
    (right : Expr) : occurrences (level.node left operator right) =
      occurrences left ++ occurrences right := by
  simp only [levels, List.mem_cons, List.not_mem_nil, or_false] at h
  rcases h with rfl | rfl | rfl | rfl | rfl | rfl <;> exact occurrences.eq_def _

theorem yields_chain {operand : Parser Expr} (h : Yields T operand (ExprMade T)) {level : Level}
    (hlevel : level ∈ levels) (bound : Nat) : ∀ e, Yields T (level.chain operand bound e)
      fun mid e' hi => ∀ lo, lo ≤ mid → ExprMade T lo e mid → ExprMade T lo e' hi := by
  induction bound with
  | zero => exact fun e => .pure fun _ _ _ made => made
  | succ bound ih =>
    intro e
    apply yields_select
    · intro token rule _ chosen
      split at chosen
      · cases chosen
        apply (h.bind fun right => ih (level.node e token right)).weaken
        intro mid e' hi _ read lo below made
        obtain ⟨right, mid', le, _, hright, others⟩ := read
        have joined : ExprMade T lo (level.node e token right) mid' := by
          unfold ExprMade
          rw [occurrences_node hlevel]
          exact RefsMade.append made hright below le
        exact others lo (by omega) joined
      · cases chosen
    · exact .pure fun _ _ _ made => made

/-- An assignment keeps the references of its value and of the object of its target; a
    variable that is assigned to gets a new identity. -/
theorem yields_assignTo (target : Expr) (equals : Token) (value : Expr) :
    Yields T (assignTo target equals value) fun mid e hi => ∀ lo mid', lo ≤ mid' → mid' ≤ mid →
      ExprMade T lo target mid' → ExprMade T mid' value mid → ExprMade T lo e hi := by
  unfold assignTo
  split
  · next node name =>
    apply (yields_freshNode.bind fun n => .pure_eq (Expr.assign n name value)).weaken
    intro mid e hi _ read lo mid' below le htarget hvalue
    obtain ⟨n, _, _, _, ⟨rfl, rfl⟩, rfl, rfl⟩ := read
    -- the node that was read as the target is dropped, and its name is kept
    have hread : (Occurrence.read node name).Proper T :=
      htarget.2 _ (List.mem_singleton.mpr rfl)
    have proper : (Occurrence.assign n name).Proper T := hread
    have single := RefsMade.singleton proper
    have both := RefsMade.append hvalue single le (Nat.le_succ n)
    exact both.widen below (Nat.le_refl _)
  · next object name =>
    apply (Yields.pure_eq (Expr.set object name value)).weaken
    intro mid e hi _ read lo mid' below le htarget hvalue
    obtain ⟨rfl, rfl⟩ := read
    -- the object is read before the value, and is resolved after it
    exact RefsMade.swap (RefsMade.append htarget hvalue below le)
  · next other _ _ =>
    apply ((yields_record _).bind fun _ => .pure_eq target).weaken
    intro mid e hi _ read lo mid' below le htarget hvalue
    obtain ⟨_, _, _, _, _, rfl, rfl⟩ := read
    exact RefsMade.widen htarget (Nat.le_refl _) (by omega)

section

variable {nested : Parser Expr} (sub : Yields T nested (ExprMade T))
include sub

theorem yields_primary : Yields T (primary nested) (ExprMade T) := by
  have constant : ∀ value, Yields T (pure (.literal value) : Parser Expr) (ExprMade T) :=
    fun value => .pure fun _ => .nil
  apply yields_select
  · intro token rule htoken chosen
    unfold primaryRule? at chosen
    split at chosen
    -- the constants, then `super`, `this`, a name and a grouping
    case h_1 | h_2 | h_3 | h_4 | h_5 =>
      cases chosen
      exact constant _
    case h_6 kind =>
      cases chosen
      apply ((yields_expect _ _).bind fun _ => (yields_expect _ _).bind fun method =>
        yields_freshNode.bind fun n => .pure_eq (Expr.superRef n token method)).weaken
      intro lo e hi _ made
      obtain ⟨_, _, _, _, _, _, _, _, _, _, n, _, _, _, ⟨rfl, rfl⟩, rfl, rfl⟩ := made
      have proper : (Occurrence.parent n token).Proper T := ⟨htoken, kind⟩
      have single := RefsMade.singleton proper
      exact single.widen (by simp only [Occurrence.node]; omega) (Nat.le_refl _)
    case h_7 kind =>
      cases chosen
      apply (yields_freshNode.bind fun n => .pure_eq (Expr.thisRef n token)).weaken
      intro lo e hi _ made
      obtain ⟨n, _, _, _, ⟨rfl, rfl⟩, rfl, rfl⟩ := made
      have proper : (Occurrence.self n token).Proper T := ⟨htoken, kind⟩
      exact RefsMade.singleton proper
    case h_8 kind =>
      cases chosen
      apply (yields_freshNode.bind fun n => .pure_eq (Expr.var n token)).weaken
      intro lo e hi _ made
      obtain ⟨n, _, _, _, ⟨rfl, rfl⟩, rfl, rfl⟩ := made
      have proper : (Occurrence.read n token).Proper T := ⟨htoken, kind⟩
      exact RefsMade.singleton proper
    case h_9 =>
      cases chosen
      apply (sub.bind fun inner => (yields_expect _ _).bind fun _ =>
        .pure_eq (Expr.grouping inner)).weaken
      intro lo e hi _ made
      obtain ⟨inner, _, _, _, made, _, _, _, _, _, rfl, rfl⟩ := made
      exact RefsMade.widen made (Nat.le_refl _) (by omega)
    case h_10 => cases chosen
  · exact (yields_reject _).weaken fun _ _ _ _ no => no.elim

theorem yields_argument (count : Nat) : Yields T (argument nested count) (ExprMade T) :=
  yields_limited sub (fun below made => RefsMade.widen made below (Nat.le_refl _)) _ count

/-- Calls and property accesses add references of their own to those of the callee or
    object, which was read before. -/
theorem yields_suffixRule {e : Expr} {token : Token} {rule : Parser Expr}
    (chosen : suffixRule? nested e token = some rule) :
    Yields T rule fun mid e' hi => ∀ lo, lo ≤ mid → ExprMade T lo e mid →
      ExprMade T lo e' hi := by
  unfold suffixRule? at chosen
  split at chosen
  · cases chosen
    apply ((yields_itemsBeforeParen (yields_argument sub)).bind fun arguments =>
      (yields_expect _ _).bind fun paren => .pure_eq (Expr.call e paren arguments)).weaken
    intro mid e' hi _ read lo below made
    obtain ⟨arguments, end', _, _, items, _, _, _, _, _, rfl, rfl⟩ := read
    have all := (refsMade_all items).widen (Nat.le_refl _) (show end' ≤ _ by assumption)
    exact RefsMade.append made all below (by omega)
  · cases chosen
    apply ((yields_expect _ _).bind fun name => .pure_eq (Expr.get e name)).weaken
    intro mid e' hi _ read lo below made
    obtain ⟨name, _, _, _, _, rfl, rfl⟩ := read
    exact RefsMade.widen made (Nat.le_refl _) (by omega)
  · cases chosen

theorem yields_suffixes (bound : Nat) : ∀ e, Yields T (suffixes nested bound e)
    fun mid e' hi => ∀ lo, lo ≤ mid → ExprMade T lo e mid → ExprMade T lo e' hi := by
  induction bound with
  | zero => exact fun e => .pure fun _ _ _ made => made
  | succ bound ih =>
    intro e
    apply yields_select
    · intro token rule _ chosen
      rw [Option.map_eq_some_iff] at chosen
      obtain ⟨suffix, hsuffix, rfl⟩ := chosen
      apply ((yields_suffixRule sub hsuffix).bind ih).weaken
      intro mid e'' hi _ read lo below made
      obtain ⟨e', mid', _, _, first, others⟩ := read
      exact others lo (by omega) (first lo below made)
    · exact .pure fun _ _ _ made => made

theorem yields_call : Yields T (call nested) (ExprMade T) := by
  apply ((yields_primary sub).bind fun e => yields_remaining.bind fun bound =>
    yields_suffixes sub bound e).weaken
  intro lo e' hi _ read
  obtain ⟨e, mid, below, _, made, _, _, _, _, rfl, others⟩ := read
  exact others lo below made

theorem yields_unary (bound : Nat) : Yields T (unary nested bound) (ExprMade T) := by
  induction bound with
  | zero => exact yields_call sub
  | succ bound ih =>
    apply yields_select
    · intro token rule _ chosen
      split at chosen
      · cases chosen
        apply (ih.bind fun right => .pure_eq (Expr.unary token right)).weaken
        intro lo e hi _ read
        obtain ⟨right, _, _, _, made, rfl, rfl⟩ := read
        exact made
      · cases chosen
    · exact yields_call sub

theorem yields_operation : ∀ {ls : List Level}, (∀ level ∈ ls, level ∈ levels) →
    Yields T (operation nested ls) (ExprMade T)
  | [], _ => by
    apply (yields_remaining.bind fun bound => yields_unary sub bound).weaken
    intro lo e hi _ read
    obtain ⟨_, _, _, _, rfl, made⟩ := read
    exact made
  | level :: tighter, known => by
    have hlevel := known level (List.mem_cons_self ..)
    have tight := yields_operation fun l hl => known l (List.mem_cons_of_mem level hl)
    apply (tight.bind fun first => yields_remaining.bind fun bound =>
      yields_chain tight hlevel bound first).weaken
    intro lo e hi _ read
    obtain ⟨first, mid, below, _, made, _, _, _, _, rfl, others⟩ := read
    exact others lo below made

/-- What comes after the target of an assignment, if it is one. -/
theorem yields_assigned (target : Expr) : Yields T (do
      match ← accept? (.punctuator .equal) with
      | some equals => assignmentRule nested target equals
      | none => return target : Parser Expr)
    fun mid e hi => ∀ lo, lo ≤ mid → ExprMade T lo target mid → ExprMade T lo e hi := by
  apply yields_accept?_bind
  · exact .pure fun _ _ _ made => made
  · intro equals _
    apply (sub.bind fun value => yields_assignTo target equals value).weaken
    intro mid e hi _ read lo below made
    obtain ⟨value, mid', le, _, hvalue, others⟩ := read
    exact others lo mid below le made hvalue

theorem yields_assignment : Yields T (assignment nested) (ExprMade T) := by
  apply ((yields_operation sub fun level h => h).bind (yields_assigned sub)).weaken
  intro lo e hi _ read
  obtain ⟨target, mid, below, _, made, others⟩ := read
  exact others lo below made

end

theorem yields_expression (depth : Nat) : Yields T (expression depth) (ExprMade T) := by
  induction depth with
  | zero => exact (yields_reject _).weaken fun _ _ _ _ no => no.elim
  | succ depth ih => exact yields_assignment ih

theorem yields_nestedExpression : Yields T nestedExpression (ExprMade T) := by
  apply (yields_remaining.bind fun depth => yields_expression depth).weaken
  intro lo e hi _ read
  obtain ⟨_, _, _, _, rfl, made⟩ := read
  exact made

theorem yields_expressionUnless (kind : TokenKind) :
    Yields T (expressionUnless kind) (OptionMade T) := by
  apply yields_test (yields_nextIs kind)
  · exact .pure fun _ _ no => nomatch no
  · apply (yields_nestedExpression.bind fun e => .pure_eq (some e)).weaken
    intro lo o hi _ read
    obtain ⟨e, _, _, _, made, rfl, rfl⟩ := read
    intro e' he'
    cases he'
    exact made

/-! ### Sites -/

/-- What is known of the sites of something that was read. -/
def SitesMade (T : Token → Prop) (lo : Nat) (sites : List Site) (hi : Nat) : Prop :=
  Numbered lo (sites.filterMap Site.node?) hi ∧ ∀ site ∈ sites, site.Proper T

namespace SitesMade

variable {lo mid hi : Nat} {sites others : List Site}

theorem nil : SitesMade T lo [] hi :=
  ⟨.nil, fun _ h => nomatch h⟩

theorem widen {lo' hi' : Nat} (h : SitesMade T lo sites hi) (below : lo' ≤ lo)
    (above : hi ≤ hi') : SitesMade T lo' sites hi' :=
  ⟨h.1.widen below above, h.2⟩

theorem append (h : SitesMade T lo sites mid) (hs : SitesMade T mid others hi)
    (below : lo ≤ mid) (above : mid ≤ hi) : SitesMade T lo (sites ++ others) hi := by
  refine ⟨?_, ?_⟩
  · rw [List.filterMap_append]
    exact h.1.append hs.1 below above
  · intro site hsite
    rcases List.mem_append.mp hsite with hsite | hsite
    · exact h.2 site hsite
    · exact hs.2 site hsite

theorem swap (h : SitesMade T lo (sites ++ others) hi) :
    SitesMade T lo (others ++ sites) hi := by
  have numbered := h.1
  rw [List.filterMap_append] at numbered
  refine ⟨?_, ?_⟩
  · rw [List.filterMap_append]
    exact numbered.swap
  · intro site hsite
    exact h.2 site (List.perm_append_comm.mem_iff.mp hsite)

/-- A site that is no reference has no node. -/
theorem cons {site : Site} (h : SitesMade T lo sites hi) (no : site.node? = none)
    (proper : site.Proper T) : SitesMade T lo (site :: sites) hi := by
  refine ⟨?_, List.forall_mem_cons.mpr ⟨proper, h.2⟩⟩
  rw [List.filterMap_cons_none no]
  exact h.1

end SitesMade

theorem sitesMade_expr {lo hi : Nat} {e : Expr} (h : ExprMade T lo e hi) {path : Path}
    (around : path.Proper T) {initialized : Option Token}
    (names : ∀ name, initialized = some name → IsName T name) :
    SitesMade T lo (exprSites path initialized e) hi := by
  have nodes : (exprSites path initialized e).filterMap Site.node? =
      (occurrences e).map (·.node) := by
    unfold exprSites
    rw [List.filterMap_map]
    simp [Function.comp_def, Site.node?]
  refine ⟨nodes ▸ h.1, ?_⟩
  intro site hsite
  obtain ⟨o, ho, rfl⟩ := List.mem_map.mp hsite
  exact ⟨around, names, h.2 o ho⟩

theorem sitesMade_option {lo hi : Nat} {o : Option Expr} (h : OptionMade T lo o hi)
    {path : Path} (around : path.Proper T) {initialized : Option Token}
    (names : ∀ name, initialized = some name → IsName T name) :
    SitesMade T lo (optionSites path initialized o) hi := by
  cases o with
  | none => exact .nil
  | some e => exact sitesMade_expr (h e rfl) around names

/-- Parameters are no references. -/
theorem sitesMade_params {lo hi : Nat} {sites : List Site} (h : SitesMade T lo sites hi) :
    ∀ (params earlier : List Token), SitesMade T lo (parameterSites earlier params ++ sites) hi
  | [], _ => h
  | param :: rest, earlier => (sitesMade_params h rest (earlier ++ [param])).cons rfl trivial

/-! ### Statements -/

/-- What is known of a declaration that was read. -/
structure DeclMade (T : Token → Prop) (lo : Nat) (s : Stmt) (hi : Nat) : Prop where
  formed : WellFormed s
  names : DeclaresName T s
  sites : ∀ path : Path, path.Proper T → SitesMade T lo (stmtSites path s) hi

/-- What is known of a statement that was read: it declares nothing. -/
structure StmtMade (T : Token → Prop) (lo : Nat) (s : Stmt) (hi : Nat) : Prop where
  formed : WellFormed s
  quiet : declared? s = none
  sites : ∀ path : Path, path.Proper T → SitesMade T lo (stmtSites path s) hi

theorem StmtMade.decl {lo hi : Nat} {s : Stmt} (h : StmtMade T lo s hi) :
    DeclMade T lo s hi := by
  refine ⟨h.formed, ?_, h.sites⟩
  intro name declares
  rw [h.quiet] at declares
  cases declares

theorem allWellFormed_of_chained {lo hi : Nat} {ss : List Stmt}
    (h : Chained (DeclMade T) lo ss hi) : AllWellFormed ss := by
  induction h with
  | nil _ => exact trivial
  | cons _ _ made _ ih => exact ⟨made.formed, ih⟩

/-- The declarations of a body: each one stands after those before it. -/
theorem sitesMade_body {lo hi : Nat} {ss : List Stmt} (h : Chained (DeclMade T) lo ss hi)
    {outer : Path} (around : outer.Proper T) {body : Body} (params : body.Proper T) :
    ∀ before : List Stmt, (∀ s ∈ before, DeclaresName T s) →
      SitesMade T lo (bodySites outer body before ss) hi := by
  induction h with
  | nil _ =>
    intro before _
    exact .nil
  | @cons lo lo' mid hi s rest below le made others ih =>
    intro before names
    have names' : ∀ s' ∈ before ++ [s], DeclaresName T s' := by
      intro s' hs'
      rcases List.mem_append.mp hs' with hs' | hs'
      · exact names s' hs'
      · rw [List.mem_singleton.mp hs']
        exact made.names
    have place : Path.Proper T (.within body before s :: outer) :=
      List.forall_mem_cons.mpr ⟨⟨params, names'⟩, around⟩
    have first := made.sites _ place
    have later := ih (before ++ [s]) names'
    exact (first.append later le others.le).widen below (Nat.le_refl _)

theorem stmtMade_block {lo hi : Nat} {ss : List Stmt} (h : Chained (DeclMade T) lo ss hi) :
    StmtMade T lo (.block ss) hi := by
  refine ⟨allWellFormed_of_chained h, rfl, ?_⟩
  intro path around
  have unnamed : Body.Proper T (.block ss) := trivial
  exact sitesMade_body h around unnamed [] fun _ no => nomatch no

theorem stmtMade_expression {lo hi : Nat} {e : Expr} (h : ExprMade T lo e hi) :
    StmtMade T lo (.expression e) hi := by
  refine ⟨trivial, rfl, ?_⟩
  intro path around
  exact sitesMade_expr h around fun _ no => nomatch no

theorem stmtMade_while {lo mid hi : Nat} {condition : Expr} {body : Stmt}
    (hc : ExprMade T lo condition mid) (hb : StmtMade T mid body hi) (below : lo ≤ mid)
    (above : mid ≤ hi) : StmtMade T lo (.whileLoop condition body) hi := by
  refine ⟨⟨hb.quiet, hb.formed⟩, rfl, ?_⟩
  intro path around
  have first : SitesMade T lo (exprSites path none condition) mid :=
    sitesMade_expr hc around fun _ no => nomatch no
  exact first.append (hb.sites path around) below above

theorem StmtMade.widen {lo hi lo' hi' : Nat} {s : Stmt} (h : StmtMade T lo s hi)
    (below : lo' ≤ lo) (above : hi ≤ hi') : StmtMade T lo' s hi' :=
  ⟨h.formed, h.quiet, fun path around => (h.sites path around).widen below above⟩

/-- A round of a `for` loop: the increment is read before the body and stands after it. -/
theorem stmtMade_round {lo mid hi : Nat} {increment : Expr} {body : Stmt}
    (hi' : ExprMade T lo increment mid) (hb : StmtMade T mid body hi) (below : lo ≤ mid)
    (above : mid ≤ hi) : StmtMade T lo (.block [body, .expression increment]) hi := by
  refine ⟨⟨hb.formed, trivial, trivial⟩, rfl, ?_⟩
  intro path around
  let around' := Body.block [body, .expression increment]
  have quiet : ∀ before current, (∀ s ∈ before ++ [current], declared? s = none) →
      Path.Proper T (.within around' before current :: path) := by
    intro before current none
    refine List.forall_mem_cons.mpr ⟨⟨trivial, ?_⟩, around⟩
    intro s hs name declares
    rw [none s hs] at declares
    cases declares
  have first : SitesMade T mid (stmtSites (.within around' [] body :: path) body) hi := by
    apply hb.sites
    apply quiet
    simpa using hb.quiet
  have second : SitesMade T lo
      (exprSites (.within around' [body] (.expression increment) :: path) none increment)
      mid := by
    refine sitesMade_expr hi' ?_ fun _ no => nomatch no
    apply quiet
    simpa [declared?] using hb.quiet
  -- numbered before the body, listed after it
  have both := (second.append first below above).swap
  simpa only [stmtSites, bodySites, List.append_nil, List.nil_append] using both

/-- A missing condition refers to nothing. -/
theorem exprMade_condition {lo hi : Nat} {condition : Option Expr}
    (h : OptionMade T lo condition hi) :
    ExprMade T lo (condition.getD (.literal (.bool true))) hi := by
  cases condition with
  | none => exact .nil
  | some e => exact h e rfl

/-- A `for` loop without initializer. -/
theorem stmtMade_loop {n₁ n₂ n₃ n₄ : Nat} {condition increment : Option Expr} {body : Stmt}
    (hcond : OptionMade T n₁ condition n₂) (hincr : OptionMade T n₂ increment n₃)
    (hbody : StmtMade T n₃ body n₄) (h₁ : n₁ ≤ n₂) (h₂ : n₂ ≤ n₃) (h₃ : n₃ ≤ n₄) :
    StmtMade T n₁ (forLoop none condition increment body) n₄ := by
  have first := exprMade_condition hcond
  cases increment with
  | none => exact stmtMade_while first (hbody.widen h₂ (Nat.le_refl _)) h₁ (by omega)
  | some e =>
    exact stmtMade_while first (stmtMade_round (hincr e rfl) hbody h₂ h₃) h₁ (by omega)

/-- A `for` loop, whose initializer stands with it in a block. -/
theorem stmtMade_forLoop {lo mid hi : Nat} {initializer : Option Stmt}
    {condition increment : Option Expr} {body : Stmt}
    (hinit : ∀ s, initializer = some s → DeclMade T lo s mid)
    (hloop : StmtMade T mid (forLoop none condition increment body) hi) (below : lo ≤ mid)
    (above : mid ≤ hi) : StmtMade T lo (forLoop initializer condition increment body) hi := by
  cases initializer with
  | none => exact hloop.widen below (Nat.le_refl _)
  | some first =>
    have last := Chained.cons (Nat.le_refl _) above hloop.decl (.nil (Nat.le_refl _))
    have both := Chained.cons (Nat.le_refl _) below (hinit first rfl) last
    exact stmtMade_block both

theorem stmtMade_ifElse {lo mid mid' hi : Nat} {condition : Expr} {thenBranch : Stmt}
    {elseBranch : Option Stmt} (hc : ExprMade T lo condition mid)
    (ht : StmtMade T mid thenBranch mid')
    (he : elseBranch = none ∨ ∃ s, elseBranch = some s ∧ StmtMade T mid' s hi)
    (h₁ : lo ≤ mid) (h₂ : mid ≤ mid') (h₃ : mid' ≤ hi) :
    StmtMade T lo (.ifElse condition thenBranch elseBranch) hi := by
  have both : ∀ path : Path, path.Proper T →
      SitesMade T lo (exprSites path none condition ++ stmtSites path thenBranch) mid' := by
    intro path around
    have first : SitesMade T lo (exprSites path none condition) mid :=
      sitesMade_expr hc around fun _ no => nomatch no
    exact first.append (ht.sites path around) h₁ h₂
  rcases he with rfl | ⟨s, rfl, hs⟩
  · refine ⟨⟨ht.quiet, ht.formed⟩, rfl, ?_⟩
    intro path around
    exact (both path around).widen (Nat.le_refl _) h₃
  · refine ⟨⟨⟨ht.quiet, ht.formed⟩, hs.quiet, hs.formed⟩, rfl, ?_⟩
    intro path around
    exact (both path around).append (hs.sites path around) (by omega) h₃

theorem declMade_var {lo hi : Nat} {name : Token} {initializer : Option Expr}
    (hn : IsName T name) (h : OptionMade T lo initializer hi) :
    DeclMade T lo (.varDecl name initializer) hi := by
  refine ⟨trivial, ?_, ?_⟩
  · intro name' declares
    cases declares
    exact hn
  · intro path around
    refine (sitesMade_option h around ?_).cons rfl hn
    intro name' same
    cases same
    exact hn

/-! ### Functions and classes -/

/-- What is known of a function or method that was read. -/
structure RoutineMade (T : Token → Prop) (lo : Nat) (f : FunctionDecl) (hi : Nat) : Prop where
  name : IsName T f.name
  params : ∀ param ∈ f.params, IsName T param
  body : Chained (DeclMade T) lo f.body hi

theorem RoutineMade.formed {lo hi : Nat} {f : FunctionDecl} (h : RoutineMade T lo f hi) :
    RoutineWellFormed f :=
  (routineWellFormed_iff f).mpr (allWellFormed_of_chained h.body)

theorem RoutineMade.sites {lo hi : Nat} {f : FunctionDecl} (h : RoutineMade T lo f hi)
    (isMethod : Bool) {outer : Path} (around : outer.Proper T) :
    SitesMade T lo (functionSites outer (.routine isMethod f) f) hi := by
  have params : Body.Proper T (.routine isMethod f) := h.params
  have stmts := sitesMade_body h.body around params [] fun _ no => nomatch no
  rw [functionSites_eq]
  exact sitesMade_params stmts f.params []

theorem methodsMade {lo hi : Nat} {methods : List FunctionDecl}
    (h : Chained (RoutineMade T) lo methods hi) : MethodsWellFormed methods ∧
      ∀ (outer : Path) (into : FunctionDecl → Step),
        (∀ method, Path.Proper T (into method :: outer)) →
        SitesMade T lo (methodSites outer into methods) hi := by
  induction h with
  | nil _ => exact ⟨trivial, fun _ _ _ => .nil⟩
  | @cons _ _ _ _ method _ below le made others ih =>
    refine ⟨⟨made.formed, ih.1⟩, ?_⟩
    intro outer into around
    have first := made.sites true (around method)
    exact (first.append (ih.2 outer into around) le others.le).widen below (Nat.le_refl _)

theorem declMade_fun {lo hi : Nat} {f : FunctionDecl} (h : RoutineMade T lo f hi) :
    DeclMade T lo (.funDecl f) hi := by
  refine ⟨h.formed, ?_, ?_⟩
  · intro name declares
    cases declares
    exact h.name
  · intro path around
    exact (h.sites false around).cons rfl h.name

theorem declMade_class {lo mid hi : Nat} {name : Token} {superclass : Option Expr}
    {methods : List FunctionDecl} (hn : IsName T name)
    (hs : superclass = none ∨ ∃ node parent, superclass = some (.var node parent) ∧
      ExprMade T lo (.var node parent) mid)
    (hm : Chained (RoutineMade T) mid methods hi) (below : lo ≤ mid) :
    DeclMade T lo (.classDecl name superclass methods) hi := by
  have inside : ∀ path : Path, path.Proper T → SitesMade T mid
      (methodSites path (.inClass name superclass methods) methods) hi := by
    intro path around
    apply (methodsMade hm).2
    intro method
    exact List.forall_mem_cons.mpr ⟨trivial, around⟩
  refine ⟨⟨?_, (methodsMade hm).1⟩, ?_, ?_⟩
  · intro e he
    rcases hs with rfl | ⟨node, parent, rfl, _⟩
    · cases he
    · cases he
      exact ⟨node, parent, rfl⟩
  · intro name' declares
    cases declares
    exact hn
  · intro path around
    have parents : SitesMade T lo (superclassSites path name superclass) mid := by
      rcases hs with rfl | ⟨node, parent, rfl, made⟩
      · exact .nil
      · have named : SitesMade T lo (exprSites path none (.var node parent)) mid :=
          sitesMade_expr made around fun _ no => nomatch no
        exact named.cons rfl trivial
    exact (parents.append (inside path around) below hm.le).cons rfl hn

/-! ### The rules -/

theorem isName_of_taken {t : Token} (h : Taken T .identifier t) : IsName T t :=
  ⟨h.1, TokenKind.agrees_identifier.mp h.2⟩

theorem yields_expressionStatement : Yields T expressionStatement (StmtMade T) := by
  apply (yields_nestedExpression.bind fun value => (yields_expect _ _).bind fun _ =>
    .pure_eq (Stmt.expression value)).weaken
  intro lo s hi _ read
  obtain ⟨value, mid, _, _, made, _, _, _, _, _, rfl, rfl⟩ := read
  exact (stmtMade_expression made).widen (Nat.le_refl _) (by omega)

theorem yields_printRule (keyword : Token) : Yields T (printRule keyword) (StmtMade T) := by
  apply (yields_nestedExpression.bind fun value => (yields_expect _ _).bind fun _ =>
    .pure_eq (Stmt.print keyword value)).weaken
  intro lo s hi _ read
  obtain ⟨value, mid, _, _, made, _, _, _, _, _, rfl, rfl⟩ := read
  refine ⟨trivial, rfl, ?_⟩
  intro path around
  have sites : SitesMade T lo (exprSites path none value) mid :=
    sitesMade_expr made around fun _ no => nomatch no
  exact sites.widen (Nat.le_refl _) (by omega)

theorem yields_returnRule (keyword : Token) : Yields T (returnRule keyword) (StmtMade T) := by
  apply ((yields_expressionUnless _).bind fun value => (yields_expect _ _).bind fun _ =>
    .pure_eq (Stmt.ret keyword value)).weaken
  intro lo s hi _ read
  obtain ⟨value, mid, _, _, made, _, _, _, _, _, rfl, rfl⟩ := read
  refine ⟨trivial, rfl, ?_⟩
  intro path around
  have sites : SitesMade T lo (optionSites path none value) mid :=
    sitesMade_option made around fun _ no => nomatch no
  exact (sites.widen (Nat.le_refl _) (by omega)).cons rfl trivial

theorem yields_varRule : Yields T varRule (DeclMade T) := by
  apply ((yields_expect _ _).bind fun name =>
    (yields_introducedBy yields_nestedExpression).bind fun initializer =>
    (yields_expect _ _).bind fun _ => .pure_eq (Stmt.varDecl name initializer)).weaken
  intro lo s hi _ read
  obtain ⟨name, mid, _, _, taken, initializer, mid', _, _, made, _, n, _, _, _, rfl, rfl⟩ := read
  have read : OptionMade T mid initializer mid' := by
    intro e he
    rcases made with rfl | ⟨e', rfl, made⟩
    · cases he
    · cases he
      exact made
  have known : OptionMade T lo initializer n := by
    intro e he
    exact RefsMade.widen (read e he) (by omega) (by omega)
  exact declMade_var (isName_of_taken taken) known

section

variable {nestedStatement : Parser Stmt} {nestedDeclaration : Parser (Option Stmt)}

theorem yields_blockBody
    (sub : Yields T nestedDeclaration fun lo o hi => ∀ s, o = some s → DeclMade T lo s hi) :
    Yields T (blockBody nestedDeclaration) (Chained (DeclMade T)) := by
  apply (yields_remaining.bind fun bound =>
    (yields_itemsUntil yields_atBodyEnd sub bound).bind fun body =>
    (yields_expect _ _).bind fun _ => .pure_eq (body.filterMap id)).weaken
  intro lo ss hi _ read
  obtain ⟨_, _, _, _, rfl, body, mid, _, _, items, _, _, _, _, _, rfl, rfl⟩ := read
  exact items.filterMap.widen (Nat.le_refl _) (by omega)

theorem yields_ifRule (sub : Yields T nestedStatement (StmtMade T)) :
    Yields T (ifRule nestedStatement) (StmtMade T) := by
  apply ((yields_expect _ _).bind fun _ => yields_nestedExpression.bind fun condition =>
    (yields_expect _ _).bind fun _ => sub.bind fun thenBranch =>
    (yields_introducedBy sub).bind fun elseBranch =>
    .pure_eq (Stmt.ifElse condition thenBranch elseBranch)).weaken
  intro lo s hi _ read
  obtain ⟨_, n₁, _, _, _, condition, n₂, _, _, hc, _, n₃, _, _, _, thenBranch, n₄, _, _, ht,
    elseBranch, n₅, _, _, he, rfl, rfl⟩ := read
  have hc' : ExprMade T lo condition n₃ := RefsMade.widen hc (by omega) (by omega)
  exact stmtMade_ifElse hc' ht he (by omega) (by omega) (by omega)

theorem yields_whileRule (sub : Yields T nestedStatement (StmtMade T)) :
    Yields T (whileRule nestedStatement) (StmtMade T) := by
  apply ((yields_expect _ _).bind fun _ => yields_nestedExpression.bind fun condition =>
    (yields_expect _ _).bind fun _ => sub.bind fun body =>
    .pure_eq (Stmt.whileLoop condition body)).weaken
  intro lo s hi _ read
  obtain ⟨_, n₁, _, _, _, condition, n₂, _, _, hc, _, n₃, _, _, _, body, n₄, _, _, hb,
    rfl, rfl⟩ := read
  have hc' : ExprMade T lo condition n₃ := RefsMade.widen hc (by omega) (by omega)
  exact stmtMade_while hc' hb (by omega) (by omega)

theorem yields_forInitializer :
    Yields T (select forInitializerRule? (some <$> expressionStatement))
      fun lo o hi => ∀ s, o = some s → DeclMade T lo s hi := by
  apply yields_select
  · intro token rule _ chosen
    unfold forInitializerRule? at chosen
    split at chosen
    · cases chosen
      exact .pure fun _ _ no => nomatch no
    · cases chosen
      apply (yields_varRule.map some).weaken
      intro lo o hi _ read s hs
      obtain ⟨s', made, rfl⟩ := read
      cases hs
      exact made
    · cases chosen
  · apply (yields_expressionStatement.map some).weaken
    intro lo o hi _ read s hs
    obtain ⟨s', made, rfl⟩ := read
    cases hs
    exact made.decl

theorem yields_forRule (sub : Yields T nestedStatement (StmtMade T)) :
    Yields T (forRule nestedStatement) (StmtMade T) := by
  apply ((yields_expect _ _).bind fun _ => yields_forInitializer.bind fun initializer =>
    (yields_expressionUnless _).bind fun condition => (yields_expect _ _).bind fun _ =>
    (yields_expressionUnless _).bind fun increment => (yields_expect _ _).bind fun _ =>
    sub.bind fun body => .pure_eq (forLoop initializer condition increment body)).weaken
  intro lo s hi _ read
  obtain ⟨_, n₁, _, _, _, initializer, n₂, _, _, hinit, condition, n₃, _, _, hcond, _, n₄, _, _,
    _, increment, n₅, _, _, hincr, _, n₆, _, _, _, body, n₇, _, _, hbody, rfl, rfl⟩ := read
  have hcond' : OptionMade T n₂ condition n₄ := by
    intro e he
    exact RefsMade.widen (hcond e he) (Nat.le_refl _) (by omega)
  have hincr' : OptionMade T n₄ increment n₆ := by
    intro e he
    exact RefsMade.widen (hincr e he) (Nat.le_refl _) (by omega)
  have loop := stmtMade_loop hcond' hincr' hbody (by omega) (by omega) (by omega)
  exact (stmtMade_forLoop hinit loop (by omega) (by omega)).widen (by omega) (Nat.le_refl _)

theorem yields_anyStatement (stmt : Yields T nestedStatement (StmtMade T))
    (decl : Yields T nestedDeclaration fun lo o hi => ∀ s, o = some s → DeclMade T lo s hi) :
    Yields T (anyStatement nestedStatement nestedDeclaration) (StmtMade T) := by
  apply yields_select _ yields_expressionStatement
  intro token rule _ chosen
  unfold statementRule? at chosen
  split at chosen
  · cases chosen
    exact yields_forRule stmt
  · cases chosen
    exact yields_ifRule stmt
  · cases chosen
    exact yields_printRule token
  · cases chosen
    exact yields_returnRule token
  · cases chosen
    exact yields_whileRule stmt
  · cases chosen
    apply ((yields_blockBody decl).map Stmt.block).weaken
    intro lo s hi _ read
    obtain ⟨ss, made, rfl⟩ := read
    exact stmtMade_block made
  · cases chosen

theorem yields_parameter (count : Nat) : Yields T (parameter count) fun _ t _ => IsName T t := by
  have name : Yields T (expect .identifier .parameterName) fun _ t _ => IsName T t :=
    (yields_expect _ _).weaken fun _ _ _ _ taken => isName_of_taken taken
  exact yields_limited name (fun _ named => named) _ count

theorem yields_routine (kind : Routine)
    (sub : Yields T nestedDeclaration fun lo o hi => ∀ s, o = some s → DeclMade T lo s hi) :
    Yields T (routine kind nestedDeclaration) (RoutineMade T) := by
  apply ((yields_expect _ _).bind fun name => (yields_expect _ _).bind fun _ =>
    (yields_itemsBeforeParen yields_parameter).bind fun params =>
    (yields_expect _ _).bind fun _ => (yields_expect _ _).bind fun _ =>
    (yields_blockBody sub).bind fun body => .pure_eq (FunctionDecl.mk name params body)).weaken
  intro lo f hi _ read
  obtain ⟨name, _, _, _, taken, _, _, _, _, _, params, _, _, _, items, _, _, _, _, _,
    _, n, _, _, _, body, n', _, _, made, rfl, rfl⟩ := read
  refine ⟨isName_of_taken taken, ?_, made.widen (by omega) (Nat.le_refl _)⟩
  intro param hparam
  obtain ⟨_, _, named⟩ := items.mem param hparam
  exact named

theorem yields_superclassName : Yields T superclassName fun lo e hi =>
    ∃ node parent, e = .var node parent ∧ ExprMade T lo (.var node parent) hi := by
  apply ((yields_expect _ _).bind fun name => yields_freshNode.bind fun n =>
    .pure_eq (Expr.var n name)).weaken
  intro lo e hi _ read
  obtain ⟨name, _, below, _, taken, n, _, _, _, ⟨rfl, rfl⟩, rfl, rfl⟩ := read
  have proper : (Occurrence.read n name).Proper T := isName_of_taken taken
  have single := RefsMade.singleton proper
  exact ⟨n, name, rfl, single.widen below (Nat.le_refl _)⟩

theorem yields_classRule
    (sub : Yields T nestedDeclaration fun lo o hi => ∀ s, o = some s → DeclMade T lo s hi) :
    Yields T (classRule nestedDeclaration) (DeclMade T) := by
  apply ((yields_expect _ _).bind fun name =>
    (yields_introducedBy yields_superclassName).bind fun parent =>
    (yields_expect _ _).bind fun _ => yields_remaining.bind fun bound =>
    (yields_itemsUntil yields_atBodyEnd (yields_routine .method sub) bound).bind fun methods =>
    (yields_expect _ _).bind fun _ => .pure_eq (Stmt.classDecl name parent methods)).weaken
  intro lo s hi _ read
  obtain ⟨name, n₁, _, _, taken, parent, n₂, _, _, hparent, _, n₃, _, _, _, _, n₄, _, _, rfl,
    methods, n₅, _, _, hmethods, _, n₆, _, _, _, rfl, rfl⟩ := read
  have hmethods' := hmethods.widen (show n₂ ≤ _ by omega) (show n₅ ≤ _ by assumption)
  have hparent' : parent = none ∨ ∃ node name', parent = some (.var node name') ∧
      ExprMade T lo (.var node name') n₂ := by
    rcases hparent with rfl | ⟨_, rfl, node, name', rfl, made⟩
    · exact .inl rfl
    · exact .inr ⟨node, name', rfl, RefsMade.widen made (by omega) (Nat.le_refl _)⟩
  exact declMade_class (isName_of_taken taken) hparent' hmethods' (by omega)

theorem yields_anyDeclaration (stmt : Yields T nestedStatement (StmtMade T))
    (decl : Yields T nestedDeclaration fun lo o hi => ∀ s, o = some s → DeclMade T lo s hi) :
    Yields T (anyDeclaration nestedStatement nestedDeclaration)
      fun lo o hi => ∀ s, o = some s → DeclMade T lo s hi := by
  apply yields_recovering
  apply yields_select
  · intro token rule _ chosen
    unfold declarationRule? at chosen
    split at chosen
    · cases chosen
      exact yields_classRule decl
    · cases chosen
      apply ((yields_routine .function decl).map Stmt.funDecl).weaken
      intro lo s hi _ read
      obtain ⟨f, made, rfl⟩ := read
      exact declMade_fun made
    · cases chosen
      exact yields_varRule
    · cases chosen
  · exact (yields_anyStatement stmt decl).weaken fun _ _ _ _ made => made.decl

end

theorem yields_statement_declaration (depth : Nat) :
    Yields T (statement depth) (StmtMade T) ∧
      Yields T (declaration depth) fun lo o hi => ∀ s, o = some s → DeclMade T lo s hi := by
  induction depth with
  | zero =>
    have rejected : ∀ P : Nat → Stmt → Nat → Prop,
        Yields T (reject .expression : Parser Stmt) P :=
      fun P => (yields_reject _).weaken fun _ _ _ _ no => no.elim
    exact ⟨rejected _, yields_recovering (rejected _)⟩
  | succ depth ih =>
    exact ⟨yields_anyStatement ih.1 ih.2, yields_anyDeclaration ih.1 ih.2⟩

theorem yields_program : Yields T program (Chained (DeclMade T)) := by
  apply (yields_remaining.bind fun bound =>
    (yields_itemsUntil yields_atEnd (yields_statement_declaration bound).2 bound).bind fun ss =>
    .pure_eq (ss.filterMap id)).weaken
  intro lo ss hi _ read
  obtain ⟨_, _, _, _, rfl, os, _, _, _, items, rfl, rfl⟩ := read
  exact items.filterMap

/-! ### Programs -/

/-- The declarations of a program that was read, with or without errors. -/
theorem readProgram_made (fresh : NodeId) (tokens : List Token) :
    Chained (DeclMade (· ∈ tokens)) fresh (readProgram fresh tokens).value
      (readProgram fresh tokens).fresh := by
  have supplied : Supplied (· ∈ tokens) (start fresh tokens) :=
    fun t ht => (List.takeWhile_subset _) ht
  have all : Yields (· ∈ tokens) program _ := yields_program
  unfold readProgram
  cases run : program (start fresh tokens) with
  | ok statements s => exact all.value supplied run
  | error e s =>
    have raised := all.raises _ supplied
    rw [run] at raised
    exact .nil raised

/-- Everything that is read has a form that can be read. -/
theorem readProgram_wellFormed (fresh : NodeId) (tokens : List Token) :
    AllWellFormed (readProgram fresh tokens).value :=
  allWellFormed_of_chained (readProgram_made fresh tokens)

/-- The references of a program that was read have different identities from the given one
    on, and its names and keywords are tokens of the input. -/
theorem readProgram_sites (fresh : NodeId) (tokens : List Token) :
    SitesMade (· ∈ tokens) fresh (programSites (readProgram fresh tokens).value)
      (readProgram fresh tokens).fresh := by
  have outside : Path.Proper (· ∈ tokens) [] := fun _ no => nomatch no
  have unnamed : Body.Proper (· ∈ tokens) .program := trivial
  exact sitesMade_body (readProgram_made fresh tokens) outside unnamed [] fun _ no => nomatch no

/-- The counter is never lowered. -/
theorem readProgram_fresh_le (fresh : NodeId) (tokens : List Token) :
    fresh ≤ (readProgram fresh tokens).fresh :=
  (readProgram_made fresh tokens).le

end Lox.Grammar
