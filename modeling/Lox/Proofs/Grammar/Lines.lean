import Lox.Proofs.Binding.Sites
import Lox.Proofs.Grammar.ProgramTexts

/-! # The tokens of trees and their lines

  A tree keeps tokens of the text it was read from, and no others (`readProgram_over`). What
  is read depends on the kinds of tokens only, so that on other lines the same tree is spelled
  with its tokens on those lines (`Phrase.Spells.reline`). Hence two texts one after the other
  are read as the declarations of the one and then those of the other (`readProgram_append`).
-/

namespace Lox

/-! ### The tokens of a tree -/

/-- Whether the tokens that an expression keeps are of the right kinds and all of them have a
    property. -/
def Expr.Over (T : Token → Prop) (e : Expr) : Prop :=
  e.respects = true ∧ ∀ t, .kept t ∈ e.layout → T t

/-- Whether the tokens of an expression have a property, if there is an expression. -/
def Expr.OptionOver (T : Token → Prop) (o : Option Expr) : Prop :=
  ∀ e, o = some e → e.Over T

mutual

/-- Whether every token that a statement keeps has a property. -/
def Stmt.Over (T : Token → Prop) : Stmt → Prop
  | .expression value => value.Over T
  | .print keyword value => T keyword ∧ value.Over T
  | .varDecl name initializer => Binding.IsName T name ∧ Expr.OptionOver T initializer
  | .block body => Stmt.AllOver T body
  | .ifElse condition thenBranch elseBranch =>
    condition.Over T ∧ thenBranch.Over T ∧ Stmt.ElseOver T elseBranch
  | .whileLoop condition body => condition.Over T ∧ body.Over T
  | .funDecl f => f.Over T
  | .ret keyword value => T keyword ∧ Expr.OptionOver T value
  | .classDecl name superclass methods =>
    T name ∧ Expr.OptionOver T superclass ∧ FunctionDecl.AllOver T methods

/-- Whether every token that statements keep has a property. -/
def Stmt.AllOver (T : Token → Prop) : List Stmt → Prop
  | [] => True
  | s :: rest => s.Over T ∧ Stmt.AllOver T rest

/-- Whether every token of what `else` introduces has a property. -/
def Stmt.ElseOver (T : Token → Prop) : Option Stmt → Prop
  | none => True
  | some s => s.Over T

/-- Whether every token that a function keeps has a property. -/
def FunctionDecl.Over (T : Token → Prop) : FunctionDecl → Prop
  | ⟨name, params, body⟩ =>
    T name ∧ (∀ param ∈ params, Binding.IsName T param) ∧ Stmt.AllOver T body

/-- Whether every token that functions keep has a property. -/
def FunctionDecl.AllOver (T : Token → Prop) : List FunctionDecl → Prop
  | [] => True
  | f :: rest => f.Over T ∧ FunctionDecl.AllOver T rest

end

section

open Grammar

variable {T : Token → Prop}

mutual

theorem Expr.layout_bare : ∀ e : Expr, e.bare.layout = e.layout
  | .literal _ => rfl
  | .grouping inner => by rw [bare, layout, layout, inner.layout_bare]
  | .unary _ right => by rw [bare, layout, layout, right.layout_bare]
  | .binary left _ right => by rw [bare, layout, layout, left.layout_bare, right.layout_bare]
  | .logical left _ right => by rw [bare, layout, layout, left.layout_bare, right.layout_bare]
  | .var .. => rfl
  | .assign _ _ value => by rw [bare, layout, layout, value.layout_bare]
  | .call callee _ arguments => by
    rw [bare, layout, layout, callee.layout_bare, layoutAll_bare arguments]
  | .get object _ => by rw [bare, layout, layout, object.layout_bare]
  | .set object _ value => by
    rw [bare, layout, layout, object.layout_bare, value.layout_bare]
  | .thisRef .. => rfl
  | .superRef .. => rfl

theorem Expr.layoutAll_bare : ∀ es : List Expr, layoutAll (bareAll es) = layoutAll es
  | [] => rfl
  | [e] => by rw [bareAll, bareAll, layoutAll, layoutAll, e.layout_bare]
  | e :: next :: rest => by
    have later := layoutAll_bare (next :: rest)
    rw [bareAll] at later ⊢
    rw [bareAll, layoutAll, layoutAll, e.layout_bare, later]

end

theorem Expr.rank_bare (e : Expr) : e.bare.rank = e.rank := by
  cases e <;> rfl

theorem Expr.length_bareAll (es : List Expr) : (bareAll es).length = es.length := by
  induction es with
  | nil => rfl
  | cons e rest ih => simp [bareAll, ih]

mutual

theorem Expr.respects_bare : ∀ e : Expr, e.bare.respects = e.respects
  | .literal _ => rfl
  | .grouping inner => by simp [bare, respects, inner.respects_bare]
  | .unary _ right => by simp [bare, respects, right.respects_bare, Expr.rank_bare]
  | .binary left operator right => by
    have whole := Expr.rank_bare (.binary left operator right)
    rw [bare] at whole
    simp [bare, respects, left.respects_bare, right.respects_bare, Expr.rank_bare, whole]
  | .logical left operator right => by
    have whole := Expr.rank_bare (.logical left operator right)
    rw [bare] at whole
    simp [bare, respects, left.respects_bare, right.respects_bare, Expr.rank_bare, whole]
  | .var .. => rfl
  | .assign _ _ value => by simp [bare, respects, value.respects_bare]
  | .call callee _ arguments => by
    simp [bare, respects, callee.respects_bare, Expr.rank_bare, Expr.length_bareAll,
      Expr.allRespect_bare arguments]
  | .get object _ => by simp [bare, respects, object.respects_bare, Expr.rank_bare]
  | .set object _ value => by
    simp [bare, respects, object.respects_bare, value.respects_bare, Expr.rank_bare]
  | .thisRef .. => rfl
  | .superRef .. => rfl

theorem Expr.allRespect_bare : ∀ es : List Expr, allRespect (bareAll es) = allRespect es
  | [] => rfl
  | e :: rest => by simp [bareAll, allRespect, e.respects_bare, allRespect_bare rest]

end

theorem Expr.over_bare {e : Expr} : e.bare.Over T ↔ e.Over T := by
  unfold Expr.Over
  rw [Expr.layout_bare, Expr.respects_bare]

theorem Expr.optionOver_bare {o : Option Expr} :
    Expr.OptionOver T (o.map Expr.bare) ↔ Expr.OptionOver T o := by
  cases o with
  | none => simp [Expr.OptionOver]
  | some e => simp [Expr.OptionOver, Expr.over_bare]

mutual

theorem Stmt.over_bare : ∀ s : Stmt, s.bare.Over T ↔ s.Over T
  | .expression _ => Expr.over_bare
  | .print _ _ => and_congr_right' Expr.over_bare
  | .varDecl _ _ => and_congr_right' Expr.optionOver_bare
  | .block body => Stmt.allOver_bare body
  | .ifElse _ thenBranch elseBranch =>
    and_congr Expr.over_bare (and_congr thenBranch.over_bare (Stmt.elseOver_bare elseBranch))
  | .whileLoop _ body => and_congr Expr.over_bare body.over_bare
  | .funDecl f => f.over_bare
  | .ret _ _ => and_congr_right' Expr.optionOver_bare
  | .classDecl _ _ methods =>
    and_congr_right' (and_congr Expr.optionOver_bare (FunctionDecl.allOver_bare methods))

theorem Stmt.allOver_bare : ∀ ss : List Stmt,
    Stmt.AllOver T (Stmt.bareAll ss) ↔ Stmt.AllOver T ss
  | [] => Iff.rfl
  | s :: rest => and_congr s.over_bare (Stmt.allOver_bare rest)

theorem Stmt.elseOver_bare : ∀ o : Option Stmt,
    Stmt.ElseOver T (Stmt.bareElse o) ↔ Stmt.ElseOver T o
  | none => Iff.rfl
  | some s => s.over_bare

theorem FunctionDecl.over_bare : ∀ f : FunctionDecl, f.bare.Over T ↔ f.Over T
  | ⟨_, _, body⟩ => and_congr_right' (and_congr_right' (Stmt.allOver_bare body))

theorem FunctionDecl.allOver_bare : ∀ fs : List FunctionDecl,
    FunctionDecl.AllOver T (FunctionDecl.bareAll fs) ↔ FunctionDecl.AllOver T fs
  | [] => Iff.rfl
  | f :: rest => and_congr f.over_bare (FunctionDecl.allOver_bare rest)

end

end

namespace Grammar

variable {T : Token → Prop} {w : List Token}

theorem Tight.over {k : Nat} {e : Expr} (h : Tight k w e) (all : ∀ t ∈ w, T t) : e.Over T := by
  have spells : List.Forall₂ Slot.FilledBy e.layout w := h.spells
  refine ⟨h.respects, ?_⟩
  clear h
  generalize e.layout = slots at spells
  -- what fills the place of a kept token is that token
  induction spells with
  | nil => exact fun _ no => nomatch no
  | @cons slot u slots w filled _ ih =>
    intro t mem
    rcases List.mem_cons.mp mem with rfl | mem
    · obtain rfl : u = t := filled
      exact all u (List.mem_cons_self ..)
    · exact ih (fun t ht => all t (List.mem_cons_of_mem u ht)) t mem

theorem OptionalText.over {o : Option Expr} (h : OptionalText w o) (all : ∀ t ∈ w, T t) :
    Expr.OptionOver T o := by
  rcases h with ⟨_, rfl⟩ | ⟨e, rfl, tight⟩
  · exact nofun
  · rintro _ ⟨⟩
    exact tight.over all

theorem VariableText.over {s : Stmt} (h : VariableText w s) (all : ∀ t ∈ w, T t) :
    s.Over T := by
  obtain ⟨keyword, name, v, semicolon, initializer, rfl, _, hname, text, _, rfl⟩ := h
  refine ⟨⟨all name (by simp), hname⟩, ?_⟩
  rcases text with ⟨_, rfl⟩ | ⟨equals, u, e, rfl, _, rfl, tight⟩
  · exact nofun
  · rintro _ ⟨⟩
    exact tight.over fun t ht => all t (by simp [ht])

theorem ExpressionText.over {s : Stmt} (h : ExpressionText w s) (all : ∀ t ∈ w, T t) :
    s.Over T := by
  obtain ⟨v, semicolon, e, rfl, tight, _, rfl⟩ := h
  exact tight.over fun t ht => all t (List.mem_append_left _ ht)

theorem SuperclassText.over {o : Option Expr} (h : SuperclassText w o) (all : ∀ t ∈ w, T t) :
    Expr.OptionOver T o := by
  rcases h with ⟨_, rfl⟩ | ⟨less, name, node, rfl, _, hname, rfl⟩
  · exact nofun
  · rintro _ ⟨⟩
    refine ⟨beq_iff_eq.mpr hname, fun t mem => ?_⟩
    simp only [Expr.layout, List.mem_singleton, Slot.kept.injEq] at mem
    exact all t (by simp [mem])

theorem ParametersText.over {params : List Token} (h : ParametersText w params)
    (all : ∀ t ∈ w, T t) : ∀ param ∈ params, Binding.IsName T param := by
  obtain ⟨_, ⟨rfl, rfl⟩ | separated⟩ := h
  · exact nofun
  · clear * - separated all
    induction separated with
    | single text =>
      obtain ⟨rfl, hname⟩ := text
      exact List.forall_mem_singleton.mpr ⟨all _ (List.mem_singleton_self _), hname⟩
    | cons text _ _ ih =>
      obtain ⟨rfl, hname⟩ := text
      intro param mem
      rcases List.mem_cons.mp mem with rfl | mem
      · exact ⟨all param (by simp), hname⟩
      · exact ih (fun t ht => all t (by simp [ht])) param mem

/-- A `for` loop keeps the tokens of its parts. -/
theorem forTree_over {initializer : Option Stmt} {condition increment : Option Expr}
    {body : Stmt} (hi : ∀ s, initializer = some s → s.Over T)
    (hc : Expr.OptionOver T condition) (hn : Expr.OptionOver T increment) (hb : body.Over T) :
    (forTree initializer condition increment body).Over T := by
  have known : (condition.getD (.literal (.bool true))).Over T := by
    cases condition with
    | none => simp [Expr.Over, Expr.layout, Expr.respects]
    | some e => exact hc e rfl
  have looped : (Stmt.whileLoop (condition.getD (.literal (.bool true)))
      (inSequence (body :: increment.toList.map .expression))).Over T := by
    refine ⟨known, ?_⟩
    cases increment with
    | none => exact hb
    | some e => exact ⟨hb, hn e rfl, trivial⟩
  cases initializer with
  | none => exact looped
  | some s => exact ⟨hi s rfl, looped, trivial⟩

/-- Whether every token that the tree of a phrase keeps has a property. -/
def Phrase.Over (T : Token → Prop) : Phrase → Prop
  | .statement _ s => s.Over T
  | .declaration _ s => s.Over T
  | .declarations ss => Stmt.AllOver T ss
  | .function f => f.Over T
  | .functions fs => FunctionDecl.AllOver T fs

theorem Phrase.Spells.over {p : Phrase} (h : p.Spells w) (all : ∀ t ∈ w, T t) : p.Over T := by
  -- on the phrase: the tokens of a part are among those of the whole
  induction h with
  | expression text => exact text.over all
  | @print keyword semicolon w e _ tight _ =>
    exact ⟨all keyword (by simp), tight.over fun t ht => all t (by simp [ht])⟩
  | @ret keyword semicolon w value _ text _ =>
    exact ⟨all keyword (by simp), text.over fun t ht => all t (by simp [ht])⟩
  | block _ _ _ ih => exact ih fun t ht => all t (by simp [ht])
  | ifThen _ _ tight _ _ ih =>
    exact ⟨tight.over fun t ht => all t (by simp [ht]), ih fun t ht => all t (by simp [ht]),
      trivial⟩
  | ifElse _ _ tight _ _ _ _ ih ih' =>
    exact ⟨tight.over fun t ht => all t (by simp [ht]), ih fun t ht => all t (by simp [ht]),
      ih' fun t ht => all t (by simp [ht])⟩
  | whileLoop _ _ tight _ _ ih =>
    exact ⟨tight.over fun t ht => all t (by simp [ht]), ih fun t ht => all t (by simp [ht])⟩
  | forLoop _ _ hi hc _ hn _ _ ih =>
    refine forTree_over ?_ (hc.over fun t ht => all t (by simp [ht]))
      (hn.over fun t ht => all t (by simp [ht])) (ih fun t ht => all t (by simp [ht]))
    intro s same
    rcases hi with ⟨_, _, _, rfl⟩ | ⟨s', rfl, text | text⟩
    · cases same
    · cases same
      exact text.over fun t ht => all t (by simp [ht])
    · cases same
      exact text.over fun t ht => all t (by simp [ht])
  | statement _ ih => exact ih all
  | varDecl text => exact text.over all
  | funDecl _ _ ih => exact ih fun t ht => all t (by simp [ht])
  | @classDecl keyword name l r u w superclass methods _ _ text _ _ _ ih =>
    exact ⟨all name (by simp), text.over fun t ht => all t (by simp [ht]),
      ih fun t ht => all t (by simp [ht])⟩
  | noDeclarations => exact trivial
  | declarations _ _ ih ih' =>
    exact ⟨ih fun t ht => all t (by simp [ht]), ih' fun t ht => all t (by simp [ht])⟩
  | @function name l r b e u w params body _ _ text _ _ _ _ ih =>
    exact ⟨all name (by simp), text.over fun t ht => all t (by simp [ht]),
      ih fun t ht => all t (by simp [ht])⟩
  | noFunctions => exact trivial
  | functions _ _ ih ih' =>
    exact ⟨ih fun t ht => all t (by simp [ht]), ih' fun t ht => all t (by simp [ht])⟩

/-- What is read without errors is spelled by its text, up to the identities of nodes. -/
theorem spells_of_readProgram {fresh : NodeId} {tokens : List Token}
    (quiet : (readProgram fresh tokens).errors = []) :
    ∃ tree, (Phrase.declarations tree).Spells (bodyOf tokens) ∧
      Stmt.bareAll (readProgram fresh tokens).value = Stmt.bareAll tree := by
  obtain ⟨tree, spells⟩ : ∃ tree, (Phrase.declarations tree).Spells (bodyOf tokens) :=
    phraseText_of_derives (derives_of_readProgram quiet)
  exact ⟨tree, spells, (readProgram_of_spells fresh spells).2⟩

/-- A program that is read without errors keeps tokens of its text only. -/
theorem readProgram_over {fresh : NodeId} {tokens : List Token}
    (quiet : (readProgram fresh tokens).errors = []) (all : ∀ t ∈ tokens, T t) :
    Stmt.AllOver T (readProgram fresh tokens).value := by
  obtain ⟨tree, spells, same⟩ := spells_of_readProgram quiet
  rw [← Stmt.allOver_bare, same, Stmt.allOver_bare]
  exact spells.over fun t ht => all t ((List.takeWhile_sublist _).subset ht)

/-- Whichever identity comes first, the same program is read. -/
theorem readProgram_same {fresh : NodeId} (fresh' : NodeId) {tokens : List Token}
    (quiet : (readProgram fresh tokens).errors = []) :
    (readProgram fresh' tokens).errors = [] ∧
      Stmt.bareAll (readProgram fresh' tokens).value =
        Stmt.bareAll (readProgram fresh tokens).value := by
  obtain ⟨tree, spells, same⟩ := spells_of_readProgram quiet
  rw [same]
  exact readProgram_of_spells fresh' spells

end Grammar

/-! ### Tokens on other lines -/

/-- A token on another line. -/
def Token.reline (g : Nat → Nat) (t : Token) : Token :=
  { t with line := g t.line }

@[simp] theorem Token.kind_reline (g : Nat → Nat) (t : Token) : (t.reline g).kind = t.kind := rfl

@[simp] theorem Token.lexeme_reline (g : Nat → Nat) (t : Token) :
    (t.reline g).lexeme = t.lexeme := rfl

mutual

/-- An expression with its tokens on other lines. -/
def Expr.reline (g : Nat → Nat) : Expr → Expr
  | .literal value => .literal value
  | .grouping inner => .grouping (inner.reline g)
  | .unary operator right => .unary (operator.reline g) (right.reline g)
  | .binary left operator right => .binary (left.reline g) (operator.reline g) (right.reline g)
  | .logical left operator right => .logical (left.reline g) (operator.reline g) (right.reline g)
  | .var node name => .var node (name.reline g)
  | .assign node name value => .assign node (name.reline g) (value.reline g)
  | .call callee paren arguments =>
    .call (callee.reline g) (paren.reline g) (Expr.relineAll g arguments)
  | .get object name => .get (object.reline g) (name.reline g)
  | .set object name value => .set (object.reline g) (name.reline g) (value.reline g)
  | .thisRef node keyword => .thisRef node (keyword.reline g)
  | .superRef node keyword method => .superRef node (keyword.reline g) (method.reline g)

/-- Expressions with their tokens on other lines. -/
def Expr.relineAll (g : Nat → Nat) : List Expr → List Expr
  | [] => []
  | e :: rest => e.reline g :: Expr.relineAll g rest

end

mutual

/-- A statement with its tokens on other lines. -/
def Stmt.reline (g : Nat → Nat) : Stmt → Stmt
  | .expression value => .expression (value.reline g)
  | .print keyword value => .print (keyword.reline g) (value.reline g)
  | .varDecl name initializer => .varDecl (name.reline g) (initializer.map (Expr.reline g))
  | .block body => .block (Stmt.relineAll g body)
  | .ifElse condition thenBranch elseBranch =>
    .ifElse (condition.reline g) (thenBranch.reline g) (Stmt.relineElse g elseBranch)
  | .whileLoop condition body => .whileLoop (condition.reline g) (body.reline g)
  | .funDecl declaration => .funDecl (declaration.reline g)
  | .ret keyword value => .ret (keyword.reline g) (value.map (Expr.reline g))
  | .classDecl name superclass methods =>
    .classDecl (name.reline g) (superclass.map (Expr.reline g))
      (FunctionDecl.relineAll g methods)

/-- Statements with their tokens on other lines. -/
def Stmt.relineAll (g : Nat → Nat) : List Stmt → List Stmt
  | [] => []
  | s :: rest => s.reline g :: Stmt.relineAll g rest

/-- What `else` introduces, with its tokens on other lines. -/
def Stmt.relineElse (g : Nat → Nat) : Option Stmt → Option Stmt
  | none => none
  | some s => some (s.reline g)

/-- A function with its tokens on other lines. -/
def FunctionDecl.reline (g : Nat → Nat) : FunctionDecl → FunctionDecl
  | ⟨name, params, body⟩ => ⟨name.reline g, params.map (Token.reline g), Stmt.relineAll g body⟩

/-- Functions with their tokens on other lines. -/
def FunctionDecl.relineAll (g : Nat → Nat) : List FunctionDecl → List FunctionDecl
  | [] => []
  | f :: rest => f.reline g :: FunctionDecl.relineAll g rest

end

section

variable (g : Nat → Nat)

mutual

theorem Expr.bare_reline : ∀ e : Expr, (e.reline g).bare = e.bare.reline g
  | .literal _ => rfl
  | .grouping inner => congrArg Expr.grouping inner.bare_reline
  | .unary _ right => congrArg (Expr.unary _) right.bare_reline
  | .binary left _ right => congrArg₂ (Expr.binary · _ ·) left.bare_reline right.bare_reline
  | .logical left _ right => congrArg₂ (Expr.logical · _ ·) left.bare_reline right.bare_reline
  | .var .. => rfl
  | .assign _ _ value => congrArg (Expr.assign _ _) value.bare_reline
  | .call callee _ arguments =>
    congrArg₂ (Expr.call · _ ·) callee.bare_reline (Expr.bareAll_relineAll arguments)
  | .get object _ => congrArg (Expr.get · _) object.bare_reline
  | .set object _ value => congrArg₂ (Expr.set · _ ·) object.bare_reline value.bare_reline
  | .thisRef .. => rfl
  | .superRef .. => rfl

theorem Expr.bareAll_relineAll : ∀ es : List Expr,
    Expr.bareAll (Expr.relineAll g es) = Expr.relineAll g (Expr.bareAll es)
  | [] => rfl
  | e :: rest => congrArg₂ List.cons e.bare_reline (Expr.bareAll_relineAll rest)

end

theorem Expr.optionBare_reline (o : Option Expr) :
    (o.map (Expr.reline g)).map Expr.bare = (o.map Expr.bare).map (Expr.reline g) := by
  cases o with
  | none => rfl
  | some e => exact congrArg some (e.bare_reline g)

mutual

theorem Stmt.bare_reline : ∀ s : Stmt, (s.reline g).bare = s.bare.reline g
  | .expression e => congrArg Stmt.expression (e.bare_reline g)
  | .print _ e => congrArg (Stmt.print _) (e.bare_reline g)
  | .varDecl _ o => congrArg (Stmt.varDecl _) (Expr.optionBare_reline g o)
  | .block body => congrArg Stmt.block (Stmt.bareAll_relineAll body)
  | .ifElse c s o => by
    rw [Stmt.reline, Stmt.bare, Stmt.bare, Stmt.reline, c.bare_reline, s.bare_reline,
      Stmt.bareElse_relineElse o]
  | .whileLoop c s => congrArg₂ Stmt.whileLoop (c.bare_reline g) s.bare_reline
  | .funDecl f => congrArg Stmt.funDecl f.bare_reline
  | .ret _ o => congrArg (Stmt.ret _) (Expr.optionBare_reline g o)
  | .classDecl _ o methods =>
    congrArg₂ (Stmt.classDecl _) (Expr.optionBare_reline g o)
      (FunctionDecl.bareAll_relineAll methods)

theorem Stmt.bareAll_relineAll : ∀ ss : List Stmt,
    Stmt.bareAll (Stmt.relineAll g ss) = Stmt.relineAll g (Stmt.bareAll ss)
  | [] => rfl
  | s :: rest => congrArg₂ List.cons s.bare_reline (Stmt.bareAll_relineAll rest)

theorem Stmt.bareElse_relineElse : ∀ o : Option Stmt,
    Stmt.bareElse (Stmt.relineElse g o) = Stmt.relineElse g (Stmt.bareElse o)
  | none => rfl
  | some s => congrArg some s.bare_reline

theorem FunctionDecl.bare_reline : ∀ f : FunctionDecl, (f.reline g).bare = f.bare.reline g
  | ⟨_, _, body⟩ => congrArg (FunctionDecl.mk _ _) (Stmt.bareAll_relineAll body)

theorem FunctionDecl.bareAll_relineAll : ∀ fs : List FunctionDecl,
    FunctionDecl.bareAll (FunctionDecl.relineAll g fs) =
      FunctionDecl.relineAll g (FunctionDecl.bareAll fs)
  | [] => rfl
  | f :: rest => congrArg₂ List.cons f.bare_reline (FunctionDecl.bareAll_relineAll rest)

end

end

mutual

theorem Expr.reline_id : ∀ e : Expr, e.reline id = e
  | .literal _ => rfl
  | .grouping inner => congrArg Expr.grouping inner.reline_id
  | .unary _ right => congrArg (Expr.unary _) right.reline_id
  | .binary left _ right => congrArg₂ (Expr.binary · _ ·) left.reline_id right.reline_id
  | .logical left _ right => congrArg₂ (Expr.logical · _ ·) left.reline_id right.reline_id
  | .var .. => rfl
  | .assign _ _ value => congrArg (Expr.assign _ _) value.reline_id
  | .call callee _ arguments =>
    congrArg₂ (Expr.call · _ ·) callee.reline_id (Expr.relineAll_id arguments)
  | .get object _ => congrArg (Expr.get · _) object.reline_id
  | .set object _ value => congrArg₂ (Expr.set · _ ·) object.reline_id value.reline_id
  | .thisRef .. => rfl
  | .superRef .. => rfl

theorem Expr.relineAll_id : ∀ es : List Expr, Expr.relineAll id es = es
  | [] => rfl
  | e :: rest => congrArg₂ List.cons e.reline_id (Expr.relineAll_id rest)

end

theorem Expr.optionReline_id (o : Option Expr) : o.map (Expr.reline id) = o := by
  cases o with
  | none => rfl
  | some e => exact congrArg some e.reline_id

mutual

theorem Stmt.reline_id : ∀ s : Stmt, s.reline id = s
  | .expression e => congrArg Stmt.expression e.reline_id
  | .print _ e => congrArg (Stmt.print _) e.reline_id
  | .varDecl _ o => congrArg (Stmt.varDecl _) (Expr.optionReline_id o)
  | .block body => congrArg Stmt.block (Stmt.relineAll_id body)
  | .ifElse c s o => by
    rw [Stmt.reline, c.reline_id, s.reline_id, Stmt.relineElse_id o]
  | .whileLoop c s => congrArg₂ Stmt.whileLoop c.reline_id s.reline_id
  | .funDecl f => congrArg Stmt.funDecl f.reline_id
  | .ret _ o => congrArg (Stmt.ret _) (Expr.optionReline_id o)
  | .classDecl _ o methods =>
    congrArg₂ (Stmt.classDecl _) (Expr.optionReline_id o) (FunctionDecl.relineAll_id methods)

theorem Stmt.relineAll_id : ∀ ss : List Stmt, Stmt.relineAll id ss = ss
  | [] => rfl
  | s :: rest => congrArg₂ List.cons s.reline_id (Stmt.relineAll_id rest)

theorem Stmt.relineElse_id : ∀ o : Option Stmt, Stmt.relineElse id o = o
  | none => rfl
  | some s => congrArg some s.reline_id

theorem FunctionDecl.reline_id : ∀ f : FunctionDecl, f.reline id = f
  | ⟨_, params, body⟩ => congrArg₂ (FunctionDecl.mk _) (List.map_id params) (Stmt.relineAll_id body)

theorem FunctionDecl.relineAll_id : ∀ fs : List FunctionDecl, FunctionDecl.relineAll id fs = fs
  | [] => rfl
  | f :: rest => congrArg₂ List.cons f.reline_id (FunctionDecl.relineAll_id rest)

end

/-! ### Texts on other lines -/

namespace Grammar

/-- What is known of one token that stands on another line. -/
def Slot.reline (g : Nat → Nat) : Slot → Slot
  | kept t => kept (t.reline g)
  | filler k => filler k

end Grammar

section

open Grammar

variable (g : Nat → Nat)

mutual

theorem Expr.layout_reline : ∀ e : Expr, (e.reline g).layout = e.layout.map (Slot.reline g)
  | .literal _ => rfl
  | .grouping inner => by simp [reline, layout, inner.layout_reline, Slot.reline]
  | .unary _ right => by simp [reline, layout, right.layout_reline, Slot.reline]
  | .binary left _ right => by
    simp [reline, layout, left.layout_reline, right.layout_reline, Slot.reline]
  | .logical left _ right => by
    simp [reline, layout, left.layout_reline, right.layout_reline, Slot.reline]
  | .var .. => rfl
  | .assign _ _ value => by simp [reline, layout, value.layout_reline, Slot.reline]
  | .call callee _ arguments => by
    simp [reline, layout, callee.layout_reline, Expr.layoutAll_reline arguments, Slot.reline]
  | .get object _ => by simp [reline, layout, object.layout_reline, Slot.reline]
  | .set object _ value => by
    simp [reline, layout, object.layout_reline, value.layout_reline, Slot.reline]
  | .thisRef .. => rfl
  | .superRef .. => rfl

theorem Expr.layoutAll_reline : ∀ es : List Expr,
    layoutAll (relineAll g es) = (layoutAll es).map (Slot.reline g)
  | [] => rfl
  | [e] => by simp [relineAll, layoutAll, e.layout_reline]
  | e :: next :: rest => by
    have later := layoutAll_reline (next :: rest)
    simp only [relineAll] at later ⊢
    simp [layoutAll, e.layout_reline, later, Slot.reline]

end

theorem Expr.rank_reline (e : Expr) : (e.reline g).rank = e.rank := by
  cases e <;> rfl

theorem Expr.length_relineAll (es : List Expr) : (relineAll g es).length = es.length := by
  induction es with
  | nil => rfl
  | cons e rest ih => simp [relineAll, ih]

mutual

theorem Expr.respects_reline : ∀ e : Expr, (e.reline g).respects = e.respects
  | .literal _ => rfl
  | .grouping inner => by simp [reline, respects, inner.respects_reline]
  | .unary _ right => by simp [reline, respects, right.respects_reline, Expr.rank_reline]
  | .binary left operator right => by
    have whole := Expr.rank_reline g (.binary left operator right)
    simp only [reline] at whole
    simp [reline, respects, left.respects_reline, right.respects_reline, Expr.rank_reline,
      fitsBetween, whole]
  | .logical left operator right => by
    have whole := Expr.rank_reline g (.logical left operator right)
    simp only [reline] at whole
    simp [reline, respects, left.respects_reline, right.respects_reline, Expr.rank_reline,
      fitsBetween, whole]
  | .var .. => rfl
  | .assign _ _ value => by simp [reline, respects, value.respects_reline]
  | .call callee _ arguments => by
    simp [reline, respects, callee.respects_reline, Expr.rank_reline, Expr.length_relineAll,
      Expr.allRespect_reline arguments]
  | .get object _ => by simp [reline, respects, object.respects_reline, Expr.rank_reline]
  | .set object _ value => by
    simp [reline, respects, object.respects_reline, value.respects_reline, Expr.rank_reline]
  | .thisRef .. => rfl
  | .superRef .. => rfl

theorem Expr.allRespect_reline : ∀ es : List Expr, allRespect (relineAll g es) = allRespect es
  | [] => rfl
  | e :: rest => by simp [relineAll, allRespect, e.respects_reline, allRespect_reline rest]

end

end

namespace Grammar

variable (g : Nat → Nat) {w : List Token}

theorem Tight.reline {k : Nat} {e : Expr} (h : Tight k w e) :
    Tight k (w.map (Token.reline g)) (e.reline g) := by
  refine ⟨(e.respects_reline g).trans h.respects, (e.rank_reline g).symm ▸ h.rank, ?_⟩
  have spells : List.Forall₂ Slot.FilledBy e.layout w := h.spells
  show List.Forall₂ Slot.FilledBy (e.reline g).layout _
  rw [e.layout_reline g, List.forall₂_map_left_iff, List.forall₂_map_right_iff]
  refine spells.imp fun slot t filled => ?_
  cases slot with
  | kept u => exact congrArg (Token.reline g) filled
  | filler k => exact filled

theorem OptionalText.reline {o : Option Expr} (h : OptionalText w o) :
    OptionalText (w.map (Token.reline g)) (o.map (Expr.reline g)) := by
  rcases h with ⟨rfl, rfl⟩ | ⟨e, rfl, tight⟩
  · exact .inl ⟨rfl, rfl⟩
  · exact .inr ⟨_, rfl, tight.reline g⟩

theorem VariableText.reline {s : Stmt} (h : VariableText w s) :
    VariableText (w.map (Token.reline g)) (s.reline g) := by
  obtain ⟨keyword, name, v, semicolon, initializer, rfl, hkeyword, hname, text, hsemicolon, rfl⟩ :=
    h
  refine ⟨keyword.reline g, name.reline g, v.map (Token.reline g), semicolon.reline g,
    initializer.map (Expr.reline g), by simp, hkeyword, hname, ?_, hsemicolon, rfl⟩
  rcases text with ⟨rfl, rfl⟩ | ⟨equals, u, e, rfl, hequals, rfl, tight⟩
  · exact .inl ⟨rfl, rfl⟩
  · exact .inr ⟨equals.reline g, u.map (Token.reline g), _, rfl, hequals, rfl, tight.reline g⟩

theorem ExpressionText.reline {s : Stmt} (h : ExpressionText w s) :
    ExpressionText (w.map (Token.reline g)) (s.reline g) := by
  obtain ⟨v, semicolon, e, rfl, tight, hsemicolon, rfl⟩ := h
  exact ⟨_, semicolon.reline g, _, by simp, tight.reline g, hsemicolon, rfl⟩

theorem SuperclassText.reline {o : Option Expr} (h : SuperclassText w o) :
    SuperclassText (w.map (Token.reline g)) (o.map (Expr.reline g)) := by
  rcases h with ⟨rfl, rfl⟩ | ⟨less, name, node, rfl, hless, hname, rfl⟩
  · exact .inl ⟨rfl, rfl⟩
  · exact .inr ⟨less.reline g, name.reline g, node, rfl, hless, hname, rfl⟩

theorem ParametersText.reline {params : List Token} (h : ParametersText w params) :
    ParametersText (w.map (Token.reline g)) (params.map (Token.reline g)) := by
  obtain ⟨few, ⟨rfl, rfl⟩ | separated⟩ := h
  · exact ⟨few, .inl ⟨rfl, rfl⟩⟩
  · refine ⟨by rwa [List.length_map], .inr ?_⟩
    clear few
    induction separated with
    | @single w name text =>
      obtain ⟨rfl, hname⟩ := text
      exact .single ⟨rfl, hname⟩
    | @cons w v name names comma text hcomma _ ih =>
      obtain ⟨rfl, hname⟩ := text
      have item : NameText [name.reline g] (name.reline g) := ⟨rfl, hname⟩
      have whole : Separated NameText ([name.reline g] ++ comma.reline g :: v.map (Token.reline g))
          (name.reline g :: names.map (Token.reline g)) := .cons item hcomma ih
      exact whole

theorem forTree_reline (initializer : Option Stmt) (condition increment : Option Expr)
    (body : Stmt) : (forTree initializer condition increment body).reline g =
      forTree (initializer.map (Stmt.reline g)) (condition.map (Expr.reline g))
        (increment.map (Expr.reline g)) (body.reline g) := by
  cases initializer <;> cases condition <;> cases increment <;>
    simp [forTree, inSequence, Stmt.reline, Stmt.relineAll, Expr.reline]

theorem ForInitializerText.reline {o : Option Stmt} (h : ForInitializerText w o) :
    ForInitializerText (w.map (Token.reline g)) (o.map (Stmt.reline g)) := by
  rcases h with ⟨semicolon, rfl, hsemicolon, rfl⟩ | ⟨s, rfl, text | text⟩
  · exact .inl ⟨semicolon.reline g, rfl, hsemicolon, rfl⟩
  · exact .inr ⟨_, rfl, .inl (text.reline g)⟩
  · exact .inr ⟨_, rfl, .inr (text.reline g)⟩

/-- A phrase with its tokens on other lines. -/
def Phrase.reline : Phrase → Phrase
  | .statement d s => .statement d (s.reline g)
  | .declaration d s => .declaration d (s.reline g)
  | .declarations ss => .declarations (Stmt.relineAll g ss)
  | .function f => .function (f.reline g)
  | .functions fs => .functions (FunctionDecl.relineAll g fs)

theorem Phrase.Spells.reline {p : Phrase} (h : p.Spells w) :
    (p.reline g).Spells (w.map (Token.reline g)) := by
  -- on the phrase: whether tokens spell it does not depend on their lines
  induction h with
  | expression text => exact .expression (text.reline g)
  | print hkeyword tight hsemicolon =>
    rw [List.map_append]
    exact .print hkeyword (tight.reline g) hsemicolon
  | ret hkeyword text hsemicolon =>
    rw [List.map_append]
    exact .ret hkeyword (text.reline g) hsemicolon
  | block hl _ hr ih =>
    rw [List.map_append]
    exact .block hl ih hr
  | ifThen hkeyword hl tight hr _ ih =>
    rw [List.map_append]
    exact .ifThen hkeyword hl (tight.reline g) hr ih
  | ifElse hkeyword hl tight hr _ hword _ ih ih' =>
    rw [List.map_append, List.map_append]
    exact .ifElse hkeyword hl (tight.reline g) hr ih hword ih'
  | whileLoop hkeyword hl tight hr _ ih =>
    rw [List.map_append]
    exact .whileLoop hkeyword hl (tight.reline g) hr ih
  | forLoop hkeyword hl hi hc hsemicolon hn hr _ ih =>
    rw [List.map_append, List.map_append, List.map_append]
    show (Phrase.statement _ _).Spells _
    rw [forTree_reline]
    exact .forLoop hkeyword hl (hi.reline g) (hc.reline g) hsemicolon (hn.reline g) hr ih
  | statement _ ih => exact .statement ih
  | varDecl text => exact .varDecl (text.reline g)
  | funDecl hkeyword _ ih => exact .funDecl hkeyword ih
  | classDecl hkeyword hname text hl _ hr ih =>
    rw [List.map_append, List.map_append]
    exact .classDecl hkeyword hname (text.reline g) hl ih hr
  | noDeclarations => exact .noDeclarations
  | declarations _ _ ih ih' =>
    rw [List.map_append]
    exact .declarations ih ih'
  | function hname hl text hr hb _ he ih =>
    rw [List.map_append, List.map_append]
    exact .function hname hl (text.reline g) hr hb ih he
  | noFunctions => exact .noFunctions
  | functions _ _ ih ih' =>
    rw [List.map_append]
    exact .functions ih ih'

theorem Phrase.Spells.append {ss ss' : List Stmt} {v : List Token}
    (h : (Phrase.declarations ss).Spells w) (h' : (Phrase.declarations ss').Spells v) :
    (Phrase.declarations (ss ++ ss')).Spells (w ++ v) := by
  induction ss generalizing w with
  | nil =>
    cases h with
    | noDeclarations => exact h'
  | cons s rest ih =>
    cases h with
    | declarations first later =>
      rw [List.append_assoc]
      exact .declarations first (ih later)

theorem bareAll_append (ss ss' : List Stmt) :
    Stmt.bareAll (ss ++ ss') = Stmt.bareAll ss ++ Stmt.bareAll ss' := by
  induction ss with
  | nil => rfl
  | cons s rest ih => exact congrArg (s.bare :: ·) ih

/-- Two programs one after the other, the second one on other lines, are read as the
    statements of the one and then those of the other. -/
theorem readProgram_append {fresh fresh₁ fresh₂ : NodeId} {tokens tokens₁ tokens₂ : List Token}
    (joined : bodyOf tokens = bodyOf tokens₁ ++ (bodyOf tokens₂).map (Token.reline g))
    (quiet₁ : (readProgram fresh₁ tokens₁).errors = [])
    (quiet₂ : (readProgram fresh₂ tokens₂).errors = []) :
    (readProgram fresh tokens).errors = [] ∧
      Stmt.bareAll (readProgram fresh tokens).value =
        Stmt.bareAll ((readProgram fresh₁ tokens₁).value ++
          Stmt.relineAll g (readProgram fresh₂ tokens₂).value) := by
  obtain ⟨tree₁, spells₁, same₁⟩ := spells_of_readProgram quiet₁
  obtain ⟨tree₂, spells₂, same₂⟩ := spells_of_readProgram quiet₂
  have spells : (Phrase.declarations (tree₁ ++ Stmt.relineAll g tree₂)).Spells
      (bodyOf tokens) := by
    rw [joined]
    exact spells₁.append (spells₂.reline g)
  rw [bareAll_append, same₁, Stmt.bareAll_relineAll, same₂, ← Stmt.bareAll_relineAll,
    ← bareAll_append]
  exact readProgram_of_spells fresh spells

end Grammar

end Lox
