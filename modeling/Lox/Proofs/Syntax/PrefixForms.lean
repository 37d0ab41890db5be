import Lox.Proofs.Mirror.Copies
import Lox.Proofs.Syntax.Forms
import Lox.Syntax.PrefixForm

/-! # The prefix form tells trees apart

  The prefix form of an expression is the text of a form (`Expr.form`), and the form tells what
  the tree is, up to what it does not show: the identities of nodes, the lines of tokens, and of
  a number all but its text (`Expr.shown`). The tree is read back from the form one list at a
  time, by the head word and the number of parts (`Form.tree`).

  This holds of trees whose tokens are spelled by the lexical rules, and without strings: the
  text of a string may be that of any other expression.
-/

namespace Lox

open Lexical

/-! ### Texts of numbers -/

/-- Whether a double stands for a number. -/
def Number.isFinite (x : Float) : Bool :=
  match Number.read x with
  | .finite .. => true
  | _ => false

/-- Characters that the text of a number is made of. -/
def isFigure (c : Char) : Bool :=
  isDigit c || c == '.' || c == '-'

/-- Whether all characters of a text are figures. -/
def OnlyFigures (text : List Char) : Prop :=
  ∀ c ∈ text, isFigure c = true

theorem OnlyFigures.append {a b : List Char} (ha : OnlyFigures a) (hb : OnlyFigures b) :
    OnlyFigures (a ++ b) :=
  List.forall_mem_append.mpr ⟨ha, hb⟩

namespace Number

theorem toList_toString (n : Nat) : (toString n).toList = Nat.toDigits 10 n :=
  String.toList_ofList

theorem digits_figures (n : Nat) : OnlyFigures (toString n).toList := by
  intro c mem
  rw [toList_toString] at mem
  have digit : isDigit c = true := Nat.isDigit_of_mem_toDigits (by decide) (by decide) mem
  rw [isFigure, digit]
  rfl

theorem digits_ne_nil (n : Nat) : (toString n).toList ≠ [] := by
  rw [toList_toString]
  exact Nat.toDigits_ne_nil

theorem signText_figures (negative : Bool) : OnlyFigures (signText negative).toList := by
  cases negative with
  | false => exact List.forall_mem_nil _
  | true => exact List.forall_mem_singleton.mpr rfl

theorem zeros_figures (n : Nat) : OnlyFigures (zeros n).toList := by
  intro c mem
  rw [zeros, String.toList_ofList] at mem
  rw [List.eq_of_mem_replicate mem]
  rfl

theorem point_figures : OnlyFigures ['.'] :=
  List.forall_mem_singleton.mpr rfl

theorem zero_figures : OnlyFigures ['0'] :=
  List.forall_mem_singleton.mpr rfl

theorem positional_figures (d : Decimal) :
    d.positional.toList ≠ [] ∧ OnlyFigures d.positional.toList := by
  have digits := digits_figures d.digits
  have some := digits_ne_nil d.digits
  unfold Decimal.positional Decimal.digitsAndPoint
  generalize (toString d.digits).toList = ds at digits some
  dsimp only
  -- all digits behind the point, all in front of it, or some on either side
  by_cases small : (ds.length : Int) + d.exponent ≤ 0
  · rw [if_pos small]
    simp only [String.toList_append, String.toList_ofList]
    exact ⟨List.append_ne_nil_of_right_ne_nil _ some,
      ((zero_figures.append point_figures).append (zeros_figures _)).append digits⟩
  rw [if_neg small]
  by_cases whole : (ds.length : Int) ≤ ds.length + d.exponent
  · rw [if_pos whole]
    simp only [String.toList_append, String.toList_ofList]
    exact ⟨List.append_ne_nil_of_left_ne_nil some _, digits.append (zeros_figures _)⟩
  · rw [if_neg whole]
    simp only [String.toList_append, String.toList_ofList]
    refine ⟨?_, ?_⟩
    · exact List.append_ne_nil_of_left_ne_nil
        (List.append_ne_nil_of_right_ne_nil _ (List.cons_ne_nil '.' [])) _
    · have before : OnlyFigures (ds.take (ds.length + d.exponent).toNat) :=
        fun c mem => digits c (List.mem_of_mem_take mem)
      exact (before.append point_figures).append fun c mem => digits c (List.mem_of_mem_drop mem)

/-- The text of a number is made of figures. -/
theorem numberText_figures {x : Float} (finite : isFinite x = true) :
    (Literal.numberText x).toList ≠ [] ∧ OnlyFigures (Literal.numberText x).toList := by
  unfold Literal.numberText
  cases whole? x with
  | some w =>
    simp only [Whole.text, String.toList_append]
    refine ⟨List.append_ne_nil_of_right_ne_nil _ (List.cons_ne_nil '.' ['0']), ?_⟩
    exact ((signText_figures _).append (digits_figures _)).append
      (point_figures.append zero_figures)
  | none =>
    unfold isFinite at finite
    unfold plain
    cases hread : read x with
    | finite negative significand exponent =>
      obtain ⟨some, figures⟩ := positional_figures (shortest .up significand exponent)
      simp only [String.toList_append]
      exact ⟨List.append_ne_nil_of_right_ne_nil _ some, (signText_figures _).append figures⟩
    | _ =>
      rw [hread] at finite
      cases finite

end Number

/-! ### Words of the language -/

/-- Whether the lexical rules spell a token as it is. -/
def Written (t : Token) : Prop :=
  Lexeme t.kind t.lexeme.toList

theorem Written.keyword {t : Token} {k : Keyword} (written : Written t)
    (kind : t.kind = .keyword k) : t.lexeme = k.spelling := by
  unfold Written at written
  rw [kind] at written
  generalize h : t.lexeme.toList = text at written
  cases written
  exact String.toList_inj.mp h

theorem Written.punctuator {t : Token} {p : Punctuator} (written : Written t)
    (kind : t.kind = .punctuator p) : t.lexeme = p.spelling := by
  unfold Written at written
  rw [kind] at written
  generalize h : t.lexeme.toList = text at written
  cases written
  exact String.toList_inj.mp h

/-- A name starts like one, goes on like one and is no keyword. -/
theorem Written.name {t : Token} (written : Written t) (kind : t.kind = .identifier) :
    (∃ c rest, t.lexeme.toList = c :: rest ∧ isNameStart c = true ∧
      ∀ d ∈ rest, isNamePart d = true) ∧ ∀ k : Keyword, t.lexeme ≠ k.spelling := by
  unfold Written at written
  rw [kind] at written
  generalize h : t.lexeme.toList = text at written
  cases written with
  | @name c rest start parts other =>
    refine ⟨⟨c, rest, rfl, start, parts⟩, ?_⟩
    rwa [← h, String.ofList_toList] at other

/-- A class of characters without the space and the parentheses. -/
theorem isPlain_of_class {p : Char → Bool} (space : p ' ' = false) (left : p '(' = false)
    (right : p ')' = false) {c : Char} (h : p c = true) : Form.isPlain c = true := by
  have other : ∀ d, p d = false → c ≠ d := by
    rintro d no rfl
    exact Bool.false_ne_true (no.symm.trans h)
  simp [Form.isPlain, other ' ' space, other '(' left, other ')' right]

theorem isPlain_of_namePart {c : Char} (part : isNamePart c = true) : Form.isPlain c = true :=
  isPlain_of_class rfl rfl rfl part

theorem isPlain_of_figure {c : Char} (figure : isFigure c = true) : Form.isPlain c = true :=
  isPlain_of_class rfl rfl rfl figure

theorem isWord_name {t : Token} (written : Written t) (kind : t.kind = .identifier) :
    Form.IsWord t.lexeme := by
  obtain ⟨⟨c, rest, spelled, start, parts⟩, _⟩ := written.name kind
  unfold Form.IsWord
  rw [spelled]
  refine ⟨List.cons_ne_nil c rest, List.forall_mem_cons.mpr ⟨?_, ?_⟩⟩
  · exact isPlain_of_namePart (by rw [isNamePart, start]; rfl)
  · exact fun d mem => isPlain_of_namePart (parts d mem)

theorem isWord_keyword (k : Keyword) : Form.IsWord k.spelling := by
  refine ⟨?_, fun c mem => isPlain_of_namePart (spelling_nameParts k c mem)⟩
  cases k <;> decide

/-! ### What the prefix form shows -/

/-- A constant as it is shown: of a number, its text only. -/
def Literal.shown : Literal → Literal
  | .number x => .string (numberText x)
  | value => value

/-- A token without its line. -/
def Token.shown (t : Token) : Token :=
  { t with line := 0 }

mutual

/-- A tree without what its prefix form does not show: the identities of nodes, the lines of
    tokens, and of numbers all but their texts, which stand in their place. -/
def Expr.shown : Expr → Expr
  | .literal value => .literal value.shown
  | .grouping inner => .grouping inner.shown
  | .unary operator right => .unary operator.shown right.shown
  | .binary left operator right => .binary left.shown operator.shown right.shown
  | .logical left operator right => .logical left.shown operator.shown right.shown
  | .var _ name => .var 0 name.shown
  | .assign _ name value => .assign 0 name.shown value.shown
  | .call callee paren arguments => .call callee.shown paren.shown (Expr.allShown arguments)
  | .get object name => .get object.shown name.shown
  | .set object name value => .set object.shown name.shown value.shown
  | .thisRef _ keyword => .thisRef 0 keyword.shown
  | .superRef _ keyword method => .superRef 0 keyword.shown method.shown

/-- Trees without what their prefix forms do not show. -/
def Expr.allShown : List Expr → List Expr
  | [] => []
  | e :: rest => e.shown :: Expr.allShown rest

end

mutual

/-- The constants of an expression. -/
def Expr.literals : Expr → List Literal
  | .literal value => [value]
  | .grouping inner => inner.literals
  | .unary _ right => right.literals
  | .binary left _ right => left.literals ++ right.literals
  | .logical left _ right => left.literals ++ right.literals
  | .var _ _ => []
  | .assign _ _ value => value.literals
  | .call callee _ arguments => callee.literals ++ Expr.allLiterals arguments
  | .get object _ => object.literals
  | .set object _ value => object.literals ++ value.literals
  | .thisRef _ _ => []
  | .superRef _ _ _ => []

/-- The constants of some expressions. -/
def Expr.allLiterals : List Expr → List Literal
  | [] => []
  | e :: rest => e.literals ++ Expr.allLiterals rest

end

/-- Whether a constant is no string, and finite if it is a number. -/
def Literal.isPlain : Literal → Bool
  | .number x => Number.isFinite x
  | .string _ => false
  | _ => true

/-! ### Forms of expressions -/

mutual

/-- The form of an expression. -/
def Expr.form : Expr → Form
  | .literal value => .word value.text
  | .grouping inner => .node "group" [inner.form]
  | .unary operator right => .node operator.lexeme [right.form]
  | .binary left operator right => .node operator.lexeme [left.form, right.form]
  | .logical left operator right => .node operator.lexeme [left.form, right.form]
  | .var _ name => .word name.lexeme
  | .assign _ name value => .node "=" [.word name.lexeme, value.form]
  | .call callee _ arguments => .node "call" (callee.form :: Expr.forms arguments)
  | .get object name => .node "." [object.form, .word name.lexeme]
  | .set object name value =>
    .node "=" [.node "." [object.form, .word name.lexeme], value.form]
  | .thisRef _ _ => .word "this"
  | .superRef _ _ method => .node "super" [.word method.lexeme]

/-- The forms of some expressions. -/
def Expr.forms : List Expr → List Form
  | [] => []
  | e :: rest => e.form :: Expr.forms rest

end

mutual

/-- The prefix form of an expression is the text of its form. -/
theorem Expr.toList_prefixForm : ∀ e : Expr, e.prefixForm.toList = e.form.text
  | .literal _ => rfl
  | .grouping inner => by
    simp [prefixForm, form, Form.text, Form.textAll, toList_prefixForm inner]
  | .unary _ right => by
    simp [prefixForm, form, Form.text, Form.textAll, toList_prefixForm right]
  | .binary left _ right => by
    simp [prefixForm, form, Form.text, Form.textAll, toList_prefixForm left,
      toList_prefixForm right]
  | .logical left _ right => by
    simp [prefixForm, form, Form.text, Form.textAll, toList_prefixForm left,
      toList_prefixForm right]
  | .var _ _ => rfl
  | .assign _ _ value => by
    simp [prefixForm, form, Form.text, Form.textAll, toList_prefixForm value]
  | .call callee _ arguments => by
    simp [prefixForm, form, Form.text, Form.textAll, toList_prefixForm callee,
      toList_argumentsForm arguments]
  | .get object _ => by
    simp [prefixForm, form, Form.text, Form.textAll, toList_prefixForm object]
  | .set object _ value => by
    simp [prefixForm, form, Form.text, Form.textAll, toList_prefixForm object,
      toList_prefixForm value]
  | .thisRef _ _ => rfl
  | .superRef _ _ _ => by
    simp [prefixForm, form, Form.text, Form.textAll]

theorem Expr.toList_argumentsForm : ∀ es : List Expr,
    (argumentsForm es).toList = Form.textAll (Expr.forms es)
  | [] => rfl
  | e :: rest => by
    simp [argumentsForm, forms, Form.textAll, toList_prefixForm e, toList_argumentsForm rest]

end

/-! ### Reading a form back -/

/-- The kind of operator with a spelling. -/
def operatorKind (word : String) : TokenKind :=
  match Keyword.ofSpelling? word with
  | some k => .keyword k
  | none =>
    match Punctuator.all.find? (·.spelling == word) with
    | some p => .punctuator p
    | none => .identifier

/-- The tree that a word shows. -/
def wordTree (word : String) : Expr :=
  if word.toList.head?.any isNameStart then
    match Keyword.ofSpelling? word with
    | some .nilWord => .literal .nil
    | some .trueWord => .literal (.bool true)
    | some .falseWord => .literal (.bool false)
    | some k => .thisRef 0 ⟨.keyword k, word, 0⟩
    | none => .var 0 ⟨.identifier, word, 0⟩
  else .literal (.string word)

/-- The tree that a list shows whose parts show the given trees. -/
def listTree : String → List Expr → Expr
  | "group", [inner] => .grouping inner
  | "call", callee :: arguments => .call callee ⟨.punctuator .rightParen, ")", 0⟩ arguments
  | ".", [object, .var _ name] => .get object name
  | "=", [.var _ name, value] => .assign 0 name value
  | "=", [.get object name, value] => .set object name value
  | "super", [.var _ method] => .superRef 0 ⟨.keyword .superWord, "super", 0⟩ method
  | operator, [right] => .unary ⟨operatorKind operator, operator, 0⟩ right
  | operator, [left, right] =>
    match operatorKind operator with
    | .keyword k => .logical left ⟨.keyword k, operator, 0⟩ right
    | kind => .binary left ⟨kind, operator, 0⟩ right
  | _, _ => .literal .nil

mutual

/-- The tree that a form shows. -/
def Form.tree : Form → Expr
  | .word w => wordTree w
  | .node head parts => listTree head (Form.trees parts)

/-- The trees that some forms show. -/
def Form.trees : List Form → List Expr
  | [] => []
  | part :: rest => part.tree :: Form.trees rest

end

/-! ### Words are read back -/

theorem wordTree_name {t : Token} (written : Written t) (kind : t.kind = .identifier) :
    wordTree t.lexeme = .var 0 t.shown := by
  obtain ⟨⟨c, rest, spelled, start, _⟩, other⟩ := written.name kind
  have unknown : Keyword.ofSpelling? t.lexeme = none := by
    refine List.find?_eq_none.mpr fun k _ same => ?_
    exact other k (beq_iff_eq.mp same).symm
  have starts : t.lexeme.toList.head?.any isNameStart = true := by
    rw [spelled]
    exact start
  unfold wordTree Token.shown
  rw [if_pos starts, unknown, kind]

theorem not_nameStart_of_figure {c : Char} (figure : isFigure c = true) :
    isNameStart c = false := by
  unfold isFigure at figure
  simp only [Bool.or_eq_true, beq_iff_eq] at figure
  rcases figure with (digit | rfl) | rfl
  · exact isNameStart_of_digit digit
  · rfl
  · rfl

theorem wordTree_figures {word : String} (figures : OnlyFigures word.toList) :
    wordTree word = .literal (.string word) := by
  have starts : ¬word.toList.head?.any isNameStart = true := by
    cases h : word.toList with
    | nil => exact Bool.false_ne_true
    | cons c rest =>
      have first := not_nameStart_of_figure (figures c (h ▸ List.mem_cons_self ..))
      simp [first]
  unfold wordTree
  rw [if_neg starts]

theorem wordTree_literal {value : Literal} (plain : value.isPlain = true) :
    wordTree value.text = .literal value.shown := by
  cases value with
  | nil => rfl
  | bool b => cases b <;> rfl
  | number x => exact wordTree_figures (Number.numberText_figures plain).2
  | string => cases plain

/-! ### Lists are read back -/

open Grammar

theorem listTree_unary {operator : Token} (written : Written operator)
    (before : isPrefixOperator operator.kind = true) (right : Expr) :
    listTree operator.lexeme [right] = .unary operator.shown right := by
  unfold Token.shown
  have kinds : operator.kind = .punctuator .bang ∨ operator.kind = .punctuator .minus := by
    simpa [isPrefixOperator] using before
  rcases kinds with kind | kind
  · rw [written.punctuator kind, kind]
    rfl
  · rw [written.punctuator kind, kind]
    rfl

theorem listTree_binary {operator : Token} (written : Written operator)
    (tight : 3 ≤ (precedence? operator.kind).getD 0) (left right : Expr) :
    listTree operator.lexeme [left, right] = .binary left operator.shown right := by
  unfold Token.shown
  cases kind : operator.kind with
  | punctuator p =>
    rw [kind] at tight
    rw [written.punctuator kind]
    cases p <;> first | rfl | exact absurd tight (by decide)
  | keyword k =>
    rw [kind] at tight
    cases k <;> exact absurd tight (by decide)
  | _ =>
    rw [kind] at tight
    exact absurd tight (by simp [precedence?])

theorem listTree_logical {operator : Token} (written : Written operator) {p : Nat}
    (joins : precedence? operator.kind = some p) (loose : p ≤ 2) (left right : Expr) :
    listTree operator.lexeme [left, right] = .logical left operator.shown right := by
  unfold Token.shown
  cases kind : operator.kind with
  | keyword k =>
    rw [kind] at joins
    rw [written.keyword kind]
    cases k <;> first | rfl | cases joins
  | punctuator q =>
    rw [kind] at joins
    cases q <;> simp only [precedence?, Option.some.injEq, reduceCtorEq] at joins <;> omega
  | _ =>
    rw [kind] at joins
    cases joins

theorem isWord_operator {operator : Token} (written : Written operator)
    (operates : isPrefixOperator operator.kind = true ∨ (precedence? operator.kind).isSome) :
    Form.IsWord operator.lexeme := by
  cases kind : operator.kind with
  | punctuator p =>
    rw [kind] at operates
    rw [written.punctuator kind]
    have plain : ∀ c ∈ p.spelling.toList, Form.isPlain c = true := by
      apply List.all_eq_true.mp
      cases p <;> first | rfl | exact absurd operates (by decide)
    exact ⟨by cases p <;> decide, plain⟩
  | keyword k =>
    rw [written.keyword kind]
    exact isWord_keyword k
  | _ =>
    rw [kind] at operates
    simp [isPrefixOperator, precedence?] at operates

theorem isWord_literal {value : Literal} (plain : value.isPlain = true) :
    Form.IsWord value.text := by
  cases value with
  | nil => exact isWord_keyword .nilWord
  | bool b =>
    cases b with
    | false => exact isWord_keyword .falseWord
    | true => exact isWord_keyword .trueWord
  | number x =>
    obtain ⟨some, figures⟩ := Number.numberText_figures plain
    exact ⟨some, fun c mem => isPlain_of_figure (figures c mem)⟩
  | string => cases plain

theorem isWord_of_all {w : String}
    (check : (!w.toList.isEmpty && w.toList.all Form.isPlain) = true) : Form.IsWord w := by
  simpa [Form.IsWord] using check

/-! ### Forms of expressions are read back -/

/-- An operator between two operands, binary or logical, and the trees of the operands. -/
theorem tree_operation {operator : Token} {p : Nat} {left right : Expr}
    (written : Written operator) (joins : precedence? operator.kind = some p)
    (hl : left.form.Legible ∧ left.form.tree = left.shown)
    (hr : right.form.Legible ∧ right.form.tree = right.shown) :
    (Form.node operator.lexeme [left.form, right.form]).Legible ∧
      (Form.node operator.lexeme [left.form, right.form]).tree =
        listTree operator.lexeme [left.shown, right.shown] := by
  have joined : (precedence? operator.kind).isSome := by
    rw [joins]
    rfl
  refine ⟨⟨isWord_operator written (.inr joined), hl.1, hr.1, trivial⟩, ?_⟩
  show listTree operator.lexeme [left.form.tree, right.form.tree] = _
  rw [hl.2, hr.2]

/-- A property of an object, read or written, and the tree of the object. -/
theorem tree_property {object : Expr} {name : Token} (written : Written name)
    (kind : name.kind = .identifier)
    (h : object.form.Legible ∧ object.form.tree = object.shown) :
    (Form.node "." [object.form, .word name.lexeme]).Legible ∧
      (Form.node "." [object.form, .word name.lexeme]).tree = .get object.shown name.shown := by
  refine ⟨⟨isWord_of_all rfl, h.1, isWord_name written kind, trivial⟩, ?_⟩
  show listTree "." [object.form.tree, wordTree name.lexeme] = _
  rw [h.2, wordTree_name written kind]
  rfl

section

variable {node : NodeId} {name paren : Token} {object value callee : Expr} {arguments : List Expr}

theorem kind_of_assign (made : (Expr.assign node name value).respects = true) :
    name.kind = .identifier := by
  simp only [Expr.respects, Bool.and_eq_true, beq_iff_eq] at made
  exact made.1

theorem kind_of_get (made : (Expr.get object name).respects = true) : name.kind = .identifier := by
  simp only [Expr.respects, Bool.and_eq_true, beq_iff_eq] at made
  exact made.2

theorem kind_of_set (made : (Expr.set object name value).respects = true) :
    name.kind = .identifier := by
  simp only [Expr.respects, Bool.and_eq_true, beq_iff_eq] at made
  exact made.1.2

theorem kind_of_call (made : (Expr.call callee paren arguments).respects = true) :
    paren.kind = .punctuator .rightParen := by
  simp only [Expr.respects, Bool.and_eq_true, beq_iff_eq] at made
  exact made.1.1.2

end

mutual

/-- The form of an expression is legible and shows what is shown of the expression. -/
theorem Expr.tree_form : ∀ e : Expr, e.Over Written →
    (∀ value ∈ e.literals, value.isPlain = true) → e.form.Legible ∧ e.form.tree = e.shown
  | .literal value, _, plain => by
    have own := plain value (List.mem_singleton_self _)
    exact ⟨isWord_literal own, wordTree_literal own⟩
  | .grouping inner, made, plain => by
    obtain ⟨legible, tree⟩ := tree_form inner (over_grouping made) plain
    refine ⟨⟨isWord_of_all rfl, legible, trivial⟩, ?_⟩
    show listTree "group" [inner.form.tree] = _
    rw [tree]
    rfl
  | .unary operator right, made, plain => by
    have before : isPrefixOperator operator.kind = true := by
      have := made.1
      simp only [respects, Bool.and_eq_true] at this
      exact this.1.1
    obtain ⟨written, madeRight⟩ := over_unary made
    obtain ⟨legible, tree⟩ := tree_form right madeRight plain
    refine ⟨⟨isWord_operator written (.inl before), legible, trivial⟩, ?_⟩
    show listTree operator.lexeme [right.form.tree] = _
    rw [tree]
    exact listTree_unary written before _
  | .binary left operator right, made, plain => by
    have ranks := made.1
    simp only [respects, Bool.and_eq_true, decide_eq_true_eq] at ranks
    obtain ⟨madeLeft, written, madeRight⟩ := over_binary made
    obtain ⟨plainLeft, plainRight⟩ := List.forall_mem_append.mp plain
    obtain ⟨legible, tree⟩ := tree_operation written (precedence_of_fitsBetween ranks.1.1.1)
      (tree_form left madeLeft plainLeft) (tree_form right madeRight plainRight)
    exact ⟨legible, tree.trans (listTree_binary written ranks.1.1.2 _ _)⟩
  | .logical left operator right, made, plain => by
    have ranks := made.1
    simp only [respects, Bool.and_eq_true, decide_eq_true_eq] at ranks
    have joins := precedence_of_fitsBetween ranks.1.1.1
    obtain ⟨madeLeft, written, madeRight⟩ := over_logical made
    obtain ⟨plainLeft, plainRight⟩ := List.forall_mem_append.mp plain
    obtain ⟨legible, tree⟩ := tree_operation written joins (tree_form left madeLeft plainLeft)
      (tree_form right madeRight plainRight)
    exact ⟨legible, tree.trans (listTree_logical written joins ranks.1.1.2 _ _)⟩
  | .var node name, made, _ => by
    have kind : name.kind = .identifier := beq_iff_eq.mp made.1
    exact ⟨isWord_name (over_var made) kind, wordTree_name (over_var made) kind⟩
  | .assign node name value, made, plain => by
    have kind := kind_of_assign made.1
    obtain ⟨written, madeValue⟩ := over_assign made
    obtain ⟨legible, tree⟩ := tree_form value madeValue plain
    refine ⟨⟨isWord_of_all rfl, isWord_name written kind, legible, trivial⟩, ?_⟩
    show listTree "=" [wordTree name.lexeme, value.form.tree] = _
    rw [tree, wordTree_name written kind]
    rfl
  | .call callee paren arguments, made, plain => by
    have kind := kind_of_call made.1
    obtain ⟨madeCallee, madeAll, written⟩ := over_call made
    obtain ⟨plainCallee, plainArguments⟩ := List.forall_mem_append.mp plain
    obtain ⟨legible, tree⟩ := tree_form callee madeCallee plainCallee
    obtain ⟨legible', trees⟩ := trees_forms arguments madeAll plainArguments
    refine ⟨⟨isWord_of_all rfl, legible, legible'⟩, ?_⟩
    show listTree "call" (callee.form.tree :: Form.trees (forms arguments)) = _
    rw [tree, trees, shown, Token.shown, kind, written.punctuator kind]
    rfl
  | .get object name, made, plain => by
    obtain ⟨madeObject, written⟩ := over_get made
    exact tree_property written (kind_of_get made.1) (tree_form object madeObject plain)
  | .set object name value, made, plain => by
    obtain ⟨madeObject, written, madeValue⟩ := over_set made
    obtain ⟨plainObject, plainValue⟩ := List.forall_mem_append.mp plain
    obtain ⟨property, tree⟩ := tree_property written (kind_of_set made.1)
      (tree_form object madeObject plainObject)
    obtain ⟨legible, tree'⟩ := tree_form value madeValue plainValue
    refine ⟨⟨isWord_of_all rfl, property, legible, trivial⟩, ?_⟩
    show listTree "=" [Form.tree (.node "." _), value.form.tree] = _
    rw [tree, tree']
    rfl
  | .thisRef node keyword, made, _ => by
    obtain ⟨written, kind⟩ := over_thisRef made
    refine ⟨isWord_keyword .thisWord, ?_⟩
    rw [shown, Token.shown, kind, written.keyword kind]
    rfl
  | .superRef node keyword method, made, _ => by
    have kinds := made.1
    simp only [respects, Bool.and_eq_true, beq_iff_eq] at kinds
    obtain ⟨⟨written, kind⟩, written'⟩ := over_superRef made
    have word : keyword.shown = ⟨.keyword .superWord, "super", 0⟩ := by
      rw [Token.shown, kind, written.keyword kind]
      rfl
    refine ⟨⟨isWord_of_all rfl, isWord_name written' kinds.2, trivial⟩, ?_⟩
    show listTree "super" [wordTree method.lexeme] = _
    rw [wordTree_name written' kinds.2, shown, word]
    rfl

theorem Expr.trees_forms : ∀ es : List Expr, (∀ e ∈ es, e.Over Written) →
    (∀ value ∈ allLiterals es, value.isPlain = true) →
    Form.AllLegible (forms es) ∧ Form.trees (forms es) = allShown es
  | [], _, _ => ⟨trivial, rfl⟩
  | e :: rest, made, plain => by
    obtain ⟨first, later⟩ := List.forall_mem_cons.mp made
    obtain ⟨plainFirst, plainLater⟩ := List.forall_mem_append.mp plain
    obtain ⟨legible, tree⟩ := tree_form e first plainFirst
    obtain ⟨legible', trees⟩ := trees_forms rest later plainLater
    refine ⟨⟨legible, legible'⟩, ?_⟩
    show e.form.tree :: Form.trees (forms rest) = _
    rw [tree, trees]
    rfl

end

/-! ### Trees of scanned texts -/

theorem itemsFrom_written (ss : List Span) (stand : AllStand ss) : ∀ line t,
    .token t ∈ itemsFrom line ss → t.kind ≠ .eof → Written t := by
  -- on the spans: only a lexeme becomes a token, and the token at the end has no text
  induction ss with
  | nil =>
    intro line t mem inside
    cases List.mem_singleton.mp mem
    exact absurd rfl inside
  | cons span rest ih =>
    intro line t mem inside
    have later := ih stand.2 (line + span.newlines) t
    rw [itemsFrom] at mem
    cases span with
    | lexeme kind text =>
      rcases List.mem_cons.mp mem with own | mem
      · cases own
        have lexeme : Lexeme kind text := stand.1.1.1
        rwa [Written, String.toList_ofList]
      · exact later mem inside
    | stray c =>
      rcases List.mem_cons.mp mem with own | mem
      · cases own
      · exact later mem inside
    | openString text =>
      rcases List.mem_cons.mp mem with own | mem
      · cases own
      · exact later mem inside
    | blank c => exact later mem inside
    | comment text => exact later mem inside

/-- Every token of a text but the one at its end is spelled by the lexical rules. -/
theorem written_of_mem_tokens {source : String} {t : Token} (mem : t ∈ tokens source)
    (inside : t.kind ≠ .eof) : Written t := by
  obtain ⟨item, reported, same⟩ := List.mem_filterMap.mp mem
  cases item with
  | fault => cases same
  | token u =>
    cases same
    exact itemsFrom_written _ (spans_stand source.toList) 1 t reported inside

theorem over_of_readExpression {fresh : NodeId} {source : String} {e : Expr}
    (read : (readExpression fresh (tokens source)).value = some e) : e.Over Written := by
  obtain ⟨text, s, _, split, tight⟩ := tight_of_readExpression read
  refine tight.over fun t mem => ?_
  have before : t ∈ bodyOf (tokens source) := by
    rw [split]
    exact List.mem_append_left _ mem
  refine written_of_mem_tokens ((List.takeWhile_sublist _).subset before) ?_
  intro kind
  have inside := List.mem_takeWhile_imp before
  rw [Token.isEof, kind] at inside
  cases inside

mutual

/-- Nothing but what is shown of an expression matters to its prefix form. -/
theorem Expr.prefixForm_shown : ∀ e : Expr, e.shown.prefixForm = e.prefixForm
  | .literal value => by cases value <;> rfl
  | .grouping inner => by simp only [shown, prefixForm, prefixForm_shown inner]
  | .unary _ right => by simp only [shown, prefixForm, prefixForm_shown right, Token.shown]
  | .binary left _ right => by
    simp only [shown, prefixForm, prefixForm_shown left, prefixForm_shown right, Token.shown]
  | .logical left _ right => by
    simp only [shown, prefixForm, prefixForm_shown left, prefixForm_shown right, Token.shown]
  | .var _ _ => rfl
  | .assign _ _ value => by simp only [shown, prefixForm, prefixForm_shown value, Token.shown]
  | .call callee _ arguments => by
    simp only [shown, prefixForm, prefixForm_shown callee, argumentsForm_shown arguments]
  | .get object _ => by simp only [shown, prefixForm, prefixForm_shown object, Token.shown]
  | .set object _ value => by
    simp only [shown, prefixForm, prefixForm_shown object, prefixForm_shown value, Token.shown]
  | .thisRef _ _ => rfl
  | .superRef _ _ _ => rfl

theorem Expr.argumentsForm_shown : ∀ es : List Expr,
    argumentsForm (allShown es) = argumentsForm es
  | [] => rfl
  | e :: rest => by
    simp only [allShown, argumentsForm, prefixForm_shown e, argumentsForm_shown rest]

end

/-- Two expressions that were read from source texts and have no string and no infinite number
    in them have the same prefix form only if they are the same tree, up to the identities of
    nodes, the lines of tokens, and numbers with the same text. And if they are, they do. -/
theorem prefixForm_eq_iff_shown_eq {fresh fresh' : NodeId} {source source' : String}
    {e e' : Expr} (read : (readExpression fresh (tokens source)).value = some e)
    (read' : (readExpression fresh' (tokens source')).value = some e')
    (plain : ∀ value ∈ e.literals, value.isPlain = true)
    (plain' : ∀ value ∈ e'.literals, value.isPlain = true) :
    e.prefixForm = e'.prefixForm ↔ e.shown = e'.shown := by
  obtain ⟨legible, tree⟩ := e.tree_form (over_of_readExpression read) plain
  obtain ⟨legible', tree'⟩ := e'.tree_form (over_of_readExpression read') plain'
  constructor
  · intro same
    have texts : e.form.text = e'.form.text := by
      rw [← e.toList_prefixForm, same, e'.toList_prefixForm]
    rw [← tree, Form.text_injective legible legible' texts, tree']
  · intro same
    rw [← e.prefixForm_shown, same, e'.prefixForm_shown]

/-- The theorem at two texts of one tree that differ in their lines and nodes. -/
theorem prefixForm_eq_iff_shown_eq_respaced :
    let a : Token := ⟨.identifier, "a", 1⟩
    let minus : Nat → Token := fun line => ⟨.punctuator .minus, "-", line⟩
    let e := Expr.assign 1 a (.unary (minus 1) (.literal .nil))
    let e' := Expr.assign 8 a (.unary (minus 2) (.literal .nil))
    (readExpression 0 (tokens "a = -nil")).value = some e ∧
      (readExpression 7 (tokens "a=\n- nil // the same")).value = some e' ∧
      (∀ value ∈ e.literals, value.isPlain = true) ∧
      (∀ value ∈ e'.literals, value.isPlain = true) ∧ e.shown = e'.shown := by
  intro a minus e e'
  have read : (readExpression 0 (tokens "a = -nil")).value = some e := by cbv
  have read' : (readExpression 7 (tokens "a=\n- nil // the same")).value = some e' := by cbv
  have plain : ∀ value ∈ e.literals, value.isPlain = true := List.forall_mem_singleton.mpr rfl
  have plain' : ∀ value ∈ e'.literals, value.isPlain = true := List.forall_mem_singleton.mpr rfl
  have same : e.prefixForm = e'.prefixForm := rfl
  exact ⟨read, read', plain, plain', (prefixForm_eq_iff_shown_eq read read' plain plain').mp same⟩

end Lox
