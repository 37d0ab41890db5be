import Lox.Number.Notation
import Lox.Syntax.Expr

/-! # Expressions in prefix form

  An expression is shown with every operation in parentheses and its operator first, such as
  `(* (- 123.0) (group 45.67))`. Names and literals stand for themselves.
-/

namespace Lox

/-- A number in prefix form: whole numbers have all their digits and end in `.0`, the others
    have the fewest digits that read back. -/
def Literal.numberText (x : Float) : String :=
  match Number.whole? x with
  | some w => w.text ++ ".0"
  | none => Number.plain x

/-- A constant in prefix form. -/
def Literal.text : Literal → String
  | nil => "nil"
  | bool true => "true"
  | bool false => "false"
  | number x => numberText x
  | string text => text

mutual

/-- An expression in prefix form. -/
def Expr.prefixForm : Expr → String
  | .literal value => value.text
  | .grouping inner => "(group " ++ inner.prefixForm ++ ")"
  | .unary operator right => "(" ++ operator.lexeme ++ " " ++ right.prefixForm ++ ")"
  | .binary left operator right =>
    "(" ++ operator.lexeme ++ " " ++ left.prefixForm ++ " " ++ right.prefixForm ++ ")"
  | .logical left operator right =>
    "(" ++ operator.lexeme ++ " " ++ left.prefixForm ++ " " ++ right.prefixForm ++ ")"
  | .var _ name => name.lexeme
  | .assign _ name value => "(= " ++ name.lexeme ++ " " ++ value.prefixForm ++ ")"
  | .call callee _ arguments =>
    "(call " ++ callee.prefixForm ++ Expr.argumentsForm arguments ++ ")"
  | .get object name => "(. " ++ object.prefixForm ++ " " ++ name.lexeme ++ ")"
  | .set object name value =>
    "(= (. " ++ object.prefixForm ++ " " ++ name.lexeme ++ ") " ++ value.prefixForm ++ ")"
  | .thisRef _ _ => "this"
  | .superRef _ _ method => "(super " ++ method.lexeme ++ ")"

/-- The arguments of a call in prefix form, each after a space. -/
def Expr.argumentsForm : List Expr → String
  | [] => ""
  | argument :: rest => " " ++ argument.prefixForm ++ Expr.argumentsForm rest

end

end Lox
