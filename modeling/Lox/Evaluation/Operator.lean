import Lox.Machine

/-! # Operators

  What unary and binary operators make of their operands. Both operands are values already;
  an operator that does not fit them is reported at its token.
-/

namespace Lox.Evaluation

/-- Negation of a number, or of the truth of any value. -/
def applyUnary (operator : Token) (right : Value) : Run Value :=
  match operator.kind with
  | .punctuator .minus =>
    match right with
    | .number x => pure (.number (-x))
    | _ => Run.fail operator .operandNotNumber
  | .punctuator .bang => pure (.bool (!right.isTruthy))
  | _ => Run.fail operator .unaryOperator

/-- The sum of two numbers, or two strings joined. -/
def add (operator : Token) (left right : Value) : Run Value :=
  match left, right with
  | .number a, .number b => pure (.number (a + b))
  | .string a, .string b => pure (.string (a ++ b))
  | _, _ => Run.fail operator .operandsNotAddable

/-- The result of an operator on two numbers, if it is one that takes numbers. -/
def arithmetic? (kind : TokenKind) (a b : Float) : Option Value :=
  match kind with
  | .punctuator .minus => some (.number (a - b))
  | .punctuator .star => some (.number (a * b))
  | .punctuator .slash => some (.number (a / b))
  | .punctuator .greater => some (.bool (b < a))
  | .punctuator .greaterEqual => some (.bool (b ≤ a))
  | .punctuator .less => some (.bool (a < b))
  | .punctuator .lessEqual => some (.bool (a ≤ b))
  | _ => none

/-- An operator that needs two numbers; that they are numbers is checked first. -/
def calculate (operator : Token) (left right : Value) : Run Value :=
  match left, right with
  | .number a, .number b =>
    match arithmetic? operator.kind a b with
    | some value => pure value
    | none => Run.fail operator .binaryOperator
  | _, _ => Run.fail operator .operandsNotNumbers

/-- A binary operator on two values. -/
def applyBinary (operator : Token) (left right : Value) : Run Value :=
  match operator.kind with
  | .punctuator .plus => add operator left right
  | .punctuator .equalEqual => pure (.bool (left.equals right))
  | .punctuator .bangEqual => pure (.bool (!left.equals right))
  | _ => calculate operator left right

/-- Whether the left operand of a logical operator is its result: a true one of `or`, a
    false one of `and`. -/
def decides (operator : Token) (left : Value) : Bool :=
  if operator.kind = .keyword .orWord then left.isTruthy else !left.isTruthy

end Lox.Evaluation
