import Arbor.Value

/-!
# Operators

What the operators of the language do to values.  An operator that is applied to operands it is
not made for is a runtime error, blamed on the line of the operator; an operator that does not
exist at all, which only a stored tree can hold, is a fault.
-/

namespace Arbor
namespace Operator

/-- Why an operator gives no value. -/
inductive Failure where
  | error (cause : RuntimeCause)
  | fault (fault : Fault)
deriving DecidableEq

/-- Sums of numbers and joined texts; a number next to a text is joined as it is printed. -/
def add : Value → Value → Except Failure Value
  | .number a, .number b => .ok (.number (a + b))
  | .text a, .text b => .ok (.text (a ++ b))
  | .text a, .number b => .ok (.text (a ++ (Value.number b).shown))
  | .number a, .text b => .ok (.text ((Value.number a).shown ++ b))
  | _, _ => .error (.error .operandsNotAddable)

/-- What an operator on two numbers does. -/
def arithmetic (operator : Token) (a b : Float) : Except Failure Value :=
  match operator.kind with
  | .minus => .ok (.number (a - b))
  | .star => .ok (.number (a * b))
  | .slash => if b == 0 then .error (.error .divisionByZero) else .ok (.number (a / b))
  | .greater => .ok (.bool (decide (b < a)))
  | .greaterEqual => .ok (.bool (decide (b ≤ a)))
  | .less => .ok (.bool (decide (a < b)))
  | .lessEqual => .ok (.bool (decide (a ≤ b)))
  | _ => .error (.fault (.unknownBinary operator.lexeme))

/-- Applies a binary operator.  Apart from sums and comparisons for equality, operands are
checked before the operator is. -/
def applyBinary (operator : Token) (left right : Value) : Except Failure Value :=
  match operator.kind with
  | .plus => add left right
  | .equalEqual => .ok (.bool (left.isEqual right))
  | .bangEqual => .ok (.bool (!left.isEqual right))
  | _ =>
    match left, right with
    | .number a, .number b => arithmetic operator a b
    | _, _ => .error (.error .operandsNotNumbers)

/-- Applies a prefix operator. -/
def applyUnary (operator : Token) (right : Value) : Except Failure Value :=
  match operator.kind with
  | .minus =>
    match right with
    | .number x => .ok (.number (-x))
    | _ => .error (.error .operandNotNumber)
  | .bang => .ok (.bool (!right.isTruthy))
  | _ => .error (.fault (.unknownUnary operator.lexeme))

end Operator
end Arbor
