import Arbor.Grammar.Parser

/-!
# The grammar of expressions

From loosest to tightest: assignment, six levels of left-associative operators, prefix operators,
calls and property accesses, and primary expressions.  Whether the left side of `=` can be
assigned to is decided once it has been read; if it cannot, that is reported and reading goes on.

Each rule spends one level of the allowance `room`.
-/

namespace Arbor
namespace Grammar

/-- The levels of binary operators, from loosest to tightest. -/
inductive Level where
  | or | and | equality | comparison | term | factor
deriving DecidableEq

namespace Level

/-- The operators of a level. -/
def accepts : Level → Token.Kind → Bool
  | or, .kwOr => true
  | and, .kwAnd => true
  | equality, .bangEqual | equality, .equalEqual => true
  | comparison, .greater | comparison, .greaterEqual | comparison, .less
  | comparison, .lessEqual => true
  | term, .minus | term, .plus => true
  | factor, .slash | factor, .star => true
  | _, _ => false

/-- The next tighter level. -/
def tighter? : Level → Option Level
  | or => some and
  | and => some equality
  | equality => some comparison
  | comparison => some term
  | term => some factor
  | factor => none

/-- The expression an operator of a level makes of its operands. -/
def build : Level → Expr → Token → Expr → Expr
  | or, left, operator, right | and, left, operator, right => .logical left operator right
  | _, left, operator, right => .binary left operator right

end Level

/-- The prefix operators. -/
def isPrefixOperator : Token.Kind → Bool
  | .bang | .minus => true
  | _ => false

/-- Goes on with operators of a level, each taking what came before as its left operand. -/
def operatorTail (level : Level) (operand : Parser Expr) : Nat → Expr → Parser Expr
  | 0, left => pure left
  | fuel + 1, left => do
    match ← acceptIf? level.accepts with
    | none => pure left
    | some operator =>
      let right ← operand
      operatorTail level operand fuel (level.build left operator right)

/-- Goes on with calls and property accesses on what came before. -/
def callTail (arguments : Expr → Parser Expr) : Nat → Expr → Parser Expr
  | 0, left => pure left
  | fuel + 1, left => do
    match ← accept? .leftParen with
    | some _ => callTail arguments fuel (← arguments left)
    | none =>
      match ← accept? .dot with
      | some _ =>
        let name ← expect .identifier "property name after '.'"
        callTail arguments fuel (.getField left name)
      | none => pure left

/-- The expression `target = value`, with a report if there is nothing to assign to. -/
def assignment (target : Expr) (equals : Token) (value : Expr) : Parser Expr :=
  match target with
  | .var name _ => pure (.assign name value none)
  | .getField object name => pure (.setField object name value)
  | _ => do
    report equals .invalidTarget
    pure target

/-- A primary expression, where `inner` parses what stands between parentheses. -/
def primaryWith (inner : Parser Expr) : Parser Expr := do
  let token ← peek
  match token.kind with
  | .kwFalse => do
    let _ ← accept? .kwFalse
    pure (.literal (.bool false))
  | .kwTrue => do
    let _ ← accept? .kwTrue
    pure (.literal (.bool true))
  | .kwNil => do
    let _ ← accept? .kwNil
    pure (.literal .nil)
  | .number => do
    let _ ← accept? .number
    pure (.literal token.literal)
  | .string => do
    let _ ← accept? .string
    pure (.literal token.literal)
  | .kwSuper => do
    let _ ← accept? .kwSuper
    let _ ← expect .dot "'.' after 'super'"
    let method ← expect .identifier "superclass method name"
    pure (.super token method none)
  | .kwThis => do
    let _ ← accept? .kwThis
    pure (.this token none)
  | .identifier => do
    let _ ← accept? .identifier
    pure (.var token none)
  | .leftParen => do
    let _ ← accept? .leftParen
    let expression ← inner
    let _ ← expect .rightParen "')' after expression"
    pure (.grouping expression)
  | _ => failExpecting "expression"

/-- The arguments of a call behind its opening parenthesis. -/
def callWith (argument : Parser Expr) (callee : Expr) : Parser Expr := do
  let arguments ← listUpToParen "arguments" argument
  let paren ← expect .rightParen "')' after arguments"
  pure (.call callee paren arguments)

mutual

/-- An expression. -/
def expression : Nat → Parser Expr
  | 0 => throw .tooDeep
  | room + 1 => assigned room

/-- An assignment, or an expression of a tighter level. -/
def assigned : Nat → Parser Expr
  | 0 => throw .tooDeep
  | room + 1 => do
    let target ← operators room .or
    match ← accept? .equal with
    | none => pure target
    | some equals => assignment target equals (← assigned room)

/-- Operands of a level joined by its operators. -/
def operators : Nat → Level → Parser Expr
  | 0, _ => throw .tooDeep
  | room + 1, level => do
    let operand :=
      match level.tighter? with
      | some tighter => operators room tighter
      | none => prefixed room
    let first ← operand
    operatorTail level operand (← bound) first

/-- An operand behind any number of prefix operators. -/
def prefixed : Nat → Parser Expr
  | 0 => throw .tooDeep
  | room + 1 => do
    match ← acceptIf? isPrefixOperator with
    | some operator => return .unary operator (← prefixed room)
    | none => called room

/-- A primary expression with the calls and property accesses on it. -/
def called : Nat → Parser Expr
  | 0 => throw .tooDeep
  | room + 1 => do
    let first ← primary room
    callTail (arguments room) (← bound) first

/-- The arguments of a call behind its opening parenthesis. -/
def arguments : Nat → Expr → Parser Expr
  | 0, _ => throw .tooDeep
  | room + 1, callee => callWith (expression room) callee

/-- A literal, a name, `this`, `super` with a method, or an expression in parentheses. -/
def primary : Nat → Parser Expr
  | 0 => throw .tooDeep
  | room + 1 => primaryWith (expression room)

end

end Grammar
end Arbor
