import Arbor.Program
import Arbor.Tree

/-!
# Programs as stored trees

Storing a program writes every node with all its fields and forgets what was resolved; loading
a tree as a program takes each part for what its place asks for.  What does not fit becomes a
misfit leaf, so loading fails only if there is no list of statements at the top.

## Main definitions

* `Program.toTree`, `Program.ofTree`: the two directions.
-/

namespace Arbor

namespace Constant

/-- A constant as a stored value. -/
def toTree : Constant → Tree
  | nil => .null
  | bool b => .bool b
  | number x => .number x
  | text s => .text s

/-- A constant as the value of a stored token. -/
def toJson : Constant → Json
  | nil => .null
  | bool b => .bool b
  | number x => .float x
  | text s => .str s

/-- The constant a stored value denotes. -/
def ofTree? : Tree → Option Constant
  | .null => some nil
  | .bool b => some (bool b)
  | .number x => some (number x)
  | .text s => some (text s)
  | _ => none

/-- The constant a stored token's value denotes; other values count for nothing. -/
def ofJson : Json → Constant
  | .bool b => bool b
  | .float x => number x
  | .str s => text s
  | _ => nil

end Constant

namespace Token

/-- A token as it is stored. -/
def toTree (t : Token) : Tree :=
  .token ⟨.str t.kind.name, .str t.lexeme, t.literal.toJson, t.line⟩

/-- The token a tree denotes.  A kind or lexeme that is no text counts as the text it is shown
as. -/
def ofTree? : Tree → Option Token
  | .token t =>
    match Tree.scalarText? t.kind, Tree.scalarText? t.lexeme with
    | some kind, some lexeme => some ⟨.ofName kind, lexeme, .ofJson t.literal, t.line⟩
    | _, _ => none
  | _ => none

/-- The tokens of a list. -/
def listOfTree : Tree → Except SlotFault (List Token)
  | .list items =>
    match items.mapM ofTree? with
    | some tokens => .ok tokens
    | none => .error .noSuchPart
  | .text s => if s = "" then .ok [] else .error .noSuchPart
  | _ => .error .notAList

end Token

namespace Tree

/-- What a tree is where something else is asked for. -/
def foreign : Tree → Foreign
  | null => .nothing
  | bool _ => .bool
  | number _ => .number
  | text _ => .text
  | list _ => .list
  | token _ => .token
  | node kind _ => .node kind

/-- Whether nodes of a kind are statements. -/
def isStmtKind : NodeKind → Bool
  | .block | .breakStmt | .continueStmt | .exprStmt | .funDecl | .classDecl | .ifStmt
  | .printStmt | .returnStmt | .varDecl | .whileStmt => true
  | _ => false

/-- Whether a tree is a statement. -/
def isStmt : Tree → Bool
  | node kind _ => isStmtKind kind
  | _ => false

/-- A node of a kind whose parts are of no use. -/
def broken (kind : NodeKind) (fault : SlotFault := .noSuchPart) : Misfit :=
  .badSlot kind fault

/-! ### Loading programs -/

/-- The expression made of a name token. -/
def withToken (kind : NodeKind) (part : Tree) (make : Token → Expr) : Expr :=
  match Token.ofTree? part with
  | some t => make t
  | none => .misfit (broken kind)

/-- The statement made of a name token. -/
def stmtWithToken (kind : NodeKind) (part : Tree) (make : Token → Stmt) : Stmt :=
  match Token.ofTree? part with
  | some t => make t
  | none => .misfit (broken kind)

/-- The expressions in a place that is meant for a list and holds none: each character of a text
counts as a misfit, and anything else as one. -/
def strayExprs (kind : NodeKind) : Tree → List Expr
  | text s => s.toList.map fun _ => .misfit (.unexpected .text)
  | _ => [.misfit (broken kind .notAList)]

/-- The statements in a place that is meant for a list and holds none. -/
def strayStmts (kind : NodeKind) : Tree → List Stmt
  | text s => s.toList.map fun _ => .bare (.misfit (.unexpected .text))
  | _ => [.misfit (broken kind .notAList)]

/-- A function that cannot be run. -/
def brokenFunDecl (fault : SlotFault) : FunDecl :=
  ⟨.ending 0, [], [.misfit (.badSlot .funDecl fault)]⟩

/-- The function made of its parts; what is wrong with its parameters shows in its body. -/
def funDeclOf (name : Token) (params : Tree) (body : List Stmt) : FunDecl :=
  match Token.listOfTree params with
  | .ok params => ⟨name, params, body⟩
  | .error fault => { brokenFunDecl fault with name := name }

/-- The methods in a place that is meant for a list and holds a text. -/
def strayMethods (s : String) : List FunDecl :=
  s.toList.map fun _ => brokenFunDecl .noSuchPart

mutual

/-- The expression a tree denotes. -/
def toExpr : Tree → Expr
  | node .literal [value] =>
    match Constant.ofTree? value with
    | some c => .literal c
    | none => .misfit (broken .literal)
  | node .grouping [inner] => .grouping inner.toExpr
  | node .var [name] => withToken .var name fun t => .var t none
  | node .assign [name, value] => withToken .assign name fun t => .assign t value.toExpr none
  | node .unary [operator, right] => withToken .unary operator fun t => .unary t right.toExpr
  | node .binary [left, operator, right] =>
    withToken .binary operator fun t => .binary left.toExpr t right.toExpr
  | node .logical [left, operator, right] =>
    withToken .logical operator fun t => .logical left.toExpr t right.toExpr
  | node .call [callee, paren, list arguments] =>
    withToken .call paren fun t => .call callee.toExpr t (toExprs arguments)
  | node .call [callee, paren, arguments] =>
    withToken .call paren fun t => .call callee.toExpr t (strayExprs .call arguments)
  | node .getField [object, name] => withToken .getField name fun t => .getField object.toExpr t
  | node .setField [object, name, value] =>
    withToken .setField name fun t => .setField object.toExpr t value.toExpr
  | node .this [keyword] => withToken .this keyword fun t => .this t none
  | node .super [keyword, method] =>
    withToken .super keyword fun t => withToken .super method fun m => .super t m none
  | other => .misfit (.unexpected other.foreign)

/-- The expressions of a list. -/
def toExprs : List Tree → List Expr
  | [] => []
  | t :: rest => t.toExpr :: toExprs rest

end

/-- An expression that may be left out. -/
def toExpr? : Tree → Option Expr
  | null => none
  | t => some t.toExpr

/-- The name token of a node that has one. -/
def nameToken? : Tree → Option Token
  | node kind parts => ((kind.fields.zip parts).lookup "name").bind Token.ofTree?
  | _ => none

/-- The superclass a tree denotes, if one is given; whatever has a name can stand for one. -/
def toSuperclass : Tree → Except SlotFault (Option Superclass)
  | null => .ok none
  | t =>
    match t.nameToken? with
    | some name => .ok (some ⟨name, t.toExpr⟩)
    | none => .error .noSuchPart

/-- The class made of its parts. -/
def classDeclOf (name superclass : Tree) (methods : List FunDecl) : Stmt :=
  match superclass.toSuperclass with
  | .ok parent => stmtWithToken .classDecl name fun t => .classDecl t parent methods
  | .error fault => .misfit (broken .classDecl fault)

mutual

/-- The statement a tree denotes where a statement has to stand. -/
def toStmt : Tree → Stmt
  | node .exprStmt [expression] => .expr expression.toExpr
  | node .printStmt [expression] => .print expression.toExpr
  | node .varDecl [name, initializer] =>
    stmtWithToken .varDecl name fun t => .varDecl t initializer.toExpr?
  | node .block [list statements] => .block (toStmts statements)
  | node .block [text s] => .block (strayStmts .block (text s))
  | node .ifStmt [condition, thenBranch, null] => .ifElse condition.toExpr thenBranch.toStmt none
  | node .ifStmt [condition, thenBranch, elseBranch] =>
    .ifElse condition.toExpr thenBranch.toStmt (some elseBranch.toStmt)
  | node .whileStmt [condition, body] => .loop condition.toExpr body.toStmt
  | node .funDecl [name, params, list body] =>
    stmtWithToken .funDecl name fun t => .funDecl (funDeclOf t params (toStmts body))
  | node .funDecl [name, params, body] =>
    stmtWithToken .funDecl name fun t => .funDecl (funDeclOf t params (strayStmts .funDecl body))
  | node .classDecl [name, superclass, list methods] =>
    classDeclOf name superclass (toMethods methods)
  | node .classDecl [name, superclass, text s] => classDeclOf name superclass (strayMethods s)
  | node .returnStmt [keyword, value] =>
    stmtWithToken .returnStmt keyword fun t => .ret t value.toExpr?
  | node .breakStmt [keyword] => stmtWithToken .breakStmt keyword .brk
  | node .continueStmt [keyword] => stmtWithToken .continueStmt keyword .cont
  | node .block _ => .misfit (broken .block .notAList)
  | node .classDecl _ => .misfit (broken .classDecl .notAList)
  | other => .misfit (.unexpected other.foreign)

/-- The statements of a list; what is not a statement is taken for an expression. -/
def toStmts : List Tree → List Stmt
  | [] => []
  | t :: rest => (if t.isStmt then t.toStmt else .bare t.toExpr) :: toStmts rest

/-- The function a tree denotes where a method has to stand. -/
def toMethod : Tree → FunDecl
  | node .funDecl [name, params, list body] =>
    match Token.ofTree? name with
    | some t => funDeclOf t params (toStmts body)
    | none => brokenFunDecl .noSuchPart
  | node .funDecl [name, params, body] =>
    match Token.ofTree? name with
    | some t => funDeclOf t params (strayStmts .funDecl body)
    | none => brokenFunDecl .noSuchPart
  | _ => brokenFunDecl .noSuchPart

/-- The methods of a list. -/
def toMethods : List Tree → List FunDecl
  | [] => []
  | t :: rest => t.toMethod :: toMethods rest

end

end Tree

/-! ### Storing programs -/

namespace Expr

mutual

/-- An expression as a stored tree. -/
def toTree : Expr → Tree
  | literal value => .node .literal [value.toTree]
  | grouping inner => .node .grouping [inner.toTree]
  | var name _ => .node .var [name.toTree]
  | assign name value _ => .node .assign [name.toTree, value.toTree]
  | unary operator right => .node .unary [operator.toTree, right.toTree]
  | binary left operator right => .node .binary [left.toTree, operator.toTree, right.toTree]
  | logical left operator right => .node .logical [left.toTree, operator.toTree, right.toTree]
  | call callee paren arguments =>
    .node .call [callee.toTree, paren.toTree, .list (listToTree arguments)]
  | getField object name => .node .getField [object.toTree, name.toTree]
  | setField object name value => .node .setField [object.toTree, name.toTree, value.toTree]
  | this keyword _ => .node .this [keyword.toTree]
  | super keyword method _ => .node .super [keyword.toTree, method.toTree]
  | misfit _ => .null

/-- Expressions as stored trees. -/
def listToTree : List Expr → List Tree
  | [] => []
  | e :: rest => e.toTree :: listToTree rest

end

/-- An expression that may be left out, as a stored tree. -/
def optionToTree : Option Expr → Tree
  | none => .null
  | some e => e.toTree

end Expr

mutual

/-- A statement as a stored tree. -/
def Stmt.toTree : Stmt → Tree
  | .expr expression => .node .exprStmt [expression.toTree]
  | .print expression => .node .printStmt [expression.toTree]
  | .varDecl name initializer => .node .varDecl [name.toTree, Expr.optionToTree initializer]
  | .block statements => .node .block [.list (Stmt.listToTree statements)]
  | .ifElse condition thenBranch none =>
    .node .ifStmt [condition.toTree, thenBranch.toTree, .null]
  | .ifElse condition thenBranch (some elseBranch) =>
    .node .ifStmt [condition.toTree, thenBranch.toTree, elseBranch.toTree]
  | .loop condition body => .node .whileStmt [condition.toTree, body.toTree]
  | .funDecl decl => decl.toTree
  | .classDecl name superclass methods =>
    .node .classDecl
      [name.toTree, Expr.optionToTree (superclass.map Superclass.value),
        .list (FunDecl.listToTree methods)]
  | .ret keyword value => .node .returnStmt [keyword.toTree, Expr.optionToTree value]
  | .brk keyword => .node .breakStmt [keyword.toTree]
  | .cont keyword => .node .continueStmt [keyword.toTree]
  | .bare expression => expression.toTree
  | .misfit _ => .null

/-- Statements as stored trees. -/
def Stmt.listToTree : List Stmt → List Tree
  | [] => []
  | s :: rest => s.toTree :: Stmt.listToTree rest

/-- A function as a stored tree. -/
def FunDecl.toTree : FunDecl → Tree
  | ⟨name, params, body⟩ =>
    .node .funDecl [name.toTree, .list (params.map Token.toTree), .list (Stmt.listToTree body)]

/-- Functions as stored trees. -/
def FunDecl.listToTree : List FunDecl → List Tree
  | [] => []
  | d :: rest => d.toTree :: FunDecl.listToTree rest

end

namespace Program

/-- A program as a stored tree. -/
def toTree (p : Program) : Tree :=
  .node .program [.list (Stmt.listToTree p.body)]

/-- The statements of a body. -/
def bodyOf : Tree → Except SlotFault (List Stmt)
  | .list statements => .ok (Tree.toStmts statements)
  | .text s => .ok (Tree.strayStmts .program (.text s))
  | _ => .error .notAList

/-- The program a tree denotes; whatever has a body can be run. -/
def ofTree : Tree → Except SlotFault Program
  | .node .program [body] => mk <$> bodyOf body
  | .node .funDecl [_, _, body] => mk <$> bodyOf body
  | .node .whileStmt [_, body] => mk <$> bodyOf body
  | _ => .error .noSuchPart

end Program
end Arbor
