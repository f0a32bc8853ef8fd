/-!
# Kinds of tree nodes

The kinds of nodes a program tree is made of, with the names and the fields they have in stored
trees.  A stored tree may hold anything anywhere; `Foreign` classifies what sits in a place that
is meant for a statement or an expression and is neither.
-/

namespace Arbor

/-- The kinds of nodes of a program tree. -/
inductive NodeKind where
  | program
  | assign | binary | call | getField | grouping | literal | logical | setField | super | this
  | unary | var
  | block | breakStmt | continueStmt | exprStmt | funDecl | classDecl | ifStmt | printStmt
  | returnStmt | varDecl | whileStmt
deriving DecidableEq, Inhabited

namespace NodeKind

/-- Every kind of node. -/
def all : List NodeKind :=
  [program, assign, binary, call, getField, grouping, literal, logical, setField, super, this,
    unary, var, block, breakStmt, continueStmt, exprStmt, funDecl, classDecl, ifStmt, printStmt,
    returnStmt, varDecl, whileStmt]

/-- The name of a node kind. -/
def name : NodeKind → String
  | program => "Program"
  | assign => "Assign"
  | binary => "BinaryOp"
  | call => "Call"
  | getField => "Get"
  | grouping => "Grouping"
  | literal => "Literal"
  | logical => "Logical"
  | setField => "Set"
  | super => "Super"
  | this => "This"
  | unary => "UnaryOp"
  | var => "Variable"
  | block => "Block"
  | breakStmt => "BreakStmt"
  | continueStmt => "ContinueStmt"
  | exprStmt => "ExprStmt"
  | funDecl => "FuncDecl"
  | classDecl => "ClassDecl"
  | ifStmt => "IfStmt"
  | printStmt => "PrintStmt"
  | returnStmt => "ReturnStmt"
  | varDecl => "VarDecl"
  | whileStmt => "WhileStmt"

/-- The node kind of a given name. -/
def ofName? (name : String) : Option NodeKind :=
  all.find? fun kind => kind.name == name

/-- The names of a node's fields, in the order in which they are stored. -/
def fields : NodeKind → List String
  | program => ["body"]
  | assign => ["name", "value"]
  | binary => ["left", "operator", "right"]
  | call => ["callee", "paren", "arguments"]
  | getField => ["object", "name"]
  | grouping => ["expression"]
  | literal => ["value"]
  | logical => ["left", "operator", "right"]
  | setField => ["object", "name", "value"]
  | super => ["keyword", "method"]
  | this => ["keyword"]
  | unary => ["operator", "right"]
  | var => ["name"]
  | block => ["statements"]
  | breakStmt => ["keyword"]
  | continueStmt => ["keyword"]
  | exprStmt => ["expression"]
  | funDecl => ["name", "params", "body"]
  | classDecl => ["name", "superclass", "methods"]
  | ifStmt => ["condition", "then_branch", "else_branch"]
  | printStmt => ["expression"]
  | returnStmt => ["keyword", "value"]
  | varDecl => ["name", "initializer"]
  | whileStmt => ["condition", "body"]

end NodeKind

/-- What may sit in a place of a stored tree that is meant for something else. -/
inductive Foreign where
  | nothing
  | bool
  | number
  | text
  | list
  | token
  | node (kind : NodeKind)
deriving DecidableEq, Inhabited

namespace Foreign

/-- The short name of a foreign value's type. -/
def name : Foreign → String
  | nothing => "NoneType"
  | bool => "bool"
  | number => "float"
  | text => "str"
  | list => "list"
  | token => "Token"
  | node kind => kind.name

/-- The full name of a foreign value's type. -/
def qualifiedName : Foreign → String
  | token => "ling.lexer.Token"
  | node kind => "ling.ast." ++ kind.name
  | other => other.name

end Foreign
end Arbor
