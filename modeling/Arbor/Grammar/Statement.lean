import Arbor.Grammar.Expression
import Arbor.Token.Scan

/-!
# The grammar of statements and programs

A declaration that fails is reported, dropped, and followed by recovery, so one reading finds
as many independent errors as possible.  A `for` loop has no node of its own: it is read as the
block and the `while` loop it stands for.

## Main definitions

* `Grammar.statement`, `Grammar.declaration`: the two mutually recursive rules.
* `Program.ofTokens`, `Program.ofText`: programs read from tokens and from text, with the reports.
-/

namespace Arbor
namespace Grammar

/-- The largest nesting of grammar rules. -/
def depthLimit : Nat := 9980

/-- What a function declaration is called in reports. -/
inductive FunRole where
  | function
  | method
deriving DecidableEq

/-- The word for a role. -/
def FunRole.word : FunRole → String
  | function => "function"
  | method => "method"

/-! ### Statements without statements inside -/

/-- A `var` declaration behind its keyword. -/
def varDecl : Nat → Parser Stmt
  | 0 => throw .tooDeep
  | room + 1 => do
    let name ← expect .identifier "variable name"
    let initializer ←
      match ← accept? .equal with
      | some _ => some <$> expression room
      | none => pure none
    let _ ← expect .semicolon "';' after variable declaration"
    pure (.varDecl name initializer)

/-- An expression and a semicolon. -/
def exprStmt : Nat → Parser Stmt
  | 0 => throw .tooDeep
  | room + 1 => do
    let value ← expression room
    let _ ← expect .semicolon "';' after expression"
    pure (.expr value)

/-- A `print` statement behind its keyword. -/
def printStmt : Nat → Parser Stmt
  | 0 => throw .tooDeep
  | room + 1 => do
    let value ← expression room
    let _ ← expect .semicolon "';' after value"
    pure (.print value)

/-- A `return` statement behind its keyword. -/
def returnStmt (keyword : Token) : Nat → Parser Stmt
  | 0 => throw .tooDeep
  | room + 1 => do
    let value ←
      if ← isAt .semicolon then pure none
      else some <$> expression room
    let _ ← expect .semicolon "';' after return value"
    pure (.ret keyword value)

/-! ### The `for` loop -/

/-- The part of a `for` loop in front of its first semicolon, and that semicolon. -/
def forInitializer (room : Nat) : Parser (Option Stmt) := do
  match ← accept? .semicolon with
  | some _ => pure none
  | none =>
    match ← accept? .kwVar with
    | some _ => some <$> varDecl room
    | none => some <$> exprStmt room

/-- An expression that is left out if the token behind it comes first. -/
def optionalUpTo (kind : Token.Kind) (room : Nat) : Parser (Option Expr) := do
  if ← isAt kind then pure none
  else some <$> expression room

/-- The statement a `for` loop stands for. -/
def forLoop (initializer : Option Stmt) (condition increment : Option Expr) (body : Stmt) : Stmt :=
  let turn :=
    match increment with
    | some step => .block [body, .expr step]
    | none => body
  let loop := .loop (condition.getD (.literal (.bool true))) turn
  match initializer with
  | some start => .block [start, loop]
  | none => loop

/-! ### Functions and classes -/

/-- A function behind its keyword, or a method, where `block` parses a body behind its brace. -/
def funDeclWith (role : FunRole) (block : Parser (List Stmt)) : Parser FunDecl := do
  let name ← expect .identifier (role.word ++ " name")
  let _ ← expect .leftParen ("'(' after " ++ role.word ++ " name")
  let params ← listUpToParen "parameters" (expect .identifier "parameter name")
  let _ ← expect .rightParen "')' after parameters"
  let _ ← expect .leftBrace ("'\x7b' before " ++ role.word ++ " body")
  let body ← block
  pure ⟨name, params, body⟩

/-- The superclass of a class, if one is named. -/
def superclass : Parser (Option Superclass) := do
  match ← accept? .less with
  | none => pure none
  | some _ => do
    let name ← expect .identifier "superclass name"
    pure (some ⟨name, .var name none⟩)

/-- A class behind its keyword, where `method` parses one method. -/
def classDeclWith (method : Parser FunDecl) : Parser Stmt := do
  let name ← expect .identifier "class name"
  let parent ← superclass
  let _ ← expect .leftBrace "'\x7b' before class body"
  let methods ← itemsUpToBrace (some <$> method) (← bound) []
  let _ ← expect .rightBrace "'\x7d' after class body"
  pure (.classDecl name parent methods)

/-! ### Statements and declarations -/

/-- A declaration or statement, given the rules for what follows each keyword. -/
def declaredWith (classDecl funDecl varDecl statement : Parser Stmt) : Parser Stmt := do
  match ← accept? .kwClass with
  | some _ => classDecl
  | none =>
    match ← accept? .kwFun with
    | some _ => funDecl
    | none =>
      match ← accept? .kwVar with
      | some _ => varDecl
      | none => statement

/-- The declaration `body` parses, or nothing after recovery from an error in it. -/
def recovering (body : Parser Stmt) : Parser (Option Stmt) :=
  tryCatch (some <$> body) fun
    | .error => do
      recover
      pure none
    | .tooDeep => throw .tooDeep

mutual

/-- A declaration or statement, or nothing after recovery from an error. -/
def declaration : Nat → Parser (Option Stmt)
  | 0 => throw .tooDeep
  | room + 1 =>
    recovering (declaredWith (classDecl room) (.funDecl <$> funDecl .function room)
      (varDecl room) (statement room))

/-- A class behind its keyword. -/
def classDecl : Nat → Parser Stmt
  | 0 => throw .tooDeep
  | room + 1 => classDeclWith (funDecl .method room)

/-- A function behind its keyword, or a method. -/
def funDecl (role : FunRole) : Nat → Parser FunDecl
  | 0 => throw .tooDeep
  | room + 1 => funDeclWith role (block room)

/-- The declarations of a block behind its opening brace, and its closing brace. -/
def block : Nat → Parser (List Stmt)
  | 0 => throw .tooDeep
  | room + 1 => do
    let statements ← itemsUpToBrace (declaration room) (← bound) []
    let _ ← expect .rightBrace "'\x7d' after block"
    pure statements

/-- A statement. -/
def statement : Nat → Parser Stmt
  | 0 => throw .tooDeep
  | room + 1 => do
    let token ← peek
    match token.kind with
    | .kwBreak => do
      let _ ← accept? .kwBreak
      let _ ← expect .semicolon "';' after 'break'"
      pure (.brk token)
    | .kwContinue => do
      let _ ← accept? .kwContinue
      let _ ← expect .semicolon "';' after 'continue'"
      pure (.cont token)
    | .kwFor => do
      let _ ← accept? .kwFor
      forStmt room
    | .kwIf => do
      let _ ← accept? .kwIf
      ifStmt room
    | .kwPrint => do
      let _ ← accept? .kwPrint
      printStmt room
    | .kwReturn => do
      let _ ← accept? .kwReturn
      returnStmt token room
    | .kwWhile => do
      let _ ← accept? .kwWhile
      whileStmt room
    | .leftBrace => do
      let _ ← accept? .leftBrace
      .block <$> block room
    | _ => exprStmt room

/-- A `for` loop behind its keyword. -/
def forStmt : Nat → Parser Stmt
  | 0 => throw .tooDeep
  | room + 1 => do
    let _ ← expect .leftParen "'(' after 'for'"
    let initializer ← forInitializer room
    let condition ← optionalUpTo .semicolon room
    let _ ← expect .semicolon "';' after loop condition"
    let increment ← optionalUpTo .rightParen room
    let _ ← expect .rightParen "')' after for clauses"
    let body ← statement room
    pure (forLoop initializer condition increment body)

/-- An `if` statement behind its keyword; an `else` belongs to the nearest `if`. -/
def ifStmt : Nat → Parser Stmt
  | 0 => throw .tooDeep
  | room + 1 => do
    let _ ← expect .leftParen "'(' after 'if'"
    let condition ← expression room
    let _ ← expect .rightParen "')' after if condition"
    let thenBranch ← statement room
    match ← accept? .kwElse with
    | some _ => return .ifElse condition thenBranch (some (← statement room))
    | none => pure (.ifElse condition thenBranch none)

/-- A `while` loop behind its keyword. -/
def whileStmt : Nat → Parser Stmt
  | 0 => throw .tooDeep
  | room + 1 => do
    let _ ← expect .leftParen "'(' after 'while'"
    let condition ← expression room
    let _ ← expect .rightParen "')' after condition"
    let body ← statement room
    pure (.loop condition body)

end

/-! ### Programs -/

/-- The declarations up to the end of the text; too deep a nesting is reported and ends them. -/
def topLevel (room : Nat) : Nat → List Stmt → Parser (List Stmt)
  | 0, before => pure before.reverse
  | fuel + 1, before => do
    if ← atEnd then pure before.reverse
    else
      let next ← tryCatch (some <$> declaration room) fun _ => pure none
      match next with
      | some (some stmt) => topLevel room fuel (stmt :: before)
      | some none => topLevel room fuel before
      | none => do
        report (← peek) .tooDeep
        pure before.reverse

end Grammar

/-- What came of reading a program: the program, without the declarations that failed, and the
reports. -/
structure Reading where
  program : Program
  reports : Array Diagnostic

namespace Program

/-- The program made of some tokens, rules nesting at most `room` deep. -/
def ofTokens (room : Nat) (tokens : List Token) (ending : Token) : Reading :=
  let start : Grammar.State := { rest := tokens, ending := ending, bound := tokens.length }
  match (Grammar.topLevel room tokens.length []).run start with
  | .ok body final => ⟨⟨body⟩, final.reports⟩
  | .error _ final => ⟨⟨[]⟩, final.reports⟩

end Program

namespace Scan

/-- The program made of the tokens of a scan; the reports of the scan come first. -/
def parse (s : Scan) : Reading :=
  let reading := Program.ofTokens Grammar.depthLimit s.tokens.toList s.ending
  { reading with reports := s.reports ++ reading.reports }

end Scan

namespace Program

/-- The program written in a text. -/
def ofText (text : String) : Reading :=
  (Scan.ofText text).parse

end Program
end Arbor
