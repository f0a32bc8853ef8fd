import Arbor.Diagnostic
import Arbor.Proofs.Program.Formed
import Arbor.Scope

/-!
# Places of a program

Where a reference or a statement stands in a program decides what its names mean and whether it may
stand there at all.  This module says so without walking: a `Place` lists what is around, from the
inside out, and every rule of scoping is a question to it.

A list of statements contributes the names declared in it *so far*: by the statements before the
place and by the one the place is in, since a declaration counts from its name on.  Parameters come
before the whole body.  Nothing is declared inside an expression, so all parts of an expression are
at one place.

## Main definitions

* `Place`: what is around, the innermost first.
* `Place.distance?`: how many scopes out a name is declared.
* `Spot`, `Program.spots`: the references, statements and parameters of a program, in the order of
  the text (an assignment after its value), each with its place.
* `Spot.violations`: the reports that the rules of scoping ask for at a spot.
* `Spot.Linked`: a reference that carries the distance its place gives it.
-/

namespace Arbor

/-! ### Places -/

/-- What a list of statements is the content of. -/
inductive Seat where
  | program
  | block
  /-- The body of a function or method, after its parameters. -/
  | body (isMethod : Bool) (name : Token)

/-- One thing around a place. -/
inductive Around where
  /-- A list of statements: the names declared before the item that the place is in, and those
  that the item declares itself. -/
  | item (seat : Seat) (earlier own : List String)
  /-- The body of a loop. -/
  | loop
  /-- The initializer of a variable. -/
  | initializer (name : Token)
  /-- The methods of a class, with or without a superclass. -/
  | methods (inherits : Bool)

/-- What is around, the innermost first. -/
abbrev Place := List Around

/-- The lexical scopes that something around a place makes, the innermost first, each with the
names declared in it so far.  The program itself is no scope: its names are global. -/
def Around.scopes : Around → List (List String)
  | .item .program _ _ => []
  | .item _ earlier own => [earlier ++ own]
  | .methods false => [["this"]]
  | .methods true => [["this"], ["super"]]
  | .loop | .initializer _ => []

namespace Place

/-- The lexical scopes around a place, the innermost first. -/
def scopes (place : Place) : List (List String) :=
  place.flatMap Around.scopes

/-- How many scopes lie between a place and the innermost one that declares a name so far. -/
def distance? (place : Place) (name : String) : Option Nat :=
  place.scopes.findIdx? fun names => decide (name ∈ names)

/-- The innermost function around a place: whether it is a method, and its name. -/
def function? : Place → Option (Bool × Token)
  | [] => none
  | .item (.body isMethod name) _ _ :: _ => some (isMethod, name)
  | _ :: outer => function? outer

/-- Whether the innermost function around a place is a method called `init`. -/
def inInitializer (place : Place) : Bool :=
  match place.function? with
  | some (true, name) => name.lexeme == "init"
  | _ => false

/-- The innermost class around a place: whether it has a superclass. -/
def class? : Place → Option Bool
  | [] => none
  | .methods inherits :: _ => some inherits
  | _ :: outer => class? outer

/-- Whether a place is in a loop of the innermost function, or of the program outside of any. -/
def inLoop : Place → Bool
  | [] => false
  | .loop :: _ => true
  | .item (.body _ _) _ _ :: _ => false
  | _ :: outer => inLoop outer

/-- Whether the scope that a declaration stands in has the name already.  At the top level names
may be declared again. -/
def redeclares (place : Place) (name : String) : Bool :=
  match place with
  | .item .program _ _ :: _ => false
  | .item _ earlier _ :: _ => decide (name ∈ earlier)
  | _ => false

/-- Whether a variable read at a place is the one that is just being initialized.  At the top level
it may be, if the name was global before. -/
def readsOwn (globals : List String) (place : Place) (name : String) : Bool :=
  match place with
  | .initializer own :: .item .program earlier _ :: _ =>
    decide (name = own.lexeme ∧ name ∉ globals ∧ name ∉ earlier)
  | .initializer own :: _ => decide (name = own.lexeme)
  | _ => false

end Place

/-! ### Spots -/

/-- What the rules of scoping are about. -/
inductive Node where
  /-- A reference: a variable, an assignment, `this` or `super`. -/
  | expr (e : Expr)
  | stmt (st : Stmt)
  | param (name : Token)

/-- A node with its place. -/
structure Spot where
  place : Place
  node : Node

mutual

/-- The references of an expression, in order; an assignment comes after its value. -/
def Expr.references : Expr → List Expr
  | .literal _ => []
  | .grouping inner => inner.references
  | .var name hops => [.var name hops]
  | .assign name value hops => value.references ++ [.assign name value hops]
  | .unary _ right => right.references
  | .binary left _ right | .logical left _ right => left.references ++ right.references
  | .call callee _ arguments => callee.references ++ Expr.allReferences arguments
  | .getField object _ => object.references
  | .setField object _ value => value.references ++ object.references
  | .this keyword hops => [.this keyword hops]
  | .super keyword method hops => [.super keyword method hops]
  | .misfit _ => []

/-- The references of expressions, in order. -/
def Expr.allReferences : List Expr → List Expr
  | [] => []
  | e :: rest => e.references ++ Expr.allReferences rest

end

/-- The references of an expression at a place. -/
def Expr.spots (place : Place) (e : Expr) : List Spot :=
  e.references.map fun reference => ⟨place, .expr reference⟩

/-- The references of an expression that may be left out. -/
def Expr.optionSpots (place : Place) : Option Expr → List Spot
  | none => []
  | some e => e.spots place

/-- Parameters, each with those before it. -/
def Token.paramSpots (seat : Seat) (earlier : List String) (place : Place) : List Token → List Spot
  | [] => []
  | param :: rest =>
    ⟨.item seat earlier [param.lexeme] :: place, .param param⟩ ::
      Token.paramSpots seat (earlier ++ [param.lexeme]) place rest

mutual

/-- The spots of a statement at a place. -/
def Stmt.spots (place : Place) : Stmt → List Spot
  | .expr e | .print e | .bare e => e.spots place
  | .varDecl name initializer =>
    ⟨place, .stmt (.varDecl name initializer)⟩ ::
      Expr.optionSpots (.initializer name :: place) initializer
  | .block statements => Stmt.allSpots .block [] place statements
  | .ifElse condition thenBranch none => condition.spots place ++ thenBranch.spots place
  | .ifElse condition thenBranch (some elseBranch) =>
    condition.spots place ++ (thenBranch.spots place ++ elseBranch.spots place)
  | .loop condition body => condition.spots place ++ body.spots (.loop :: place)
  | .funDecl decl => ⟨place, .stmt (.funDecl decl)⟩ :: decl.spots false place
  | .classDecl name none members =>
    ⟨place, .stmt (.classDecl name none members)⟩ ::
      FunDecl.allSpots (.methods false :: place) members
  | .classDecl name (some parent) members =>
    ⟨place, .stmt (.classDecl name (some parent) members)⟩ ::
      (parent.value.spots place ++ FunDecl.allSpots (.methods true :: place) members)
  | .ret keyword value => ⟨place, .stmt (.ret keyword value)⟩ :: Expr.optionSpots place value
  | .brk keyword => [⟨place, .stmt (.brk keyword)⟩]
  | .cont keyword => [⟨place, .stmt (.cont keyword)⟩]
  | .misfit _ => []

/-- The spots of the statements of a list, of which some names are declared before. -/
def Stmt.allSpots (seat : Seat) (earlier : List String) (place : Place) : List Stmt → List Spot
  | [] => []
  | st :: rest =>
    st.spots (.item seat earlier st.introduces :: place) ++
      Stmt.allSpots seat (earlier ++ st.introduces) place rest

/-- The spots of a function or method at a place: its parameters, then its body. -/
def FunDecl.spots (isMethod : Bool) (place : Place) : FunDecl → List Spot
  | ⟨name, params, body⟩ =>
    Token.paramSpots (.body isMethod name) [] place params ++
      Stmt.allSpots (.body isMethod name) (params.map Token.lexeme) place body

/-- The spots of the methods of a class. -/
def FunDecl.allSpots (place : Place) : List FunDecl → List Spot
  | [] => []
  | decl :: rest => decl.spots true place ++ FunDecl.allSpots place rest

end

/-- The spots of a program. -/
def Program.spots (p : Program) : List Spot :=
  Stmt.allSpots .program [] [] p.body

/-! ### Rules -/

/-- The report on a token if a rule is broken. -/
def Token.blamed (token : Token) (error : ScopeError) (broken : Bool) : List Diagnostic :=
  if broken then [.scope token error] else []

/-- What a reference at a place breaks. -/
def Expr.violations (globals : List String) (place : Place) : Expr → List Diagnostic
  | .var name _ => name.blamed .ownInitializer (place.readsOwn globals name.lexeme)
  | .this keyword _ => keyword.blamed .thisOutsideClass place.class?.isNone
  | .super keyword _ _ =>
    keyword.blamed .superOutsideClass place.class?.isNone ++
      keyword.blamed .superWithoutSuperclass (place.class? == some false)
  | _ => []

/-- What a superclass of a class breaks. -/
def Superclass.violations (name : Token) (parent : Superclass) : List Diagnostic :=
  parent.name.blamed .inheritsFromItself (parent.name.lexeme == name.lexeme)

/-- What a statement at a place breaks, apart from its parts. -/
def Stmt.violations (place : Place) : Stmt → List Diagnostic
  | .varDecl name _ => name.blamed .alreadyDeclared (place.redeclares name.lexeme)
  | .funDecl decl => decl.name.blamed .alreadyDeclared (place.redeclares decl.name.lexeme)
  | .classDecl name none _ => name.blamed .alreadyDeclared (place.redeclares name.lexeme)
  | .classDecl name (some parent) _ =>
    name.blamed .alreadyDeclared (place.redeclares name.lexeme) ++ parent.violations name
  | .ret keyword value =>
    keyword.blamed .returnAtTop place.function?.isNone ++
      keyword.blamed .returnFromInitializer (value.isSome && place.inInitializer)
  | .brk keyword => keyword.blamed .breakOutsideLoop (!place.inLoop)
  | .cont keyword => keyword.blamed .continueOutsideLoop (!place.inLoop)
  | _ => []

namespace Spot

/-- The reports that the rules of scoping ask for at a spot. -/
def violations (globals : List String) (spot : Spot) : List Diagnostic :=
  match spot.node with
  | .expr e => e.violations globals spot.place
  | .stmt st => st.violations spot.place
  | .param name => name.blamed .alreadyDeclared (spot.place.redeclares name.lexeme)

/-- A reference with the distance that its place gives it.  A variable or an assignment has none if
no scope declares its name; `this` and `super` have none exactly if they are reported. -/
def Linked (globals : List String) (spot : Spot) : Prop :=
  match spot.node with
  | .expr (.var name hops) | .expr (.assign name _ hops) =>
    hops = spot.place.distance? name.lexeme
  | .expr (.this _ hops) =>
    (hops = none ↔ spot.violations globals ≠ []) ∧
      ∀ d, hops = some d → spot.place.distance? "this" = some d
  | .expr (.super _ _ hops) =>
    (hops = none ↔ spot.violations globals ≠ []) ∧
      ∀ d, hops = some d → spot.place.distance? "super" = some d
  | _ => True

/-- What is recorded of a reference that carries a distance. -/
def resolution? (spot : Spot) : Option Scope.Resolution :=
  match spot.node with
  | .expr (.var name (some hops)) => some ⟨.var, name.lexeme, name.line, hops⟩
  | .expr (.assign name _ (some hops)) => some ⟨.assign, name.lexeme, name.line, hops⟩
  | .expr (.this keyword (some hops)) => some ⟨.this, keyword.lexeme, keyword.line, hops⟩
  | .expr (.super keyword _ (some hops)) => some ⟨.super, keyword.lexeme, keyword.line, hops⟩
  | _ => none

end Spot
end Arbor
