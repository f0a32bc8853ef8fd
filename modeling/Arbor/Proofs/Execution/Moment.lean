import Arbor.Execution
import Arbor.Proofs.Scope.Visit
import Mathlib.Logic.Relation

/-!
# The moments of a run

The evaluator is seven functions that call each other.  A *moment* is a call of one of them: what
it is called with, the room it has, and the machine it is called on.  `Starts` says which calls
a call makes: each rule is one recursive call of the evaluator, and its premises say what was run
in between, by the evaluator itself.  The moments of a run are the calls that are made, directly or
through others, by the calls a program makes for its statements.

Frames are made in six places only.  `Makes` says for which lexical scope: a block, the body of a
function, the scope of `this` around a method, or the scope of `super` around the methods of a class.

## Main definitions

* `Task`, `Moment`: a call of the evaluator.
* `Starts`, `Reaches`: the calls a call makes, directly or through others.
* `Makes`: the frames a call makes by itself, and the scopes they are made for.
-/

namespace Arbor
namespace Execution

open Eval

/-- What the evaluator can be busy with. -/
inductive Task where
  | evaluate (expression : Expr) (frame : FrameId)
  | call (callee : Value) (arguments : List Value) (paren : Token)
  | invoke (callee : Value) (arguments : List Value)
  | runBlock (statements : List Stmt) (frame : FrameId)
  | runLoop (condition : Expr) (body : Stmt) (frame : FrameId)
  | declareClass (name : Token) (superclass : Option Superclass) (methods : List FunDecl)
      (frame : FrameId)
  | execute (statement : Stmt) (frame : FrameId)

/-- A call of the evaluator. -/
structure Moment where
  room : Nat
  task : Task
  machine : Machine

/-- Some turns of a loop that completed without leaving it, and the machine behind them. -/
inductive Rounds (turns room : Nat) (condition : Expr) (body : Stmt) (frame : FrameId) :
    Nat → Machine → Machine → Prop
  | none (m : Machine) : Rounds turns room condition body frame 0 m m
  | more {n : Nat} {m m₁ m₂ m₃ : Machine} {v : Value} {completion : Completion}
      (before : Rounds turns room condition body frame n m m₁)
      (tested : (evaluate turns room condition frame).run m₁ = .ok v m₂)
      (truthy : v.isTruthy = true)
      (ran : (execute turns room body frame).run m₂ = .ok completion m₃)
      (stays : completion = .normal ∨ completion = .continued) :
      Rounds turns room condition body frame (n + 1) m m₃

/-- A call of the evaluator makes another one. -/
inductive Starts (turns : Nat) : Moment → Moment → Prop
  | grouping {room inner f m} :
      Starts turns ⟨room + 1, .evaluate (.grouping inner) f, m⟩ ⟨room, .evaluate inner f, m⟩
  | assigned {room name value hops f m} :
      Starts turns ⟨room + 1, .evaluate (.assign name value hops) f, m⟩ ⟨room, .evaluate value f, m⟩
  | operand {room operator right f m} :
      Starts turns ⟨room + 1, .evaluate (.unary operator right) f, m⟩ ⟨room, .evaluate right f, m⟩
  | left {room left operator right f m} :
      Starts turns ⟨room + 1, .evaluate (.binary left operator right) f, m⟩
        ⟨room, .evaluate left f, m⟩
  | right {room left operator right f m v m'}
      (ran : (evaluate turns room left f).run m = .ok v m') :
      Starts turns ⟨room + 1, .evaluate (.binary left operator right) f, m⟩
        ⟨room, .evaluate right f, m'⟩
  | logicalLeft {room left operator right f m} :
      Starts turns ⟨room + 1, .evaluate (.logical left operator right) f, m⟩
        ⟨room, .evaluate left f, m⟩
  | logicalRight {room left operator right f m v m'}
      (ran : (evaluate turns room left f).run m = .ok v m') (unsettled : settles operator v = false) :
      Starts turns ⟨room + 1, .evaluate (.logical left operator right) f, m⟩
        ⟨room, .evaluate right f, m'⟩
  | callee {room callee paren arguments f m} :
      Starts turns ⟨room + 1, .evaluate (.call callee paren arguments) f, m⟩
        ⟨room, .evaluate callee f, m⟩
  | argument {room callee paren before e after f m v m₁ vs m₂}
      (ran : (evaluate turns room callee f).run m = .ok v m₁)
      (ranBefore : (allValues (fun e => evaluate turns room e f) before).run m₁ = .ok vs m₂) :
      Starts turns ⟨room + 1, .evaluate (.call callee paren (before ++ e :: after)) f, m⟩
        ⟨room, .evaluate e f, m₂⟩
  | called {room callee paren arguments f m v m₁ vs m₂}
      (ran : (evaluate turns room callee f).run m = .ok v m₁)
      (ranAll : (allValues (fun e => evaluate turns room e f) arguments).run m₁ = .ok vs m₂) :
      Starts turns ⟨room + 1, .evaluate (.call callee paren arguments) f, m⟩
        ⟨room, .call v vs paren, m₂⟩
  | object {room object name f m} :
      Starts turns ⟨room + 1, .evaluate (.getField object name) f, m⟩ ⟨room, .evaluate object f, m⟩
  | fieldObject {room object name value f m} :
      Starts turns ⟨room + 1, .evaluate (.setField object name value) f, m⟩
        ⟨room, .evaluate object f, m⟩
  | fieldValue {room object name value f m i m'}
      (ran : (evaluate turns room object f).run m = .ok (.object i) m') :
      Starts turns ⟨room + 1, .evaluate (.setField object name value) f, m⟩
        ⟨room, .evaluate value f, m'⟩
  | invoked {room callee arguments paren m} (fits : callee.arity? = some arguments.length) :
      Starts turns ⟨room + 1, .call callee arguments paren, m⟩
        ⟨room, .invoke callee arguments, m.note (.called callee arguments.length paren.line)⟩
  | body {room c arguments m m₁ m₂ f} (made : (newFrame c.frame).run m = .ok f m₁)
      (bound : (bindParams f c.decl.params arguments).run m₁ = .ok () m₂) :
      Starts turns ⟨room + 1, .invoke (.closure c) arguments, m⟩ ⟨room, .runBlock c.decl.body f, m₂⟩
  | initializer {room c arguments m i m₁ init bound m₂} (made : (newInstance c).run m = .ok i m₁)
      (found : c.initializer? = some init)
      (ran : (bindThis init (.object i)).run m₁ = .ok bound m₂) :
      Starts turns ⟨room + 1, .invoke (.cls c) arguments, m⟩
        ⟨room, .invoke (.closure bound) arguments, m₂⟩
  | statement {room before s after f m m'}
      (ran : (inOrder (fun s => execute turns room s f) before).run m = .ok .normal m') :
      Starts turns ⟨room + 1, .runBlock (before ++ s :: after) f, m⟩ ⟨room, .execute s f, m'⟩
  | condition {room condition body f n m m'} (some : n < turns)
      (rounds : Rounds turns room condition body f n m m') :
      Starts turns ⟨room + 1, .runLoop condition body f, m⟩ ⟨room, .evaluate condition f, m'⟩
  | turn {room condition body f n m m₁ v m₂} (some : n < turns)
      (rounds : Rounds turns room condition body f n m m₁)
      (tested : (evaluate turns room condition f).run m₁ = .ok v m₂)
      (truthy : v.isTruthy = true) :
      Starts turns ⟨room + 1, .runLoop condition body f, m⟩ ⟨room, .execute body f, m₂⟩
  | superclass {room name parent methods f m} :
      Starts turns ⟨room + 1, .declareClass name (some parent) methods f, m⟩
        ⟨room, .evaluate parent.value f, m⟩
  | expression {room e f m} :
      Starts turns ⟨room + 1, .execute (.expr e) f, m⟩
        ⟨room, .evaluate e f, m.note (.executed (Stmt.expr e).found)⟩
  | printed {room e f m} :
      Starts turns ⟨room + 1, .execute (.print e) f, m⟩
        ⟨room, .evaluate e f, m.note (.executed (Stmt.print e).found)⟩
  | initial {room name e f m} :
      Starts turns ⟨room + 1, .execute (.varDecl name (some e)) f, m⟩
        ⟨room, .evaluate e f, m.note (.executed (Stmt.varDecl name (some e)).found)⟩
  | block {room statements f m inner m'}
      (made : (newFrame f).run (m.note (.executed (Stmt.block statements).found))
        = .ok inner m') :
      Starts turns ⟨room + 1, .execute (.block statements) f, m⟩ ⟨room, .runBlock statements inner, m'⟩
  | branchCondition {room condition thenBranch elseBranch f m} :
      Starts turns ⟨room + 1, .execute (.ifElse condition thenBranch elseBranch) f, m⟩
        ⟨room, .evaluate condition f,
          m.note (.executed (Stmt.ifElse condition thenBranch elseBranch).found)⟩
  | thenBranch {room condition thenBranch elseBranch f m v m'}
      (tested : (evaluate turns room condition f).run
        (m.note (.executed (Stmt.ifElse condition thenBranch elseBranch).found)) = .ok v m')
      (truthy : v.isTruthy = true) :
      Starts turns ⟨room + 1, .execute (.ifElse condition thenBranch elseBranch) f, m⟩
        ⟨room, .execute thenBranch f, m'⟩
  | elseBranch {room condition thenBranch elseBranch f m v m'}
      (tested : (evaluate turns room condition f).run
        (m.note (.executed (Stmt.ifElse condition thenBranch (some elseBranch)).found)) = .ok v m')
      (falsy : v.isTruthy = false) :
      Starts turns ⟨room + 1, .execute (.ifElse condition thenBranch (some elseBranch)) f, m⟩
        ⟨room, .execute elseBranch f, m'⟩
  | loop {room condition body f m} :
      Starts turns ⟨room + 1, .execute (.loop condition body) f, m⟩
        ⟨room, .runLoop condition body f, m.note (.executed (Stmt.loop condition body).found)⟩
  | declared {room name superclass methods f m} :
      Starts turns ⟨room + 1, .execute (.classDecl name superclass methods) f, m⟩
        ⟨room, .declareClass name superclass methods f,
          m.note (.executed (Stmt.classDecl name superclass methods).found)⟩
  | returned {room keyword e f m} :
      Starts turns ⟨room + 1, .execute (.ret keyword (some e)) f, m⟩
        ⟨room, .evaluate e f, m.note (.executed (Stmt.ret keyword (some e)).found)⟩

/-- A call of the evaluator makes another one, directly or through others, or is the other one. -/
abbrev Reaches (turns : Nat) : Moment → Moment → Prop :=
  Relation.ReflTransGen (Starts turns)

/-- A call of the evaluator makes a frame by itself, as the run-time frame of a lexical scope. -/
inductive Makes (turns : Nat) : Moment → Scope.Site → FrameId → Prop
  | block {room statements f m} :
      Makes turns ⟨room + 1, .execute (.block statements) f, m⟩ (.block statements) m.frames.size
  | body {room c arguments m} :
      Makes turns ⟨room + 1, .invoke (.closure c) arguments, m⟩ (.body c.decl) m.frames.size
  | initializer {room c arguments m init} (found : c.initializer? = some init) :
      Makes turns ⟨room + 1, .invoke (.cls c) arguments, m⟩ (.receiver init.decl) m.frames.size
  | property {room object name f m i m' method}
      (ran : (evaluate turns room object f).run m = .ok (.object i) m')
      (absent : (m'.fieldsOf i).get? name.lexeme = none)
      (found : i.ofClass.findMethod? name.lexeme = some method) :
      Makes turns ⟨room + 1, .evaluate (.getField object name) f, m⟩ (.receiver method.decl)
        m'.frames.size
  | super {room keyword name f m c hops receiver method}
      (parent : m.frames.getAt f (hops : Nat) "super" = .ok (.cls c))
      (this : m.frames.getAt f ((hops : Int) - 1) "this" = .ok receiver)
      (found : c.findMethod? name.lexeme = some method) :
      Makes turns ⟨room + 1, .evaluate (.super keyword name (some hops)) f, m⟩
        (.receiver method.decl) m.frames.size
  | parent {room name parent methods f m c m'}
      (ran : (evaluate turns room parent.value f).run m = .ok (.cls c) m') :
      Makes turns ⟨room + 1, .declareClass name (some parent) methods f, m⟩
        (.parent name methods) m'.frames.size

end Execution
end Arbor
