import Arbor.Proofs.Execution.Formed
import Arbor.Proofs.Execution.Moment

/-!
# Runs of well-formed statements

The evaluator, started on a well-formed tree in a frame that is there, keeps a machine well-formed
and blames no tree.  It goes from nodes to their parts, which are well-formed if the node is, and
from calls to the bodies of functions, which are if the machine is.  Since all calls that a run makes
are of these two kinds, each of them is about well-formed trees, on a machine that holds well-formed
functions only.

## Main definitions

* `Sturdy`: what every function of the evaluator keeps to.
* `Task.Formed`, `Moment.Formed`: calls about well-formed trees.

## Main statements

* `Sturdy.all`: the whole evaluator keeps to it, with any room.
* `Moment.Formed.starts`, `Moment.Formed.reaches`: the calls that a call makes.
-/

namespace Arbor
namespace Execution

open Eval Stateful Scope

variable {n : Nat}

/-! ### Sequences, loops and calls -/

section Parts

/-- Statements in order keep the machine well-formed, and what they complete with is well-formed. -/
theorem formed_inOrder {run : Stmt → Eval Completion} : ∀ {statements : List Stmt},
    (∀ s ∈ statements, KeepsFormed n (run s) Completion.Formed) →
      KeepsFormed n (inOrder run statements) Completion.Formed
  | [], _ => .pure fun _ _ => trivial
  | s :: rest, each => by
    refine (each s List.mem_cons_self).bind fun completion _ more formed => ?_
    cases completion with
    | normal =>
      exact (formed_inOrder fun s mem => each s (List.mem_cons_of_mem _ mem)).later more
    | _ => exact .pure fun _ more' => Completion.Formed.mono formed more'

/-- Arguments are well-formed, each of them also on the machine that the later ones have left
behind. -/
theorem formed_allValues {value : Expr → Eval Value} : ∀ {es : List Expr},
    (∀ e ∈ es, KeepsFormed n (value e) Value.Formed) →
      KeepsFormed n (allValues value es) fun l vs => ∀ v ∈ vs, v.Formed l
  | [], _ => .pure fun _ _ _ mem => absurd mem List.not_mem_nil
  | e :: rest, each => by
    refine (each e List.mem_cons_self).bind fun first _ more formed => ?_
    have others := (formed_allValues fun e mem => each e (List.mem_cons_of_mem _ mem)).later more
    refine others.bind fun vs _ more' all => .pure fun _ more'' v mem => ?_
    rcases List.mem_cons.mp mem with rfl | mem
    · exact formed.mono (Nat.le_trans more' more'')
    · exact (all v mem).mono more''

/-- A loop comes to what a turn of it comes to, or completes normally.  The induction is on the
turns left, and that they run out blames no tree. -/
theorem formed_repeatWhile {condition : Eval Value} {body : Eval Completion}
    (tested : KeepsFormed n condition Value.Formed) (turn : KeepsFormed n body Completion.Formed) :
    ∀ turns : Nat, KeepsFormed n (repeatWhile condition body turns) Completion.Formed
  | 0 => .throw nofun
  | turns + 1 => by
    refine tested.bind fun value _ more _ => ?_
    split
    · refine (turn.later more).bind fun completion _ more' formed => ?_
      have others := (formed_repeatWhile tested turn turns).later (Nat.le_trans more more')
      cases completion with
      | normal | continued => exact others
      | broke => exact .pure fun _ _ => trivial
      | returned v => exact .pure fun _ more'' => Value.Formed.mono formed more''
    · exact .pure fun _ _ => trivial

theorem formed_catchOverflow (line : Int) {body : Eval Value}
    (inner : KeepsFormed n body Value.Formed) :
    KeepsFormed n (catchOverflow line body) Value.Formed := by
  intro m formed enough
  refine (inner m formed enough).tryCatch fun abort m' _ both => ?_
  cases abort with
  | tooDeep => exact ⟨both.1, nofun⟩
  | _ => exact both

theorem formed_callWith {invoke : Eval Value} (callee : Value) (arguments : List Value)
    (paren : Token) (inner : KeepsFormed n invoke Value.Formed) :
    KeepsFormed n (callWith invoke callee arguments paren) Value.Formed := by
  unfold callWith
  split
  · exact .fail _ _
  · split
    · exact (formed_note _).bind fun _ _ more _ => (formed_catchOverflow _ inner).later more
    · exact .fail _ _

end Parts

/-! ### The walks -/

/-- What every function of the evaluator keeps to on well-formed trees and in frames that are there,
when it has a given room. -/
structure Sturdy (turns room : Nat) : Prop where
  evaluate : ∀ {n : Nat} {e : Expr} {f : FrameId}, f < n → e.Formed Token.Spelled →
    KeepsFormed n (evaluate turns room e f) Value.Formed
  call : ∀ {n : Nat} {callee : Value} {arguments : List Value} (paren : Token), callee.Formed n →
    (∀ v ∈ arguments, v.Formed n) →
    KeepsFormed n (call turns room callee arguments paren) Value.Formed
  invoke : ∀ {n : Nat} {callee : Value} {arguments : List Value}, callee.Formed n →
    (∀ v ∈ arguments, v.Formed n) → KeepsFormed n (invoke turns room callee arguments) Value.Formed
  runBlock : ∀ {n : Nat} {ss : List Stmt} {f : FrameId}, f < n → Stmt.AllFormed Token.Spelled ss →
    KeepsFormed n (runBlock turns room ss f) Completion.Formed
  runLoop : ∀ {n : Nat} {condition : Expr} {body : Stmt} {f : FrameId}, f < n →
    condition.Formed Token.Spelled → body.Formed Token.Spelled →
    KeepsFormed n (runLoop turns room condition body f) Completion.Formed
  declareClass : ∀ {n : Nat} {name : Token} {superclass : Option Superclass}
    {methods : List FunDecl} {f : FrameId}, f < n →
    (Stmt.classDecl name superclass methods).Formed Token.Spelled →
    KeepsFormed n (declareClass turns room name superclass methods f) fun _ _ => True
  execute : ∀ {n : Nat} {s : Stmt} {f : FrameId}, f < n → s.Formed Token.Spelled →
    KeepsFormed n (execute turns room s f) Completion.Formed

/-- A superclass is a name. -/
theorem formed_superclass {parent : Superclass} (formed : parent.Formed Token.Spelled) :
    parent.value.Formed Token.Spelled := by
  obtain ⟨kind, spelled, hops, same⟩ := formed
  rw [same]
  exact ⟨kind, spelled⟩

namespace Sturdy

variable {turns room : Nat} {f : FrameId}

theorem zero (turns : Nat) : Sturdy turns 0 where
  evaluate _ _ := .tooDeep
  call _ _ _ := .tooDeep
  invoke _ _ := .tooDeep
  runBlock _ _ := .tooDeep
  runLoop _ _ _ := .tooDeep
  declareClass _ _ := .tooDeep
  execute _ _ := .tooDeep

/-- One level of evaluation: operators are those that the parser reads, so no value is beyond what
they can be applied to or fail for. -/
theorem evaluate_succ (sturdy : Sturdy turns room) {e : Expr} (there : f < n)
    (formed : e.Formed Token.Spelled) :
    KeepsFormed n (Execution.evaluate turns (room + 1) e f) Value.Formed := by
  have next {e : Expr} (formed : e.Formed Token.Spelled) :
      KeepsFormed n (Execution.evaluate turns room e f) Value.Formed := sturdy.evaluate there formed
  cases e with
  | literal value => exact .value (Value.formed_ofConstant value)
  | grouping inner => exact next formed
  | var name hops => exact formed_lookUp f name hops
  | assign name value hops =>
    have plain := plain_of_spelled formed.1 formed.2.1
    refine (next formed.2.2).bind fun v _ _ new => ?_
    exact (formed_store f hops plain new).bind fun _ _ more _ => .value (new.mono more)
  | unary operator right =>
    refine (next formed.2.2).bind fun v _ _ _ => formed_orFailure operator ?_ ?_
    · exact fun _ => Operator.isPlain_applyUnary
    · exact fun _ => Operator.applyUnary_ne_fault formed.1
  | binary left operator right =>
    refine (next formed.2.2.1).bind fun v _ more _ => ?_
    refine ((next formed.2.2.2).later more).bind fun w _ _ _ => formed_orFailure operator ?_ ?_
    · exact fun _ => Operator.isPlain_applyBinary
    · exact fun _ => Operator.applyBinary_ne_fault formed.1
  | logical left operator right =>
    refine (next formed.2.2.1).bind fun v _ more new => ?_
    split
    · exact .value new
    · exact (next formed.2.2.2).later more
  | call callee paren arguments =>
    refine (next formed.2.2.1).bind fun v _ more new => ?_
    have each := Expr.allFormed_iff.mp formed.2.2.2
    have values := (formed_allValues fun e mem => next (each e mem)).later more
    refine values.bind fun vs _ more' all => ?_
    exact sturdy.call paren (new.mono more') all
  | getField object name =>
    exact (next formed.2.2).bind fun v _ _ new => formed_propertyOf name new
  | setField object name value =>
    refine (next formed.2.2.1).bind fun target _ more _ => ?_
    cases target with
    | object i =>
      refine ((next formed.2.2.2).later more).bind fun v _ _ new => ?_
      exact (formed_setProperty i name.lexeme new).bind fun _ _ more _ => .value (new.mono more)
    | _ => exact .fail _ _
  | this keyword hops => exact formed_lookUp f keyword hops
  | super keyword method hops => exact formed_superMethod f method hops
  | misfit what => exact formed.elim

/-- One level of a call: a function runs in a frame that was just made, and a class makes an
instance of formed methods. -/
theorem invoke_succ (sturdy : Sturdy turns room) {callee : Value} {arguments : List Value}
    (new : callee.Formed n) (all : ∀ v ∈ arguments, v.Formed n) :
    KeepsFormed n (Execution.invoke turns (room + 1) callee arguments) Value.Formed := by
  cases callee with
  | closure c =>
    have function : c.Formed n := new
    refine (formed_newFrame c.frame).bind fun f l more there => ?_
    have arguments_ : ∀ v ∈ arguments, v.Formed l := fun v mem => (all v mem).mono more
    refine (formed_bindParams f (plain_params function.decl) arguments_).bind fun _ _ more' _ => ?_
    have body := sturdy.runBlock (Nat.lt_of_lt_of_le there more') function.decl.body
    exact body.bind fun completion _ _ formed => formed_outcomeOf c formed
  | cls c =>
    have methods : c.Formed n := new
    refine (formed_newInstance methods).bind fun i _ more made => ?_
    split
    · next init found =>
      have bound := formed_bindThis ((methods _ _ found).mono more) made
      refine bound.bind fun bound _ more' function => ?_
      have ran := sturdy.invoke function fun v mem => (all v mem).mono (Nat.le_trans more more')
      exact ran.bind fun _ _ more'' _ => .value (made.mono (Nat.le_trans more' more''))
    · exact .value made
  | native n =>
    cases n
    exact formed_readClock
  | _ => exact .pure fun _ _ => trivial

/-- One level of a class declaration.  What the superclass evaluates to is formed, and so is the
class that is required of it. -/
theorem declareClass_succ (sturdy : Sturdy turns room) {name : Token}
    {superclass : Option Superclass} {methods : List FunDecl} (there : f < n)
    (formed : (Stmt.classDecl name superclass methods).Formed Token.Spelled) :
    KeepsFormed n (Execution.declareClass turns (room + 1) name superclass methods f)
      fun _ _ => True := by
  cases superclass with
  | none =>
    have plain := plain_of_spelled formed.1 formed.2.1
    exact formed_makeClass there plain (fun _ same => by cases same) formed.2.2
  | some parent =>
    have plain := plain_of_spelled formed.1 formed.2.1
    have value := sturdy.evaluate there (formed_superclass formed.2.2.1)
    refine value.bind fun value _ more new => ?_
    refine (formed_requireClass parent.name new).bind fun c _ more' inherited => ?_
    have there' := Nat.lt_of_lt_of_le there (Nat.le_trans more more')
    refine formed_makeClass there' plain (fun other same => ?_) formed.2.2.2
    cases same
    exact inherited

/-- One level of execution, by the form of the statement.  A misfit is not formed, so the statements
that blame the tree are excluded. -/
theorem execute_succ (sturdy : Sturdy turns room) {s : Stmt} (there : f < n)
    (formed : s.Formed Token.Spelled) :
    KeepsFormed n (Execution.execute turns (room + 1) s f) Completion.Formed := by
  refine (formed_note _).bind fun _ n more _ => ?_
  replace there := Nat.lt_of_lt_of_le there more
  have done {l : Nat} : KeepsFormed l (pure Completion.normal) Completion.Formed :=
    .pure fun _ _ => trivial
  cases s with
  | expr e => exact (sturdy.evaluate there formed).bind fun _ _ _ _ => done
  | print e =>
    refine (sturdy.evaluate there formed).bind fun v _ _ _ => ?_
    exact (formed_print v).bind fun _ _ _ _ => done
  | varDecl name initializer =>
    have plain := plain_of_spelled formed.1 formed.2.1
    cases initializer with
    | none =>
      have nothing : Value.Formed n .nil := trivial
      refine (formed_bind plain nothing f).bind fun _ _ _ _ => ?_
      exact (formed_note _).bind fun _ _ _ _ => done
    | some e =>
      refine (sturdy.evaluate there formed.2.2).bind fun v _ _ new => ?_
      refine (formed_bind plain new f).bind fun _ _ _ _ => ?_
      exact (formed_note _).bind fun _ _ _ _ => done
  | block statements =>
    exact (formed_newFrame f).bind fun inner _ _ new => sturdy.runBlock new formed
  | ifElse condition thenBranch elseBranch =>
    cases elseBranch with
    | none =>
      refine (sturdy.evaluate there formed.1).bind fun v _ more _ => ?_
      dsimp only
      split
      · exact (sturdy.execute there formed.2.2).later more
      · exact done
    | some elseBranch =>
      refine (sturdy.evaluate there formed.1).bind fun v _ more _ => ?_
      dsimp only
      split
      · exact (sturdy.execute there formed.2.2.1).later more
      · exact (sturdy.execute there formed.2.2.2.2).later more
  | loop condition body => exact sturdy.runLoop there formed.1 formed.2.2
  | funDecl decl =>
    have named : decl.name.kind = .identifier ∧ decl.name.Spelled := FunDecl.Formed.name formed
    have plain := plain_of_spelled named.1 named.2
    refine (formed_newClosure formed there false).bind fun c _ _ function => ?_
    refine (formed_bind plain function f).bind fun _ _ _ _ => ?_
    exact (formed_note _).bind fun _ _ _ _ => done
  | classDecl name superclass methods =>
    exact (sturdy.declareClass there formed).bind fun _ _ _ _ => done
  | ret keyword e =>
    cases e with
    | none => exact .pure fun _ _ => trivial
    | some e =>
      refine (sturdy.evaluate there formed.2.2).bind fun v _ _ new => ?_
      exact .pure fun _ more => Value.Formed.mono new more
  | brk | cont => exact .pure fun _ _ => trivial
  | bare | misfit => exact formed.elim

/-- One level more, for all walks at once. -/
theorem succ (sturdy : Sturdy turns room) : Sturdy turns (room + 1) where
  evaluate := sturdy.evaluate_succ
  call paren new all := formed_callWith _ _ paren (sturdy.invoke new all)
  invoke := sturdy.invoke_succ
  runBlock there formed :=
    formed_inOrder fun s mem => sturdy.execute there (Stmt.allFormed_iff.mp formed s mem)
  runLoop there condition body :=
    formed_repeatWhile (sturdy.evaluate there condition) (sturdy.execute there body) turns
  declareClass := sturdy.declareClass_succ
  execute := sturdy.execute_succ

/-- All of the evaluator keeps to it, with any room. -/
theorem all (turns : Nat) : ∀ room, Sturdy turns room
  | 0 => zero turns
  | room + 1 => (all turns room).succ

end Sturdy

/-- So do the statements of a program. -/
theorem formed_runAll (turns room : Nat) (there : Machine.globals < n) : ∀ {ss : List Stmt},
    Stmt.AllFormed Token.Spelled ss → KeepsFormed n (runAll turns room ss) fun _ _ => True
  | [], _ => .pure fun _ _ => trivial
  | s :: rest, formed => by
    refine ((Sturdy.all turns room).execute there formed.1).bind fun completion _ more _ => ?_
    split
    · exact (formed_runAll turns room there formed.2).later more
    · exact .fault rfl

/-! ### Calls of the evaluator -/

/-- A task about well-formed trees, with well-formed functions, in a frame that is there. -/
def Task.Formed (n : Nat) : Task → Prop
  | .evaluate e f => f < n ∧ e.Formed Token.Spelled
  | .call callee arguments _ | .invoke callee arguments =>
    callee.Formed n ∧ ∀ v ∈ arguments, v.Formed n
  | .runBlock ss f => f < n ∧ Stmt.AllFormed Token.Spelled ss
  | .runLoop condition body f => f < n ∧ (Stmt.loop condition body).Formed Token.Spelled
  | .declareClass name superclass methods f =>
    f < n ∧ (Stmt.classDecl name superclass methods).Formed Token.Spelled
  | .execute s f => f < n ∧ s.Formed Token.Spelled

/-- A call about well-formed trees, on a machine that holds well-formed functions only. -/
structure Moment.Formed (M : Moment) : Prop where
  machine : M.machine.Formed
  task : M.task.Formed M.machine.frames.size

section Calls

variable {turns room : Nat} {f : FrameId} {m m' : Machine}

/-- What evaluation leaves behind: a well-formed machine in which the frame is still there. -/
theorem formed_of_evaluate {e : Expr} {v : Value} (machine : m.Formed) (there : f < m.frames.size)
    (formed : e.Formed Token.Spelled) (ran : (evaluate turns room e f).run m = .ok v m') :
    m'.Formed ∧ f < m'.frames.size ∧ v.Formed m'.frames.size := by
  obtain ⟨machine', more, value⟩ :=
    ((Sturdy.all turns room).evaluate there formed).of_ok machine (Nat.le_refl _) ran
  exact ⟨machine', Nat.lt_of_lt_of_le there more, value⟩

theorem formed_of_allValues {es : List Expr} {vs : List Value} (machine : m.Formed)
    (there : f < m.frames.size) (formed : ∀ e ∈ es, e.Formed Token.Spelled)
    (ran : (allValues (fun e => evaluate turns room e f) es).run m = .ok vs m') :
    m'.Formed ∧ m.frames.size ≤ m'.frames.size ∧ ∀ v ∈ vs, v.Formed m'.frames.size :=
  have values := formed_allValues fun e mem =>
    (Sturdy.all turns room).evaluate there (formed e mem)
  values.of_ok machine (Nat.le_refl _) ran

/-- After some turns the machine is well-formed, and the frame of the loop is there still.  The
induction is on the turns that were made. -/
theorem Rounds.formed {condition : Expr} {body : Stmt} {n : Nat} (machine : m.Formed)
    (there : f < m.frames.size) (tested : condition.Formed Token.Spelled)
    (turn : body.Formed Token.Spelled) (rounds : Rounds turns room condition body f n m m') :
    m'.Formed ∧ f < m'.frames.size := by
  induction rounds with
  | none => exact ⟨machine, there⟩
  | more before ranCondition truthy ranBody stays ih =>
    obtain ⟨machine₁, there₁⟩ := ih machine there
    obtain ⟨machine₂, there₂, -⟩ := formed_of_evaluate machine₁ there₁ tested ranCondition
    obtain ⟨machine₃, more, -⟩ :=
      ((Sturdy.all turns room).execute there₂ turn).of_ok machine₂ (Nat.le_refl _) ranBody
    exact ⟨machine₃, Nat.lt_of_lt_of_le there₂ more⟩

/-- A call that a call about well-formed trees makes is about well-formed trees.  The trees are
parts of that one, and the machine is well-formed behind each of the calls that come first. -/
theorem Moment.Formed.starts {M M' : Moment} (formed : M.Formed) (starts : Starts turns M M') :
    M'.Formed := by
  obtain ⟨machine, task⟩ := formed
  have noted (event : Event) : (M.machine.note event).Formed := machine.congr rfl rfl
  cases starts with
  | grouping => exact ⟨machine, task⟩
  | assigned => exact ⟨machine, task.1, task.2.2.2⟩
  | operand => exact ⟨machine, task.1, task.2.2.2⟩
  | left => exact ⟨machine, task.1, task.2.2.2.1⟩
  | right ran =>
    obtain ⟨there, -, -, left, right⟩ := task
    obtain ⟨machine', there', -⟩ := formed_of_evaluate machine there left ran
    exact ⟨machine', there', right⟩
  | logicalLeft => exact ⟨machine, task.1, task.2.2.2.1⟩
  | logicalRight ran unsettled =>
    obtain ⟨there, -, -, left, right⟩ := task
    obtain ⟨machine', there', -⟩ := formed_of_evaluate machine there left ran
    exact ⟨machine', there', right⟩
  | callee => exact ⟨machine, task.1, task.2.2.2.1⟩
  | argument ran ranBefore =>
    obtain ⟨there, -, -, callee, arguments⟩ := task
    have each := Expr.allFormed_iff.mp arguments
    obtain ⟨machine₁, there₁, -⟩ := formed_of_evaluate machine there callee ran
    obtain ⟨machine₂, more, -⟩ := formed_of_allValues machine₁ there₁
      (fun e mem => each e (List.mem_append_left _ mem)) ranBefore
    exact ⟨machine₂, Nat.lt_of_lt_of_le there₁ more, each _ (List.mem_append_cons_self ..)⟩
  | called ran ranAll =>
    obtain ⟨there, -, -, callee, arguments⟩ := task
    obtain ⟨machine₁, there₁, value⟩ := formed_of_evaluate machine there callee ran
    obtain ⟨machine₂, more, values⟩ := formed_of_allValues machine₁ there₁
      (Expr.allFormed_iff.mp arguments) ranAll
    exact ⟨machine₂, value.mono more, values⟩
  | object => exact ⟨machine, task.1, task.2.2.2⟩
  | fieldObject => exact ⟨machine, task.1, task.2.2.2.1⟩
  | fieldValue ran =>
    obtain ⟨there, -, -, object, value⟩ := task
    obtain ⟨machine', there', -⟩ := formed_of_evaluate machine there object ran
    exact ⟨machine', there', value⟩
  | invoked fits => exact ⟨noted _, task⟩
  | @body room c arguments m m₁ m₂ g made bound =>
    have function : c.Formed m.frames.size := task.1
    obtain ⟨machine₁, more, there⟩ := (formed_newFrame c.frame).of_ok machine (Nat.le_refl _) made
    have values : ∀ v ∈ arguments, v.Formed m₁.frames.size := fun v mem => (task.2 v mem).mono more
    obtain ⟨machine₂, more', -⟩ := (formed_bindParams g (plain_params function.decl) values).of_ok
      machine₁ (Nat.le_refl _) bound
    exact ⟨machine₂, Nat.lt_of_lt_of_le there more', function.decl.body⟩
  | @initializer room c arguments m i m₁ init bound m₂ made found ran =>
    have methods : c.Formed m.frames.size := task.1
    obtain ⟨machine₁, more, receiver⟩ :=
      (formed_newInstance methods).of_ok machine (Nat.le_refl _) made
    obtain ⟨machine₂, more', function⟩ :=
      (formed_bindThis ((methods _ _ found).mono more) receiver).of_ok machine₁ (Nat.le_refl _) ran
    exact ⟨machine₂, function, fun v mem => (task.2 v mem).mono (Nat.le_trans more more')⟩
  | @statement room before s after f m m' ran =>
    have each := Stmt.allFormed_iff.mp task.2
    have first := formed_inOrder fun s mem =>
      (Sturdy.all turns room).execute task.1 (each s (List.mem_append_left _ mem))
    obtain ⟨machine', more, -⟩ := first.of_ok machine (Nat.le_refl _) ran
    exact ⟨machine', Nat.lt_of_lt_of_le task.1 more, each _ (List.mem_append_cons_self ..)⟩
  | condition some rounds =>
    obtain ⟨there, condition, -, body⟩ := task
    obtain ⟨machine', there'⟩ := rounds.formed machine there condition body
    exact ⟨machine', there', condition⟩
  | turn some rounds tested truthy =>
    obtain ⟨there, condition, -, body⟩ := task
    obtain ⟨machine₁, there₁⟩ := rounds.formed machine there condition body
    obtain ⟨machine₂, there₂, -⟩ := formed_of_evaluate machine₁ there₁ condition tested
    exact ⟨machine₂, there₂, body⟩
  | superclass => exact ⟨machine, task.1, formed_superclass task.2.2.2.1⟩
  | expression => exact ⟨noted _, task⟩
  | printed => exact ⟨noted _, task⟩
  | initial => exact ⟨noted _, task.1, task.2.2.2⟩
  | block made =>
    obtain ⟨machine', -, there⟩ := (formed_newFrame _).of_ok (noted _) (Nat.le_refl _) made
    exact ⟨machine', there, task.2⟩
  | @branchCondition room condition thenBranch elseBranch =>
    cases elseBranch <;> exact ⟨noted _, task.1, task.2.1⟩
  | @thenBranch room condition thenBranch elseBranch f m v m' tested truthy =>
    have parts : condition.Formed Token.Spelled ∧ thenBranch.Formed Token.Spelled := by
      cases elseBranch with
      | none => exact ⟨task.2.1, task.2.2.2⟩
      | some elseBranch => exact ⟨task.2.1, task.2.2.2.1⟩
    obtain ⟨machine', there', -⟩ := formed_of_evaluate (noted _) task.1 parts.1 tested
    exact ⟨machine', there', parts.2⟩
  | elseBranch tested falsy =>
    obtain ⟨there, condition, -, -, -, branch⟩ := task
    obtain ⟨machine', there', -⟩ := formed_of_evaluate (noted _) there condition tested
    exact ⟨machine', there', branch⟩
  | loop => exact ⟨noted _, task⟩
  | declared => exact ⟨noted _, task⟩
  | returned => exact ⟨noted _, task.1, task.2.2.2⟩

/-- So is every call that is made through others. -/
theorem Moment.Formed.reaches {M M' : Moment} (formed : M.Formed) (reaches : Reaches turns M M') :
    M'.Formed := by
  induction reaches with
  | refl => exact formed
  | tail _ starts ih => exact ih.starts starts

end Calls

end Execution
end Arbor
