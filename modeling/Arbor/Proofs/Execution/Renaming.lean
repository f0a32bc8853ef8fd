import Arbor.Proofs.Execution.Simulation

/-!
# Renamed programs run alike

A program and the same program with local variables renamed run in step: they return values that go
with each other or stop for the same reason, print the same lines, and make the same frames.  The
frame of a block or of a function is marked if one of its variables is renamed there, and so the mark
of the frame in which a reference is looked up is the mark by which the reference was renamed.

## Main statements

* `Execution.Simulating.all`: all walks run in step with those over renamed trees.
* `Execution.simulates_runAll`: so do renamed programs.
-/

namespace Arbor
namespace Execution

open Eval Stateful

variable {ρ : Renaming} {W : Marking}

/-! ### Sequences, loops and calls -/

section Parts

variable {marks : List Bool}

/-- Statements run in order in step.  The marking may grow with each of them, so the hypothesis is
about all larger markings and the induction is on the two lists. -/
theorem simulates_inOrder {run run' : Stmt → Eval Completion} {ss ss' : List Stmt}
    (each : ∀ W' s s', W <+: W' → s.Formed ρ.Fits → s.Renamed ρ marks s' →
      Simulates ρ W' (run s) (run' s') (Completion.Renamed ρ))
    (formed : Stmt.AllFormed ρ.Fits ss) (renamed : Stmt.AllRenamed ρ marks ss ss') :
    Simulates ρ W (inOrder run ss) (inOrder run' ss') (Completion.Renamed ρ) := by
  induction ss generalizing W ss' with
  | nil =>
    cases renamed
    exact .pure .normal
  | cons s rest ih =>
    obtain ⟨s', rest', rfl, first, others⟩ := renamed
    refine (each W s s' List.prefix_rfl formed.1 first).bind fun W₁ _ _ grows completions => ?_
    cases completions with
    | normal =>
      exact ih (fun W' s s' further => each W' s s' (grows.trans further)) formed.2 others
    | returned same => exact .pure (.returned same)
    | broke => exact .pure .broke
    | continued => exact .pure .continued

/-- Arguments are evaluated in step, and come to lists of values that go with each other.  Those
that have been evaluated still do when frames are made for the others. -/
theorem simulates_allValues {value value' : Expr → Eval Value} {es : List Expr}
    (each : ∀ W' e, W <+: W' → e.Formed ρ.Fits →
      Simulates ρ W' (value e) (value' (e.rename ρ marks)) (Value.Renamed ρ))
    (formed : Expr.AllFormed ρ.Fits es) :
    Simulates ρ W (allValues value es) (allValues value' (Expr.allRename ρ marks es))
      fun W' => List.Forall₂ (Value.Renamed ρ W') := by
  induction es generalizing W with
  | nil => exact .pure .nil
  | cons e rest ih =>
    refine (each W e List.prefix_rfl formed.1).bind fun W₁ _ _ grows first => ?_
    have others := ih (fun W' e further => each W' e (grows.trans further)) formed.2
    exact others.bind fun W₂ _ _ grows' values => .pure (.cons (first.mono grows') values)

/-- Loops take as many turns on both sides: their conditions are true or false alike, and their
bodies make the same jumps. -/
theorem simulates_repeatWhile {condition condition' : Eval Value} {body body' : Eval Completion}
    (test : ∀ W', W <+: W' → Simulates ρ W' condition condition' (Value.Renamed ρ))
    (turn : ∀ W', W <+: W' → Simulates ρ W' body body' (Completion.Renamed ρ)) (turns : Nat) :
    Simulates ρ W (repeatWhile condition body turns) (repeatWhile condition' body' turns)
      (Completion.Renamed ρ) := by
  induction turns generalizing W with
  | zero => exact .throw (.same _)
  | succ turns ih =>
    refine (test W List.prefix_rfl).bind fun W₁ v v' grows same => ?_
    rw [same.isTruthy]
    split
    · refine (turn W₁ grows).bind fun W₂ _ _ grows' completions => ?_
      have again := ih (fun W' further => test W' ((grows.trans grows').trans further))
        fun W' further => turn W' ((grows.trans grows').trans further)
      cases completions with
      | normal => exact again
      | returned same => exact .pure (.returned same)
      | broke => exact .pure .normal
      | continued => exact again
    · exact .pure .normal

/-- What a call comes to goes with each other.  The receiver that an initializer returns is a
keyword in its frame, and keeps its name there. -/
theorem simulates_outcomeOf {c c' : Closure} (same : c.Renamed ρ W [] c')
    {completion completion' : Completion} (completions : completion.Renamed ρ W completion') :
    Simulates ρ W (outcomeOf c completion) (outcomeOf c' completion') (Value.Renamed ρ) := by
  obtain ⟨marks, chain, -⟩ := same.decl
  unfold outcomeOf
  rw [same.isInitializer, same.frame, same.name]
  split
  · exact simulates_getAt_this chain 0
  · cases completions with
    | normal => exact .pure .nil
    | returned same => exact .pure same
    | broke => exact .throw (.same _)
    | continued => exact .throw (.same _)

/-- A call is refused on both sides, for the same reason and on the same line, or on neither.  What
can be called, and with how many arguments, is not a matter of names. -/
theorem simulates_callWith {invoke invoke' : Eval Value} {callee callee' : Value}
    {arguments arguments' : List Value} (same : callee.Renamed ρ W callee')
    (values : List.Forall₂ (Value.Renamed ρ W) arguments arguments')
    (inner : ∀ W', W <+: W' → Simulates ρ W' invoke invoke' (Value.Renamed ρ)) (paren : Token) :
    Simulates ρ W (callWith invoke callee arguments paren)
      (callWith invoke' callee' arguments' paren) (Value.Renamed ρ) := by
  unfold callWith
  rw [same.arity?, ← values.length_eq]
  cases callee.arity? with
  | none => exact .fail rfl rfl
  | some expected =>
    dsimp only
    split
    · exact (simulates_note _ _).bind fun W' _ _ grows _ => .catchOverflow _ (inner W' grows)
    · exact .fail rfl rfl

/-- An operator returns plain values, which go with themselves. -/
theorem simulates_orFailure {result : Except Operator.Failure Value}
    (plain : ∀ v, result = .ok v → v.isPlain = true) (operator : Token) :
    Simulates ρ W (orFailure operator result) (orFailure operator result) (Value.Renamed ρ) := by
  cases result with
  | ok v => exact .pure (.of_plain (plain v rfl))
  | error failure => cases failure <;> exact .throw (.same _)

end Parts

/-! ### The walks -/

/-- All walks with a given room run in step with those over renamed trees. -/
structure Simulating (ρ : Renaming) (turns room : Nat) : Prop where
  evaluate : ∀ {W : Marking} {f : FrameId} {marks : List Bool} {e : Expr}, W.Chain f marks →
    e.Formed ρ.Fits → Simulates ρ W (evaluate turns room e f)
      (evaluate turns room (e.rename ρ marks) f) (Value.Renamed ρ)
  call : ∀ {W : Marking} {callee callee' : Value} {arguments arguments' : List Value},
    callee.Renamed ρ W callee' → List.Forall₂ (Value.Renamed ρ W) arguments arguments' →
    ∀ paren, Simulates ρ W (call turns room callee arguments paren)
      (call turns room callee' arguments' paren) (Value.Renamed ρ)
  invoke : ∀ {W : Marking} {callee callee' : Value} {arguments arguments' : List Value},
    callee.Renamed ρ W callee' → List.Forall₂ (Value.Renamed ρ W) arguments arguments' →
    Simulates ρ W (invoke turns room callee arguments) (invoke turns room callee' arguments')
      (Value.Renamed ρ)
  runBlock : ∀ {W : Marking} {f : FrameId} {marks : List Bool} {ss ss' : List Stmt},
    W.Chain f marks → Stmt.AllFormed ρ.Fits ss → Stmt.AllRenamed ρ marks ss ss' →
    Simulates ρ W (runBlock turns room ss f) (runBlock turns room ss' f) (Completion.Renamed ρ)
  runLoop : ∀ {W : Marking} {f : FrameId} {marks : List Bool} {condition : Expr} {body body' : Stmt},
    W.Chain f marks → condition.Formed ρ.Fits → body.Formed ρ.Fits → body.Renamed ρ marks body' →
    Simulates ρ W (runLoop turns room condition body f)
      (runLoop turns room (condition.rename ρ marks) body' f) (Completion.Renamed ρ)
  declareClass : ∀ {W : Marking} {f : FrameId} {marks : List Bool} {name : Token}
    {superclass : Option Superclass} {methods methods' : List FunDecl}, W.Chain f marks →
    ρ.Fits name → ρ.Keeps (marks.headD false) name →
    (∀ parent, superclass = some parent → parent.Formed ρ.Fits) →
    FunDecl.AllFormed ρ.Fits methods →
    FunDecl.AllRenamed ρ (false :: superclass.elim marks fun _ => false :: marks) methods methods' →
    Simulates ρ W (declareClass turns room name superclass methods f)
      (declareClass turns room name (superclass.map (Superclass.rename ρ marks)) methods' f)
      fun _ _ _ => True
  execute : ∀ {W : Marking} {f : FrameId} {marks : List Bool} {s s' : Stmt}, W.Chain f marks →
    s.Formed ρ.Fits → s.Renamed ρ marks s' →
    Simulates ρ W (execute turns room s f) (execute turns room s' f) (Completion.Renamed ρ)

namespace Simulating

variable {turns room : Nat} {f : FrameId} {marks : List Bool}

/-- Without room the walks stop for the same reason. -/
theorem zero : Simulating ρ turns 0 where
  evaluate _ _ := .throw (.same _)
  call _ _ _ := .throw (.same _)
  invoke _ _ := .throw (.same _)
  runBlock _ _ _ := .throw (.same _)
  runLoop _ _ _ _ := .throw (.same _)
  declareClass _ _ _ _ _ _ := .throw (.same _)
  execute _ _ _ := .throw (.same _)

/-- One level of evaluation.  A reference was renamed by the mark of the frame that its distance
leads to, which is the frame in which both sides look. -/
theorem evaluate_succ (walks : Simulating ρ turns room) {e : Expr} (chain : W.Chain f marks)
    (formed : e.Formed ρ.Fits) :
    Simulates ρ W (Execution.evaluate turns (room + 1) e f)
      (Execution.evaluate turns (room + 1) (e.rename ρ marks) f) (Value.Renamed ρ) := by
  cases e with
  | literal value => exact .pure (.ofConstant value)
  | grouping inner => exact walks.evaluate chain formed
  | var name hops => exact simulates_lookUp chain formed.2 hops
  | assign name value hops =>
    refine (walks.evaluate chain formed.2.2).bind fun W₁ _ _ grows values => ?_
    refine (simulates_store (chain.mono grows) formed.2.1 values hops).bind fun W₂ _ _ grows' _ => ?_
    exact .pure (values.mono grows')
  | unary operator right =>
    refine (walks.evaluate chain formed.2.2).bind fun W₁ _ _ grows values => ?_
    rw [values.applyUnary]
    exact simulates_orFailure (fun _ => Operator.isPlain_applyUnary) operator
  | binary left operator right =>
    refine (walks.evaluate chain formed.2.2.1).bind fun W₁ _ _ grows lefts => ?_
    refine (walks.evaluate (chain.mono grows) formed.2.2.2).bind fun W₂ _ _ grows' rights => ?_
    rw [(lefts.mono grows').applyBinary rights]
    exact simulates_orFailure (fun _ => Operator.isPlain_applyBinary) operator
  | logical left operator right =>
    refine (walks.evaluate chain formed.2.2.1).bind fun W₁ v v' grows lefts => ?_
    have settled : settles operator v' = settles operator v := by
      unfold settles
      rw [lefts.isTruthy]
    rw [settled]
    split
    · exact .pure lefts
    · exact walks.evaluate (chain.mono grows) formed.2.2.2
  | call callee paren arguments =>
    refine (walks.evaluate chain formed.2.2.1).bind fun W₁ _ _ grows callees => ?_
    have values : Simulates ρ W₁ (allValues (fun e => Execution.evaluate turns room e f) arguments)
        (allValues (fun e => Execution.evaluate turns room e f) (Expr.allRename ρ marks arguments))
        fun W' => List.Forall₂ (Value.Renamed ρ W') :=
      simulates_allValues (fun _ _ further => walks.evaluate ((chain.mono grows).mono further))
        formed.2.2.2
    exact values.bind fun W₂ _ _ grows' values => walks.call (callees.mono grows') values paren
  | getField object name =>
    refine (walks.evaluate chain formed.2.2).bind fun W₁ _ _ grows objects => ?_
    exact simulates_propertyOf objects name
  | setField object name value =>
    refine (walks.evaluate chain formed.2.2.1).bind fun W₁ _ _ grows objects => ?_
    cases objects with
    | object same =>
      refine (walks.evaluate (chain.mono grows) formed.2.2.2).bind fun W₂ _ _ grows' values => ?_
      refine (simulates_setProperty rfl name.lexeme values).bind fun W₃ _ _ grows'' _ => ?_
      exact .pure (values.mono grows'')
    | _ => exact .fail rfl rfl
  | this keyword hops =>
    exact simulates_lookUp_this chain (formed.2.spelled.this formed.1) hops
  | super keyword method hops => exact simulates_superMethod chain method hops
  | misfit what => exact formed.elim

/-- One level of invocation.  The frame of the call is marked if the function declares the variable,
and its body was renamed with that mark in front. -/
theorem invoke_succ (walks : Simulating ρ turns room) {callee callee' : Value}
    {arguments arguments' : List Value} (same : callee.Renamed ρ W callee')
    (values : List.Forall₂ (Value.Renamed ρ W) arguments arguments') :
    Simulates ρ W (Execution.invoke turns (room + 1) callee arguments)
      (Execution.invoke turns (room + 1) callee' arguments') (Value.Renamed ρ) := by
  cases same with
  | @closure c c' same =>
    obtain ⟨marks, chain, renamed⟩ := same.decl
    obtain ⟨here, params, bodies⟩ := renamed.inside
    -- the frame of the body is marked if a variable of the function is renamed
    have made : Simulates ρ W (newFrame c.frame) (newFrame c'.frame)
        fun W' g g' => g' = g ∧ W'.Chain g (here :: marks) := by
      rw [same.frame]
      exact simulates_newFrame chain here
    refine made.bind ?_
    rintro W₁ g _ grows₁ ⟨rfl, inner⟩
    have fit : ∀ param ∈ c.decl.params, ρ.Fits param :=
      fun param mem => (same.formed.params param mem).2
    have arguments₁ := values.imp fun _ _ older => older.mono grows₁
    rw [params]
    refine (simulates_bindParams fit inner arguments₁).bind fun W₂ _ _ grows₂ _ => ?_
    refine (walks.runBlock (inner.mono grows₂) same.formed.body bodies).bind ?_
    intro W₃ _ _ grows₃ completions
    exact simulates_outcomeOf (same.mono ((grows₁.trans grows₂).trans grows₃)) completions
  | @cls c c' same =>
    refine (simulates_newInstance same).bind fun W₁ made made' grows instances => ?_
    have initializers := (same.mono grows).findMethod? "init"
    unfold Class.initializer?
    generalize c.findMethod? "init" = init at initializers
    generalize c'.findMethod? "init" = init' at initializers
    cases initializers with
    | some methods =>
      refine (simulates_bindThis methods instances).bind fun W₂ _ _ grows' bound => ?_
      have arguments₂ := values.imp fun _ _ older => older.mono (grows.trans grows')
      refine (walks.invoke (.closure bound) arguments₂).bind fun W₃ _ _ grows'' _ => ?_
      exact .pure (instances.mono (grows'.trans grows''))
    | none => exact .pure instances
  | native n =>
    cases n
    exact simulates_readClock
  | _ => exact .pure .nil

/-- One level of a class declaration, whose methods were renamed with one or two unmarked frames in
front: those of the receiver and of the superclass. -/
theorem declareClass_succ (walks : Simulating ρ turns room) {name : Token}
    {superclass : Option Superclass} {methods methods' : List FunDecl} (chain : W.Chain f marks)
    (fits : ρ.Fits name) (keeps : ρ.Keeps (marks.headD false) name)
    (parents : ∀ parent, superclass = some parent → parent.Formed ρ.Fits)
    (formed : FunDecl.AllFormed ρ.Fits methods)
    (renamed : FunDecl.AllRenamed ρ (false :: superclass.elim marks fun _ => false :: marks)
      methods methods') :
    Simulates ρ W (Execution.declareClass turns (room + 1) name superclass methods f)
      (Execution.declareClass turns (room + 1) name (superclass.map (Superclass.rename ρ marks))
        methods' f) fun _ _ _ => True := by
  cases superclass with
  | none => exact simulates_makeClass chain fits keeps .none formed renamed
  | some parent =>
    obtain ⟨kind, fine, hops, value⟩ := parents parent rfl
    have valueFormed : parent.value.Formed ρ.Fits := by
      rw [value]
      exact ⟨kind, fine⟩
    refine (walks.evaluate chain valueFormed).bind fun W₁ _ _ grows values => ?_
    have line : (parent.rename ρ marks).name.line = parent.name.line := Renaming.token_line _ _
    refine (simulates_requireClass line values).bind fun W₂ _ _ grows' classes => ?_
    exact simulates_makeClass (chain.mono (grows.trans grows')) fits keeps (.some classes) formed
      renamed

/-- One level of execution, by the form of the statement.  A block makes a frame whose mark says
whether the variable is declared right in it. -/
theorem execute_succ (walks : Simulating ρ turns room) {s s' : Stmt} (chain : W.Chain f marks)
    (formed : s.Formed ρ.Fits) (renamed : s.Renamed ρ marks s') :
    Simulates ρ W (Execution.execute turns (room + 1) s f)
      (Execution.execute turns (room + 1) s' f) (Completion.Renamed ρ) := by
  refine (simulates_note _ _).bind fun W₀ _ _ grows₀ _ => ?_
  replace chain := chain.mono grows₀
  cases s with
  | expr e =>
    cases renamed
    exact (walks.evaluate chain formed).bind fun _ _ _ _ _ => .pure .normal
  | print e =>
    cases renamed
    refine (walks.evaluate chain formed).bind fun W₁ _ _ grows values => ?_
    exact (simulates_print values).bind fun _ _ _ _ _ => .pure .normal
  | varDecl name initializer =>
    cases renamed
    cases initializer with
    | none =>
      refine (simulates_define_token chain formed.2.1 .nil).bind fun W₁ _ _ grows _ => ?_
      exact (simulates_note _ _).bind fun _ _ _ _ _ => .pure .normal
    | some e =>
      refine (walks.evaluate chain formed.2.2).bind fun W₁ _ _ grows values => ?_
      refine (simulates_define_token (chain.mono grows) formed.2.1 values).bind ?_
      intro W₂ _ _ grows' _
      exact (simulates_note _ _).bind fun _ _ _ _ _ => .pure .normal
  | block statements =>
    obtain ⟨here, statements', rfl, bodies⟩ := renamed
    refine (simulates_newFrame chain here).bind ?_
    rintro W₁ g _ grows ⟨rfl, inner⟩
    exact walks.runBlock inner formed bodies
  | ifElse condition thenBranch elseBranch =>
    cases elseBranch with
    | none =>
      obtain ⟨thenBranch', rfl, branches⟩ := renamed
      refine (walks.evaluate chain formed.1).bind fun W₁ _ _ grows values => ?_
      rw [values.isTruthy]
      split
      · exact walks.execute (chain.mono grows) formed.2.2 branches
      · exact .pure .normal
    | some elseBranch =>
      obtain ⟨thenBranch', elseBranch', rfl, thens, elses⟩ := renamed
      refine (walks.evaluate chain formed.1).bind fun W₁ _ _ grows values => ?_
      rw [values.isTruthy]
      split
      · exact walks.execute (chain.mono grows) formed.2.2.1 thens
      · exact walks.execute (chain.mono grows) formed.2.2.2.2 elses
  | loop condition body =>
    obtain ⟨body', rfl, bodies⟩ := renamed
    exact walks.runLoop chain formed.1 formed.2.2 bodies
  | funDecl decl =>
    obtain ⟨decl', rfl, keeps, decls⟩ := renamed
    refine (simulates_newClosure [] chain formed decls false).bind fun W₁ _ _ grows same => ?_
    have kept := keeps.perm formed.name.2.fresh
    have defined := simulates_define (chain.mono grows) decl.name.lexeme (.closure same)
    rw [kept] at defined
    rw [decls.same.1]
    refine defined.bind fun W₂ _ _ grows' _ => ?_
    exact (simulates_note _ _).bind fun _ _ _ _ _ => .pure .normal
  | classDecl name superclass methods =>
    cases superclass with
    | none =>
      obtain ⟨methods', rfl, keeps, each⟩ := renamed
      have parents : ∀ other, (none : Option Superclass) = some other → other.Formed ρ.Fits :=
        fun _ none => nomatch none
      have declared := walks.declareClass chain formed.2.1 keeps parents formed.2.2 each
      exact declared.bind fun _ _ _ _ _ => .pure .normal
    | some parent =>
      obtain ⟨methods', rfl, keeps, each⟩ := renamed
      have parents : ∀ other, some parent = some other → other.Formed ρ.Fits := by
        rintro _ ⟨⟩
        exact formed.2.2.1
      have declared := walks.declareClass chain formed.2.1 keeps parents formed.2.2.2 each
      exact declared.bind fun _ _ _ _ _ => .pure .normal
  | ret keyword value =>
    cases renamed
    cases value with
    | none => exact .pure (.returned .nil)
    | some e =>
      exact (walks.evaluate chain formed.2.2).bind fun _ _ _ _ values => .pure (.returned values)
  | brk keyword =>
    cases renamed
    exact .pure .broke
  | cont keyword =>
    cases renamed
    exact .pure .continued
  | bare e => exact formed.elim
  | misfit what => exact formed.elim

/-- One level more, for all walks at once.  Each walk may have made frames when the next one begins,
so all of them are stated for markings that have grown. -/
theorem succ (walks : Simulating ρ turns room) : Simulating ρ turns (room + 1) where
  evaluate := walks.evaluate_succ
  call same values paren := simulates_callWith same values (fun _ grows =>
    walks.invoke (same.mono grows) (values.imp fun _ _ older => older.mono grows)) paren
  invoke := walks.invoke_succ
  runBlock chain formed renamed := simulates_inOrder
    (fun _ _ _ grows sFormed sRenamed => walks.execute (chain.mono grows) sFormed sRenamed)
    formed renamed
  runLoop chain conditionFormed formed renamed := simulates_repeatWhile
    (fun _ grows => walks.evaluate (chain.mono grows) conditionFormed)
    (fun _ grows => walks.execute (chain.mono grows) formed renamed) turns
  declareClass := walks.declareClass_succ
  execute := walks.execute_succ

/-- The walks run in step at every room, by induction on it. -/
theorem all (ρ : Renaming) (turns room : Nat) : Simulating ρ turns room := by
  induction room with
  | zero => exact zero
  | succ room ih => exact ih.succ

end Simulating

/-- A renamed program runs in step with the program.  The induction is on the statements; after each
the completions have the same form, so both go on or both end. -/
theorem simulates_runAll (turns room : Nat) {ss ss' : List Stmt} (chain : W.Chain Machine.globals [])
    (formed : Stmt.AllFormed ρ.Fits ss) (renamed : Stmt.AllRenamed ρ [] ss ss') :
    Simulates ρ W (runAll turns room ss) (runAll turns room ss') fun _ _ _ => True := by
  induction ss generalizing W ss' with
  | nil =>
    cases renamed
    exact .pure trivial
  | cons s rest ih =>
    obtain ⟨s', rest', rfl, first, others⟩ := renamed
    refine ((Simulating.all ρ turns room).execute chain formed.1 first).bind ?_
    intro W₁ completion completion' grows completions
    rw [completions.jump?]
    cases completion.jump? with
    | none => exact ih (chain.mono grows) formed.2 others
    | some jump => exact .throw (.same _)

end Execution
end Arbor
