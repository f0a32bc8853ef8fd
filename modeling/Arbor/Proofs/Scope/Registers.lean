import Arbor.Scope

/-!
# Resolution with registers

What surrounds a place can be handed down to it, or it can be kept in registers, which are set on the
way in and set back on the way out.  This module has the walk that keeps registers.  The registers
are the innermost function, the innermost class, and how many loops of that function are around the
place.  An expression only reads them.

Walks of the two kinds do the same, and a walk leaves the registers as it found them.

## Main definitions

* `Registers`: what is kept, and what it says about the current place.
* `Keeping`: walks that keep registers.

## Main statements

* `Keeping.run_stmts`: statements are resolved alike, and the registers are set back.
-/

namespace Arbor
namespace Scope

/-- What surrounds the current place, apart from scopes. -/
structure Registers where
  function : Option FunctionKind := none
  inClass : Option ClassKind := none
  /-- How many loops of the innermost function are around the place. -/
  loops : Nat := 0

/-- What the registers say about the current place. -/
def Registers.context (r : Registers) : Context where
  function := r.function
  inClass := r.inClass
  inLoop := !(r.loops == 0)

namespace Registers

variable {function : Option FunctionKind} {inClass : Option ClassKind} {loops : Nat}

/-- The place is in a loop if the count of loops is not zero. -/
@[simp] theorem context_mk :
    (⟨function, inClass, loops⟩ : Registers).context = ⟨function, inClass, !(loops == 0)⟩ :=
  rfl

@[simp] theorem function_context (r : Registers) : r.context.function = r.function :=
  rfl

@[simp] theorem inClass_context (r : Registers) : r.context.inClass = r.inClass :=
  rfl

@[simp] theorem inLoop_context (r : Registers) : r.context.inLoop = !(r.loops == 0) :=
  rfl

end Registers

/-- A walk that keeps registers beside its state. -/
abbrev Keeping := StateT Registers Resolve

namespace Keeping

/-- Runs `body` inside a new scope with some names ready. -/
def within {α : Type} (ready : List String) (body : Keeping α) : Keeping α :=
  fun r => Scope.within ready (body.run r)

/-- Resolves an expression. -/
def expr (e : Expr) : Keeping Expr := do
  let r ← get
  Scope.expr r.context e

/-- Resolves an expression that may be left out. -/
def expr? : Option Expr → Keeping (Option Expr)
  | none => pure none
  | some e => some <$> expr e

/-- Resolves the superclass of a class, which is a derived one from here on. -/
def superclass (name : Token) (parent : Superclass) : Keeping Superclass := do
  reportIf (parent.name.lexeme == name.lexeme) parent.name .inheritsFromItself
  modify fun r => { r with inClass := some .derived }
  return { parent with value := ← expr parent.value }

mutual

/-- Resolves a statement. -/
def stmt : Stmt → Keeping Stmt
  | .expr expression => return .expr (← expr expression)
  | .print expression => return .print (← expr expression)
  | .varDecl name initializer => do
    declare name
    let initializer ← expr? initializer
    define name
    pure (.varDecl name initializer)
  | .block statements => return .block (← within [] (stmts statements))
  | .ifElse condition thenBranch none => do
    let condition ← expr condition
    return .ifElse condition (← stmt thenBranch) none
  | .ifElse condition thenBranch (some elseBranch) => do
    let condition ← expr condition
    let thenBranch ← stmt thenBranch
    return .ifElse condition thenBranch (some (← stmt elseBranch))
  | .loop condition body => do
    let condition ← expr condition
    modify fun r => { r with loops := r.loops + 1 }
    let body ← stmt body
    modify fun r => { r with loops := r.loops - 1 }
    pure (.loop condition body)
  | .funDecl decl => do
    declare decl.name
    define decl.name
    return .funDecl (← function .function decl)
  | .classDecl name none members => do
    let enclosing ← get
    modify fun r => { r with inClass := some .plain }
    declare name
    define name
    let members ← within ["this"] (methods members)
    modify fun r => { r with inClass := enclosing.inClass }
    pure (.classDecl name none members)
  | .classDecl name (some parent) members => do
    let enclosing ← get
    modify fun r => { r with inClass := some .plain }
    declare name
    define name
    let parent ← superclass name parent
    let members ← within ["super"] (within ["this"] (methods members))
    modify fun r => { r with inClass := enclosing.inClass }
    pure (.classDecl name (some parent) members)
  | .ret keyword value => do
    let r ← get
    reportIf r.function.isNone keyword .returnAtTop
    reportIf (value.isSome && r.function == some .initializer) keyword .returnFromInitializer
    return .ret keyword (← expr? value)
  | .brk keyword => do
    let r ← get
    reportIf (r.loops == 0) keyword .breakOutsideLoop
    pure (.brk keyword)
  | .cont keyword => do
    let r ← get
    reportIf (r.loops == 0) keyword .continueOutsideLoop
    pure (.cont keyword)
  | .bare expression => return .bare (← expr expression)
  | .misfit what => throw (.ofMisfit .resolve what)

/-- Resolves statements in order. -/
def stmts : List Stmt → Keeping (List Stmt)
  | [] => pure []
  | s :: rest => do
    let s ← stmt s
    return s :: (← stmts rest)

/-- Resolves a function.  In its body no loop is around a place yet. -/
def function (kind : FunctionKind) : FunDecl → Keeping FunDecl
  | ⟨name, params, body⟩ => do
    let enclosing ← get
    modify fun r => { r with function := some kind, loops := 0 }
    let body ← within [] (do
      declareAll params
      stmts body)
    modify fun r => { r with function := enclosing.function, loops := enclosing.loops }
    pure ⟨name, params, body⟩

/-- Resolves the methods of a class in order. -/
def methods : List FunDecl → Keeping (List FunDecl)
  | [] => pure []
  | decl :: rest => do
    let decl ← function (methodKind decl.name) decl
    return decl :: (← methods rest)

end

/-! ### What a walk does to the registers -/

variable {α : Type} {r : Registers}

/-- A scope is opened and closed without a look at the registers. -/
theorem run_within {ready : List String} {body : Keeping α} {body' : Resolve α}
    (same : body.run r = (·, r) <$> body') :
    (within ready body).run r = (·, r) <$> Scope.within ready body' := by
  change Scope.within ready (body.run r) = _
  rw [same]
  simp [Scope.within]

/-- An expression reads the registers and leaves them. -/
theorem run_expr (e : Expr) (r : Registers) :
    (expr e).run r = (·, r) <$> Scope.expr r.context e := by
  simp [expr]

theorem run_expr? (e? : Option Expr) (r : Registers) :
    (expr? e?).run r = (·, r) <$> Scope.expr? r.context e? := by
  cases e? with
  | none => simp [expr?, Scope.expr?]
  | some e => simp [expr?, Scope.expr?, run_expr]

/-- Whatever the class was before, it is a derived one from here on. -/
theorem run_superclass (name : Token) (parent : Superclass) (r : Registers)
    (before : Option ClassKind) :
    (superclass name parent).run { r with inClass := before } =
      (·, { r with inClass := some .derived }) <$> Scope.superclass r.context name parent := by
  simp [superclass, Scope.superclass, run_expr]

mutual

/-- A statement is resolved in the context that the registers describe, and leaves them as they
were.  So each function that sets a register for its body may as well pass a changed context to
it. -/
theorem run_stmt : ∀ (st : Stmt) (r : Registers),
    (stmt st).run r = (·, r) <$> Scope.stmt r.context st
  | .expr e, r => by simp [stmt, Scope.stmt, run_expr]
  | .print e, r => by simp [stmt, Scope.stmt, run_expr]
  | .varDecl name e?, r => by simp [stmt, Scope.stmt, run_expr?]
  | .block statements, r => by simp [stmt, Scope.stmt, run_within (run_stmts statements r)]
  | .ifElse condition thenBranch none, r => by
    simp [stmt, Scope.stmt, run_expr, run_stmt thenBranch]
  | .ifElse condition thenBranch (some elseBranch), r => by
    simp [stmt, Scope.stmt, run_expr, run_stmt thenBranch, run_stmt elseBranch]
  | .loop condition body, r => by
    have inside := run_stmt body { r with loops := r.loops + 1 }
    simp [stmt, Scope.stmt, run_expr, inside]
  | .funDecl decl, r => by simp [stmt, Scope.stmt, run_function .function decl]
  | .classDecl name none members, r => by
    let inner : Registers := { r with inClass := some .plain }
    have inside : (within ["this"] (methods members)).run inner =
        (·, inner) <$> Scope.within ["this"] (Scope.methods inner.context members) :=
      run_within (run_methods members inner)
    simp [stmt, Scope.stmt, inside, inner]
  | .classDecl name (some parent) members, r => by
    let inner : Registers := { r with inClass := some .derived }
    have inside : (within ["super"] (within ["this"] (methods members))).run inner =
        (·, inner) <$> Scope.within ["super"] (Scope.within ["this"]
          (Scope.methods inner.context members)) :=
      run_within (run_within (run_methods members inner))
    simp [stmt, Scope.stmt, run_superclass, inside, inner]
  | .ret keyword value, r => by simp [stmt, Scope.stmt, run_expr?]
  | .brk keyword, r => by simp [stmt, Scope.stmt]
  | .cont keyword, r => by simp [stmt, Scope.stmt]
  | .bare e, r => by simp [stmt, Scope.stmt, run_expr]
  | .misfit what, r => rfl

/-- Statements in order do the same with registers and without, one after the other. -/
theorem run_stmts : ∀ (sts : List Stmt) (r : Registers),
    (stmts sts).run r = (·, r) <$> Scope.stmts r.context sts
  | [], r => by simp [stmts, Scope.stmts]
  | st :: rest, r => by simp [stmts, Scope.stmts, run_stmt st, run_stmts rest]

/-- A function sets the registers for its body, and sets them back to what it found.  The loops
around it do not reach inside, which is why their number is kept and put back. -/
theorem run_function : ∀ (kind : FunctionKind) (decl : FunDecl) (r : Registers),
    (function kind decl).run r = (·, r) <$> Scope.function r.context kind decl
  | kind, ⟨name, params, body⟩, r => by
    let inner : Registers := { r with function := some kind, loops := 0 }
    have inside : (do declareAll params; stmts body : Keeping (List Stmt)).run inner =
        (·, inner) <$> (do declareAll params; Scope.stmts inner.context body) := by
      simp [run_stmts body]
    simp [function, Scope.function, run_within inside, inner]

/-- The methods of a class do the same, each between equal registers. -/
theorem run_methods : ∀ (decls : List FunDecl) (r : Registers),
    (methods decls).run r = (·, r) <$> Scope.methods r.context decls
  | [], r => by simp [methods, Scope.methods]
  | decl :: rest, r => by simp [methods, Scope.methods, run_function _ decl, run_methods rest]

end

end Keeping
end Scope
end Arbor
