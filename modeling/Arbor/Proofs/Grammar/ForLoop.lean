import Arbor.Proofs.Grammar.Completeness
import Arbor.Proofs.Grammar.Soundness

/-!
# A `for` loop is its `while` form

A `for` loop has no node of its own.  What is read for

    for ( I C? ; E? ) B

is the tree that is read for

    { I while ( C ) { B E ; } }

where `true` stands for a condition that is left out, the inner braces are there only if `E` is, and
the outer ones only if `I` is more than a semicolon.

The parts stand in front of other tokens in the two forms: a condition in front of a semicolon or of
a parenthesis, a body in front of whatever follows the loop, of `E`, or of a brace.  They are read
alike because a derivation does not depend on what stands behind its tokens.  Only an `else` behind
the whole matters, if the body ends in an `if` that would take it.

## Main definitions

* `Grammar.ForParts`: the parts of a `for` loop and what is derived from them.
* `Grammar.ForParts.whileForm`: the same parts in a `while` loop.

## Main statements

* `Grammar.forStmt_eq_whileForm`: both forms are read as the same tree.
-/

namespace Arbor
namespace Grammar

open Stateful

/-! ### The two forms -/

/-- The parts of a `for` loop behind its keyword, `( I C? ; E? ) B`, with the trees they stand for. -/
structure ForParts where
  opening : Token
  start : List Token
  condition : List Token
  semicolon : Token
  step : List Token
  closing : Token
  body : List Token
  start? : Option Stmt
  condition? : Option Expr
  step? : Option Expr
  isOpen : Bool
  turn : Stmt
  isOpening : opening.kind = .leftParen
  starts : DerivesInitializer start start?
  tests : DerivesOptional condition condition?
  ends : semicolon.kind = .semicolon
  steps : DerivesOptional step step?
  isClosing : closing.kind = .rightParen
  turns : (Clause.statement isOpen).Derives body turn

/-- The words and signs a `while` form is written with besides the parts of the `for` loop. -/
structure Signs where
  keyword : Token
  opening : Token
  truth : Token
  closing : Token
  semicolon : Token
  outerLeft : Token
  outerRight : Token
  innerLeft : Token
  innerRight : Token
  isKeyword : keyword.kind = .kwWhile
  isOpening : opening.kind = .leftParen
  isTruth : truth.kind = .kwTrue
  isClosing : closing.kind = .rightParen
  isSemicolon : semicolon.kind = .semicolon
  isOuterLeft : outerLeft.kind = .leftBrace
  isOuterRight : outerRight.kind = .rightBrace
  isInnerLeft : innerLeft.kind = .leftBrace
  isInnerRight : innerRight.kind = .rightBrace

/-- Nothing but a semicolon. -/
def isBare : List Token → Bool
  | [t] => t.kind == .semicolon
  | _ => false

namespace Signs

/-- What stands between the parentheses of the `while` form. -/
def test (signs : Signs) (condition : List Token) : List Token :=
  if condition.isEmpty then [signs.truth] else condition

/-- The body of the `while` form. -/
def round (signs : Signs) (body step : List Token) : List Token :=
  if step.isEmpty then body
  else signs.innerLeft :: (body ++ (step ++ [signs.semicolon]) ++ [signs.innerRight])

/-- The loop of the `while` form. -/
def loop (signs : Signs) (condition body step : List Token) : List Token :=
  signs.keyword :: signs.opening ::
    (signs.test condition ++ signs.closing :: signs.round body step)

/-- The `while` form. -/
def whileForm (signs : Signs) (start condition body step : List Token) : List Token :=
  if isBare start then signs.loop condition body step
  else signs.outerLeft :: (start ++ signs.loop condition body step ++ [signs.outerRight])

/-! ### Derivations -/

variable {start condition body step : List Token} {start? : Option Stmt}
variable {condition? step? : Option Expr} {turn : Stmt} {isOpen : Bool}

/-- The condition of the `while` form is that of the `for` loop, or the literal that stands in its
place. -/
theorem derives_test (signs : Signs) (tests : DerivesOptional condition condition?) :
    Phrase.assignment.Derives (signs.test condition)
      (condition?.getD (.literal (.bool true))) := by
  cases tests with
  | none =>
    exact .operators (.operand (.operand (.operand (.operand (.operand (.operand (.called
      (.primary (.true signs.isTruth)))))))))
  | some inner =>
    obtain ⟨first, others, rfl, -⟩ := inner.begins
    exact inner

/-- A block of two declarations. -/
theorem derives_pair {left right : Token} {first second : List Token} {st st' : Stmt}
    (isLeft : left.kind = .leftBrace) (derives : Clause.declaration.Derives first st)
    (derives' : Clause.declaration.Derives second st') (isRight : right.kind = .rightBrace) :
    (Clause.statement false).Derives (left :: (first ++ second ++ [right])) (.block [st, st']) := by
  have each : ∀ item ∈ [(first, st), (second, st')], Clause.declaration.Derives item.1 item.2 := by
    simp [derives, derives']
  simpa using Clause.Derives.block isLeft each isRight

/-- The body and the step behind it, if there is one.  In braces it is not open, and without a step
it is as open as the body. -/
theorem derives_round (signs : Signs) (turns : (Clause.statement isOpen).Derives body turn)
    (steps : DerivesOptional step step?) :
    (Clause.statement (isOpen && step?.isNone)).Derives (signs.round body step)
      (match step? with
        | some e => .block [turn, .expr e]
        | none => turn) := by
  cases steps with
  | none =>
    rw [Option.isNone_none, Bool.and_true]
    exact turns
  | some inner =>
    obtain ⟨first, others, rfl, -⟩ := inner.begins
    rw [Option.isNone_some, Bool.and_false]
    exact derives_pair signs.isInnerLeft (.statement turns)
      (.statement (.exprStmt (.intro inner signs.isSemicolon))) signs.isInnerRight

theorem derives_loop (signs : Signs) (tests : DerivesOptional condition condition?)
    (turns : (Clause.statement isOpen).Derives body turn) (steps : DerivesOptional step step?) :
    (Clause.statement (isOpen && step?.isNone)).Derives (signs.loop condition body step)
      (loopOf none condition? step? turn) := by
  have whole := Clause.Derives.whileStmt signs.isKeyword signs.isOpening (signs.derives_test tests)
    signs.isClosing (signs.derives_round turns steps)
  cases step? <;> exact whole

theorem isBare_eq_false {tokens : List Token} (begins : Begins startsDeclaration tokens) :
    isBare tokens = false := by
  obtain ⟨first, rest, rfl, starts⟩ := begins
  cases rest with
  | nil =>
    refine beq_eq_false_iff_ne.mpr fun is => ?_
    rw [is] at starts
    cases starts
  | cons => rfl

/-- A declaration in front of the loop. -/
theorem derives_behind (signs : Signs) {st : Stmt} (starts : Clause.declaration.Derives start st)
    (tests : DerivesOptional condition condition?)
    (turns : (Clause.statement isOpen).Derives body turn) (steps : DerivesOptional step step?) :
    (Clause.statement false).Derives (signs.whileForm start condition body step)
      (loopOf (some st) condition? step? turn) := by
  rw [whileForm, isBare_eq_false starts.begins]
  have whole := derives_pair signs.isOuterLeft starts
    (.statement (signs.derives_loop tests turns steps)) signs.isOuterRight
  cases step? <;> exact whole

/-- The `while` form stands for the same tree, and it is open only if the body of the `for` loop is.
Blocks that are put around it close it, which does no harm to what follows. -/
theorem exists_derives_whileForm (signs : Signs) (starts : DerivesInitializer start start?)
    (tests : DerivesOptional condition condition?)
    (turns : (Clause.statement isOpen).Derives body turn) (steps : DerivesOptional step step?) :
    ∃ stillOpen, (stillOpen = true → isOpen = true) ∧
      (Clause.statement stillOpen).Derives (signs.whileForm start condition body step)
        (loopOf start? condition? step? turn) := by
  cases starts with
  | none is =>
    refine ⟨isOpen && step?.isNone, fun both => (Bool.and_eq_true_iff.mp both).1, ?_⟩
    rw [whileForm, isBare, is]
    exact signs.derives_loop tests turns steps
  | varDecl inner => exact ⟨false, nofun, signs.derives_behind (.varDecl inner) tests turns steps⟩
  | exprStmt inner =>
    exact ⟨false, nofun, signs.derives_behind (.statement (.exprStmt inner)) tests turns steps⟩

end Signs

namespace ForParts

variable {p : ForParts}

/-- The `for` loop behind its keyword. -/
def tokens (p : ForParts) : List Token :=
  p.opening :: (p.start ++ (p.condition ++ p.semicolon :: (p.step ++ p.closing :: p.body)))

/-- The tree of the loop. -/
def tree (p : ForParts) : Stmt :=
  loopOf p.start? p.condition? p.step? p.turn

/-- The `while` form of the loop. -/
def whileForm (p : ForParts) (signs : Signs) : List Token :=
  signs.whileForm p.start p.condition p.body p.step

/-- The loop may stand in front of some tokens: an `else` there is none that its body would take. -/
def Precedes (p : ForParts) (rest : List Token) : Prop :=
  p.isOpen = true → NoElse rest

theorem complete_forStmt (p : ForParts) : Complete forStmt p.Precedes p.tokens p.tree :=
  Clause.Reads.complete_forStmt p.isOpening p.starts p.tests p.ends p.steps p.isClosing p.turns.reads

theorem complete_whileForm (p : ForParts) (signs : Signs) :
    Complete statement p.Precedes (p.whileForm signs) p.tree := by
  obtain ⟨stillOpen, closes, derives⟩ :=
    signs.exists_derives_whileForm p.starts p.tests p.turns p.steps
  obtain ⟨need, reads⟩ := derives.reads
  exact ⟨need, fun room s rest fits precedes => reads room s rest fits fun still =>
    precedes (closes still)⟩

end ForParts

/-- What the rule for loops reads without a report has the parts of a loop.  By soundness the text
is derived, and of the rules of the grammar only one begins with the keyword. -/
theorem exists_forParts {room : Nat} {s s' : State} {st : Stmt} (ready : Ready s)
    (ran : (forStmt room).run s = .ok st s') (silent : s'.reports = s.reports) :
    ∃ p : ForParts, s.rest = p.tokens ++ s'.rest ∧ p.Precedes s'.rest := by
  -- the rule starts behind the keyword, so any keyword can be put in front
  obtain ⟨keyword, is⟩ : ∃ keyword : Token, keyword.kind = .kwFor :=
    ⟨⟨.kwFor, "for", .nil, 1⟩, rfl⟩
  obtain ⟨-, explained⟩ := ((ExplainsStmts.all room).forStmt s ready).of_ok ran
  obtain ⟨used, split, explains⟩ := explained (by rw [silent])
  obtain ⟨isOpen, derives, closed⟩ := explains keyword is
  generalize whole : keyword :: used = tokens at derives
  cases derives with
  | forStmt _ isOpening starts tests ends steps isClosing turns =>
    cases whole
    exact ⟨⟨_, _, _, _, _, _, _, _, _, _, isOpen, _, isOpening, starts, tests, ends, steps, isClosing,
      turns⟩, split, closed⟩
  | exprStmt inner =>
    obtain ⟨first, others, rfl, begins⟩ := inner.begins
    cases whole
    rw [is] at begins
    cases begins
  | ifStmt other | ifElse other | printStmt other | returnStmt other | whileStmt other
  | breakStmt other | continueStmt other | block other =>
    cases whole
    rw [is] at other
    cases other

/-- **A `for` loop is its `while` form.**  Where the rule for `for` loops returns a tree without a
report, it has read the parts of a loop, and whatever such parts it has read: their `while` form, with
any words and signs and in front of any tokens, is read as the same tree by the rule for statements,
which takes just the `while` form and reports nothing.  The `while` form nests deeper, and only for
want of room can it fail to be read. -/
theorem forStmt_eq_whileForm {room : Nat} {s s' : State} {st : Stmt} (ready : Ready s)
    (ran : (forStmt room).run s = .ok st s') (silent : s'.reports = s.reports) :
    (∃ p : ForParts, s.rest = p.tokens ++ s'.rest ∧ p.Precedes s'.rest) ∧
    ∀ p : ForParts, s.rest = p.tokens ++ s'.rest → p.Precedes s'.rest →
      ∀ signs : Signs, ∃ enough, ∀ (room' : Nat) (t : State) (rest : List Token),
        t.rest = p.whileForm signs ++ rest → p.Precedes rest → t.rest.length ≤ t.bound →
        (statement room').run t = .ok st { t with rest := rest } ∨
          room' < enough ∧ ∃ t', (statement room').run t = .error .tooDeep t' := by
  refine ⟨exists_forParts ready ran silent, fun p parts precedes signs => ?_⟩
  have same : p.tree = st := by
    obtain ⟨need, reads⟩ := p.complete_forStmt
    have fits := ready.fits
    rw [parts] at fits
    have leads := reads room s s'.rest fits precedes
    rw [← parts] at leads
    change Leads _ _ s _ _ at leads
    rcases leads with read | ⟨-, stopped, stops⟩
    · exact (EStateM.Result.ok.inj (read.symm.trans ran)).1
    · cases ran.symm.trans stops
  subst same
  obtain ⟨enough, reads⟩ := p.complete_whileForm signs
  refine ⟨enough, fun room' t rest faces precedes fits => ?_⟩
  have leads := reads room' t rest (by rwa [← faces]) precedes
  rw [← faces] at leads
  exact leads

/-- A loop with all its parts, whose body is open, behind its keyword. -/
def openLoop : State :=
  let tokens := (Scan.ofText "(var i = 0; i < 3; i = i + 1) if (i == 1) print i;").tokens.toList
  { rest := tokens, ending := .ending 1, bound := tokens.length }

theorem run_openLoop :
    (match (forStmt depthLimit).run openLoop with
      | .ok (.block [.varDecl _ _, .loop _ (.block [.ifElse _ _ none, .expr _])])
          ⟨[], _, _, ⟨[]⟩⟩ => true
      | _ => false) = true := by
  decide +kernel

/-- The loop is read as a block with a `while` loop, and so is its `while` form.  Its body is open,
which is the case where the end of the loop depends on what follows. -/
theorem openLoop_eq_whileForm : ∃ i start condition test branch step, ∃ p : ForParts,
    openLoop.rest = p.tokens ∧ ∀ signs : Signs, ∃ enough, ∀ room' ≥ enough, ∀ t : State,
      t.rest = p.whileForm signs → t.rest.length ≤ t.bound →
      (statement room').run t = .ok (.block [.varDecl i start,
        .loop condition (.block [.ifElse test branch none, .expr step])])
        { t with rest := [] } := by
  have shape := run_openLoop
  split at shape
  · next i start condition test branch step ending bound ran =>
    have ready : Ready openLoop := ⟨Nat.le_refl _, rfl⟩
    obtain ⟨⟨p, parts, precedes⟩, reads⟩ := forStmt_eq_whileForm ready ran rfl
    refine ⟨i, start, condition, test, branch, step, p, by simpa using parts, fun signs => ?_⟩
    obtain ⟨enough, reads⟩ := reads p parts precedes signs
    refine ⟨enough, fun room' large t faces fits => ?_⟩
    refine (reads room' t [] (by rw [faces, List.append_nil]) ?_ fits).resolve_right ?_
    · exact fun _ => nofun
    · exact fun short => absurd short.1 (Nat.not_lt_of_le large)
  · cases shape

end Grammar
end Arbor
