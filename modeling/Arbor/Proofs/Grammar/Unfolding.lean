import Arbor.Grammar.Statement

/-!
# One round of each loop of the parser

The parsers of lists and sequences look at the next token, read one item and go on with less fuel.
Here each of them is unfolded by one round, with what it does behind the item in one place, so that
every proof about a loop follows the same equation.
-/

namespace Arbor
namespace Grammar

variable {α : Type}

/-! ### Lists -/

/-- Reads one item of a list, and the others if there is a comma behind it. -/
def separatedItem (limit : Nat) (plural : String) (item : Parser α) (fuel count : Nat)
    (before : List α) : Parser (List α) := do
  let next ← item
  match ← accept? .comma with
  | some _ => separated limit plural item fuel (count + 1) (next :: before)
  | none => pure (next :: before).reverse

/-- From the item number `limit` on each item is reported before it is read. -/
theorem separated_succ (limit : Nat) (plural : String) (item : Parser α) (fuel count : Nat)
    (before : List α) :
    separated limit plural item (fuel + 1) count before =
      if limit ≤ count then
        peek >>= fun t => report t (.tooMany limit plural) >>= fun _ =>
          separatedItem limit plural item fuel count before
      else separatedItem limit plural item fuel count before := by
  unfold separated separatedItem
  split <;> rfl

theorem run_listUpToParen (plural : String) (item : Parser α) (s : State) :
    (listUpToParen plural item).run s = (if s.isAt .rightParen = true then pure [] else
      bound >>= fun fuel => separated listLimit plural item fuel 0 []).run s :=
  rfl

/-! ### Sequences -/

/-- How a sequence goes on behind an item; one that comes to nothing is left out. -/
def itemsNext (item : Parser (Option α)) (fuel : Nat) (before : List α) :
    Option α → Parser (List α)
  | some next => itemsUpToBrace item fuel (next :: before)
  | none => itemsUpToBrace item fuel before

theorem run_itemsUpToBrace (item : Parser (Option α)) (fuel : Nat) (before : List α) (s : State) :
    (itemsUpToBrace item (fuel + 1) before).run s =
      (if (s.rest.isEmpty || s.isAt .rightBrace) = true then pure before.reverse else
        item >>= itemsNext item fuel before).run s :=
  rfl

/-- How a program goes on behind a declaration: not at all if it nested too deep. -/
def topLevelNext (room fuel : Nat) (before : List Stmt) : Option (Option Stmt) → Parser (List Stmt)
  | some (some st) => topLevel room fuel (st :: before)
  | some none => topLevel room fuel before
  | none => do
    report (← peek) .tooDeep
    pure before.reverse

theorem run_topLevel (room fuel : Nat) (before : List Stmt) (s : State) :
    (topLevel room (fuel + 1) before).run s =
      (if s.rest.isEmpty = true then pure before.reverse else
        tryCatch (some <$> declaration room) (fun _ => pure none) >>=
          topLevelNext room fuel before).run s :=
  rfl

/-! ### Operators -/

/-- The parser of the operands of a level. -/
def Level.operandParser (level : Level) (room : Nat) : Parser Expr :=
  match level.tighter? with
  | some tighter => Grammar.operators room tighter
  | none => Grammar.prefixed room

theorem operators_succ (room : Nat) (level : Level) :
    Grammar.operators (room + 1) level = level.operandParser room >>= fun first =>
      bound >>= fun fuel => operatorTail level (level.operandParser room) fuel first :=
  rfl

/-! ### Parts that may be left out -/

theorem run_optionalUpTo (kind : Token.Kind) (room : Nat) (s : State) :
    (optionalUpTo kind room).run s = (if s.isAt kind = true then pure none else
      some <$> Grammar.expression room).run s :=
  rfl

/-- The value of a `return` statement is left out like the parts of a `for` loop, so both are read
by one rule. -/
theorem run_returnStmt (keyword : Token) (room : Nat) (s : State) :
    (returnStmt keyword (room + 1)).run s = (optionalUpTo .semicolon room >>= fun value =>
      expect .semicolon "';' after return value" >>= fun _ => pure (Stmt.ret keyword value)).run s := by
  have whole : (returnStmt keyword (room + 1)).run s = (if s.isAt .semicolon = true then
        pure none >>= fun value =>
          expect .semicolon "';' after return value" >>= fun _ => pure (Stmt.ret keyword value)
      else some <$> expression room >>= fun value =>
        expect .semicolon "';' after return value" >>= fun _ => pure (Stmt.ret keyword value)).run s :=
    rfl
  rw [whole, EStateM.run_bind, run_optionalUpTo]
  split
  · rfl
  · exact EStateM.run_bind ..

end Grammar
end Arbor
