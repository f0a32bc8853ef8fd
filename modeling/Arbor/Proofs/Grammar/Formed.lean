import Arbor.Proofs.Stateful
import Arbor.Proofs.Grammar.Unfolding
import Arbor.Proofs.Program.Formed

/-!
# What parsers build is well-formed

Whatever tokens a parser is given, and whatever it reports on them, the trees it returns are
well-formed: errors cost declarations, never the form of those that remain.  A condition that all
tokens satisfy is satisfied by all tokens of the trees.

The one assumption is on the token behind the last one: it is the end of the text, and so it never
gets into a tree.  What parsers report is about the text and not about a run.

## Main definitions

* `Grammar.Builds`: parsers that return values with a property.

## Main statements

* `Program.formed_ofTokens`: the program made of any tokens is well-formed.
* `Program.onText_ofTokens`: no report on it is that of a run.
-/

namespace Arbor
namespace Grammar

open Stateful

/-- What parsers rely on and keep: the tokens satisfy a condition, behind them the text ends, and all
reports are on the text. -/
structure Fine (token : Token → Prop) (s : State) : Prop where
  tokens : ∀ t ∈ s.rest, token t
  ending : s.ending.kind = .endOfText
  onText : ∀ report ∈ s.reports, report.isRuntime = false

/-- However `x` ends, it leaves a state to rely on; what it returns has the property `built`. -/
def Builds {α : Type} (token : Token → Prop) (x : Parser α) (built : α → Prop) : Prop :=
  ∀ s, Fine token s → Ensures x s (fun a s' => Fine token s' ∧ built a) fun _ s' => Fine token s'

namespace Builds

variable {α β : Type} {token : Token → Prop} {built : α → Prop} {after : β → Prop} {x : Parser α}

/-- Parsers in sequence build what the second one does, which may rely on what the first one has
built. -/
theorem bind {k : α → Parser β} (first : Builds token x built)
    (second : ∀ a, built a → Builds token (k a) after) : Builds token (x >>= k) after :=
  fun s fine => Ensures.bind (first s fine) fun a s' _ both => second a both.2 s' both.1

/-- What is given without reading has to have the property already. -/
theorem pure {a : α} (holds : built a) : Builds token (Pure.pure a) built :=
  fun _ fine => ⟨fine, holds⟩

/-- A parser that stops builds nothing, so any property may be claimed. -/
theorem throw (stop : Stop) : Builds token (MonadExcept.throw stop : Parser α) built :=
  fun _ fine => fine

/-- A weaker property may be claimed. -/
theorem mono {weaker : α → Prop} (builds : Builds token x built) (sub : ∀ a, built a → weaker a) :
    Builds token x weaker :=
  fun s fine => (builds s fine).mono (fun a _ both => ⟨both.1, sub a both.2⟩) fun _ _ fine => fine

/-- What is done with a result afterwards is asked for the property. -/
theorem map {g : α → β} (builds : Builds token x fun a => after (g a)) :
    Builds token (g <$> x) after :=
  fun s fine => (builds s fine).map

/-- What is built is there. -/
theorem some (builds : Builds token x built) :
    Builds token (some <$> x) fun a? => ∀ a, a? = some a → built a := by
  refine (builds.mono fun a holds a' same => ?_).map
  cases same
  exact holds

end Builds

section Primitives

variable {α : Type} {token : Token → Prop}

/-- The token reading has come to is one of the tokens or the end of the text.  Looking at it takes
nothing. -/
theorem builds_peek : Builds token peek fun t => t.kind = .endOfText ∨ token t := by
  intro s fine
  refine ⟨fine, ?_⟩
  change s.current.kind = .endOfText ∨ token s.current
  unfold State.current
  cases rest : s.rest with
  | nil => exact .inl fine.ending
  | cons t rest' =>
    refine .inr (fine.tokens t ?_)
    rw [rest]
    exact List.mem_cons_self

/-- Looking at the state changes nothing. -/
theorem builds_get {k : State → Parser α} {built : α → Prop} (rest : ∀ s, Builds token (k s) built) :
    Builds token (get >>= k) built :=
  fun s fine => rest s s fine

theorem builds_isAt (kind : Token.Kind) : Builds token (isAt kind) fun _ => True :=
  builds_get fun _ => .pure trivial

theorem builds_atEnd : Builds token atEnd fun _ => True :=
  builds_get fun _ => .pure trivial

theorem builds_bound : Builds token bound fun _ => True :=
  builds_get fun _ => .pure trivial

/-- A token that is taken comes from the text, so it satisfies the condition on tokens, and its kind
has passed. -/
theorem builds_acceptIf? (passes : Token.Kind → Bool) :
    Builds token (acceptIf? passes) fun t? => ∀ t, t? = some t → passes t.kind = true ∧ token t := by
  intro s fine
  refine Ensures.modifyGet ?_
  split
  · exact ⟨fine, fun t same => by cases same⟩
  · next first rest tokens =>
    have each := fine.tokens
    rw [tokens] at each
    split
    · next passed =>
      refine ⟨⟨fun t mem => each t (List.mem_cons_of_mem _ mem), fine.ending, fine.onText⟩,
        fun t same => ?_⟩
      cases same
      exact ⟨passed, each first List.mem_cons_self⟩
    · exact ⟨fine, fun t same => by cases same⟩

/-- The same for a token of one kind, which then is of that kind. -/
theorem builds_accept? (kind : Token.Kind) :
    Builds token (accept? kind) fun t? => ∀ t, t? = some t → t.kind = kind ∧ token t :=
  (builds_acceptIf? _).mono fun _ each t same =>
    ⟨of_decide_eq_true (each t same).1, (each t same).2⟩

/-- What parsers report is about the text. -/
theorem builds_report (t : Token) (error : GrammarError) :
    Builds token (report t error) fun _ => True := by
  refine fun s fine => ⟨⟨fine.tokens, fine.ending, fun report mem => ?_⟩, trivial⟩
  rcases Array.mem_push.mp mem with old | rfl
  · exact fine.onText report old
  · rfl

/-- A complaint is such a report, and nothing is built behind it. -/
theorem builds_failExpecting (what : String) {built : α → Prop} :
    Builds token (failExpecting what : Parser α) built :=
  builds_peek.bind fun _ _ => (builds_report _ _).bind fun _ _ => .throw _

/-- A token that has to be there is of its kind and from the text, if the parser goes on at all. -/
theorem builds_expect (kind : Token.Kind) (what : String) :
    Builds token (expect kind what) fun t => t.kind = kind ∧ token t := by
  refine (builds_accept? kind).bind fun t? each => ?_
  cases t? with
  | some t => exact .pure (each t rfl)
  | none => exact builds_failExpecting what

/-- Recovery only drops tokens. -/
theorem mem_resume : ∀ {tokens : List Token} {t : Token}, t ∈ resume tokens → t ∈ tokens
  | first :: rest, t, mem => by
    unfold resume at mem
    split at mem
    · exact List.mem_cons_of_mem _ mem
    · exact List.mem_cons_of_mem _ (mem_resume mem)

/-- So after recovery all tokens still satisfy the condition. -/
theorem builds_recover : Builds token recover fun _ => True :=
  fun _ fine => ⟨⟨fun t mem => fine.tokens t (mem_resume mem), fine.ending, fine.onText⟩, trivial⟩

/-- Items that are built one by one.  A list that is too long is reported and built all the same, so
that nothing has to be known of its length. -/
theorem builds_separated {limit : Nat} {plural : String} {item : Parser α} {built : α → Prop}
    (each : Builds token item built) : ∀ (fuel count : Nat) (before : List α),
    (∀ a ∈ before, built a) →
      Builds token (separated limit plural item fuel count before) fun all => ∀ a ∈ all, built a
  | 0, _, _, earlier => .pure fun a mem => earlier a (List.mem_reverse.mp mem)
  | fuel + 1, count, before, earlier => by
    have extend {next : α} (new : built next) : ∀ a ∈ next :: before, built a := by
      intro a mem
      rcases List.mem_cons.mp mem with rfl | mem
      · exact new
      · exact earlier a mem
    have rest : Builds token (separatedItem limit plural item fuel count before) fun all =>
        ∀ a ∈ all, built a := by
      refine each.bind fun next new => (builds_accept? .comma).bind fun comma _ => ?_
      cases comma with
      | some _ => exact builds_separated each fuel (count + 1) _ (extend new)
      | none => exact .pure fun a mem => extend new a (List.mem_reverse.mp mem)
    rw [separated_succ]
    split
    · exact builds_peek.bind fun _ _ => (builds_report _ _).bind fun _ _ => rest
    · exact rest

/-- A list in parentheses is built of items that have their property. -/
theorem builds_listUpToParen {plural : String} {item : Parser α} {built : α → Prop}
    (each : Builds token item built) :
    Builds token (listUpToParen plural item) fun all => ∀ a ∈ all, built a := by
  refine (builds_isAt _).bind fun closed _ => ?_
  split
  · exact .pure fun a mem => absurd mem List.not_mem_nil
  · exact builds_bound.bind fun _ _ =>
      builds_separated each _ _ _ fun a mem => absurd mem List.not_mem_nil

/-- Items up to a brace have their property; those that came to nothing are not among them.  The
ones built so far are kept in reverse and carried through the induction. -/
theorem builds_itemsUpToBrace {item : Parser (Option α)} {built : α → Prop}
    (each : Builds token item fun a? => ∀ a, a? = some a → built a) :
    ∀ (fuel : Nat) (before : List α), (∀ a ∈ before, built a) →
      Builds token (itemsUpToBrace item fuel before) fun all => ∀ a ∈ all, built a
  | 0, _, earlier => .pure fun a mem => earlier a (List.mem_reverse.mp mem)
  | fuel + 1, before, earlier => by
    refine builds_atEnd.bind fun _ _ => (builds_isAt _).bind fun _ _ => ?_
    split
    · exact .pure fun a mem => earlier a (List.mem_reverse.mp mem)
    · refine each.bind fun next new => ?_
      cases next with
      | some next =>
        refine builds_itemsUpToBrace each fuel _ fun a mem => ?_
        rcases List.mem_cons.mp mem with rfl | mem
        · exact new _ rfl
        · exact earlier a mem
      | none => exact builds_itemsUpToBrace each fuel before earlier

end Primitives

/-! ### Expressions -/

section Expressions

variable {token : Token → Prop}

/-- An operator of a level makes a well-formed expression of well-formed operands: the level that
accepts it is the one that decides which form it builds. -/
theorem Level.formed_build {level : Level} {left right : Expr} {operator : Token}
    (accepted : level.accepts operator.kind = true) (spelled : token operator)
    (formedLeft : left.Formed token) (formedRight : right.Formed token) :
    (level.build left operator right).Formed token := by
  have operands := And.intro formedLeft formedRight
  cases level <;> unfold Level.accepts at accepted <;> split at accepted <;>
    simp_all [Level.build, Expr.Formed, Token.Kind.isBinary]

/-- Operators of one level build on what came before, which has to be well-formed already.  The kind
of an operator has passed the test of its level, which is what its node asks for. -/
theorem builds_operatorTail {level : Level} {operand : Parser Expr}
    (each : Builds token operand (Expr.Formed token)) : ∀ (fuel : Nat) (left : Expr),
    left.Formed token → Builds token (operatorTail level operand fuel left) (Expr.Formed token)
  | 0, _, formed => .pure formed
  | fuel + 1, left, formed => by
    refine (builds_acceptIf? _).bind fun operator? accepted => ?_
    cases operator? with
    | none => exact .pure formed
    | some operator =>
      obtain ⟨passes, spelled⟩ := accepted operator rfl
      refine each.bind fun right formedRight => ?_
      exact builds_operatorTail each fuel _ (Level.formed_build passes spelled formed formedRight)

/-- So do calls and property accesses.  What is called is the tree so far, which is well-formed by
the induction on the rounds. -/
theorem builds_callTail {arguments : Expr → Parser Expr}
    (each : ∀ callee, callee.Formed token → Builds token (arguments callee) (Expr.Formed token)) :
    ∀ (fuel : Nat) (left : Expr), left.Formed token →
      Builds token (callTail arguments fuel left) (Expr.Formed token)
  | 0, _, formed => .pure formed
  | fuel + 1, left, formed => by
    refine (builds_accept? _).bind fun paren _ => ?_
    cases paren with
    | some _ =>
      exact (each left formed).bind fun call formedCall => builds_callTail each fuel call formedCall
    | none =>
      refine (builds_accept? _).bind fun dot _ => ?_
      cases dot with
      | some _ =>
        refine (builds_expect _ _).bind fun name named => ?_
        exact builds_callTail each fuel _ ⟨named.1, named.2, formed⟩
      | none => exact .pure formed

/-- An assignment takes its target apart and keeps the name or the object, both of which were
well-formed inside it.  What cannot be assigned to is kept as it is. -/
theorem builds_assignment {target value : Expr} {equals : Token} (formedTarget : target.Formed token)
    (formedValue : value.Formed token) :
    Builds token (assignment target equals value) (Expr.Formed token) := by
  cases target with
  | var name hops => exact .pure ⟨formedTarget.1, formedTarget.2, formedValue⟩
  | getField object name =>
    exact .pure ⟨formedTarget.1, formedTarget.2.1, formedTarget.2.2, formedValue⟩
  | _ => exact (builds_report _ _).bind fun _ _ => .pure formedTarget

/-- A primary expression is one token or a few, each of the kind that its place in the tree asks
for.  The rule has looked at the kind of the first token before it takes that, and so it is
known. -/
theorem builds_primaryWith {inner : Parser Expr} (each : Builds token inner (Expr.Formed token)) :
    Builds token (primaryWith inner) (Expr.Formed token) := by
  refine builds_peek.bind fun t here => ?_
  have spelled {kind : Token.Kind} (same : t.kind = kind) (text : kind ≠ .endOfText) : token t :=
    here.resolve_left fun ended => text (same.symm.trans ended)
  split
  · exact (builds_accept? _).bind fun _ _ => .pure trivial
  · exact (builds_accept? _).bind fun _ _ => .pure trivial
  · exact (builds_accept? _).bind fun _ _ => .pure trivial
  · exact (builds_accept? _).bind fun _ _ => .pure trivial
  · exact (builds_accept? _).bind fun _ _ => .pure trivial
  · next kind =>
    refine (builds_accept? _).bind fun _ _ => (builds_expect _ _).bind fun _ _ => ?_
    refine (builds_expect _ _).bind fun method named => ?_
    exact .pure ⟨kind, spelled kind (by decide), named⟩
  · next kind => exact (builds_accept? _).bind fun _ _ => .pure ⟨kind, spelled kind (by decide)⟩
  · next kind => exact (builds_accept? _).bind fun _ _ => .pure ⟨kind, spelled kind (by decide)⟩
  · refine (builds_accept? _).bind fun _ _ => each.bind fun e formed => ?_
    exact (builds_expect _ _).bind fun _ _ => .pure formed
  · exact builds_failExpecting _

/-- A call is built of a callee that is well-formed already and of its arguments. -/
theorem builds_callWith {argument : Parser Expr} {callee : Expr}
    (each : Builds token argument (Expr.Formed token)) (formed : callee.Formed token) :
    Builds token (callWith argument callee) (Expr.Formed token) := by
  refine (builds_listUpToParen each).bind fun arguments formedAll => ?_
  refine (builds_expect _ _).bind fun paren closed => ?_
  exact .pure ⟨closed.1, closed.2, formed, Expr.allFormed_iff.mpr formedAll⟩

/-- What the rules for expressions build with a given room. -/
structure BuildsExprs (token : Token → Prop) (room : Nat) : Prop where
  expression : Builds token (expression room) (Expr.Formed token)
  assigned : Builds token (assigned room) (Expr.Formed token)
  operators : ∀ level, Builds token (operators room level) (Expr.Formed token)
  prefixed : Builds token (prefixed room) (Expr.Formed token)
  called : Builds token (called room) (Expr.Formed token)
  arguments : ∀ callee, callee.Formed token →
    Builds token (arguments room callee) (Expr.Formed token)
  primary : Builds token (primary room) (Expr.Formed token)

/-- One level more, for all rules of expressions at once.  They call each other with less room, so
none of them can be proved alone. -/
theorem BuildsExprs.succ {room : Nat} (builds : BuildsExprs token room) :
    BuildsExprs token (room + 1) where
  expression := builds.assigned
  assigned := by
    refine (builds.operators .or).bind fun target formed => ?_
    refine (builds_accept? _).bind fun equals _ => ?_
    cases equals with
    | none => exact .pure formed
    | some _ => exact builds.assigned.bind fun value formedValue => builds_assignment formed formedValue
  operators level := by
    have operand : Builds token (level.operandParser room) (Expr.Formed token) := by
      unfold Level.operandParser
      split
      · exact builds.operators _
      · exact builds.prefixed
    rw [operators_succ]
    refine operand.bind fun first formed => builds_bound.bind fun fuel _ => ?_
    exact builds_operatorTail operand fuel first formed
  prefixed := by
    refine (builds_acceptIf? _).bind fun operator? accepted => ?_
    cases operator? with
    | none => exact builds.called
    | some operator =>
      obtain ⟨passes, spelled⟩ := accepted operator rfl
      refine builds.prefixed.bind fun right formed => .pure ⟨?_, spelled, formed⟩
      unfold isPrefixOperator at passes
      split at passes
      · next kind => exact .inl kind
      · next kind => exact .inr kind
      · cases passes
  called := by
    refine builds.primary.bind fun first formed => builds_bound.bind fun fuel _ => ?_
    exact builds_callTail builds.arguments fuel first formed
  arguments _ formed := builds_callWith builds.expression formed
  primary := builds_primaryWith builds.expression

/-- The rules of expressions build well-formed trees at every room: without any they build
nothing. -/
theorem BuildsExprs.all (token : Token → Prop) : ∀ room, BuildsExprs token room
  | 0 => ⟨.throw _, .throw _, fun _ => .throw _, .throw _, .throw _, fun _ _ => .throw _, .throw _⟩
  | room + 1 => (BuildsExprs.all token room).succ

/-- Expressions are well-formed, whatever tokens they are read from. -/
theorem builds_expression (room : Nat) : Builds token (expression room) (Expr.Formed token) :=
  (BuildsExprs.all token room).expression

end Expressions

/-! ### Statements -/

section Statements

variable {token : Token → Prop}

/-- A well-formed statement that is no declaration. -/
def FormedStatement (token : Token → Prop) (s : Stmt) : Prop :=
  s.Formed token ∧ s.isDeclaration = false

/-- So is an expression that might have been left out and was not. -/
theorem builds_someExpression (room : Nat) :
    Builds token (some <$> expression room) (Expr.OptionFormed token) :=
  (builds_expression room).some.mono fun e? formed => by
    cases e? with
    | none => trivial
    | some e => exact formed e rfl

/-- A variable declaration has the name that it was asked for, and an initializer or none.  Whether
there is one is told by the equals sign. -/
theorem builds_varDecl : ∀ room : Nat, Builds token (varDecl room) (Stmt.Formed token)
  | 0 => .throw _
  | room + 1 => by
    refine (builds_expect _ _).bind fun name named => (builds_accept? _).bind fun equals _ => ?_
    have rest (e? : Option Expr) (formed : Expr.OptionFormed token e?) : Builds token (do
        let _ ← expect .semicolon "';' after variable declaration"
        Pure.pure (Stmt.varDecl name e?)) (Stmt.Formed token) :=
      (builds_expect _ _).bind fun _ _ => .pure ⟨named.1, named.2, formed⟩
    cases equals with
    | some _ => exact (builds_someExpression room).bind rest
    | none => exact rest none trivial

/-- An expression statement is well-formed, and it is a statement and not a declaration. -/
theorem builds_exprStmt : ∀ room : Nat, Builds token (exprStmt room) (FormedStatement token)
  | 0 => .throw _
  | room + 1 => by
    refine (builds_expression room).bind fun e formed => (builds_expect _ _).bind fun _ _ => ?_
    exact .pure ⟨formed, rfl⟩

theorem builds_printStmt : ∀ room : Nat, Builds token (printStmt room) (FormedStatement token)
  | 0 => .throw _
  | room + 1 => by
    refine (builds_expression room).bind fun e formed => (builds_expect _ _).bind fun _ _ => ?_
    exact .pure ⟨formed, rfl⟩

/-- An expression that may be left out. -/
theorem builds_optionalUpTo (kind : Token.Kind) (room : Nat) :
    Builds token (optionalUpTo kind room) (Expr.OptionFormed token) := by
  refine (builds_isAt kind).bind fun stops _ => ?_
  split
  · exact .pure trivial
  · exact builds_someExpression room

/-- A return statement keeps the keyword that its caller took, so its kind and its spelling are
asked for here. -/
theorem builds_returnStmt {keyword : Token} (kind : keyword.kind = .kwReturn)
    (spelled : token keyword) : ∀ room : Nat,
    Builds token (returnStmt keyword room) (FormedStatement token)
  | 0 => .throw _
  | room + 1 => by
    have rest (e? : Option Expr) (formed : Expr.OptionFormed token e?) : Builds token (do
        let _ ← expect .semicolon "';' after return value"
        Pure.pure (Stmt.ret keyword e?)) (FormedStatement token) :=
      (builds_expect _ _).bind fun _ _ => .pure ⟨⟨kind, spelled, formed⟩, rfl⟩
    refine (builds_isAt _).bind fun closed _ => ?_
    split
    · exact rest none trivial
    · exact (builds_someExpression room).bind rest

/-- The first clause of a loop is the one place in a loop where a declaration may stand.  It is a
variable or an expression statement, or is left out. -/
theorem builds_forInitializer (room : Nat) :
    Builds token (forInitializer room) fun s? => ∀ s, s? = some s → s.Formed token := by
  refine (builds_accept? _).bind fun semicolon _ => ?_
  cases semicolon with
  | some _ => exact .pure fun s same => by cases same
  | none =>
    refine (builds_accept? _).bind fun keyword _ => ?_
    cases keyword with
    | some _ => exact (builds_varDecl room).some
    | none => exact ((builds_exprStmt room).mono fun _ formed => formed.1).some

/-- What a `for` loop stands for is well-formed if its parts are.  There is a case for each of the
two clauses that may be left out; the condition becomes a constant in that case. -/
theorem formed_forLoop {initializer : Option Stmt} {condition increment : Option Expr} {body : Stmt}
    (formedStart : ∀ s, initializer = some s → s.Formed token)
    (formedCondition : Expr.OptionFormed token condition)
    (formedStep : Expr.OptionFormed token increment) (formedBody : FormedStatement token body) :
    FormedStatement token (forLoop initializer condition increment body) := by
  have test : (condition.getD (.literal (.bool true))).Formed token := by
    cases condition with
    | none => trivial
    | some e => exact formedCondition
  unfold forLoop
  cases increment with
  | none =>
    cases initializer with
    | none => exact ⟨⟨test, formedBody.2, formedBody.1⟩, rfl⟩
    | some start =>
      exact ⟨⟨formedStart start rfl, ⟨test, formedBody.2, formedBody.1⟩, trivial⟩, rfl⟩
  | some step =>
    have turn : FormedStatement token (.block [body, .expr step]) :=
      ⟨⟨formedBody.1, formedStep, trivial⟩, rfl⟩
    cases initializer with
    | none => exact ⟨⟨test, turn.2, turn.1⟩, rfl⟩
    | some start => exact ⟨⟨formedStart start rfl, ⟨test, turn.2, turn.1⟩, trivial⟩, rfl⟩

/-- A function has a name, parameters that are names, and a well-formed body. -/
theorem builds_funDeclWith {role : FunRole} {block : Parser (List Stmt)}
    (each : Builds token block (Stmt.AllFormed token)) :
    Builds token (funDeclWith role block) (FunDecl.Formed token) := by
  refine (builds_expect _ _).bind fun name named => (builds_expect _ _).bind fun _ _ => ?_
  refine (builds_listUpToParen (builds_expect _ _)).bind fun params identifiers => ?_
  refine (builds_expect _ _).bind fun _ _ => (builds_expect _ _).bind fun _ _ => ?_
  exact each.bind fun body formed => .pure ⟨named.1, named.2, identifiers, formed⟩

/-- A superclass is built as a variable of its own name. -/
theorem builds_superclass :
    Builds token superclass fun parent? => ∀ parent, parent? = some parent → parent.Formed token := by
  refine (builds_accept? _).bind fun less _ => ?_
  cases less with
  | none => exact .pure fun parent same => by cases same
  | some _ =>
    refine (builds_expect _ _).bind fun name named => .pure fun parent same => ?_
    cases same
    exact ⟨named.1, named.2, none, rfl⟩

/-- A class has well-formed methods, and a well-formed superclass if one is named.  Methods that
failed are left out, with a report. -/
theorem builds_classDeclWith {method : Parser FunDecl}
    (each : Builds token method (FunDecl.Formed token)) :
    Builds token (classDeclWith method) (Stmt.Formed token) := by
  refine (builds_expect _ _).bind fun name named => builds_superclass.bind fun parent formed => ?_
  refine (builds_expect _ _).bind fun _ _ => builds_bound.bind fun fuel _ => ?_
  refine (builds_itemsUpToBrace each.some fuel [] fun _ mem => absurd mem List.not_mem_nil).bind ?_
  intro methods formedAll
  refine (builds_expect _ _).bind fun _ _ => .pure ?_
  have members := FunDecl.allFormed_iff.mpr formedAll
  cases parent with
  | none => exact ⟨named.1, named.2, members⟩
  | some parent => exact ⟨named.1, named.2, formed parent rfl, members⟩

/-- A declaration is one of four, of which each is well-formed.  The rules are parameters, so that
this does not depend on the room they are given. -/
theorem builds_declaredWith {classDecl funDecl varDecl statement : Parser Stmt}
    (ofClass : Builds token classDecl (Stmt.Formed token))
    (ofFun : Builds token funDecl (Stmt.Formed token))
    (ofVar : Builds token varDecl (Stmt.Formed token))
    (other : Builds token statement (Stmt.Formed token)) :
    Builds token (declaredWith classDecl funDecl varDecl statement) (Stmt.Formed token) := by
  refine (builds_accept? _).bind fun keyword _ => ?_
  cases keyword with
  | some _ => exact ofClass
  | none =>
    refine (builds_accept? _).bind fun keyword _ => ?_
    cases keyword with
    | some _ => exact ofFun
    | none =>
      refine (builds_accept? _).bind fun keyword _ => ?_
      cases keyword with
      | some _ => exact ofVar
      | none => exact other

/-- An error costs a declaration and leaves nothing malformed behind.  Recovery drops tokens only,
and what is left of them are tokens of the text. -/
theorem builds_recovering {body : Parser Stmt} (each : Builds token body (Stmt.Formed token)) :
    Builds token (recovering body) fun s? => ∀ s, s? = some s → s.Formed token := by
  intro s fine
  refine Ensures.tryCatch (each.some s fine) fun stop s' _ fine' => ?_
  cases stop with
  | error =>
    have none : Builds token (do recover; Pure.pure none) fun s? =>
        ∀ s : Stmt, s? = .some s → s.Formed token :=
      builds_recover.bind fun _ _ => .pure fun s same => by cases same
    exact none s' fine'
  | tooDeep => exact fine'

/-- What the rules for statements build with a given room. -/
structure BuildsStmts (token : Token → Prop) (room : Nat) : Prop where
  declaration : Builds token (declaration room) fun s? => ∀ s, s? = some s → s.Formed token
  classDecl : Builds token (classDecl room) (Stmt.Formed token)
  funDecl : ∀ role, Builds token (funDecl role room) (FunDecl.Formed token)
  block : Builds token (block room) (Stmt.AllFormed token)
  statement : Builds token (statement room) (FormedStatement token)
  forStmt : Builds token (forStmt room) (FormedStatement token)
  ifStmt : Builds token (ifStmt room) (FormedStatement token)
  whileStmt : Builds token (whileStmt room) (FormedStatement token)

namespace BuildsStmts

variable {room : Nat}

/-- One level of statements: none of the words that they begin with makes a declaration of them.
The jumps keep their keyword in the tree, so its kind is part of what is shown. -/
theorem statement_succ (builds : BuildsStmts token room) :
    Builds token (Grammar.statement (room + 1)) (FormedStatement token) := by
  refine builds_peek.bind fun t here => ?_
  have spelled {kind : Token.Kind} (same : t.kind = kind) (text : kind ≠ .endOfText) : token t :=
    here.resolve_left fun ended => text (same.symm.trans ended)
  split
  · next kind =>
    refine (builds_accept? _).bind fun _ _ => (builds_expect _ _).bind fun _ _ => ?_
    exact .pure ⟨⟨kind, spelled kind (by decide)⟩, rfl⟩
  · next kind =>
    refine (builds_accept? _).bind fun _ _ => (builds_expect _ _).bind fun _ _ => ?_
    exact .pure ⟨⟨kind, spelled kind (by decide)⟩, rfl⟩
  · exact (builds_accept? _).bind fun _ _ => builds.forStmt
  · exact (builds_accept? _).bind fun _ _ => builds.ifStmt
  · exact (builds_accept? _).bind fun _ _ => builds_printStmt room
  · next kind =>
    exact (builds_accept? _).bind fun _ _ =>
      builds_returnStmt kind (spelled kind (by decide)) room
  · exact (builds_accept? _).bind fun _ _ => builds.whileStmt
  · refine (builds_accept? _).bind fun _ _ => (builds.block.mono fun ss formed => ?_).map
    exact ⟨formed, rfl⟩
  · exact builds_exprStmt room

/-- One level of `for` loops, where a declaration in front is put into a block of its own. -/
theorem forStmt_succ (builds : BuildsStmts token room) :
    Builds token (Grammar.forStmt (room + 1)) (FormedStatement token) := by
  refine (builds_expect _ _).bind fun _ _ => (builds_forInitializer room).bind fun start first => ?_
  refine (builds_optionalUpTo _ room).bind fun condition second => ?_
  refine (builds_expect _ _).bind fun _ _ => (builds_optionalUpTo _ room).bind fun step third => ?_
  refine (builds_expect _ _).bind fun _ _ => builds.statement.bind fun body fourth => ?_
  exact .pure (formed_forLoop first second third fourth)

/-- One level of conditionals, whose branches are statements and no declarations. -/
theorem ifStmt_succ (builds : BuildsStmts token room) :
    Builds token (Grammar.ifStmt (room + 1)) (FormedStatement token) := by
  refine (builds_expect _ _).bind fun _ _ => (builds_expression room).bind fun e formed => ?_
  refine (builds_expect _ _).bind fun _ _ => builds.statement.bind fun thenBranch first => ?_
  refine (builds_accept? _).bind fun keyword _ => ?_
  cases keyword with
  | some _ =>
    refine builds.statement.bind fun elseBranch second => .pure ⟨?_, rfl⟩
    exact ⟨formed, first.2, first.1, second.2, second.1⟩
  | none => exact .pure ⟨⟨formed, first.2, first.1⟩, rfl⟩

theorem whileStmt_succ (builds : BuildsStmts token room) :
    Builds token (Grammar.whileStmt (room + 1)) (FormedStatement token) := by
  refine (builds_expect _ _).bind fun _ _ => (builds_expression room).bind fun e formed => ?_
  refine (builds_expect _ _).bind fun _ _ => builds.statement.bind fun body inner => ?_
  exact .pure ⟨⟨formed, inner.2, inner.1⟩, rfl⟩

/-- One level more, for all rules of statements at once, with what is known of expressions at any
level. -/
theorem succ (builds : BuildsStmts token room) : BuildsStmts token (room + 1) where
  declaration := by
    have functions : Builds token (.funDecl <$> Grammar.funDecl .function room)
        (Stmt.Formed token) := by
      refine Builds.map ?_
      exact (builds.funDecl .function).mono fun _ formed => formed
    exact builds_recovering (builds_declaredWith builds.classDecl functions (builds_varDecl room)
      (builds.statement.mono fun _ both => both.1))
  classDecl := builds_classDeclWith (builds.funDecl .method)
  funDecl _ := builds_funDeclWith builds.block
  block := by
    refine builds_bound.bind fun fuel _ => ?_
    have items := builds_itemsUpToBrace builds.declaration fuel [] fun _ mem =>
      absurd mem List.not_mem_nil
    refine items.bind fun ss formed => (builds_expect _ _).bind fun _ _ => ?_
    exact .pure (Stmt.allFormed_iff.mpr formed)
  statement := builds.statement_succ
  forStmt := builds.forStmt_succ
  ifStmt := builds.ifStmt_succ
  whileStmt := builds.whileStmt_succ

/-- The rules of statements build well-formed trees at every room. -/
theorem all (token : Token → Prop) : ∀ room, BuildsStmts token room
  | 0 => ⟨.throw _, .throw _, fun _ => .throw _, .throw _, .throw _, .throw _, .throw _, .throw _⟩
  | room + 1 => (all token room).succ

end BuildsStmts

/-- The declarations of a program are well-formed, with those that failed left out.  A failed one
has been reported and leaves no tree. -/
theorem builds_topLevel (room : Nat) : ∀ (fuel : Nat) (before : List Stmt),
    (∀ s ∈ before, s.Formed token) →
      Builds token (topLevel room fuel before) fun ss => ∀ s ∈ ss, s.Formed token
  | 0, _, earlier => .pure fun s mem => earlier s (List.mem_reverse.mp mem)
  | fuel + 1, before, earlier => by
    refine builds_atEnd.bind fun ended _ => ?_
    split
    · exact .pure fun s mem => earlier s (List.mem_reverse.mp mem)
    · have next : Builds token (tryCatch (some <$> declaration room) fun _ => Pure.pure none)
          fun next => ∀ s, next = some (some s) → s.Formed token := by
        intro s fine
        have declared : Builds token (some <$> declaration room) fun next =>
            ∀ s, next = some (some s) → s.Formed token := by
          refine Builds.map ?_
          exact (BuildsStmts.all token room).declaration.mono fun _ formed s same =>
            formed s (Option.some.inj same)
        exact Ensures.tryCatch (declared s fine) fun _ s' _ fine' => ⟨fine', fun s same => by cases same⟩
      refine next.bind fun next formed => ?_
      rcases next with _ | _ | s
      · exact builds_peek.bind fun _ _ => (builds_report _ _).bind fun _ _ =>
          .pure fun s mem => earlier s (List.mem_reverse.mp mem)
      · exact builds_topLevel room fuel before earlier
      · refine builds_topLevel room fuel _ fun s' mem => ?_
        rcases List.mem_cons.mp mem with rfl | mem
        · exact formed _ rfl
        · exact earlier s' mem

end Statements

end Grammar

namespace Program

open Grammar

/-- What reading a program leaves behind, whatever its tokens are. -/
theorem builds_start {token : Token → Prop} (room : Nat) {tokens : List Token} {ending : Token}
    (each : ∀ t ∈ tokens, token t) (ends : ending.kind = .endOfText) :
    Stateful.Ensures (topLevel room tokens.length []) ⟨tokens, ending, tokens.length, #[]⟩
      (fun body s => Fine token s ∧ ∀ st ∈ body, st.Formed token) fun _ s => Fine token s :=
  builds_topLevel room tokens.length [] (fun _ mem => absurd mem List.not_mem_nil) _
    ⟨each, ends, fun _ mem => absurd mem (Array.not_mem_empty _)⟩

/-- The program made of any tokens is well-formed, whatever was reported on them. -/
theorem formed_ofTokens {token : Token → Prop} (room : Nat) {tokens : List Token}
    {ending : Token} (each : ∀ t ∈ tokens, token t) (ends : ending.kind = .endOfText) :
    Stmt.AllFormed token (ofTokens room tokens ending).program.body := by
  have result := builds_start room each ends
  unfold ofTokens
  dsimp only
  split
  · next ran => exact Stmt.allFormed_iff.mpr (result.of_ok ran).2
  · trivial

/-- What is reported on any tokens is on the text. -/
theorem onText_ofTokens (room : Nat) (tokens : List Token) {ending : Token}
    (ends : ending.kind = .endOfText) :
    ∀ report ∈ (ofTokens room tokens ending).reports, report.isRuntime = false := by
  have result := @builds_start (fun _ => True) room tokens ending (fun _ _ => trivial) ends
  unfold ofTokens
  dsimp only
  split
  · next ran => exact (result.of_ok ran).1.onText
  · next ran => exact (result.of_error ran).onText

end Program
end Arbor
