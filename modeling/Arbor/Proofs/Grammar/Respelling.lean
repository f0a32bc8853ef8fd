import Arbor.Proofs.Grammar.Acceptance
import Arbor.Proofs.Grammar.Kinds
import Arbor.Proofs.Program.Unresolved
import Arbor.Proofs.Token.Respelling

/-!
# Derivations of renamed programs

A tree in which variables are renamed is derived from the tokens of the tree with some identifiers
respelled: those that name the variable in its declaration and in the references to it.  Every rule
of the grammar looks at the kinds of tokens only, and a respelled identifier is an identifier.

## Main statements

* `Grammar.Clause.Derives.unresolved`: what is derived has no distances.
* `Grammar.Phrase.Derives.respelled`, `Grammar.Clause.Derives.respelled`: derivations of renamed
  expressions and statements.
* `Program.exists_reading`: a renamed program is read from a respelled text.
-/

namespace Arbor

open Grammar

variable {ρ : Renaming}

namespace Renaming.Respells

/-- A token respells itself. -/
theorem refl (t : Token) : ρ.Respells t t :=
  .inl rfl

/-- Only identifiers are respelled, and as identifiers. -/
theorem kind {t t' : Token} (same : ρ.Respells t t') : t'.kind = t.kind := by
  rcases same with rfl | ⟨-, -, rfl⟩ <;> rfl

/-- A renamed identifier is a respelled one. -/
theorem token {t : Token} (identifier : t.kind = .identifier) (marked : Bool) :
    ρ.Respells t (ρ.token marked t) := by
  unfold Renaming.token
  split
  · next both => exact .inr ⟨identifier, both.2, rfl⟩
  · exact refl t

end Renaming.Respells

namespace Grammar

/-- Some tokens with some of them respelled. -/
abbrev Respelled (ρ : Renaming) : List Token → List Token → Prop :=
  List.Forall₂ ρ.Respells

namespace Respelled

variable {a a' b b' : List Token} {t : Token}

/-- Tokens respell themselves. -/
theorem refl : ∀ tokens : List Token, Respelled ρ tokens tokens
  | [] => .nil
  | t :: rest => .cons (.refl t) (refl rest)

/-- A token in front may be kept. -/
theorem keep (rest : Respelled ρ a a') (t : Token) : Respelled ρ (t :: a) (t :: a') :=
  .cons (.refl t) rest

/-- Respelled texts are put one behind the other. -/
theorem append (first : Respelled ρ a a') (second : Respelled ρ b b') :
    Respelled ρ (a ++ b) (a' ++ b') :=
  List.rel_append first second

/-- What stands last stays. -/
theorem concat (first : Respelled ρ a a') (t : Token) : Respelled ρ (a ++ [t]) (a' ++ [t]) :=
  first.append (.refl [t])

/-- Items that are respelled one by one give a respelled list of items. -/
theorem flatMap {α : Type} {items items' : List (List Token × α)}
    (each : List.Forall₂ (Respelled ρ) (items.map Prod.fst) (items'.map Prod.fst)) :
    Respelled ρ (items.flatMap Prod.fst) (items'.flatMap Prod.fst) := by
  rw [List.flatMap_def, List.flatMap_def]
  exact List.rel_flatten each

end Respelled

/-- Items with commas between them, respelled one by one.  The commas stay, since no renaming
touches a token that is not a name. -/
theorem Separated.respelled {items items' : List (List Token)} {tokens : List Token}
    (separated : Separated items tokens) (each : List.Forall₂ (Respelled ρ) items items') :
    ∃ tokens', Separated items' tokens' ∧ Respelled ρ tokens tokens' := by
  induction separated generalizing items' with
  | none =>
    cases each
    exact ⟨[], .none, .nil⟩
  | one item =>
    obtain ⟨item', _, first, rest, rfl⟩ := List.forall₂_cons_left_iff.mp each
    cases rest
    exact ⟨item', .one item', first⟩
  | @more item next tokens items comma isComma others ih =>
    obtain ⟨item', _, first, rest, rfl⟩ := List.forall₂_cons_left_iff.mp each
    obtain ⟨next', items', second, rest', rfl⟩ := List.forall₂_cons_left_iff.mp rest
    obtain ⟨tokens', separated, same⟩ := ih rest
    exact ⟨_, .more isComma separated, first.append (same.keep comma)⟩

/-- Items that can be respelled one by one can be respelled together.  This collects the tokens that
the items are respelled to, so it is an induction and not just a choice. -/
theorem exists_items {α : Type} {derives : List Token → α → Prop} {items : List (List Token × α)}
    {trees : List α}
    (each : List.Forall₂ (fun item tree => ∃ tokens', Respelled ρ item.1 tokens' ∧
      derives tokens' tree) items trees) :
    ∃ items' : List (List Token × α), items'.map Prod.snd = trees ∧
      (∀ item ∈ items', derives item.1 item.2) ∧
      List.Forall₂ (Respelled ρ) (items.map Prod.fst) (items'.map Prod.fst) := by
  induction each with
  | nil => exact ⟨[], rfl, nofun, .nil⟩
  | @cons item tree items trees first _ ih =>
    obtain ⟨tokens', same, here⟩ := first
    obtain ⟨items', rfl, others, respelled⟩ := ih
    refine ⟨(tokens', tree) :: items', rfl, fun other mem => ?_, .cons same respelled⟩
    rcases List.mem_cons.mp mem with rfl | mem
    · exact here
    · exact others other mem

/-! ### Derived trees have no distances -/

section Unresolved

theorem map_snd_eq {α : Type} {strip : α → α} {items : List (List Token × α)}
    (each : ∀ item ∈ items, strip item.2 = item.2) :
    (items.map Prod.snd).map strip = items.map Prod.snd := by
  rw [List.map_map]
  exact List.map_congr_left each

variable {tokens : List Token}

/-- What is derived as an expression carries no distances, as the grammar has none to give.  The
induction is on the derivation. -/
theorem Phrase.Derives.unresolved {n : Phrase} {e : Expr} (derives : n.Derives tokens e) :
    e.unresolved = e := by
  induction derives with
  | operators _ ih | operand _ ih | called _ ih | primary _ ih => exact ih
  | @operation level _ _ _ _ _ _ _ _ ihLeft ihRight =>
    cases level <;> simp only [Level.node, Expr.unresolved, ihLeft, ihRight]
  | call _ _ _ _ _ _ ih ihEach =>
    simp only [Expr.unresolved, ih, Expr.allUnresolved_eq_map, map_snd_eq ihEach]
  | assign _ _ _ ih | unary _ _ ih | property _ _ _ ih | grouping _ _ _ ih =>
    simp only [Expr.unresolved, ih]
  | set _ _ _ _ _ ihLeft ihRight => simp only [Expr.unresolved, ihLeft, ihRight]
  | _ => rfl

theorem DerivesOptional.unresolved {e? : Option Expr} (derives : DerivesOptional tokens e?) :
    e?.map Expr.unresolved = e? := by
  cases derives with
  | none => rfl
  | some inner => exact congrArg Option.some inner.unresolved

theorem DerivesVarDecl.unresolved {st : Stmt} (derives : DerivesVarDecl tokens st) :
    st.unresolved = st := by
  cases derives with
  | plain => rfl
  | initialized _ _ _ inner => simp only [Stmt.unresolved, Option.map_some, inner.unresolved]

theorem DerivesExprStmt.unresolved {st : Stmt} (derives : DerivesExprStmt tokens st) :
    st.unresolved = st := by
  cases derives with
  | intro inner => exact congrArg Stmt.expr inner.unresolved

theorem DerivesInitializer.unresolved {st? : Option Stmt}
    (derives : DerivesInitializer tokens st?) : st?.map Stmt.unresolved = st? := by
  cases derives with
  | none => rfl
  | varDecl inner => exact congrArg some inner.unresolved
  | exprStmt inner => exact congrArg some inner.unresolved

/-- A `for` loop that stands for blocks and a loop carries none either, if none of its parts does.
A condition that is left out is a literal, which carries no distance. -/
theorem unresolved_loopOf {start : Option Stmt} {condition step : Option Expr} {body : Stmt}
    (sameStart : start.map Stmt.unresolved = start)
    (sameTest : condition.map Expr.unresolved = condition)
    (sameStep : step.map Expr.unresolved = step) (sameBody : body.unresolved = body) :
    (loopOf start condition step body).unresolved = loopOf start condition step body := by
  have test : (condition.getD (.literal (.bool true))).unresolved
      = condition.getD (.literal (.bool true)) := by
    cases condition with
    | none => rfl
    | some e => exact Option.some.inj sameTest
  cases start <;> cases step <;>
    simp_all [loopOf, Stmt.unresolved, Stmt.allUnresolved]

/-- What is derived has no distances.  The induction is on the derivation, and in each case the tree
is made of parts that have none. -/
theorem Clause.Derives.unresolved {n : Clause} {st : Stmt} (derives : n.Derives tokens st) :
    st.unresolved = st := by
  induction derives with
  | @classDecl _ _ _ _ _ parent methods _ _ superclass _ _ _ ih =>
    have above : parent.map Superclass.unresolved = parent := by cases superclass <;> rfl
    have each : ∀ method ∈ methods, method.2.unresolved = method.2 :=
      fun method mem => Stmt.funDecl.inj (ih method mem)
    simp only [Stmt.unresolved, above, FunDecl.allUnresolved_eq_map, map_snd_eq each]
  | funDecl _ _ ih | statement _ ih => exact ih
  | varDecl inner => exact inner.unresolved
  | exprStmt inner => exact inner.unresolved
  | function _ _ _ _ _ _ _ _ _ ih =>
    simp only [Stmt.unresolved, FunDecl.unresolved, Stmt.allUnresolved_eq_map, map_snd_eq ih]
  | forStmt _ _ starts tests _ steps _ _ ih =>
    exact unresolved_loopOf starts.unresolved tests.unresolved steps.unresolved ih
  | ifStmt _ _ tests _ _ ih => simp only [Stmt.unresolved, tests.unresolved, ih]
  | ifElse _ _ tests _ _ _ _ ih ih' => simp only [Stmt.unresolved, tests.unresolved, ih, ih']
  | printStmt _ inner _ => exact congrArg Stmt.print inner.unresolved
  | returnStmt _ inner _ => simp only [Stmt.unresolved, inner.unresolved]
  | whileStmt _ _ tests _ _ ih => simp only [Stmt.unresolved, tests.unresolved, ih]
  | breakStmt | continueStmt => rfl
  | block _ _ _ ih => simp only [Stmt.unresolved, Stmt.allUnresolved_eq_map, map_snd_eq ih]

end Unresolved

/-! ### Expressions -/

section Expressions

variable {marks : List Bool}

/-- An expression that would be an operation without its distances is an operation with them. -/
theorem Level.unresolved_eq_node {level : Level} {e left right : Expr} {operator : Token}
    (tree : e.unresolved = level.node left operator right) :
    ∃ left' right', e = level.node left' operator right' ∧ left'.unresolved = left ∧
      right'.unresolved = right := by
  cases level <;>
  · cases e with
    | logical left' operator' right' | binary left' operator' right' =>
      cases tree <;> exact ⟨left', right', rfl, rfl, rfl⟩
    | _ => cases tree

/-- The operands of a well-formed operation are well-formed. -/
theorem Level.formed_node {token : Token → Prop} {level : Level} {left right : Expr}
    {operator : Token} (formed : (level.node left operator right).Formed token) :
    left.Formed token ∧ right.Formed token := by
  cases level <;> exact ⟨formed.2.2.1, formed.2.2.2⟩

/-- An operation is renamed in its operands and in nothing else. -/
theorem Level.unresolved_rename_node (level : Level) (left right : Expr) (operator : Token) :
    ((level.node left operator right).rename ρ marks).unresolved
      = level.node (left.rename ρ marks).unresolved operator (right.rename ρ marks).unresolved := by
  cases level <;> rfl

/-- Arguments that are renamed one by one.  The trees are those of the items, so the two lists are
as long as each other. -/
theorem forall₂_arguments {derives : List Token → Expr → Prop} {items : List (List Token × Expr)}
    (each : ∀ item ∈ items, ∀ {e : Expr}, e.unresolved = item.2 → e.Formed ρ.Fits →
      ∃ tokens', Respelled ρ item.1 tokens' ∧ derives tokens' (e.rename ρ marks).unresolved)
    {es : List Expr} (trees : Expr.allUnresolved es = items.map Prod.snd)
    (formed : Expr.AllFormed ρ.Fits es) :
    List.Forall₂ (fun item tree => ∃ tokens', Respelled ρ item.1 tokens' ∧ derives tokens' tree)
      items (Expr.allUnresolved (Expr.allRename ρ marks es)) := by
  induction items generalizing es with
  | nil =>
    cases es with
    | nil => exact .nil
    | cons => cases trees
  | cons item items ih =>
    cases es with
    | nil => cases trees
    | cons e rest =>
      obtain ⟨first, others⟩ := List.cons.inj trees
      exact .cons (each item List.mem_cons_self first formed.1)
        (ih (fun other mem => each other (List.mem_cons_of_mem _ mem)) others formed.2)

/-- A renamed expression is derived from respelled tokens.  The induction is on the derivation of
the tree without distances; what is renamed is decided by the tree with them, which has the same
form. -/
theorem Phrase.Derives.respelled {n : Phrase} {tokens : List Token} {tree : Expr}
    (derives : n.Derives tokens tree) (marks : List Bool) :
    ∀ {e : Expr}, e.unresolved = tree → e.Formed ρ.Fits →
      ∃ tokens', Respelled ρ tokens tokens' ∧ n.Derives tokens' (e.rename ρ marks).unresolved := by
  induction derives with
  | @assign name equals tokens value isName isEquals right ih =>
    intro e same formed
    cases e with
    | assign name value hops =>
      cases same
      obtain ⟨tokens', respelled, right'⟩ := ih rfl formed.2.2
      refine ⟨_, .cons (.token isName (leadsToMark marks hops)) (respelled.keep equals), ?_⟩
      exact .assign ((Renaming.token_kind _ _).trans isName) isEquals right'
    | _ => cases same
  | @set dot name equals tokens tokens' object value left isDot isName isEquals right ihLeft
      ihRight =>
    intro e same formed
    cases e with
    | setField object name value =>
      cases same
      obtain ⟨used, respelled, left'⟩ := ihLeft rfl formed.2.2.1
      obtain ⟨used', respelled', right'⟩ := ihRight rfl formed.2.2.2
      exact ⟨_, respelled.append (((respelled'.keep equals).keep name).keep dot),
        .set left' isDot isName isEquals right'⟩
    | _ => cases same
  | operators _ ih =>
    intro e same formed
    obtain ⟨tokens', respelled, inner⟩ := ih same formed
    exact ⟨tokens', respelled, .operators inner⟩
  | operand _ ih =>
    intro e same formed
    obtain ⟨tokens', respelled, inner⟩ := ih same formed
    exact ⟨tokens', respelled, .operand inner⟩
  | @operation level operator tokens tokens' left right _ isOperator _ ihLeft ihRight =>
    intro e same formed
    obtain ⟨left', right', rfl, sameLeft, sameRight⟩ := Level.unresolved_eq_node same
    obtain ⟨formedLeft, formedRight⟩ := Level.formed_node formed
    obtain ⟨used, respelled, first⟩ := ihLeft sameLeft formedLeft
    obtain ⟨used', respelled', second⟩ := ihRight sameRight formedRight
    rw [Level.unresolved_rename_node]
    exact ⟨_, respelled.append (respelled'.keep operator), .operation first isOperator second⟩
  | @unary operator tokens right isOperator _ ih =>
    intro e same formed
    cases e with
    | unary operator right =>
      cases same
      obtain ⟨tokens', respelled, inner⟩ := ih rfl formed.2.2
      exact ⟨_, respelled.keep operator, .unary isOperator inner⟩
    | _ => cases same
  | called _ ih =>
    intro e same formed
    obtain ⟨tokens', respelled, inner⟩ := ih same formed
    exact ⟨tokens', respelled, .called inner⟩
  | primary _ ih =>
    intro e same formed
    obtain ⟨tokens', respelled, inner⟩ := ih same formed
    exact ⟨tokens', respelled, .primary inner⟩
  | @call opening paren tokens tokens' callee items _ isOpening few _ separated isParen ihLeft
      ihEach =>
    intro e same formed
    cases e with
    | call callee paren arguments =>
      obtain ⟨sameCallee, rfl, sameArguments⟩ := Expr.call.inj same
      obtain ⟨used, respelled, left⟩ := ihLeft sameCallee formed.2.2.1
      obtain ⟨items', trees, each, itemwise⟩ :=
        exists_items (forall₂_arguments ihEach sameArguments formed.2.2.2)
      obtain ⟨used', separated', respelled'⟩ := separated.respelled itemwise
      have length : items'.length = items.length := by
        have lengths := itemwise.length_eq
        rw [List.length_map, List.length_map] at lengths
        exact lengths.symm
      refine ⟨_, respelled.append ((respelled'.concat paren).keep opening), ?_⟩
      rw [Expr.rename, Expr.unresolved, ← trees]
      exact .call left isOpening (length ▸ few) each separated' isParen
    | _ => cases same
  | @property dot name tokens object _ isDot isName ih =>
    intro e same formed
    cases e with
    | getField object name =>
      cases same
      obtain ⟨tokens', respelled, left⟩ := ih rfl formed.2.2
      exact ⟨_, respelled.append (.refl [dot, name]), .property left isDot isName⟩
    | _ => cases same
  | false is =>
    intro e same formed
    cases e with
    | literal => cases same; exact ⟨_, .refl _, .false is⟩
    | _ => cases same
  | true is =>
    intro e same formed
    cases e with
    | literal => cases same; exact ⟨_, .refl _, .true is⟩
    | _ => cases same
  | nil is =>
    intro e same formed
    cases e with
    | literal => cases same; exact ⟨_, .refl _, .nil is⟩
    | _ => cases same
  | number is =>
    intro e same formed
    cases e with
    | literal => cases same; exact ⟨_, .refl _, .number is⟩
    | _ => cases same
  | string is =>
    intro e same formed
    cases e with
    | literal => cases same; exact ⟨_, .refl _, .string is⟩
    | _ => cases same
  | var is =>
    intro e same formed
    cases e with
    | var name hops =>
      cases same
      exact ⟨_, .cons (.token is (leadsToMark marks hops)) .nil,
        .var ((Renaming.token_kind _ _).trans is)⟩
    | _ => cases same
  | @grouping opening closing tokens inner isOpening _ isClosing ih =>
    intro e same formed
    cases e with
    | grouping inner =>
      cases same
      obtain ⟨tokens', respelled, inner'⟩ := ih rfl formed
      exact ⟨_, (respelled.concat closing).keep opening, .grouping isOpening inner' isClosing⟩
    | _ => cases same
  | this is =>
    intro e same formed
    cases e with
    | this => cases same; exact ⟨_, .refl _, .this is⟩
    | _ => cases same
  | super is isDot isName =>
    intro e same formed
    cases e with
    | super => cases same; exact ⟨_, .refl _, .super is isDot isName⟩
    | _ => cases same

/-- An expression that is left out is left out in the renamed program, and so needs no tokens
there. -/
theorem DerivesOptional.respelled {tokens : List Token} {tree : Option Expr}
    (derives : DerivesOptional tokens tree) (marks : List Bool) {e? : Option Expr}
    (same : e?.map Expr.unresolved = tree) (formed : Expr.OptionFormed ρ.Fits e?) :
    ∃ tokens', Respelled ρ tokens tokens' ∧
      DerivesOptional tokens' ((e?.map (Expr.rename ρ marks)).map Expr.unresolved) := by
  cases derives with
  | none =>
    cases e? with
    | none => exact ⟨[], .nil, .none⟩
    | some => cases same
  | some inner =>
    cases e? with
    | none => cases same
    | some e =>
      obtain ⟨tokens', respelled, inner'⟩ := inner.respelled marks (Option.some.inj same) formed
      exact ⟨tokens', respelled, .some inner'⟩

end Expressions

/-! ### Statements -/

section Statements

variable {marks : List Bool}

/-- A declaration is respelled in its name, if it declares the variable, and in its initializer.
The name stays an identifier, so the same rule derives it. -/
theorem DerivesVarDecl.respelled {tokens : List Token} {tree st st' : Stmt}
    (derives : DerivesVarDecl tokens tree) (same : st.unresolved = tree) (formed : st.Formed ρ.Fits)
    (renamed : st.Renamed ρ marks st') :
    ∃ tokens', Respelled ρ tokens tokens' ∧ DerivesVarDecl tokens' st'.unresolved := by
  cases derives with
  | @plain keyword name semicolon is isName ends =>
    cases st with
    | varDecl name initializer =>
      cases renamed
      obtain ⟨rfl, none⟩ := Stmt.varDecl.inj same
      obtain rfl := Option.map_eq_none_iff.mp none
      refine ⟨_, .keep (.cons (.token isName (marks.headD false)) (Respelled.refl [semicolon]))
        keyword, ?_⟩
      exact .plain is ((Renaming.token_kind _ _).trans isName) ends
    | ifElse condition thenBranch elseBranch => cases elseBranch <;> cases same
    | _ => cases same
  | @initialized keyword name equals semicolon tokens value is isName isEquals inner ends =>
    cases st with
    | varDecl name initializer =>
      cases renamed
      obtain ⟨rfl, some⟩ := Stmt.varDecl.inj same
      obtain ⟨e, rfl, value⟩ := Option.map_eq_some_iff.mp some
      obtain ⟨tokens', respelled, inner'⟩ := inner.respelled marks value formed.2.2
      refine ⟨_, .keep (.cons (.token isName (marks.headD false))
        ((respelled.concat semicolon).keep equals)) keyword, ?_⟩
      exact .initialized is ((Renaming.token_kind _ _).trans isName) isEquals inner' ends
    | ifElse condition thenBranch elseBranch => cases elseBranch <;> cases same
    | _ => cases same

/-- An expression statement is respelled in its expression, and the semicolon stays.  The tree tells
that the statement to be renamed is one as well. -/
theorem DerivesExprStmt.respelled {tokens : List Token} {tree st st' : Stmt}
    (derives : DerivesExprStmt tokens tree) (same : st.unresolved = tree)
    (formed : st.Formed ρ.Fits) (renamed : st.Renamed ρ marks st') :
    ∃ tokens', Respelled ρ tokens tokens' ∧ DerivesExprStmt tokens' st'.unresolved := by
  cases derives with
  | @intro tokens semicolon e inner ends =>
    cases st with
    | expr e =>
      cases renamed
      obtain ⟨tokens', respelled, inner'⟩ := inner.respelled marks (Stmt.expr.inj same) formed
      exact ⟨_, respelled.concat semicolon, .intro inner' ends⟩
    | ifElse condition thenBranch elseBranch => cases elseBranch <;> cases same
    | _ => cases same

/-- Statements that are renamed one by one.  They stand in one scope, so all of them are renamed
under the same marks. -/
theorem forall₂_statements {derives : List Token → Stmt → Prop} {items : List (List Token × Stmt)}
    (each : ∀ item ∈ items, ∀ {st st' : Stmt}, st.unresolved = item.2 → st.Formed ρ.Fits →
      st.Renamed ρ marks st' →
        ∃ tokens', Respelled ρ item.1 tokens' ∧ derives tokens' st'.unresolved)
    {sts sts' : List Stmt} (trees : Stmt.allUnresolved sts = items.map Prod.snd)
    (formed : Stmt.AllFormed ρ.Fits sts) (renamed : Stmt.AllRenamed ρ marks sts sts') :
    List.Forall₂ (fun item tree => ∃ tokens', Respelled ρ item.1 tokens' ∧ derives tokens' tree)
      items (Stmt.allUnresolved sts') := by
  induction items generalizing sts sts' with
  | nil =>
    cases sts with
    | nil =>
      cases renamed
      exact .nil
    | cons => cases trees
  | cons item items ih =>
    cases sts with
    | nil => cases trees
    | cons st rest =>
      obtain ⟨first, others⟩ := List.cons.inj trees
      obtain ⟨st', rest', rfl, renamedFirst, renamedRest⟩ := renamed
      exact .cons (each item List.mem_cons_self first formed.1 renamedFirst)
        (ih (fun other mem => each other (List.mem_cons_of_mem _ mem)) others formed.2 renamedRest)

/-- Methods that are renamed one by one; their names are none that are renamed.  Their marks begin
with one for the scope of `this`, where no variable is declared. -/
theorem forall₂_methods {derives : List Token → Stmt → Prop} {items : List (List Token × FunDecl)}
    (each : ∀ item ∈ items, ∀ {st st' : Stmt}, st.unresolved = .funDecl item.2 →
      st.Formed ρ.Fits → st.Renamed ρ (false :: marks) st' →
        ∃ tokens', Respelled ρ item.1 tokens' ∧ derives tokens' st'.unresolved)
    {decls decls' : List FunDecl} (trees : FunDecl.allUnresolved decls = items.map Prod.snd)
    (formed : FunDecl.AllFormed ρ.Fits decls)
    (renamed : FunDecl.AllRenamed ρ (false :: marks) decls decls') :
    List.Forall₂ (fun item tree => ∃ tokens', Respelled ρ item.1 tokens' ∧
      derives tokens' (.funDecl tree)) items (FunDecl.allUnresolved decls') := by
  induction items generalizing decls decls' with
  | nil =>
    cases decls with
    | nil =>
      cases renamed
      exact .nil
    | cons => cases trees
  | cons item items ih =>
    cases decls with
    | nil => cases trees
    | cons decl rest =>
      obtain ⟨first, others⟩ := List.cons.inj trees
      obtain ⟨decl', rest', rfl, renamedFirst, renamedRest⟩ := renamed
      have alone : (Stmt.funDecl decl).unresolved = .funDecl item.2 := congrArg Stmt.funDecl first
      have keeps : (Stmt.funDecl decl).Renamed ρ (false :: marks) (.funDecl decl') :=
        ⟨decl', rfl, nofun, renamedFirst⟩
      refine .cons (each item List.mem_cons_self alone formed.1 keeps) ?_
      exact ih (fun other mem => each other (List.mem_cons_of_mem _ mem)) others formed.2
        renamedRest

/-- A superclass is respelled as the variable that it is.  Its name occurs twice in the tree, in the
class and in the variable, and is one token of the text. -/
theorem DerivesSuperclass.respelled {tokens : List Token} {tree : Option Superclass}
    (derives : DerivesSuperclass tokens tree) (marks : List Bool) {parent : Option Superclass}
    (same : parent.map Superclass.unresolved = tree)
    (formed : ∀ above ∈ parent, Superclass.Formed ρ.Fits above) :
    ∃ tokens', Respelled ρ tokens tokens' ∧ DerivesSuperclass tokens'
      ((parent.map (Superclass.rename ρ marks)).map Superclass.unresolved) := by
  cases derives with
  | none =>
    obtain rfl := Option.map_eq_none_iff.mp same
    exact ⟨[], .nil, .none⟩
  | @some less name is isName =>
    obtain ⟨above, rfl, tree⟩ := Option.map_eq_some_iff.mp same
    obtain ⟨-, -, hops, value⟩ := formed above rfl
    obtain ⟨name, referred⟩ := above
    dsimp only at value
    subst value
    cases tree
    refine ⟨_, .keep (.cons (.token isName (leadsToMark marks hops)) .nil) less, ?_⟩
    exact .some is ((Renaming.token_kind _ _).trans isName)

/-- A class is derived if its superclass and its methods are.  Its own name is not among those that
are renamed, and neither is any other token of the frame around its members. -/
theorem exists_class {keyword name opening closing : Token} {tokens used : List Token}
    {parent : Option Superclass} {methods : List (List Token × FunDecl)} {trees : List FunDecl}
    (is : keyword.kind = .kwClass) (isName : name.kind = .identifier)
    (isOpening : opening.kind = .leftBrace) (isClosing : closing.kind = .rightBrace)
    (respelled : Respelled ρ tokens used) (superclass : DerivesSuperclass used parent)
    (members : List.Forall₂ (fun item tree => ∃ tokens', Respelled ρ item.1 tokens' ∧
      Clause.function.Derives tokens' (.funDecl tree)) methods trees) :
    ∃ tokens', Respelled ρ (keyword :: name ::
        (tokens ++ opening :: (methods.flatMap Prod.fst ++ [closing]))) tokens' ∧
      Clause.declaration.Derives tokens' (.classDecl name parent trees) := by
  obtain ⟨methods', rfl, each, itemwise⟩ := exists_items members
  exact ⟨_, ((respelled.append (((Respelled.flatMap itemwise).concat closing).keep opening)).keep
    name).keep keyword, .classDecl is isName superclass isOpening each isClosing⟩

/-! #### Loops -/

/-- The body of a `for` loop with its last part. -/
def stepped (body : Stmt) : Option Expr → Stmt
  | some step => .block [body, .expr step]
  | none => body

/-- A loop behind the first part of a `for` loop. -/
def started (loop : Stmt) : Option Stmt → Stmt
  | some start => .block [start, loop]
  | none => loop

/-- What a `for` loop stands for, in two steps: the body with what is done after it, and the loop
with what is done before it.  The renaming goes through each step on its own. -/
theorem loopOf_eq (start : Option Stmt) (condition step : Option Expr) (body : Stmt) :
    loopOf start condition step body
      = started (.loop (condition.getD (.literal (.bool true))) (stepped body step)) start := by
  cases start <;> cases step <;> rfl

/-- A statement that would be a block without its distances is one. -/
theorem unresolved_eq_block {st : Stmt} {trees : List Stmt} (same : st.unresolved = .block trees) :
    ∃ statements, st = .block statements ∧ Stmt.allUnresolved statements = trees := by
  cases st with
  | block statements => exact ⟨statements, rfl, Stmt.block.inj same⟩
  | ifElse condition thenBranch elseBranch => cases elseBranch <;> cases same
  | _ => cases same

/-- So is one that would be a loop. -/
theorem unresolved_eq_loop {st body : Stmt} {condition : Expr}
    (same : st.unresolved = .loop condition body) :
    ∃ condition' body', st = .loop condition' body' ∧ condition'.unresolved = condition ∧
      body'.unresolved = body := by
  cases st with
  | loop condition' body' =>
    obtain ⟨first, second⟩ := Stmt.loop.inj same
    exact ⟨condition', body', rfl, first, second⟩
  | ifElse condition thenBranch elseBranch => cases elseBranch <;> cases same
  | _ => cases same

/-- So is one that would be an expression. -/
theorem unresolved_eq_expr {st : Stmt} {e : Expr} (same : st.unresolved = .expr e) :
    ∃ e', st = .expr e' ∧ e'.unresolved = e := by
  cases st with
  | expr e' => exact ⟨e', rfl, Stmt.expr.inj same⟩
  | ifElse condition thenBranch elseBranch => cases elseBranch <;> cases same
  | _ => cases same

/-- Two statements that are all there is. -/
theorem allUnresolved_eq_pair {statements : List Stmt} {first second : Stmt}
    (same : Stmt.allUnresolved statements = [first, second]) :
    ∃ one two, statements = [one, two] ∧ one.unresolved = first ∧ two.unresolved = second := by
  match statements, same with
  | [one, two], same =>
    obtain ⟨here, others⟩ := List.cons.inj same
    exact ⟨one, two, rfl, here, (List.cons.inj others).1⟩

/-- Two statements that are renamed are renamed one by one. -/
theorem renamed_pair {one two : Stmt} {statements' : List Stmt}
    (renamed : Stmt.AllRenamed ρ marks [one, two] statements') :
    ∃ one' two', statements' = [one', two'] ∧ one.Renamed ρ marks one' ∧
      two.Renamed ρ marks two' := by
  obtain ⟨one', _, rfl, first, two', _, rfl, second, rfl⟩ := renamed
  exact ⟨one', two', rfl, first, second⟩

/-- A renamed body with the last part of a `for` loop, in its two parts.  They stand in a block that
the loop has made, and so have a scope of their own. -/
theorem stepped_renamed {st st' body : Stmt} {step : Option Expr}
    (same : st.unresolved = stepped body step) (formed : st.Formed ρ.Fits)
    (renamed : st.Renamed ρ marks st') :
    ∃ (marks' : List Bool) (e? : Option Expr) (inner inner' : Stmt),
      e?.map Expr.unresolved = step ∧ Expr.OptionFormed ρ.Fits e? ∧ inner.unresolved = body ∧
      inner.Formed ρ.Fits ∧ inner.Renamed ρ marks' inner' ∧
      st'.unresolved
        = stepped inner'.unresolved ((e?.map (Expr.rename ρ marks')).map Expr.unresolved) := by
  cases step with
  | none => exact ⟨marks, none, st, st', rfl, trivial, same, formed, renamed, rfl⟩
  | some step =>
    obtain ⟨_, rfl, trees⟩ := unresolved_eq_block same
    obtain ⟨inner, last, rfl, first, second⟩ := allUnresolved_eq_pair trees
    obtain ⟨e, rfl, tree⟩ := unresolved_eq_expr second
    obtain ⟨here, _, rfl, both⟩ := renamed
    obtain ⟨inner', last', rfl, renamedInner, rfl⟩ := renamed_pair both
    exact ⟨here :: marks, some e, inner, inner', congrArg some tree, formed.2.1, first, formed.1,
      renamedInner, rfl⟩

/-- A renamed loop, in its condition and its body.  A condition that was left out is a constant in
the tree, which the renaming leaves alone. -/
theorem loop_renamed {st st' body : Stmt} {condition : Option Expr}
    (same : st.unresolved = .loop (condition.getD (.literal (.bool true))) body)
    (formed : st.Formed ρ.Fits) (renamed : st.Renamed ρ marks st') :
    ∃ (e? : Option Expr) (inner inner' : Stmt), e?.map Expr.unresolved = condition ∧
      Expr.OptionFormed ρ.Fits e? ∧ inner.unresolved = body ∧ inner.Formed ρ.Fits ∧
      inner.Renamed ρ marks inner' ∧
      st'.unresolved = .loop (((e?.map (Expr.rename ρ marks)).map Expr.unresolved).getD
        (.literal (.bool true))) inner'.unresolved := by
  obtain ⟨test, inner, rfl, tested, tree⟩ := unresolved_eq_loop same
  obtain ⟨inner', rfl, renamedInner⟩ := renamed
  cases condition with
  | some e =>
    exact ⟨some test, inner, inner', congrArg some tested, formed.1, tree, formed.2.2, renamedInner,
      rfl⟩
  | none =>
    -- a condition that is left out is a constant
    cases test with
    | literal value =>
      cases tested
      exact ⟨none, inner, inner', rfl, trivial, tree, formed.2.2, renamedInner, rfl⟩
    | _ => cases tested

/-- A renamed loop behind the first part of a `for` loop, in its two parts.  The scope of both is
that of the block which the loop has made for the variable it declares. -/
theorem started_renamed {st st' loop : Stmt} {start : Option Stmt}
    (same : st.unresolved = started loop start) (formed : st.Formed ρ.Fits)
    (renamed : st.Renamed ρ marks st') :
    ∃ (marks' : List Bool) (s? s?' : Option Stmt) (inner inner' : Stmt),
      s?.map Stmt.unresolved = start ∧
      Option.Rel (fun s s' => s.Formed ρ.Fits ∧ s.Renamed ρ marks' s') s? s?' ∧
      inner.unresolved = loop ∧ inner.Formed ρ.Fits ∧ inner.Renamed ρ marks' inner' ∧
      st'.unresolved = started inner'.unresolved (s?'.map Stmt.unresolved) := by
  cases start with
  | none => exact ⟨marks, none, none, st, st', rfl, .none, same, formed, renamed, rfl⟩
  | some start =>
    obtain ⟨_, rfl, trees⟩ := unresolved_eq_block same
    obtain ⟨s, inner, rfl, first, second⟩ := allUnresolved_eq_pair trees
    obtain ⟨here, _, rfl, both⟩ := renamed
    obtain ⟨s', inner', rfl, renamedStart, renamedInner⟩ := renamed_pair both
    exact ⟨here :: marks, some s, some s', inner, inner', congrArg some first,
      .some ⟨formed.1, renamedStart⟩, second, formed.2.1, renamedInner, rfl⟩

/-- The first clause of a loop may declare the variable, and then is respelled like a declaration.
If it is left out its semicolon stays alone. -/
theorem DerivesInitializer.respelled {tokens : List Token} {tree : Option Stmt}
    (derives : DerivesInitializer tokens tree) {s? s?' : Option Stmt}
    (same : s?.map Stmt.unresolved = tree)
    (renamed : Option.Rel (fun s s' => s.Formed ρ.Fits ∧ s.Renamed ρ marks s') s? s?') :
    ∃ tokens', Respelled ρ tokens tokens' ∧
      DerivesInitializer tokens' (s?'.map Stmt.unresolved) := by
  cases derives with
  | @none semicolon is =>
    obtain rfl := Option.map_eq_none_iff.mp same
    cases renamed
    exact ⟨_, .refl [semicolon], .none is⟩
  | varDecl inner =>
    obtain ⟨s, rfl, tree⟩ := Option.map_eq_some_iff.mp same
    cases renamed with
    | some both =>
      obtain ⟨tokens', respelled, inner'⟩ := inner.respelled tree both.1 both.2
      exact ⟨tokens', respelled, .varDecl inner'⟩
  | exprStmt inner =>
    obtain ⟨s, rfl, tree⟩ := Option.map_eq_some_iff.mp same
    cases renamed with
    | some both =>
      obtain ⟨tokens', respelled, inner'⟩ := inner.respelled tree both.1 both.2
      exact ⟨tokens', respelled, .exprStmt inner'⟩

/-! #### Clauses -/

/-- Parameters are identifiers, and respelled one by one. -/
theorem forall₂_params {params : List Token} (names : ∀ param ∈ params, param.kind = .identifier)
    (here : Bool) : List.Forall₂ (Respelled ρ) (params.map fun param => [param])
      ((params.map (ρ.token here)).map fun param => [param]) := by
  induction params with
  | nil => exact .nil
  | cons param rest ih =>
    exact .cons (.cons (.token (names param List.mem_cons_self) here) .nil)
      (ih fun other mem => names other (List.mem_cons_of_mem _ mem))

/-- A renamed statement is derived from respelled tokens.  The induction is on the derivation; for a
loop the tree is taken apart first, as it holds blocks that no token stands for. -/
theorem Clause.Derives.respelled {n : Clause} {tokens : List Token} {tree : Stmt}
    (derives : n.Derives tokens tree) : ∀ {marks : List Bool} {st st' : Stmt},
      st.unresolved = tree → st.Formed ρ.Fits → st.Renamed ρ marks st' →
        ∃ tokens', Respelled ρ tokens tokens' ∧ n.Derives tokens' st'.unresolved := by
  induction derives with
  | @classDecl keyword name opening closing tokens parent methods is isName superclass isOpening _
      isClosing ih =>
    intro marks st st' same formed renamed
    cases st with
    | classDecl name above members =>
      obtain ⟨rfl, sameAbove, sameMembers⟩ := Stmt.classDecl.inj same
      cases above with
      | none =>
        obtain ⟨members', rfl, -, renamedMembers⟩ := renamed
        have fits : ∀ above ∈ (none : Option Superclass), Superclass.Formed ρ.Fits above :=
          fun above mem => absurd mem (Option.not_mem_none above)
        obtain ⟨used, respelled, superclass'⟩ := superclass.respelled marks sameAbove fits
        exact exists_class is isName isOpening isClosing respelled superclass'
          (forall₂_methods (fun item mem => ih item mem) sameMembers formed.2.2 renamedMembers)
      | some above =>
        obtain ⟨members', rfl, -, renamedMembers⟩ := renamed
        have fits : ∀ parent ∈ some above, Superclass.Formed ρ.Fits parent := by
          rintro _ ⟨⟩
          exact formed.2.2.1
        obtain ⟨used, respelled, superclass'⟩ := superclass.respelled marks sameAbove fits
        exact exists_class is isName isOpening isClosing respelled superclass'
          (forall₂_methods (fun item mem => ih item mem) sameMembers formed.2.2.2 renamedMembers)
    | ifElse condition thenBranch elseBranch => cases elseBranch <;> cases same
    | _ => cases same
  | @funDecl keyword tokens st is _ ih =>
    intro marks st st' same formed renamed
    obtain ⟨tokens', respelled, inner⟩ := ih same formed renamed
    exact ⟨_, respelled.keep keyword, .funDecl is inner⟩
  | varDecl inner =>
    intro marks st st' same formed renamed
    obtain ⟨tokens', respelled, inner'⟩ := inner.respelled same formed renamed
    exact ⟨tokens', respelled, .varDecl inner'⟩
  | statement _ ih =>
    intro marks st st' same formed renamed
    obtain ⟨tokens', respelled, inner⟩ := ih same formed renamed
    exact ⟨tokens', respelled, .statement inner⟩
  | @function name opening closing left right params tokens body isName isOpening few names
      separated isClosing isLeft _ isRight ih =>
    intro marks st st' same formed renamed
    cases st with
    | funDecl decl =>
      obtain ⟨name, params, statements⟩ := decl
      obtain ⟨decl', rfl, -, here, body', rfl, renamedBody⟩ := renamed
      obtain ⟨rfl, rfl, sameBody⟩ := FunDecl.mk.inj (Stmt.funDecl.inj same)
      obtain ⟨used, separated', respelled⟩ := separated.respelled (forall₂_params names here)
      obtain ⟨items', trees, each, itemwise⟩ := exists_items
        (forall₂_statements (fun item mem => ih item mem) sameBody formed.2.2.2 renamedBody)
      refine ⟨_, ((respelled.append ((((Respelled.flatMap itemwise).concat right).keep left).keep
        closing)).keep opening).keep name, ?_⟩
      rw [Stmt.unresolved, FunDecl.unresolved, ← trees]
      refine .function isName isOpening (by rwa [List.length_map]) (fun param mem => ?_) separated'
        isClosing isLeft each isRight
      obtain ⟨original, there, rfl⟩ := List.mem_map.mp mem
      exact (Renaming.token_kind _ _).trans (names original there)
    | ifElse condition thenBranch elseBranch => cases elseBranch <;> cases same
    | _ => cases same
  | exprStmt inner =>
    intro marks st st' same formed renamed
    obtain ⟨tokens', respelled, inner'⟩ := inner.respelled same formed renamed
    exact ⟨tokens', respelled, .exprStmt inner'⟩
  | @forStmt keyword opening semicolon closing start condition step tokens start? condition? step?
      isOpen body is isOpening starts tests ends steps isClosing _ ih =>
    intro marks st st' same formed renamed
    rw [loopOf_eq] at same
    obtain ⟨marks₁, s?, s?', loop, loop', sameStart, renamedStart, sameLoop, formedLoop,
      renamedLoop, whole⟩ := started_renamed same formed renamed
    obtain ⟨c?, rest, rest', sameTest, formedTest, sameRest, formedRest, renamedRest, loops⟩ :=
      loop_renamed sameLoop formedLoop renamedLoop
    obtain ⟨marks₂, e?, inner, inner', sameStep, formedStep, sameInner, formedInner, renamedInner,
      stepping⟩ := stepped_renamed sameRest formedRest renamedRest
    obtain ⟨used₁, respelled₁, starts'⟩ := starts.respelled sameStart renamedStart
    obtain ⟨used₂, respelled₂, tests'⟩ := tests.respelled marks₁ sameTest formedTest
    obtain ⟨used₃, respelled₃, steps'⟩ := steps.respelled marks₂ sameStep formedStep
    obtain ⟨used₄, respelled₄, inner''⟩ := ih sameInner formedInner renamedInner
    refine ⟨_, ((respelled₁.append (respelled₂.append ((respelled₃.append
      (respelled₄.keep closing)).keep semicolon))).keep opening).keep keyword, ?_⟩
    rw [whole, loops, stepping, ← loopOf_eq]
    exact .forStmt is isOpening starts' tests' ends steps' isClosing inner''
  | @ifStmt keyword opening closing condition tokens e isOpen st is isOpening tests isClosing _
      ih =>
    intro marks st st' same formed renamed
    cases st with
    | ifElse condition thenBranch elseBranch =>
      cases elseBranch with
      | none =>
        obtain ⟨sameTest, sameThen, -⟩ := Stmt.ifElse.inj same
        obtain ⟨thenBranch', rfl, renamedThen⟩ := renamed
        obtain ⟨used, respelled, tests'⟩ := tests.respelled marks sameTest formed.1
        obtain ⟨used', respelled', inner⟩ := ih sameThen formed.2.2 renamedThen
        exact ⟨_, ((respelled.append (respelled'.keep closing)).keep opening).keep keyword,
          .ifStmt is isOpening tests' isClosing inner⟩
      | some => cases same
    | _ => cases same
  | @ifElse keyword opening closing other condition tokens tokens' e isOpen st st' is isOpening
      tests isClosing _ isOther _ ih ih' =>
    intro marks st st' same formed renamed
    cases st with
    | ifElse condition thenBranch elseBranch =>
      cases elseBranch with
      | none => cases same
      | some elseBranch =>
        obtain ⟨sameTest, sameThen, sameElse⟩ := Stmt.ifElse.inj same
        obtain ⟨thenBranch', elseBranch', rfl, renamedThen, renamedElse⟩ := renamed
        obtain ⟨formedTest, -, formedThen, -, formedElse⟩ := formed
        obtain ⟨used, respelled, tests'⟩ := tests.respelled marks sameTest formedTest
        obtain ⟨used₁, respelled₁, inner⟩ := ih sameThen formedThen renamedThen
        obtain ⟨used₂, respelled₂, inner'⟩ := ih' (Option.some.inj sameElse) formedElse renamedElse
        exact ⟨_, ((respelled.append ((respelled₁.append (respelled₂.keep other)).keep
          closing)).keep opening).keep keyword,
          .ifElse is isOpening tests' isClosing inner isOther inner'⟩
    | _ => cases same
  | @printStmt keyword semicolon tokens e is inner ends =>
    intro marks st st' same formed renamed
    cases st with
    | print e =>
      cases renamed
      obtain ⟨tokens', respelled, inner'⟩ := inner.respelled marks (Stmt.print.inj same) formed
      exact ⟨_, (respelled.concat semicolon).keep keyword, .printStmt is inner' ends⟩
    | ifElse condition thenBranch elseBranch => cases elseBranch <;> cases same
    | _ => cases same
  | @returnStmt keyword semicolon tokens value is inner ends =>
    intro marks st st' same formed renamed
    cases st with
    | ret keyword value =>
      cases renamed
      obtain ⟨rfl, sameValue⟩ := Stmt.ret.inj same
      obtain ⟨tokens', respelled, inner'⟩ := inner.respelled marks sameValue formed.2.2
      exact ⟨_, (respelled.concat semicolon).keep keyword, .returnStmt is inner' ends⟩
    | ifElse condition thenBranch elseBranch => cases elseBranch <;> cases same
    | _ => cases same
  | @whileStmt keyword opening closing condition tokens e isOpen body is isOpening tests isClosing _
      ih =>
    intro marks st st' same formed renamed
    obtain ⟨test, inner, rfl, sameTest, sameInner⟩ := unresolved_eq_loop same
    obtain ⟨inner', rfl, renamedInner⟩ := renamed
    obtain ⟨used, respelled, tests'⟩ := tests.respelled marks sameTest formed.1
    obtain ⟨used', respelled', body'⟩ := ih sameInner formed.2.2 renamedInner
    exact ⟨_, ((respelled.append (respelled'.keep closing)).keep opening).keep keyword,
      .whileStmt is isOpening tests' isClosing body'⟩
  | @breakStmt keyword semicolon is ends =>
    intro marks st st' same formed renamed
    cases st with
    | brk keyword =>
      cases same
      cases renamed
      exact ⟨_, .refl _, .breakStmt is ends⟩
    | ifElse condition thenBranch elseBranch => cases elseBranch <;> cases same
    | _ => cases same
  | @continueStmt keyword semicolon is ends =>
    intro marks st st' same formed renamed
    cases st with
    | cont keyword =>
      cases same
      cases renamed
      exact ⟨_, .refl _, .continueStmt is ends⟩
    | ifElse condition thenBranch elseBranch => cases elseBranch <;> cases same
    | _ => cases same
  | @block opening closing body isOpening _ isClosing ih =>
    intro marks st st' same formed renamed
    obtain ⟨statements, rfl, trees⟩ := unresolved_eq_block same
    obtain ⟨here, statements', rfl, renamedBody⟩ := renamed
    obtain ⟨items', trees', each, itemwise⟩ := exists_items
      (forall₂_statements (fun item mem => ih item mem) trees formed renamedBody)
    refine ⟨_, ((Respelled.flatMap itemwise).concat closing).keep opening, ?_⟩
    rw [Stmt.unresolved, ← trees']
    exact .block isOpening each isClosing

end Statements

end Grammar

namespace Program

/-- Respelled tokens are of the same kinds. -/
theorem map_kind_of_respelled {tokens tokens' : List Token} (same : Respelled ρ tokens tokens') :
    tokens'.map Token.kind = tokens.map Token.kind := by
  induction same with
  | nil => rfl
  | cons first _ ih => rw [List.map_cons, List.map_cons, first.kind, ih]

/-- A renamed program is derived from respelled tokens.  The declarations are respelled one by one,
and the tokens of the program are those of its declarations. -/
theorem exists_derives_renamed {tokens : List Token} {p q q' : Program}
    (derives : DerivesProgram tokens p) (same : q.unresolved = p.unresolved)
    (formed : Stmt.AllFormed ρ.Fits q.body) (renamed : Stmt.AllRenamed ρ [] q.body q'.body) :
    ∃ tokens', Respelled ρ tokens tokens' ∧ DerivesProgram tokens' q'.unresolved := by
  obtain ⟨items, each, rfl, body⟩ := derives
  have plain : Stmt.allUnresolved p.body = items.map Prod.snd := by
    rw [body, Stmt.allUnresolved_eq_map, map_snd_eq fun item mem => (each item mem).unresolved]
  have trees : Stmt.allUnresolved q.body = items.map Prod.snd :=
    (congrArg Program.body same).trans plain
  obtain ⟨items', trees', each', itemwise⟩ := exists_items
    (forall₂_statements (fun item mem => (each item mem).respelled) trees formed renamed)
  exact ⟨_, .flatMap itemwise, items', each', rfl, trees'.symm⟩

/-- The reading of a text, by its tokens. -/
theorem ofText_eq (text : String) :
    ofText text = ⟨(ofTokens depthLimit (Scan.ofText text).tokens.toList
        (Scan.ofText text).ending).program,
      (Scan.ofText text).reports ++ (ofTokens depthLimit (Scan.ofText text).tokens.toList
        (Scan.ofText text).ending).reports⟩ := by
  unfold ofText Scan.parse
  rfl

/-- A renamed program is read, without a report, from a text that is the text of the program with
some identifiers respelled. -/
theorem exists_reading {text : String} {q q' : Program} (silent : (ofText text).reports = #[])
    (same : q.unresolved = (ofText text).program.unresolved)
    (formed : Stmt.AllFormed ρ.Fits q.body) (renamed : Stmt.AllRenamed ρ [] q.body q'.body) :
    ∃ text' : String,
      List.Forall₂ (Piece.Respelled ρ) (Piece.split text.toList) (Piece.split text'.toList) ∧
      ofText text' = ⟨q'.unresolved, #[]⟩ := by
  rw [ofText_eq] at silent same
  obtain ⟨scanned, parsed⟩ := Array.append_eq_empty_iff.mp silent
  have derives := derives_of_silent rfl parsed
  obtain ⟨tokens', respelled, derives'⟩ := exists_derives_renamed derives same formed renamed
  obtain ⟨text', pieces, tokens, -, reports⟩ := Scan.exists_respelled respelled
  refine ⟨text', pieces, ?_⟩
  -- as much is reported on the respelled tokens, and that is nothing
  have size : (ofTokens depthLimit tokens' (Scan.ofText text').ending).reports.size
      = (ofTokens depthLimit (Scan.ofText text).tokens.toList
          (Scan.ofText text).ending).reports.size :=
    size_reports_ofTokens depthLimit (map_kind_of_respelled respelled) rfl
  rw [parsed] at size
  have read : ofTokens depthLimit tokens' (Scan.ofText text').ending = ⟨q'.unresolved, #[]⟩ := by
    obtain ⟨_, reads⟩ := exists_ofTokens_eq (Scan.ofText text').ending derives'
    refine (reads depthLimit).resolve_right ?_
    rintro ⟨-, t, mem⟩
    rw [Array.size_eq_zero_iff.mp size] at mem
    exact Array.not_mem_empty _ mem
  rw [ofText_eq, tokens, read, reports, scanned]
  rfl

end Program
end Arbor
