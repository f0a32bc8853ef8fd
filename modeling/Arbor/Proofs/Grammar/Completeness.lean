import Arbor.Proofs.Grammar.Leads

/-!
# What is derived is read

A parser that is put in front of the tokens of a derivation takes exactly these tokens, reports
nothing and returns the tree of the derivation, provided that the token behind them does not make it
read on, and that it does not run out of room.

Operators, calls and property accesses are derived from the left, but read in a loop whose first
round is not the outermost one.  So the derivation of a chain is taken apart into its first operand
and the steps behind it.

## Main definitions

* `Phrase.Reads`, `Clause.Reads`: what the parsers of expressions and of statements have to read.

## Main statements

* `Phrase.Derives.reads`, `Clause.Derives.reads`: parsers read what is derived.
-/

namespace Arbor
namespace Grammar

/-! ### Chains -/

/-- The kinds of tokens that make the parser of a phrase read on. -/
def Phrase.continues : Phrase → List Token.Kind
  | .primary => []
  | .called => [.leftParen, .dot]
  | .prefixed => [.leftParen, .dot]
  | .operators .factor => [.leftParen, .dot, .slash, .star]
  | .operators .term => [.leftParen, .dot, .slash, .star, .minus, .plus]
  | .operators .comparison => [.leftParen, .dot, .slash, .star, .minus, .plus, .greater,
      .greaterEqual, .less, .lessEqual]
  | .operators .equality => [.leftParen, .dot, .slash, .star, .minus, .plus, .greater,
      .greaterEqual, .less, .lessEqual, .bangEqual, .equalEqual]
  | .operators .and => [.leftParen, .dot, .slash, .star, .minus, .plus, .greater, .greaterEqual,
      .less, .lessEqual, .bangEqual, .equalEqual, .kwAnd]
  | .operators .or => [.leftParen, .dot, .slash, .star, .minus, .plus, .greater, .greaterEqual,
      .less, .lessEqual, .bangEqual, .equalEqual, .kwAnd, .kwOr]
  | .assignment => [.leftParen, .dot, .slash, .star, .minus, .plus, .greater, .greaterEqual,
      .less, .lessEqual, .bangEqual, .equalEqual, .kwAnd, .kwOr, .equal]

/-- The parser of a phrase stops in front of some tokens. -/
def Phrase.Stops (n : Phrase) (rest : List Token) : Prop :=
  ∀ t ∈ rest.head?, t.kind ∉ n.continues

/-- Reading stops in front of a token that does not continue the phrase. -/
theorem Phrase.Stops.cons {n : Phrase} {t : Token} (rest : List Token)
    (other : t.kind ∉ n.continues) : n.Stops (t :: rest) := by
  intro t' mem
  cases mem
  exact other

/-- What stops a phrase stops any other that fewer tokens continue. -/
theorem Phrase.Stops.mono {n n' : Phrase} {rest : List Token} (stops : n.Stops rest)
    (sub : n'.continues ⊆ n.continues) : n'.Stops rest :=
  fun t mem continues => stops t mem (sub continues)

/-- Whatever continues an operand continues the chain that it is the last operand of. -/
theorem continues_operand (level : Level) :
    level.operand.continues ⊆ (Phrase.operators level).continues := by
  cases level <;> decide

/-- So do the operators of the level themselves. -/
theorem symbols_subset_continues (level : Level) :
    level.symbols ⊆ (Phrase.operators level).continues := by
  cases level <;> decide

/-- No operator of a level continues an operand of that level.  Otherwise the operand would take it,
and the chain would be associated to the right. -/
theorem not_mem_operand {level : Level} {kind : Token.Kind} (mem : kind ∈ level.symbols) :
    kind ∉ level.operand.continues := by
  revert kind
  cases level <;> decide

/-- The parser of a phrase. -/
def Phrase.parser : Phrase → Nat → Parser Expr
  | .assignment, room => Grammar.assigned room
  | .operators level, room => Grammar.operators room level
  | .prefixed, room => Grammar.prefixed room
  | .called, room => Grammar.called room
  | .primary, room => Grammar.primary room

/-- The parser of a level's operands is that of the next tighter phrase. -/
theorem Level.operandParser_eq (level : Level) : level.operandParser = level.operand.parser := by
  cases level <;> rfl

/-- Some steps of a chain: `tail` goes through the tokens and on from `left` to `e`. -/
structure Steps (starts : Token.Kind → Prop) (follows : List Token → Prop)
    (tail : Nat → Nat → Expr → Parser Expr) (left : Expr) (tokens : List Token) (e : Expr) : Prop where
  begins : ∀ t ∈ tokens.head?, starts t.kind
  leads : ∃ need n, n ≤ tokens.length ∧ ∀ (room fuel : Nat) (s : State) (rest : List Token),
    (tokens ++ rest).length ≤ s.bound → follows rest →
      Leads (room < need) (tail room (fuel + n) left) (s.facing (tokens ++ rest))
        (tail room fuel e) (s.facing rest)

/-- Without any steps the chain is its first operand. -/
theorem Steps.none {starts : Token.Kind → Prop} {follows : List Token → Prop}
    {tail : Nat → Nat → Expr → Parser Expr} {e : Expr} : Steps starts follows tail e [] e :=
  ⟨nofun, 0, 0, Nat.le_refl _, fun _ _ _ _ _ _ => .refl⟩

/-- One more step behind others.  The step is read after all of them, so it begins where the last
one ended, and what follows it follows the whole. -/
theorem Steps.snoc {starts : Token.Kind → Prop} {follows : List Token → Prop}
    {tail : Nat → Nat → Expr → Parser Expr} {left e e' : Expr} {t : Token}
    {tokens more : List Token} (steps : Steps starts follows tail left tokens e)
    (start : starts t.kind) (stops : ∀ rest, follows (t :: rest))
    (step : ∃ need, ∀ (room fuel : Nat) (s : State) (rest : List Token),
      (t :: (more ++ rest)).length ≤ s.bound → follows rest →
        Leads (room < need) (tail room (fuel + 1) e) (s.facing (t :: (more ++ rest)))
          (tail room fuel e') (s.facing rest)) :
    Steps starts follows tail left (tokens ++ t :: more) e' := by
  obtain ⟨begins, need₁, n, enough, leads⟩ := steps
  obtain ⟨need₂, step⟩ := step
  refine ⟨fun t' mem => ?_, need₁ + need₂, n + 1, ?_, fun room fuel s rest fits follow => ?_⟩
  · cases tokens with
    | nil =>
      cases mem
      exact start
    | cons first others => exact begins t' mem
  · rw [List.length_append, List.length_cons]
    omega
  · have first := leads room (fuel + 1) s (t :: (more ++ rest)) (by simpa using fits) (stops _)
    have second := step room fuel s rest (by simp at fits ⊢; omega) follow
    have shift : fuel + (n + 1) = fuel + 1 + n := by omega
    rw [shift, List.append_assoc, List.cons_append]
    exact (first.mono fun _ => by omega).trans (second.mono fun _ => by omega)

/-- The tail of a chain of operators. -/
def Level.tail (level : Level) (room fuel : Nat) (left : Expr) : Parser Expr :=
  operatorTail level (level.operandParser room) fuel left

/-- The tail of a chain of calls and property accesses. -/
def callsTail (room fuel : Nat) (left : Expr) : Parser Expr :=
  callTail (Grammar.arguments room) fuel left

/-- What it means for each phrase that the parsers are complete.  A chain is read in two parts, its
first operand and the steps on it. -/
def Phrase.Reads : Phrase → List Token → Expr → Prop
  | .operators level, tokens, e => ∃ first before after, tokens = before ++ after ∧
      Complete level.operandParser level.operand.Stops before first ∧
      Steps (· ∈ level.symbols) level.operand.Stops level.tail first after e
  | .called, tokens, e => ∃ first before after, tokens = before ++ after ∧
      Complete Grammar.primary (fun _ => True) before first ∧
      Steps (· ∈ Phrase.called.continues) (fun _ => True) callsTail first after e
  | n, tokens, e => Complete n.parser n.Stops tokens e

/-- The loop of a level ends where no operator of it follows, whatever its bound.  The operators of
a level are among the signs that continue an expression of that level. -/
theorem Level.run_tail_stops {level : Level} {room : Nat} {s : State} {rest : List Token}
    (stops : (Phrase.operators level).Stops rest) (fuel : Nat) (e : Expr) :
    (level.tail room fuel e).run (s.facing rest) = .ok e (s.facing rest) := by
  cases fuel with
  | zero => rfl
  | succ fuel =>
    have other : ∀ t ∈ rest.head?, level.accepts t.kind = false := by
      intro t mem
      refine Bool.eq_false_iff.mpr fun accepts => stops t mem ?_
      exact symbols_subset_continues level (Level.accepts_iff.mp accepts)
    unfold Level.tail operatorTail
    rw [EStateM.run_bind, run_acceptIf?_stops other]
    rfl

/-- The loop of calls and property accesses ends where neither follows.  It looks for a parenthesis
and for a dot, and takes no token if there is none of them. -/
theorem run_callsTail_stops {room : Nat} {s : State} {rest : List Token}
    (stops : Phrase.called.Stops rest) (fuel : Nat) (e : Expr) :
    (callsTail room fuel e).run (s.facing rest) = .ok e (s.facing rest) := by
  cases fuel with
  | zero => rfl
  | succ fuel =>
    have noParen : ∀ t ∈ rest.head?, t.kind ≠ .leftParen := by
      intro t mem is
      exact stops t mem (by rw [is]; decide)
    have noDot : ∀ t ∈ rest.head?, t.kind ≠ .dot := by
      intro t mem is
      exact stops t mem (by rw [is]; decide)
    unfold callsTail callTail
    rw [EStateM.run_bind, run_accept?_other noParen]
    dsimp only
    rw [EStateM.run_bind, run_accept?_other noDot]
    rfl

/-- A chain is read by reading its first operand and then its tail.  It is stated for any rule with
a loop, as both the operators of a level and the calls have this form. -/
theorem complete_chain {parser first : Nat → Parser Expr} {tail : Nat → Nat → Expr → Parser Expr}
    {starts : Token.Kind → Prop} {follows followsFirst : List Token → Prop} {left e : Expr}
    {before after : List Token}
    (tooDeep : parser 0 = throw .tooDeep)
    (unfolds : ∀ room, parser (room + 1) = first room >>= fun e => bound >>= fun fuel =>
      tail room fuel e)
    (one : Complete first followsFirst before left)
    (steps : Steps starts followsFirst tail left after e)
    (stepStops : ∀ t rest, starts t.kind → followsFirst (t :: rest))
    (stops : ∀ rest, follows rest → followsFirst rest)
    (ends : ∀ room fuel s rest, follows rest →
      (tail room fuel e).run (State.facing s rest) = .ok e (s.facing rest)) :
    Complete parser follows (before ++ after) e := by
  obtain ⟨need₁, one⟩ := one
  obtain ⟨begins, need₂, n, enough, leads⟩ := steps
  refine .spending (need₁ + need₂) tooDeep fun room s rest fits follow => ?_
  -- the first operand ends at a step, or where the whole chain ends
  have here : followsFirst (after ++ rest) := by
    cases after with
    | nil => exact stops rest follow
    | cons t others => exact stepStops t _ (begins t rfl)
  -- no more steps than tokens, so there is fuel for all of them
  have fuel : s.bound = s.bound - n + n := by
    simp only [List.length_append] at fits
    omega
  rw [List.append_assoc] at fits ⊢
  have second := leads room (s.bound - n) s rest (by simp at fits ⊢; omega) (stops rest follow)
  rw [← fuel] at second
  rw [unfolds]
  refine ((one room s (after ++ rest) fits here).mono fun _ => by omega).bind ?_
  refine .after rfl ?_
  exact (second.mono fun _ => by omega).trans (.inl (ends room _ s rest follow))

/-- Parsers of phrases read what is derived.  For chains this is the lemma about first operand and
tail, and all others are stated as completeness to begin with. -/
theorem Phrase.Reads.complete {n : Phrase} {tokens : List Token} {e : Expr}
    (reads : n.Reads tokens e) : Complete n.parser n.Stops tokens e := by
  cases n with
  | operators level =>
    obtain ⟨first, before, after, rfl, one, steps⟩ := reads
    refine complete_chain rfl (fun _ => rfl) one steps (fun t rest is => ?_) (fun rest stops => ?_)
      fun room fuel s rest stops => Level.run_tail_stops stops fuel e
    · exact .cons rest (not_mem_operand is)
    · exact stops.mono (continues_operand level)
  | called =>
    obtain ⟨first, before, after, rfl, one, steps⟩ := reads
    exact complete_chain rfl (fun _ => rfl) one steps (fun _ _ _ => trivial) (fun _ _ => trivial)
      fun room fuel s rest stops => run_callsTail_stops stops fuel e
  | assignment | prefixed | primary => exact reads

/-! ### Expressions -/

namespace Phrase.Reads

variable {tokens tokens' : List Token} {e left right : Expr}

/-- A primary expression is a chain of calls without any. -/
theorem primary (inner : Phrase.primary.Reads tokens e) : Phrase.called.Reads tokens e := by
  obtain ⟨need, inner⟩ := inner
  refine ⟨e, tokens, [], (List.append_nil _).symm, ⟨need, fun room s rest fits _ => ?_⟩, .none⟩
  exact inner room s rest fits fun t mem => List.not_mem_nil

/-- An operand is a chain of its level without operators. -/
theorem operand {level : Level} (inner : level.operand.Reads tokens e) :
    (Phrase.operators level).Reads tokens e := by
  have complete := inner.complete
  rw [← Level.operandParser_eq] at complete
  exact ⟨e, tokens, [], (List.append_nil _).symm, complete, .none⟩

/-- One operator more at the right end of a chain is one step more of the loop.  The derivation is
from the left, so this is the outermost node. -/
theorem operation {level : Level} {operator : Token}
    (first : (Phrase.operators level).Reads tokens left) (isOperator : operator.kind ∈ level.symbols)
    (second : level.operand.Reads tokens' right) :
    (Phrase.operators level).Reads (tokens ++ operator :: tokens')
      (level.node left operator right) := by
  obtain ⟨e, before, after, rfl, one, steps⟩ := first
  obtain ⟨need, complete⟩ := second.complete
  rw [← Level.operandParser_eq] at complete
  refine ⟨e, before, after ++ operator :: tokens', by simp, one, ?_⟩
  refine steps.snoc isOperator (fun rest => .cons rest (not_mem_operand isOperator)) ⟨need, ?_⟩
  intro room fuel s rest fits stops
  rw [Level.node_eq_build]
  refine .after (run_acceptIf?_passes (Level.accepts_iff.mpr isOperator)) ?_
  exact (complete room s rest (by simp at fits ⊢; omega) stops).bind .refl

/-- Behind no prefix operator there is a chain of calls; it must not begin with one, or it would be
taken for that. -/
theorem called (inner : Phrase.called.Reads tokens e)
    (begins : Begins (fun kind => !isPrefixOperator kind) tokens) :
    Phrase.prefixed.Reads tokens e := by
  obtain ⟨need, inner⟩ := inner.complete
  obtain ⟨first, others, rfl, plain⟩ := begins
  refine .spending need rfl fun room s rest fits stops => ?_
  have other : ∀ t ∈ (first :: others ++ rest).head?, isPrefixOperator t.kind = false := by
    rintro t ⟨⟩
    simpa using plain
  refine .after (run_acceptIf?_stops other) ?_
  exact (inner room s rest fits stops).mono fun _ => by omega

/-- A prefix operator is taken before its operand, which may begin with another one.  It is not
mistaken for anything else, since no expression that can be called begins with it. -/
theorem unary {operator : Token} (isOperator : operator.kind = .bang ∨ operator.kind = .minus)
    (inner : Phrase.prefixed.Reads tokens right) :
    Phrase.prefixed.Reads (operator :: tokens) (.unary operator right) := by
  obtain ⟨need, inner⟩ := inner.complete
  refine .spending need rfl fun room s rest fits stops => ?_
  have passes : isPrefixOperator operator.kind = true := by
    rcases isOperator with is | is <;> rw [is] <;> rfl
  refine .after (run_acceptIf?_passes passes) ?_
  refine Leads.bind ((inner room s rest ?_ stops).mono fun _ => by omega) .refl
  exact Nat.le_of_succ_le fits

/-- What can be called is an operand of every level. -/
theorem chain (inner : Phrase.called.Reads tokens e)
    (begins : Begins (fun kind => !isPrefixOperator kind) tokens) :
    (Phrase.operators .or).Reads tokens e :=
  .operand (.operand (.operand (.operand (.operand (.operand (inner.called begins))))))

/-- A target that can be assigned to, and the value it is assigned.  The rule reads the target as an
expression first, which ends in front of the equals sign. -/
theorem assignment {equals : Token} {target value : Expr}
    (first : (Phrase.operators .or).Reads tokens target) (isEquals : equals.kind = .equal)
    (second : Phrase.assignment.Reads tokens' value)
    (assigns : Grammar.assignment target equals value = pure e) :
    Phrase.assignment.Reads (tokens ++ equals :: tokens') e := by
  obtain ⟨need₁, first⟩ := first.complete
  obtain ⟨need₂, second⟩ := second.complete
  refine .spending (need₁ + need₂) rfl fun room s rest fits stops => ?_
  have stop : (Phrase.operators .or).Stops (equals :: (tokens' ++ rest)) :=
    .cons _ (by rw [isEquals]; decide)
  rw [List.append_assoc, List.cons_append] at fits ⊢
  refine ((first room s _ fits stop).mono fun _ => by omega).bind ?_
  refine .after (run_accept?_is isEquals) ?_
  have short : (tokens' ++ rest).length ≤ s.bound := by
    simp at fits ⊢
    omega
  refine ((second room s rest short stops).mono fun _ => by omega).bind ?_
  rw [assigns]
  exact .refl

/-- An assignment may be a chain of the loosest operators, if no equals sign follows.  With one
behind it the chain would have to be something that can be assigned to. -/
theorem operators (inner : (Phrase.operators .or).Reads tokens e) :
    Phrase.assignment.Reads tokens e := by
  obtain ⟨need, inner⟩ := inner.complete
  refine .spending need rfl fun room s rest fits stops => ?_
  have stop : (Phrase.operators .or).Stops rest := stops.mono (by decide)
  have noEquals : ∀ t ∈ rest.head?, t.kind ≠ .equal := by
    intro t mem is
    exact stops t mem (by rw [is]; decide)
  refine ((inner room s rest fits stop).mono fun _ => by omega).bind ?_
  exact .after (run_accept?_other noEquals) .refl

/-- A property access is a step that takes its dot and its name. -/
theorem property {dot name : Token} (inner : Phrase.called.Reads tokens e)
    (isDot : dot.kind = .dot) (isName : name.kind = .identifier) :
    Phrase.called.Reads (tokens ++ [dot, name]) (.getField e name) := by
  obtain ⟨first, before, after, rfl, one, steps⟩ := inner
  refine ⟨first, before, after ++ [dot, name], by simp, one, ?_⟩
  refine steps.snoc (by rw [isDot]; decide) (fun _ => trivial) ⟨0, ?_⟩
  intro room fuel s rest fits _
  refine .after (run_accept?_ne (by rw [isDot]; decide)) (.after (run_accept?_is isDot) ?_)
  exact .after (run_expect _ isName) .refl

/-- An expression is read with one level more than an assignment. -/
theorem expression (inner : Phrase.assignment.Reads tokens e) :
    Complete Grammar.expression Phrase.assignment.Stops tokens e := by
  obtain ⟨need, inner⟩ := inner.complete
  exact .spending need rfl inner

/-- A call is a step that takes everything up to its closing parenthesis: at most 255 arguments, so
that none is reported, and none of them begins with that parenthesis. -/
theorem call {opening paren : Token} {callee : Expr} {items : List (List Token × Expr)}
    (left : Phrase.called.Reads tokens callee) (isOpening : opening.kind = .leftParen)
    (few : items.length ≤ 255) (each : ∀ item ∈ items, Phrase.assignment.Reads item.1 item.2)
    (begins : ∀ item ∈ items, Begins (· != .rightParen) item.1)
    (separated : Separated (items.map Prod.fst) tokens') (isParen : paren.kind = .rightParen) :
    Phrase.called.Reads (tokens ++ opening :: (tokens' ++ [paren]))
      (.call callee paren (items.map Prod.snd)) := by
  obtain ⟨first, before, after, rfl, one, steps⟩ := left
  have commas : ∀ (t : Token) rest, t.kind = .comma → Phrase.assignment.Stops (t :: rest) :=
    fun t rest is => .cons rest (by rw [is]; decide)
  have parens : ∀ (t : Token) rest, t.kind = .rightParen → Phrase.assignment.Stops (t :: rest) :=
    fun t rest is => .cons rest (by rw [is]; decide)
  obtain ⟨need, list⟩ := exists_leads_listUpToParen "arguments" commas parens
    (fun item mem => (each item mem).expression) begins separated few
  refine ⟨first, before, after ++ opening :: (tokens' ++ [paren]), by simp, one, ?_⟩
  refine steps.snoc (by rw [isOpening]; decide) (fun _ => trivial) ⟨need + 1, ?_⟩
  intro room fuel s rest fits _
  refine .after (run_accept?_is isOpening) ?_
  cases room with
  | zero => exact .inr ⟨Nat.succ_pos _, _, rfl⟩
  | succ room =>
    rw [List.append_assoc] at fits ⊢
    have short : (tokens' ++ paren :: rest).length ≤ s.bound := Nat.le_of_succ_le fits
    have made : Leads (room + 1 < need + 1) (Grammar.arguments (room + 1) callee)
        (s.facing (tokens' ++ paren :: rest)) (pure (.call callee paren (items.map Prod.snd)))
        (s.facing rest) := by
      refine ((list room s paren rest short isParen).mono fun _ => by omega).bind ?_
      exact .after (run_expect _ isParen) .refl
    exact made.bind .refl

/-- What stands in parentheses is a whole expression; the parenthesis stops it, as none continues
one from the right. -/
theorem grouping {opening closing : Token} (isOpening : opening.kind = .leftParen)
    (inner : Phrase.assignment.Reads tokens e) (isClosing : closing.kind = .rightParen) :
    Phrase.primary.Reads (opening :: (tokens ++ [closing])) (.grouping e) := by
  obtain ⟨need, inner⟩ := inner.expression
  refine .spending need rfl fun room s rest fits stops => ?_
  have stop : Phrase.assignment.Stops (closing :: rest) := .cons rest (by rw [isClosing]; decide)
  rw [List.cons_append, List.append_assoc] at fits ⊢
  refine .after run_peek ?_
  rw [isOpening]
  refine .after (run_accept?_is isOpening) ?_
  refine (inner room s _ (Nat.le_of_succ_le fits) stop).bind ?_
  exact .after (run_expect _ isClosing) .refl

/-- A method of the superclass is three tokens. -/
theorem super {keyword dot method : Token} (is : keyword.kind = .kwSuper) (isDot : dot.kind = .dot)
    (isName : method.kind = .identifier) :
    Phrase.primary.Reads [keyword, dot, method] (.super keyword method none) := by
  refine .spending 0 rfl fun room s rest fits stops => ?_
  refine .after run_peek ?_
  rw [is]
  exact .after (run_accept?_is is) (.after (run_expect _ isDot) (.after (run_expect _ isName) .refl))

/-- A name is read as a variable that has not been resolved. -/
theorem var {name : Token} (is : name.kind = .identifier) :
    Phrase.primary.Reads [name] (.var name none) := by
  refine .spending 0 rfl fun room s rest _ _ => .after run_peek ?_
  rw [is]
  exact .after (run_accept?_is is) .refl

end Phrase.Reads

/-- A token that starts an expression is not one that never does. -/
theorem startsExpression_ne {kind other : Token.Kind} (starts : startsExpression kind = true)
    (never : startsExpression other = false) : kind ≠ other := by
  rintro rfl
  rw [never] at starts
  cases starts

/-- What is derived is read.  The induction is on the derivation, with a case for each rule; only
for assignments does the grammar differ from the way they are read, since the target is not known to
be one until the equals sign. -/
theorem Phrase.Derives.reads {n : Phrase} {tokens : List Token} {e : Expr}
    (derives : n.Derives tokens e) : n.Reads tokens e := by
  induction derives with
  | @assign name equals tokens value isName isEquals right ih =>
    -- the parser learns that this is a target only when it comes to the equals sign
    have begins := (Phrase.Derives.var isName).begins_called (.inr rfl)
    exact ((Phrase.Reads.var isName).primary.chain begins).assignment isEquals ih rfl
  | @set dot name equals tokens tokens' object value left isDot isName isEquals right ih ih' =>
    have begins := (left.property isDot isName).begins_called (.inl rfl)
    have whole := ((ih.property isDot isName).chain begins).assignment isEquals ih' rfl
    rw [List.append_assoc] at whole
    exact whole
  | operators _ ih => exact ih.operators
  | operand _ ih => exact ih.operand
  | operation _ isOperator _ ih ih' => exact ih.operation isOperator ih'
  | unary isOperator _ ih => exact ih.unary isOperator
  | called inner ih => exact ih.called (inner.begins_called (.inl rfl))
  | primary _ ih => exact ih.primary
  | call left isOpening few each separated isParen ih ih' =>
    refine ih.call isOpening few ih' (fun item mem => ?_) separated isParen
    exact (each item mem).begins.mono fun kind starts =>
      bne_iff_ne.mpr (startsExpression_ne starts rfl)
  | property _ isDot isName ih => exact ih.property isDot isName
  | grouping isOpening _ isClosing ih => exact .grouping isOpening ih isClosing
  | super is isDot isName => exact .super is isDot isName
  | false is | true is | nil is | number is | string is | var is | this is =>
    refine .spending 0 rfl fun room s rest _ _ => .after run_peek ?_
    rw [is]
    exact .after (run_accept?_is is) .refl

/-- Whatever is derived as an expression is read as one, if what follows does not continue it and
there is room enough. -/
theorem Phrase.Derives.complete {tokens : List Token} {e : Expr}
    (derives : Phrase.assignment.Derives tokens e) :
    Complete Grammar.expression Phrase.assignment.Stops tokens e :=
  derives.reads.expression

/-! ### Parts of statements -/

/-- What has to follow an expression. -/
theorem stops_of_kind {t : Token} {kind : Token.Kind} (is : t.kind = kind)
    (other : kind ∉ Phrase.assignment.continues) (rest : List Token) :
    Phrase.assignment.Stops (t :: rest) :=
  .cons rest (by rwa [is])

/-- A derived variable declaration is its keyword and what the rule behind the keyword reads.  The
semicolon is part of it, so anything may follow. -/
theorem DerivesVarDecl.complete {tokens : List Token} {st : Stmt}
    (derives : DerivesVarDecl tokens st) : ∃ keyword more, tokens = keyword :: more ∧
      keyword.kind = .kwVar ∧ Complete Grammar.varDecl (fun _ => True) more st := by
  cases derives with
  | plain is isName ends =>
    refine ⟨_, _, rfl, is, .spending 0 rfl fun room s rest fits _ => ?_⟩
    refine .after (run_expect _ isName) ?_
    refine .after (run_accept?_ne (by rw [ends]; decide)) (.after rfl ?_)
    exact .after (run_expect _ ends) .refl
  | @initialized keyword name equals semicolon tokens value is isName isEquals inner ends =>
    obtain ⟨need, inner⟩ := inner.complete
    refine ⟨_, _, rfl, is, .spending need rfl fun room s rest fits _ => ?_⟩
    rw [List.cons_append, List.cons_append, List.append_assoc] at fits ⊢
    refine .after (run_expect _ isName) (.after (run_accept?_is isEquals) ?_)
    have short : (tokens ++ ([semicolon] ++ rest)).length ≤ s.bound := by
      simp at fits ⊢
      omega
    refine (inner room s _ short (stops_of_kind ends (by decide) rest)).map.bind ?_
    exact .after (run_expect _ ends) .refl

/-- A derived expression statement is read whatever follows, because of its semicolon. -/
theorem DerivesExprStmt.complete {tokens : List Token} {st : Stmt}
    (derives : DerivesExprStmt tokens st) :
    Complete Grammar.exprStmt (fun _ => True) tokens st := by
  obtain ⟨inner, ends⟩ := derives
  obtain ⟨need, inner⟩ := inner.complete
  refine .spending need rfl fun room s rest fits _ => ?_
  rw [List.append_assoc] at fits ⊢
  refine (inner room s _ fits (stops_of_kind ends (by decide) rest)).bind ?_
  exact .after (run_expect _ ends) .refl

/-- The first clause of a `for` loop is one of three, each told by its first token: a semicolon, the
keyword of a declaration, or any other token that begins an expression. -/
theorem DerivesInitializer.complete {tokens : List Token} {st? : Option Stmt}
    (derives : DerivesInitializer tokens st?) :
    Complete Grammar.forInitializer (fun _ => True) tokens st? := by
  cases derives with
  | none is => exact ⟨0, fun room s rest _ _ => .after (run_accept?_is is) .refl⟩
  | varDecl inner =>
    obtain ⟨keyword, more, rfl, is, need, inner⟩ := inner.complete
    refine ⟨need, fun room s rest fits _ => ?_⟩
    refine .after (run_accept?_ne (by rw [is]; decide)) (.after (run_accept?_is is) ?_)
    exact (inner room s rest (Nat.le_of_succ_le fits) trivial).map
  | exprStmt inner =>
    obtain ⟨first, others, rfl, starts⟩ := inner.begins
    obtain ⟨need, inner⟩ := inner.complete
    refine ⟨need, fun room s rest fits _ => ?_⟩
    refine .after (run_accept?_ne (startsExpression_ne starts rfl)) ?_
    refine .after (run_accept?_ne (startsExpression_ne starts rfl)) ?_
    exact (inner room s rest fits trivial).map

/-- An expression that may be left out in front of a token of a kind.  No expression begins with
that kind, so whether there is one is told by the next token. -/
theorem DerivesOptional.complete {tokens : List Token} {e? : Option Expr}
    (derives : DerivesOptional tokens e?) {kind : Token.Kind} (never : startsExpression kind = false)
    (other : kind ∉ Phrase.assignment.continues) :
    Complete (optionalUpTo kind) (fun rest => ∃ t more, rest = t :: more ∧ t.kind = kind)
      tokens e? := by
  cases derives with
  | none =>
    refine ⟨0, ?_⟩
    rintro room s _ fits ⟨t, more, rfl, is⟩
    refine .inl ?_
    rw [run_optionalUpTo, List.nil_append, isAt_facing is]
    rfl
  | some inner =>
    obtain ⟨first, others, rfl, starts⟩ := inner.begins
    obtain ⟨need, inner⟩ := inner.complete
    refine ⟨need, ?_⟩
    rintro room s _ fits ⟨t, more, rfl, is⟩
    refine Leads.trans (.inl ?_) (inner room s _ fits (stops_of_kind is other more)).map
    rw [run_optionalUpTo, List.cons_append, isAt_facing_other (startsExpression_ne starts never)]
    rfl

/-- A superclass is named in front of the brace of the class, or the brace is there at once.
Reading it needs no room, since it is a name and not any expression. -/
theorem DerivesSuperclass.complete {tokens : List Token} {parent : Option Superclass}
    (derives : DerivesSuperclass tokens parent) {s : State} {opening : Token} {rest : List Token}
    (isOpening : opening.kind = .leftBrace) :
    superclass.run (s.facing (tokens ++ opening :: rest)) =
      .ok parent (s.facing (opening :: rest)) := by
  cases derives with
  | none =>
    unfold superclass
    rw [List.nil_append, EStateM.run_bind, run_accept?_ne (by rw [isOpening]; decide)]
    rfl
  | some is isName =>
    unfold superclass
    rw [List.cons_append, EStateM.run_bind, run_accept?_is is]
    dsimp only
    rw [List.cons_append, EStateM.run_bind, run_expect _ isName]
    rfl

/-! ### Statements -/

/-- No `else` follows. -/
def NoElse (rest : List Token) : Prop :=
  ∀ t ∈ rest.head?, t.kind ≠ .kwElse

/-- Any token but `else` keeps the conditional in front of it without a second branch. -/
theorem NoElse.cons {t : Token} (other : t.kind ≠ .kwElse) (rest : List Token) :
    NoElse (t :: rest) :=
  fun _ first => Option.some.inj first ▸ other

/-- What it means for each clause that the parsers are complete.  Behind an open statement no `else`
may follow. -/
def Clause.Reads : Clause → List Token → Stmt → Prop
  | .declaration, tokens, st => Complete Grammar.declaration NoElse tokens (some st)
  | .function, tokens, st => ∀ decl, st = .funDecl decl → ∀ role,
      Complete (Grammar.funDecl role) (fun _ => True) tokens decl
  | .statement isOpen, tokens, st =>
      Complete Grammar.statement (fun rest => isOpen = true → NoElse rest) tokens st

/-- A declaration without an error is what is declared.  The lack of room is not recovered from
here: it is left to the caller. -/
theorem Leads.recovering {little : Prop} {body : Parser Stmt} {s s' : State} {st : Stmt}
    (leads : Leads little body s (pure st) s') :
    Leads little (recovering body) s (pure (some st)) s' := by
  rcases leads.map (g := some) with same | ⟨short, stopped, stops⟩
  · refine .inl ?_
    change (some <$> body) s = .ok (some st) s' at same
    change EStateM.tryCatch (some <$> body) _ s = .ok (some st) s'
    unfold EStateM.tryCatch
    rw [same]
  · refine .inr ⟨short, stopped, ?_⟩
    change (some <$> body) s = .error .tooDeep stopped at stops
    change EStateM.tryCatch (some <$> body) _ s = .error .tooDeep stopped
    unfold EStateM.tryCatch
    rw [stops]
    rfl

/-- A token that starts a plain statement is not one that never does. -/
theorem startsPlain_ne {kind other : Token.Kind} (starts : startsPlain kind = true)
    (never : startsPlain other = false) : kind ≠ other := by
  rintro rfl
  rw [never] at starts
  cases starts

/-- No declaration begins with `else`, so a conditional inside a list of them is complete. -/
theorem startsDeclaration_ne_else {kind : Token.Kind} (starts : startsDeclaration kind = true) :
    kind ≠ .kwElse := by
  rintro rfl
  cases starts

/-- The declarations of a block and its closing brace.  Neither another declaration nor the brace
begins with `else`, so every statement inside ends where it should. -/
theorem complete_block {body : List (List Token × Stmt)} {closing : Token}
    (each : ∀ item ∈ body, Clause.declaration.Reads item.1 item.2)
    (begins : ∀ item ∈ body, Begins startsDeclaration item.1)
    (isClosing : closing.kind = .rightBrace) :
    Complete Grammar.block (fun _ => True) (body.flatMap Prod.fst ++ [closing])
      (body.map Prod.snd) := by
  have next : ∀ (t : Token) rest, startsDeclaration t.kind = true ∨ t.kind = .rightBrace →
      NoElse (t :: rest) := by
    rintro t rest (starts | is)
    · exact .cons (startsDeclaration_ne_else starts) rest
    · exact .cons (by rw [is]; decide) rest
  obtain ⟨need, items⟩ := exists_leads_itemsUpToBrace rfl next each begins
  refine .spending need rfl fun room s rest fits _ => ?_
  rw [List.append_assoc] at fits ⊢
  have enough : body.length ≤ s.bound := by
    have few := length_le_flatMap begins
    rw [List.length_append] at fits
    omega
  have read := items room s.bound [] s closing rest fits isClosing enough
  exact .after rfl (read.bind (.after (run_expect _ isClosing) .refl))

/-- The rule for what stands behind the keyword of a statement. -/
def ruleBehind (keyword : Token) : Option (Nat → Parser Stmt) :=
  match keyword.kind with
  | .kwFor => some Grammar.forStmt
  | .kwIf => some Grammar.ifStmt
  | .kwPrint => some Grammar.printStmt
  | .kwReturn => some (Grammar.returnStmt keyword)
  | .kwWhile => some Grammar.whileStmt
  | .leftBrace => some fun room => .block <$> Grammar.block room
  | _ => none

/-- A statement with a keyword is what the rule behind that keyword makes of the tokens behind it.
So the choice by the first token is unfolded once, for all the rules. -/
theorem run_statement {keyword : Token} {rule : Nat → Parser Stmt}
    (found : ruleBehind keyword = some rule) (room : Nat) (s : State) (rest : List Token) :
    (Grammar.statement (room + 1)).run (s.facing (keyword :: rest)) =
      (rule room).run (s.facing rest) := by
  have unfolds : (Grammar.statement (room + 1)).run (s.facing (keyword :: rest)) = _ :=
    EStateM.run_bind ..
  rw [run_peek] at unfolds
  rw [unfolds]
  unfold ruleBehind at found
  split at found <;> cases found
  all_goals
    next is =>
      dsimp only
      rw [is]
      dsimp only
      rw [EStateM.run_bind, run_accept?_is is]

namespace Clause.Reads

variable {tokens tokens' condition : List Token} {st st' : Stmt} {e : Expr} {isOpen : Bool}

/-- A function behind its keyword, or a method.  Its role only makes a difference to what is
reported, so it is read alike in all of them. -/
theorem function {name opening closing left right : Token} {params : List Token}
    {body : List (List Token × Stmt)} (isName : name.kind = .identifier)
    (isOpening : opening.kind = .leftParen) (few : params.length ≤ 255)
    (names : ∀ param ∈ params, param.kind = .identifier)
    (separated : Separated (params.map fun param => [param]) tokens)
    (isClosing : closing.kind = .rightParen) (isLeft : left.kind = .leftBrace)
    (each : ∀ item ∈ body, Clause.declaration.Reads item.1 item.2)
    (begins : ∀ item ∈ body, Begins startsDeclaration item.1)
    (isRight : right.kind = .rightBrace) :
    Clause.function.Reads
      (name :: opening :: (tokens ++ closing :: left :: (body.flatMap Prod.fst ++ [right])))
      (.funDecl ⟨name, params, body.map Prod.snd⟩) := by
  rintro _ ⟨⟩ role
  obtain ⟨need₂, block⟩ := complete_block each begins isRight
  -- a parameter is an item of a single token
  have tokensOf : (params.map fun param => ([param], param)).map Prod.fst =
      params.map fun param => [param] := by
    rw [List.map_map]
    rfl
  have namesOf : (params.map fun param => ([param], param)).map Prod.snd = params := by
    rw [List.map_map]
    exact List.map_id _
  have single : ∀ item ∈ params.map fun param => ([param], param),
      Complete (fun _ => expect .identifier "parameter name") (fun _ => True) item.1 item.2 := by
    intro item mem
    obtain ⟨param, there, rfl⟩ := List.mem_map.mp mem
    exact ⟨0, fun _ _ _ _ _ => .inl (run_expect _ (names param there))⟩
  have inside : ∀ item ∈ params.map fun param => ([param], param),
      Begins (· != .rightParen) item.1 := by
    intro item mem
    obtain ⟨param, there, rfl⟩ := List.mem_map.mp mem
    exact .cons _ (by rw [names param there]; rfl)
  obtain ⟨need₁, list⟩ := exists_leads_listUpToParen "parameters" (fun _ _ _ => trivial)
    (fun _ _ _ => trivial) single inside (by rwa [tokensOf]) (by rwa [List.length_map])
  rw [namesOf] at list
  refine .spending (need₁ + need₂) rfl fun room s rest fits _ => ?_
  simp only [List.cons_append, List.append_assoc] at fits ⊢
  simp only [List.length_cons, List.length_append] at fits
  refine .after (run_expect _ isName) (.after (run_expect _ isOpening) ?_)
  have short : (tokens ++ closing :: left :: (body.flatMap Prod.fst ++ right :: rest)).length
      ≤ s.bound := by
    simp only [List.length_cons, List.length_append]
    omega
  refine ((list room s closing _ short isClosing).mono fun _ => by omega).bind ?_
  refine .after (run_expect _ isClosing) (.after (run_expect _ isLeft) ?_)
  have shorter : (body.flatMap Prod.fst ++ [right] ++ rest).length ≤ s.bound := by
    simp only [List.length_cons, List.length_append]
    omega
  have inner := block room s rest shorter trivial
  rw [List.append_assoc] at inner
  exact (inner.mono fun _ => by omega).bind .refl

/-- A class is read up to its closing brace.  Each method begins with its name, so none of them is
taken for the brace. -/
theorem classDecl {keyword name opening closing : Token} {parent : Option Superclass}
    {methods : List (List Token × FunDecl)} (is : keyword.kind = .kwClass)
    (isName : name.kind = .identifier) (superclass : DerivesSuperclass tokens parent)
    (isOpening : opening.kind = .leftBrace)
    (each : ∀ method ∈ methods, Clause.function.Reads method.1 (.funDecl method.2))
    (begins : ∀ method ∈ methods, Begins (· == .identifier) method.1)
    (isClosing : closing.kind = .rightBrace) :
    Clause.declaration.Reads
      (keyword :: name :: (tokens ++ opening :: (methods.flatMap Prod.fst ++ [closing])))
      (.classDecl name parent (methods.map Prod.snd)) := by
  -- a method never comes to nothing, since errors in it are not recovered from
  have single : ∀ method ∈ methods, Complete (fun room => some <$> Grammar.funDecl .method room)
      (fun _ => True) method.1 (some method.2) := by
    intro method mem
    obtain ⟨need, inner⟩ := each method mem method.2 rfl .method
    exact ⟨need, fun room s rest fits follow => (inner room s rest fits follow).map⟩
  obtain ⟨need, items⟩ := exists_leads_itemsUpToBrace rfl (fun _ _ _ => trivial) single begins
  refine .spending (need + 1) rfl fun room s rest fits _ => Leads.recovering ?_
  simp only [List.cons_append, List.append_assoc] at fits ⊢
  simp only [List.length_cons, List.length_append] at fits
  refine .after (run_accept?_is is) ?_
  cases room with
  | zero => exact .tooDeep (Nat.succ_pos _)
  | succ room =>
    refine .after (run_expect _ isName) (.after (superclass.complete isOpening) ?_)
    refine .after (run_expect _ isOpening) (.after rfl ?_)
    have few := length_le_flatMap begins
    have short : (methods.flatMap Prod.fst ++ closing :: rest).length ≤ s.bound := by
      simp only [List.length_cons, List.length_append]
      omega
    have read := items room s.bound [] s closing rest short isClosing (by omega)
    refine (read.mono fun _ => by omega).bind ?_
    exact .after (run_expect _ isClosing) .refl

/-- A function declaration is its keyword and a function. -/
theorem funDecl {keyword : Token} {decl : FunDecl} (is : keyword.kind = .kwFun)
    (inner : Clause.function.Reads tokens (.funDecl decl)) :
    Clause.declaration.Reads (keyword :: tokens) (.funDecl decl) := by
  obtain ⟨need, inner⟩ := inner decl rfl .function
  refine .spending need rfl fun room s rest fits _ => Leads.recovering ?_
  refine .after (run_accept?_ne (by rw [is]; decide)) (.after (run_accept?_is is) ?_)
  exact (inner room s rest (Nat.le_of_succ_le fits) trivial).map

/-- Declared variables are read by the rule that their keyword selects. -/
theorem varDecl (inner : DerivesVarDecl tokens st) : Clause.declaration.Reads tokens st := by
  obtain ⟨keyword, more, rfl, is, need, inner⟩ := inner.complete
  refine .spending need rfl fun room s rest fits _ => Leads.recovering ?_
  refine .after (run_accept?_ne (by rw [is]; decide)) ?_
  refine .after (run_accept?_ne (by rw [is]; decide)) (.after (run_accept?_is is) ?_)
  exact inner room s rest (Nat.le_of_succ_le fits) trivial

/-- A statement is a declaration too, unless it begins with the keyword of another one. -/
theorem statement (inner : (Clause.statement isOpen).Reads tokens st)
    (begins : Begins startsPlain tokens) : Clause.declaration.Reads tokens st := by
  obtain ⟨need, inner⟩ := inner
  obtain ⟨first, others, rfl, plain⟩ := begins
  refine .spending need rfl fun room s rest fits noElse => Leads.recovering ?_
  refine .after (run_accept?_ne (startsPlain_ne plain rfl)) ?_
  refine .after (run_accept?_ne (startsPlain_ne plain rfl)) ?_
  refine .after (run_accept?_ne (startsPlain_ne plain rfl)) ?_
  exact inner room s rest fits fun _ => noElse

/-- A statement that begins with a keyword. -/
theorem behind {keyword : Token} {rule : Nat → Parser Stmt}
    (found : ruleBehind keyword = some rule)
    (inner : Complete rule (fun rest => isOpen = true → NoElse rest) tokens st) :
    (Clause.statement isOpen).Reads (keyword :: tokens) st := by
  obtain ⟨need, inner⟩ := inner
  refine .spending need rfl fun room s rest fits follow => ?_
  refine Leads.trans (.inl (run_statement found room s (tokens ++ rest))) ?_
  exact inner room s rest (Nat.le_of_succ_le fits) follow

/-- Any statement without a keyword is an expression statement; it is closed, so an `else` may
follow.  The first token tells, as no keyword of a statement begins an expression. -/
theorem exprStmt (inner : DerivesExprStmt tokens st) :
    (Clause.statement false).Reads tokens st := by
  obtain ⟨first, others, rfl, starts⟩ := inner.begins
  obtain ⟨need, inner⟩ := inner.complete
  refine .spending need rfl fun room s rest fits _ => .after run_peek ?_
  have read := inner room s rest fits trivial
  unfold startsExpression at starts
  split at starts <;> cases starts
  all_goals
    next is =>
      rw [is]
      exact read

/-- A block reads declarations up to its closing brace.  Each of them begins with a token that is no
brace, and none needs to know what follows the block. -/
theorem block {opening closing : Token} {body : List (List Token × Stmt)}
    (isOpening : opening.kind = .leftBrace)
    (each : ∀ item ∈ body, Clause.declaration.Reads item.1 item.2)
    (begins : ∀ item ∈ body, Begins startsDeclaration item.1)
    (isClosing : closing.kind = .rightBrace) :
    (Clause.statement false).Reads (opening :: (body.flatMap Prod.fst ++ [closing]))
      (.block (body.map Prod.snd)) := by
  obtain ⟨need, inner⟩ := complete_block each begins isClosing
  refine .behind (by rw [ruleBehind, isOpening]) ⟨need, fun room s rest fits _ => ?_⟩
  exact (inner room s rest fits trivial).map

theorem breakStmt {keyword semicolon : Token} (is : keyword.kind = .kwBreak)
    (ends : semicolon.kind = .semicolon) :
    (Clause.statement false).Reads [keyword, semicolon] (.brk keyword) := by
  refine .spending 0 rfl fun room s rest _ _ => .after run_peek ?_
  rw [is]
  exact .after (run_accept?_is is) (.after (run_expect _ ends) .refl)

theorem continueStmt {keyword semicolon : Token} (is : keyword.kind = .kwContinue)
    (ends : semicolon.kind = .semicolon) :
    (Clause.statement false).Reads [keyword, semicolon] (.cont keyword) := by
  refine .spending 0 rfl fun room s rest _ _ => .after run_peek ?_
  rw [is]
  exact .after (run_accept?_is is) (.after (run_expect _ ends) .refl)

/-- A printed expression is stopped by its semicolon. -/
theorem printStmt {keyword semicolon : Token} (is : keyword.kind = .kwPrint)
    (inner : Phrase.assignment.Derives tokens e) (ends : semicolon.kind = .semicolon) :
    (Clause.statement false).Reads (keyword :: (tokens ++ [semicolon])) (.print e) := by
  obtain ⟨need, inner⟩ := inner.complete
  refine .behind (by rw [ruleBehind, is]) (.spending need rfl fun room s rest fits _ => ?_)
  rw [List.append_assoc] at fits ⊢
  refine (inner room s _ fits (stops_of_kind ends (by decide) rest)).bind ?_
  exact .after (run_expect _ ends) .refl

/-- So is a returned one, or the semicolon stands there at once.  A semicolon begins no expression,
so it can be told which. -/
theorem returnStmt {keyword semicolon : Token} {value : Option Expr}
    (is : keyword.kind = .kwReturn) (inner : DerivesOptional tokens value)
    (ends : semicolon.kind = .semicolon) :
    (Clause.statement false).Reads (keyword :: (tokens ++ [semicolon])) (.ret keyword value) := by
  have never : startsExpression .semicolon = false := rfl
  obtain ⟨need, inner⟩ := inner.complete never (by decide)
  refine .behind (by rw [ruleBehind, is]) (.spending need rfl fun room s rest fits _ => ?_)
  rw [List.append_assoc] at fits ⊢
  refine Leads.trans (.inl (run_returnStmt keyword room _)) ?_
  refine (inner room s _ fits ⟨_, _, rfl, ends⟩).bind ?_
  exact .after (run_expect _ ends) .refl

/-- A condition in parentheses behind a keyword.  What the keyword is called is a parameter, as it
only occurs in what would be reported. -/
theorem leads_condition {opening closing : Token} (isOpening : opening.kind = .leftParen)
    (tests : Phrase.assignment.Derives condition e) (isClosing : closing.kind = .rightParen)
    (what what' : String) : ∃ need, ∀ (room : Nat) (s : State) (rest : List Token)
      (k : Expr → Parser Stmt),
      (opening :: (condition ++ closing :: rest)).length ≤ s.bound →
      Leads (room < need) (do
          let _ ← expect .leftParen what
          let condition ← Grammar.expression room
          let _ ← expect .rightParen what'
          k condition) (s.facing (opening :: (condition ++ closing :: rest)))
        (k e) (s.facing rest) := by
  obtain ⟨need, tests⟩ := tests.complete
  refine ⟨need, fun room s rest k fits => ?_⟩
  refine .after (run_expect _ isOpening) ?_
  have stop := stops_of_kind isClosing (by decide) rest
  refine (tests room s _ (Nat.le_of_succ_le fits) stop).bind ?_
  exact .after (run_expect _ isClosing) .refl

/-- A loop is open if its body is: an `else` behind it would go to a conditional inside.  So what
may follow the loop is what may follow its body. -/
theorem whileStmt {keyword opening closing : Token} (is : keyword.kind = .kwWhile)
    (isOpening : opening.kind = .leftParen) (tests : Phrase.assignment.Derives condition e)
    (isClosing : closing.kind = .rightParen) (inner : (Clause.statement isOpen).Reads tokens st) :
    (Clause.statement isOpen).Reads (keyword :: opening :: (condition ++ closing :: tokens))
      (.loop e st) := by
  obtain ⟨need₁, tests⟩ := leads_condition isOpening tests isClosing "'(' after 'while'"
    "')' after condition"
  obtain ⟨need₂, inner⟩ := inner
  refine .behind (by rw [ruleBehind, is])
    (.spending (need₁ + need₂) rfl fun room s rest fits follow => ?_)
  simp only [List.cons_append, List.append_assoc] at fits ⊢
  have short : (tokens ++ rest).length ≤ s.bound := by
    simp only [List.length_cons, List.length_append] at fits ⊢
    omega
  refine ((tests room s (tokens ++ rest) _ fits).mono fun _ => by omega).trans ?_
  exact ((inner room s rest short follow).mono fun _ => by omega).bind .refl

/-- A conditional without a second branch is open, since an `else` behind it would be its own.  The
branch may be open too, as no `else` follows. -/
theorem ifStmt {keyword opening closing : Token} (is : keyword.kind = .kwIf)
    (isOpening : opening.kind = .leftParen) (tests : Phrase.assignment.Derives condition e)
    (isClosing : closing.kind = .rightParen) (inner : (Clause.statement isOpen).Reads tokens st) :
    (Clause.statement true).Reads (keyword :: opening :: (condition ++ closing :: tokens))
      (.ifElse e st none) := by
  obtain ⟨need₁, tests⟩ := leads_condition isOpening tests isClosing "'(' after 'if'"
    "')' after if condition"
  obtain ⟨need₂, inner⟩ := inner
  refine .behind (by rw [ruleBehind, is])
    (.spending (need₁ + need₂) rfl fun room s rest fits follow => ?_)
  simp only [List.cons_append, List.append_assoc] at fits ⊢
  have short : (tokens ++ rest).length ≤ s.bound := by
    simp only [List.length_cons, List.length_append] at fits ⊢
    omega
  -- without an `else` behind it the branch may be open, and the `if` is
  have noElse : NoElse rest := follow rfl
  refine ((tests room s (tokens ++ rest) _ fits).mono fun _ => by omega).trans ?_
  refine ((inner room s rest short fun _ => noElse).mono fun _ => by omega).bind ?_
  exact .after (run_accept?_other noElse) .refl

/-- An `else` is taken by the `if` in front of it, whose branch is not open.  Were the branch open,
then the `else` would have been taken by a conditional inside. -/
theorem ifElse {keyword opening closing other : Token} (is : keyword.kind = .kwIf)
    (isOpening : opening.kind = .leftParen) (tests : Phrase.assignment.Derives condition e)
    (isClosing : closing.kind = .rightParen) (inner : (Clause.statement false).Reads tokens st)
    (isOther : other.kind = .kwElse) (inner' : (Clause.statement isOpen).Reads tokens' st') :
    (Clause.statement isOpen).Reads
      (keyword :: opening :: (condition ++ closing :: (tokens ++ other :: tokens')))
      (.ifElse e st (some st')) := by
  obtain ⟨need₁, tests⟩ := leads_condition isOpening tests isClosing "'(' after 'if'"
    "')' after if condition"
  obtain ⟨need₂, inner⟩ := inner
  obtain ⟨need₃, inner'⟩ := inner'
  refine .behind (by rw [ruleBehind, is])
    (.spending (need₁ + need₂ + need₃) rfl fun room s rest fits follow => ?_)
  simp only [List.cons_append, List.append_assoc] at fits ⊢
  have short : (tokens ++ other :: (tokens' ++ rest)).length ≤ s.bound := by
    simp only [List.length_cons, List.length_append] at fits ⊢
    omega
  have short' : (tokens' ++ rest).length ≤ s.bound := by
    simp only [List.length_cons, List.length_append] at short ⊢
    omega
  refine ((tests room s _ _ fits).mono fun _ => by omega).trans ?_
  -- a branch that is not open leaves the `else` alone
  refine ((inner room s _ short nofun).mono fun _ => by omega).bind ?_
  refine .after (run_accept?_is isOther) ?_
  exact ((inner' room s rest short' follow).mono fun _ => by omega).bind .refl

/-- A `for` loop behind its keyword.  Its clauses are read one after the other, and the tree is made
from them as it is for any loop. -/
theorem complete_forStmt {opening semicolon closing : Token} {start step : List Token}
    {start? : Option Stmt} {condition? step? : Option Expr}
    (isOpening : opening.kind = .leftParen) (starts : DerivesInitializer start start?)
    (tests : DerivesOptional condition condition?) (ends : semicolon.kind = .semicolon)
    (steps : DerivesOptional step step?) (isClosing : closing.kind = .rightParen)
    (inner : (Clause.statement isOpen).Reads tokens st) :
    Complete Grammar.forStmt (fun rest => isOpen = true → NoElse rest)
      (opening :: (start ++ (condition ++ semicolon :: (step ++ closing :: tokens))))
      (loopOf start? condition? step? st) := by
  have noSemicolon : startsExpression .semicolon = false := rfl
  have noParen : startsExpression .rightParen = false := rfl
  obtain ⟨need₁, starts⟩ := starts.complete
  obtain ⟨need₂, tests⟩ := tests.complete noSemicolon (by decide)
  obtain ⟨need₃, steps⟩ := steps.complete noParen (by decide)
  obtain ⟨need₄, inner⟩ := inner
  refine .spending (need₁ + need₂ + need₃ + need₄) rfl fun room s rest fits follow => ?_
  rw [loopOf_eq_forLoop]
  simp only [List.cons_append, List.append_assoc] at fits ⊢
  simp only [List.length_cons, List.length_append] at fits
  refine .after (run_expect _ isOpening) ?_
  refine ((starts room s _ ?_ trivial).mono fun _ => by omega).bind ?_
  · simp only [List.length_cons, List.length_append]
    omega
  refine ((tests room s _ ?_ ⟨_, _, rfl, ends⟩).mono fun _ => by omega).bind ?_
  · simp only [List.length_cons, List.length_append]
    omega
  refine .after (run_expect _ ends) ?_
  refine ((steps room s _ ?_ ⟨_, _, rfl, isClosing⟩).mono fun _ => by omega).bind ?_
  · simp only [List.length_cons, List.length_append]
    omega
  refine .after (run_expect _ isClosing) ?_
  refine ((inner room s rest ?_ follow).mono fun _ => by omega).bind .refl
  rw [List.length_append]
  omega

/-- A `for` loop is read as the blocks and the loop that it stands for, and is open if its body is.
Its clauses are read one after the other, each up to its semicolon or parenthesis. -/
theorem forStmt {keyword opening semicolon closing : Token} {start step : List Token}
    {start? : Option Stmt} {condition? step? : Option Expr} (is : keyword.kind = .kwFor)
    (isOpening : opening.kind = .leftParen) (starts : DerivesInitializer start start?)
    (tests : DerivesOptional condition condition?) (ends : semicolon.kind = .semicolon)
    (steps : DerivesOptional step step?) (isClosing : closing.kind = .rightParen)
    (inner : (Clause.statement isOpen).Reads tokens st) :
    (Clause.statement isOpen).Reads
      (keyword :: opening :: (start ++ (condition ++ semicolon :: (step ++ closing :: tokens))))
      (loopOf start? condition? step? st) :=
  .behind (by rw [ruleBehind, is])
    (complete_forStmt isOpening starts tests ends steps isClosing inner)

end Clause.Reads

/-- What is derived is read.  The induction is on the derivation, and each case is the lemma of its
rule. -/
theorem Clause.Derives.reads {n : Clause} {tokens : List Token} {st : Stmt}
    (derives : n.Derives tokens st) : n.Reads tokens st := by
  induction derives with
  | classDecl is isName superclass isOpening each isClosing ih =>
    exact .classDecl is isName superclass isOpening ih
      (fun method mem => (each method mem).begins_function) isClosing
  | funDecl is inner ih =>
    cases inner
    exact .funDecl is ih
  | varDecl inner => exact .varDecl inner
  | statement inner ih => exact ih.statement inner.begins_statement
  | function isName isOpening few names separated isClosing isLeft each isRight ih =>
    exact .function isName isOpening few names separated isClosing isLeft ih
      (fun item mem => (each item mem).begins) isRight
  | exprStmt inner => exact .exprStmt inner
  | forStmt is isOpening starts tests ends steps isClosing _ ih =>
    exact .forStmt is isOpening starts tests ends steps isClosing ih
  | ifStmt is isOpening tests isClosing _ ih => exact .ifStmt is isOpening tests isClosing ih
  | ifElse is isOpening tests isClosing _ isOther _ ih ih' =>
    exact .ifElse is isOpening tests isClosing ih isOther ih'
  | printStmt is inner ends => exact .printStmt is inner ends
  | returnStmt is inner ends => exact .returnStmt is inner ends
  | whileStmt is isOpening tests isClosing _ ih => exact .whileStmt is isOpening tests isClosing ih
  | breakStmt is ends => exact .breakStmt is ends
  | continueStmt is ends => exact .continueStmt is ends
  | block isOpening each isClosing ih =>
    exact .block isOpening ih (fun item mem => (each item mem).begins) isClosing

end Grammar
end Arbor
