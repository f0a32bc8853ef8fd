import Arbor.Proofs.Scope.Visit
import Arbor.Proofs.Token.Spelling

/-!
# Scopes in order

In the resolution of a well-formed program without a report the scopes are always in order: every
name is ready for use, except for one that is just being declared; a scope that holds `super` has
the one that holds `this` right inside it; and inside a class there is a scope for `this`, inside
a class with a superclass one for `super`.

## Main statements

* `Visits.regular`: every visit of such a resolution comes with scopes in order.
-/

namespace Arbor

namespace Bindings

variable {α : Type}

/-- A binding adds its name and no other. -/
theorem contains_put (b : Bindings α) (name other : String) (value : α) :
    (b.put name value).contains other = (decide (other = name) || b.contains other) := by
  by_cases same : other = name
  · simp [contains, same]
  · simp [contains, same, get?_put_of_ne b same]

theorem contains_put_of_ne (b : Bindings α) {name other : String} (ne : other ≠ name) (value : α) :
    (b.put name value).contains other = b.contains other := by
  simp [contains_put, ne]

/-- A binding changes the value of its name and of no other. -/
theorem get?_put (b : Bindings α) (name other : String) (value : α) :
    (b.put name value).get? other = if other = name then some value else b.get? other := by
  by_cases same : other = name
  · simp [same]
  · simp [same, get?_put_of_ne b same]

end Bindings

namespace Scope

/-! ### Names and distances -/

/-- A name that is neither `this` nor `super`. -/
def Plain (name : String) : Prop :=
  name ≠ "this" ∧ name ≠ "super"

theorem not_plain_this : ¬ Plain "this" :=
  fun plain => plain.1 rfl

theorem not_plain_super : ¬ Plain "super" :=
  fun plain => plain.2 rfl

/-- An identifier is never spelled like a keyword, because the scanner would have taken it for
one. -/
theorem plain_of_spelled {t : Token} (identifier : t.kind = .identifier) (spelled : t.Spelled) :
    Plain t.lexeme :=
  ⟨spelled.notThis identifier, spelled.notSuper identifier⟩

/-- At the distance of a name there is a scope that contains it. -/
theorem distance?_eq_some {scopes : List (Bindings Bool)} {name : String} {d : Nat}
    (found : distance? scopes name = some d) :
    ∃ scope, scopes[d]? = some scope ∧ scope.contains name = true := by
  obtain ⟨bound, holds, -⟩ := List.findIdx?_eq_some_iff_getElem.mp found
  exact ⟨scopes[d], List.getElem?_eq_getElem bound, holds⟩

/-- A name that some scope contains has a distance, that of the innermost such scope. -/
theorem distance?_isSome {scopes : List (Bindings Bool)} {name : String}
    (there : ∃ scope ∈ scopes, scope.contains name = true) :
    ∃ d, distance? scopes name = some d := by
  obtain ⟨scope, mem, holds⟩ := there
  cases found : distance? scopes name with
  | some d => exact ⟨d, rfl⟩
  | none =>
    have nowhere := List.findIdx?_eq_none_iff.mp found scope mem
    rw [nowhere] at holds
    cases holds

/-! ### Order -/

/-- A scope that holds `super` has one that holds `this` right inside it; `inside` is whether
the scope inside the first one does. -/
def Paired (inside : Bool) : List (Bindings Bool) → Prop
  | [] => True
  | scope :: outer =>
    (scope.contains "super" = true → inside = true) ∧ Paired (scope.contains "this") outer

/-- Scopes that are paired on their own are so inside any other. -/
theorem Paired.of_false {inside : Bool} : ∀ {scopes : List (Bindings Bool)},
    Paired false scopes → Paired inside scopes
  | [], _ => trivial
  | _ :: _, paired => ⟨fun holds => absurd (paired.1 holds) (by simp), paired.2⟩

/-- The innermost scope is not the one that holds `super`: nothing is inside it. -/
theorem Paired.not_innermost : ∀ {scopes : List (Bindings Bool)}, Paired false scopes →
    ∀ {scope : Bindings Bool}, scopes[0]? = some scope → scope.contains "super" = false
  | [], _, _, found => by simp at found
  | first :: _, paired, scope, found => by
    rw [List.getElem?_cons_zero, Option.some.injEq] at found
    subst found
    rw [Bool.eq_false_iff]
    intro holds
    cases paired.1 holds

/-- In paired scopes `this` is held one scope inside the one that holds `super`.  The induction goes
outward until the scope is reached. -/
theorem Paired.this_inside : ∀ {scopes : List (Bindings Bool)} {inside : Bool},
    Paired inside scopes → ∀ {d : Nat} {scope : Bindings Bool}, scopes[d + 1]? = some scope →
      scope.contains "super" = true →
        ∃ inner, scopes[d]? = some inner ∧ inner.contains "this" = true
  | [], _, _, _, _, found, _ => by simp at found
  | [_], _, _, _, _, found, _ => by simp at found
  | first :: second :: rest, _, paired, 0, scope, found, holds => by
    simp only [List.getElem?_cons_succ, List.getElem?_cons_zero, Option.some.injEq] at found
    subst found
    exact ⟨first, rfl, paired.2.1 holds⟩
  | first :: second :: rest, _, paired, d + 1, scope, found, holds => by
    simp only [List.getElem?_cons_succ] at found ⊢
    exact paired.2.this_inside (by simpa using found) holds

/-- Scopes in which everything is ready, seen from inside a class or not. -/
structure Orderly (inClass : Option ClassKind) (scopes : List (Bindings Bool)) : Prop where
  ready : ∀ scope ∈ scopes, ∀ name, scope.get? name ≠ some false
  paired : Paired false scopes
  this : inClass.isSome = true → ∃ scope ∈ scopes, scope.contains "this" = true
  super : inClass = some .derived → ∃ scope ∈ scopes, scope.contains "super" = true

/-- Scopes in order, except that the innermost may hold one name that is just being declared. -/
def Ajar (inClass : Option ClassKind) (scopes : List (Bindings Bool)) : Prop :=
  ∃ inner, Orderly inClass inner ∧
    (scopes = inner ∨ ∃ name, Plain name ∧ scopes = marked false name inner)

/-- Introducing a name makes it ready and leaves the others. -/
theorem get?_introduced (scope : Bindings Bool) (name other : String) :
    (introduced scope name).get? other = if other = name then some true else scope.get? other := by
  by_cases same : other = name <;> simp [introduced, Bindings.get?_put, same]

/-- A name is ready after names were introduced if it is one of them or was ready before.  No other
name is touched. -/
theorem get?_foldl_introduced (names : List String) (scope : Bindings Bool) (other : String) :
    (names.foldl introduced scope).get? other =
      if other ∈ names then some true else scope.get? other := by
  induction names generalizing scope with
  | nil => simp
  | cons name rest ih =>
    rw [List.foldl_cons, ih, get?_introduced]
    by_cases mem : other ∈ rest
    · simp [mem]
    · simp [mem]

/-- Introducing some names leaves all others as they were. -/
theorem contains_foldl_introduced {names : List String} {scope : Bindings Bool} {other : String}
    (apart : other ∉ names) :
    (names.foldl introduced scope).contains other = scope.contains other := by
  simp [Bindings.contains, get?_foldl_introduced, apart]

namespace Orderly

variable {inClass : Option ClassKind} {scopes : List (Bindings Bool)}

/-- At the top level there are no scopes that could be out of order. -/
theorem top : Orderly none [] :=
  ⟨by simp, trivial, by simp, by simp⟩

/-- Names other than `this` and `super` may be introduced.  They change nothing about which scopes
hold the keywords, and they are ready at once. -/
theorem introduce {names : List String} (orderly : Orderly inClass scopes)
    (plain : ∀ name ∈ names, Plain name) : Orderly inClass (introduce names scopes) := by
  cases scopes with
  | nil => exact orderly
  | cons scope outer =>
    -- plain names change nothing about who holds the keywords
    have noThis : "this" ∉ names := fun mem => (plain _ mem).1 rfl
    have noSuper : "super" ∉ names := fun mem => (plain _ mem).2 rfl
    have this : (names.foldl introduced scope).contains "this" = scope.contains "this" :=
      contains_foldl_introduced noThis
    have super : (names.foldl introduced scope).contains "super" = scope.contains "super" :=
      contains_foldl_introduced noSuper
    refine ⟨?_, ?_, fun inside => ?_, fun derived => ?_⟩
    · intro each mem name
      rcases List.mem_cons.mp mem with rfl | mem
      · rw [get?_foldl_introduced]
        split
        · simp
        · exact orderly.ready scope List.mem_cons_self name
      · exact orderly.ready each (List.mem_cons_of_mem _ mem) name
    · have paired := orderly.paired
      exact ⟨by rw [super]; exact paired.1, by rw [this]; exact paired.2⟩
    · obtain ⟨each, mem, holds⟩ := orderly.this inside
      rcases List.mem_cons.mp mem with rfl | mem
      · exact ⟨_, List.mem_cons_self, this.trans holds⟩
      · exact ⟨each, List.mem_cons_of_mem _ mem, holds⟩
    · obtain ⟨each, mem, holds⟩ := orderly.super derived
      rcases List.mem_cons.mp mem with rfl | mem
      · exact ⟨_, List.mem_cons_self, super.trans holds⟩
      · exact ⟨each, List.mem_cons_of_mem _ mem, holds⟩

/-- A new empty scope keeps the order: no name in it is unready, and the keywords around it stay
where they are. -/
theorem opened {s : State} (orderly : Orderly inClass s.scopes) :
    Orderly inClass (s.opened []).scopes := by
  refine ⟨?_, ⟨fun holds => ?_, orderly.paired⟩, fun inside => ?_, fun derived => ?_⟩
  · intro scope mem name
    rcases List.mem_cons.mp mem with rfl | mem
    · simp
    · exact orderly.ready scope mem name
  · exact absurd holds (by decide)
  · obtain ⟨scope, mem, holds⟩ := orderly.this inside
    exact ⟨scope, List.mem_cons_of_mem _ mem, holds⟩
  · obtain ⟨scope, mem, holds⟩ := orderly.super derived
    exact ⟨scope, List.mem_cons_of_mem _ mem, holds⟩

/-- In a scope that was opened with one name this name is ready. -/
theorem ready_opened {name : String} {scope : Bindings Bool}
    (new : scope = Bindings.empty.put name true) (other : String) :
    scope.get? other ≠ some false := by
  rw [new, Bindings.get?_put]
  split
  · simp
  · simp

/-- The scope that holds `this` keeps the order, and is inside a class.  The class has no superclass
here, so no scope for `super` has to be around. -/
theorem openedThis {s : State} (orderly : Orderly inClass s.scopes) :
    Orderly (some .plain) (s.opened ["this"]).scopes := by
  refine ⟨?_, ⟨fun holds => ?_, orderly.paired.of_false⟩, fun _ => ?_, by simp⟩
  · intro scope mem name
    rcases List.mem_cons.mp mem with rfl | mem
    · exact ready_opened rfl name
    · exact orderly.ready scope mem name
  · exact absurd holds (by decide)
  · exact ⟨_, List.mem_cons_self, by simp [Bindings.contains_put]⟩

/-- The scope that holds `this` inside the one that holds `super` keeps the order.  The two are
opened together, which is what makes them a pair. -/
theorem openedSuper {s : State} (orderly : Orderly inClass s.scopes) :
    Orderly (some .derived) ((s.opened ["super"]).opened ["this"]).scopes := by
  refine ⟨?_, ⟨fun holds => ?_, fun _ => ?_, orderly.paired.of_false⟩, fun _ => ?_, fun _ => ?_⟩
  · intro scope mem name
    rcases List.mem_cons.mp mem with rfl | mem
    · exact ready_opened rfl name
    · rcases List.mem_cons.mp mem with rfl | mem
      · exact ready_opened rfl name
      · exact orderly.ready scope mem name
  · exact absurd holds (by decide)
  · simp [Bindings.contains_put]
  · exact ⟨_, List.mem_cons_self, by simp [Bindings.contains_put]⟩
  · exact ⟨_, List.mem_cons_of_mem _ List.mem_cons_self, by simp [Bindings.contains_put]⟩

/-- Scopes in order are in order but for at most one name. -/
theorem ajar (orderly : Orderly inClass scopes) : Ajar inClass scopes :=
  ⟨scopes, orderly, .inl rfl⟩

end Orderly

namespace Ajar

variable {inClass : Option ClassKind} {scopes : List (Bindings Bool)}

/-- Whatever is found outside the innermost scope is ready.  Only a name that is being declared is
not, and it is in the innermost one. -/
theorem ready_outside (ajar : Ajar inClass scopes) {d : Nat} {scope : Bindings Bool}
    (found : scopes[d + 1]? = some scope) (name : String) : scope.get? name ≠ some false := by
  obtain ⟨inner, orderly, rfl | ⟨mark, -, rfl⟩⟩ := ajar
  · exact orderly.ready scope (List.mem_of_getElem? found) name
  · cases inner with
    | nil => simp [marked] at found
    | cons first outer =>
      have mem : scope ∈ outer := List.mem_of_getElem? (by simpa [marked] using found)
      exact orderly.ready scope (List.mem_cons_of_mem _ mem) name

/-- `this` and `super` are ready wherever they are.  What is being declared has a plain name. -/
theorem ready_keyword (ajar : Ajar inClass scopes) {scope : Bindings Bool} (mem : scope ∈ scopes)
    {name : String} (keyword : ¬ Plain name) : scope.get? name ≠ some false := by
  obtain ⟨inner, orderly, rfl | ⟨mark, plain, rfl⟩⟩ := ajar
  · exact orderly.ready scope mem name
  · cases inner with
    | nil => simp [marked] at mem
    | cons first outer =>
      rcases List.mem_cons.mp mem with rfl | mem
      · have apart : name ≠ mark := fun same => keyword (same ▸ plain)
        rw [Bindings.get?_put_of_ne _ apart]
        exact orderly.ready first List.mem_cons_self name
      · exact orderly.ready scope (List.mem_cons_of_mem _ mem) name

/-- Declaring a name does not touch the keywords. -/
theorem contains_marked {mark name : String} (plain : Plain mark) (keyword : ¬ Plain name)
    (scope : Bindings Bool) : (scope.put mark false).contains name = scope.contains name := by
  have apart : name ≠ mark := fun same => keyword (same ▸ plain)
  exact Bindings.contains_put_of_ne scope apart false

/-- So the scopes of the keywords stay in pairs while a name is being declared.  It is no keyword,
and a pair is one of keywords only. -/
theorem paired (ajar : Ajar inClass scopes) : Paired false scopes := by
  obtain ⟨inner, orderly, rfl | ⟨mark, plain, rfl⟩⟩ := ajar
  · exact orderly.paired
  · cases inner with
    | nil => trivial
    | cons first outer =>
      have same := orderly.paired
      unfold marked Paired
      rw [contains_marked plain (by simp [Plain]), contains_marked plain (by simp [Plain])]
      exact same

/-- A scope for a keyword is still there while a name is being declared.  The name is put into the
innermost scope and leaves the keywords in it alone. -/
theorem exists_of_orderly (ajar : Ajar inClass scopes) {name : String} (keyword : ¬ Plain name)
    (there : ∀ inner, Orderly inClass inner → ∃ scope ∈ inner, scope.contains name = true) :
    ∃ scope ∈ scopes, scope.contains name = true := by
  obtain ⟨inner, orderly, rfl | ⟨mark, plain, rfl⟩⟩ := ajar
  · exact there _ orderly
  · obtain ⟨scope, mem, holds⟩ := there inner orderly
    cases inner with
    | nil => simp at mem
    | cons first outer =>
      rcases List.mem_cons.mp mem with rfl | mem
      · exact ⟨_, List.mem_cons_self, (contains_marked plain keyword _).trans holds⟩
      · exact ⟨scope, List.mem_cons_of_mem _ mem, holds⟩

end Ajar

/-! ### The order along a resolution -/

/-- Well-formed statements introduce no name that looks like a keyword: a name is an identifier of
the text, and the scanner makes a keyword of whatever is spelled like one. -/
theorem plain_of_mem_introduces {st : Stmt} (formed : st.Formed Token.Spelled) :
    ∀ name ∈ st.introduces, Plain name := by
  fun_induction Stmt.introduces st with
  | case1 name initializer =>
    simp only [Stmt.Formed] at formed
    simpa using plain_of_spelled formed.1 formed.2.1
  | case2 decl =>
    obtain ⟨name, params, body⟩ := decl
    simp only [Stmt.Formed, FunDecl.Formed] at formed
    simpa using plain_of_spelled formed.1 formed.2.1
  | case3 name parent members =>
    cases parent <;>
      (simp only [Stmt.Formed] at formed; simpa using plain_of_spelled formed.1 formed.2.1)
  | case4 condition thenBranch ih =>
    simp only [Stmt.Formed] at formed
    exact ih formed.2.2
  | case5 condition thenBranch elseBranch ihThen ihElse =>
    simp only [Stmt.Formed] at formed
    intro name mem
    rcases List.mem_append.mp mem with mem | mem
    · exact ihThen formed.2.2.1 name mem
    · exact ihElse formed.2.2.2.2 name mem
  | case6 condition body ih =>
    simp only [Stmt.Formed] at formed
    exact ih formed.2.2
  | case7 => simp

/-- Statements introduce no keywords. -/
theorem plain_of_mem_introducedBy {sts : List Stmt} (formed : Stmt.AllFormed Token.Spelled sts) :
    ∀ name ∈ introducedBy sts, Plain name := by
  intro name mem
  obtain ⟨st, mem, here⟩ := List.mem_flatMap.mp mem
  exact plain_of_mem_introduces (Stmt.allFormed_iff.mp formed st mem) name here

/-- A visit of a well-formed node that is resolved without a report, with scopes in order.  The
name of a superclass is resolved in the context of the class but outside its scopes. -/
def Visit.Regular (v : Visit) : Prop :=
  match v.task with
  | .expr context e =>
    e.Formed Token.Spelled ∧
      (∃ inClass, Ajar inClass v.state.scopes ∧
        (inClass = context.inClass ∨ ∃ name hops, e = .var name hops)) ∧
      ∃ e' s', Yields (expr context e) v.state e' s'
  | .stmt context st =>
    st.Formed Token.Spelled ∧ Orderly context.inClass v.state.scopes ∧
      ∃ st' s', Yields (stmt context st) v.state st' s'
  | .stmts context sts =>
    Stmt.AllFormed Token.Spelled sts ∧ Orderly context.inClass v.state.scopes ∧
      ∃ sts' s', Yields (stmts context sts) v.state sts' s'
  | .function context kind decl =>
    decl.Formed Token.Spelled ∧ Orderly context.inClass v.state.scopes ∧
      ∃ decl' s', Yields (function context kind decl) v.state decl' s'

/-- The part of an expression that is resolved in the same scopes as the whole.  The name of a
superclass, which is a variable in the context of another class, has no parts. -/
theorem Visit.Regular.part {sites : List Site} {s s₁ s' : State} {context : Context}
    {e part part' : Expr} (regular : Visit.Regular ⟨sites, s, .expr context e⟩)
    (notVar : ∀ name hops, e ≠ .var name hops) (formed : part.Formed Token.Spelled)
    (scopes : s₁.scopes = s.scopes) (yields : Yields (expr context part) s₁ part' s') :
    Visit.Regular ⟨sites, s₁, .expr context part⟩ := by
  obtain ⟨-, ⟨inClass, ajar, same | ⟨name, hops, var⟩⟩, -⟩ := regular
  · refine ⟨formed, ⟨inClass, ?_, .inl same⟩, part', s', yields⟩
    change Ajar inClass s₁.scopes
    rw [scopes]
    exact ajar
  · exact absurd var (notVar name hops)

/-- The first step from a statement to an expression of it. -/
theorem Visit.Regular.ofStmt {sites : List Site} {s s₁ s' : State} {context : Context}
    {part part' : Expr} (orderly : Orderly context.inClass s.scopes)
    (formed : part.Formed Token.Spelled) (scopes : s₁.scopes = s.scopes)
    (yields : Yields (expr context part) s₁ part' s') :
    Visit.Regular ⟨sites, s₁, .expr context part⟩ := by
  refine ⟨formed, ⟨context.inClass, ?_, .inl rfl⟩, part', s', yields⟩
  change Ajar context.inClass s₁.scopes
  rw [scopes]
  exact orderly.ajar

/-- The scopes stay in order behind a statement. -/
theorem Orderly.afterStmt {context : Context} {inClass : Option ClassKind} {st st' : Stmt}
    {s s' : State} (orderly : Orderly inClass s.scopes) (formed : st.Formed Token.Spelled)
    (ran : (stmt context st).run s = .ok st' s') : Orderly inClass s'.scopes := by
  rw [(stmt_effect context st ran).2.scopes]
  exact orderly.introduce (plain_of_mem_introduces formed)

/-- Scopes are in order behind an expression, because it does not touch them. -/
theorem Orderly.afterExpr {context : Context} {inClass : Option ClassKind} {e e' : Expr}
    {s s' : State} (orderly : Orderly inClass s.scopes)
    (ran : (expr context e).run s = .ok e' s') : Orderly inClass s'.scopes := by
  rw [(expr_effect context e ran).scopes]
  exact orderly

/-- They are in order behind statements, which leave all the names they introduce ready. -/
theorem Orderly.afterStmts {context : Context} {inClass : Option ClassKind} {sts sts' : List Stmt}
    {s s' : State} (orderly : Orderly inClass s.scopes)
    (formed : Stmt.AllFormed Token.Spelled sts) (ran : (stmts context sts).run s = .ok sts' s') :
    Orderly inClass s'.scopes := by
  rw [(stmts_effect context sts ran).2.scopes]
  exact orderly.introduce (plain_of_mem_introducedBy formed)

/-- They are in order behind the methods of a class. -/
theorem Orderly.afterMethods {context : Context} {inClass : Option ClassKind}
    {decls decls' : List FunDecl} {s s' : State} (orderly : Orderly inClass s.scopes)
    (ran : (methods context decls).run s = .ok decls' s') : Orderly inClass s'.scopes := by
  rw [(methods_effect context decls ran).scopes]
  exact orderly

/-- They are in order behind a name that was declared and made ready at once, which was spelled as
an identifier and so is no keyword. -/
theorem Orderly.afterName {inClass : Option ClassKind} {name : Token} {s s' : State}
    (orderly : Orderly inClass s.scopes) (identifier : name.kind = .identifier)
    (spelled : name.Spelled) (ran : (do declare name; define name).run s = .ok () s') :
    Orderly inClass s'.scopes := by
  rw [(declare_define_effect ran).scopes]
  refine orderly.introduce fun other mem => ?_
  rw [List.mem_singleton.mp mem]
  exact plain_of_spelled identifier spelled

section Regular

variable {sites : List Site} {s : State} {context : Context} {v v' : Visit}

/-- The parts of an expression are resolved in its own scopes, as no part of an expression
introduces a name. -/
theorem Leads.regular_ofExpr {e : Expr} (leads : Leads ⟨sites, s, .expr context e⟩ v')
    (regular : Visit.Regular ⟨sites, s, .expr context e⟩) : v'.Regular := by
  obtain ⟨formed, -, e', s', yields⟩ := id regular
  cases leads with
  | grouping =>
    cases yields.exprCase with
    | grouping part => exact regular.part (by simp) formed rfl part
  | assigned =>
    cases yields.exprCase with
    | assign part => exact regular.part (by simp) formed.2.2 rfl part
  | operand =>
    cases yields.exprCase with
    | unary part => exact regular.part (by simp) formed.2.2 rfl part
  | left =>
    cases yields.exprCase with
    | binary first second => exact regular.part (by simp) formed.2.2.1 rfl first
  | right ran =>
    cases yields.exprCase with
    | binary first second =>
      -- both runs start in the same state, so they are the same run
      cases first.run.symm.trans ran
      exact regular.part (by simp) formed.2.2.2 (expr_effect _ _ ran).scopes second
  | logicalLeft =>
    cases yields.exprCase with
    | logical first second => exact regular.part (by simp) formed.2.2.1 rfl first
  | logicalRight ran =>
    cases yields.exprCase with
    | logical first second =>
      cases first.run.symm.trans ran
      exact regular.part (by simp) formed.2.2.2 (expr_effect _ _ ran).scopes second
  | callee =>
    cases yields.exprCase with
    | call first second => exact regular.part (by simp) formed.2.2.1 rfl first
  | argument ran ranBefore =>
    cases yields.exprCase with
    | call first second =>
      cases first.run.symm.trans ran
      obtain ⟨_, _, _, _, earlier, here⟩ := exprs_yields_split second
      cases earlier.run.symm.trans ranBefore
      have formedHere := Expr.allFormed_iff.mp formed.2.2.2 _ (List.mem_append_cons_self ..)
      exact regular.part (by simp) formedHere
        ((expr_effect _ _ ran).trans (exprs_effect _ _ ranBefore)).scopes here
  | object =>
    cases yields.exprCase with
    | getField part => exact regular.part (by simp) formed.2.2 rfl part
  | fieldValue =>
    cases yields.exprCase with
    | setField first second => exact regular.part (by simp) formed.2.2.2 rfl first
  | fieldObject ran =>
    cases yields.exprCase with
    | setField first second =>
      cases first.run.symm.trans ran
      exact regular.part (by simp) formed.2.2.1 (expr_effect _ _ ran).scopes second

/-- Around the methods of a class stands the scope that holds `this`.  The methods before this one
have left that scope as it was. -/
theorem Visit.Regular.method {name : Token} {before before' after : List FunDecl} {decl : FunDecl}
    {site : Site} {s₁ s₂ : State}
    (regular : Visit.Regular ⟨sites, s, .stmt context (.classDecl name none (before ++ decl :: after))⟩)
    (named : (do declare name; define name).run s = .ok () s₁)
    (ranBefore : (methods { context with inClass := some .plain } before).run
      (s₁.opened ["this"]) = .ok before' s₂) :
    Visit.Regular ⟨site :: sites, s₂,
      .function { context with inClass := some .plain } (methodKind decl.name) decl⟩ := by
  obtain ⟨formed, orderly, st', s', yields⟩ := regular
  cases yields.stmtCase with
  | plainClass names part =>
    cases names.run.symm.trans named
    obtain ⟨_, _, _, _, earlier, here⟩ := methods_yields_split part
    cases earlier.run.symm.trans ranBefore
    have after := (orderly.afterName formed.1 formed.2.1 named).openedThis
    have formedHere := FunDecl.allFormed_iff.mp formed.2.2 _ (List.mem_append_cons_self ..)
    exact ⟨formedHere, after.afterMethods ranBefore, _, _, here⟩

/-- With a superclass the scope that holds `super` stands around that one.  Resolving the superclass
comes first and touches no scope. -/
theorem Visit.Regular.inheritingMethod {name : Token} {parent : Superclass}
    {parent' : Superclass} {before before' after : List FunDecl} {decl : FunDecl}
    {s₁ s₂ s₃ : State}
    (regular : Visit.Regular
      ⟨sites, s, .stmt context (.classDecl name (some parent) (before ++ decl :: after))⟩)
    (inner : List Site) (named : (do declare name; define name).run s = .ok () s₁)
    (ranParent : (Scope.superclass context name parent).run s₁ = .ok parent' s₂)
    (ranBefore : (methods { context with inClass := some .derived } before).run
      ((s₂.opened ["super"]).opened ["this"]) = .ok before' s₃) :
    Visit.Regular ⟨inner ++ sites, s₃,
      .function { context with inClass := some .derived } (methodKind decl.name) decl⟩ := by
  obtain ⟨formed, orderly, st', s', yields⟩ := regular
  cases yields.stmtCase with
  | derivedClass names differ first second =>
    cases names.run.symm.trans named
    simp only [Scope.superclass, Stateful.run_bind_ok, Stateful.run_pure_ok] at ranParent
    obtain ⟨_, _, reported, _, _, ranValue, -, rfl⟩ := ranParent
    cases reportIf_false differ reported
    cases first.run.symm.trans ranValue
    obtain ⟨_, _, _, _, earlier, here⟩ := methods_yields_split second
    cases earlier.run.symm.trans ranBefore
    have after := ((orderly.afterName formed.1 formed.2.1 named).afterExpr ranValue).openedSuper
    have formedHere := FunDecl.allFormed_iff.mp formed.2.2.2 _ (List.mem_append_cons_self ..)
    exact ⟨formedHere, after.afterMethods ranBefore, _, _, here⟩

/-- The name of a superclass is resolved outside of the class, but in its context.  So the scopes
are those of the class around, if there is one, and this is the one case where they do not go with
the context. -/
theorem Visit.Regular.superclass {name : Token} {parent : Superclass} {members : List FunDecl}
    {s₁ s₂ : State}
    (regular : Visit.Regular ⟨sites, s, .stmt context (.classDecl name (some parent) members)⟩)
    (named : (do declare name; define name).run s = .ok () s₁)
    (other : (reportIf (parent.name.lexeme == name.lexeme) parent.name
      .inheritsFromItself).run s₁ = .ok () s₂) :
    Visit.Regular
      ⟨sites, s₂, .expr { context with inClass := some .derived } parent.value⟩ := by
  obtain ⟨formed, orderly, st', s', yields⟩ := regular
  cases yields.stmtCase with
  | derivedClass names differ first second =>
    cases names.run.symm.trans named
    cases reportIf_false differ other
    obtain ⟨identifier, spelled, ⟨identifier', spelled', hops, var⟩, -⟩ := formed
    have after := (orderly.afterName identifier spelled named).ajar
    refine ⟨?_, ⟨context.inClass, after, .inr ⟨_, _, var⟩⟩, _, _, first⟩
    rw [var]
    exact ⟨identifier', spelled'⟩

/-- The parts of a statement are resolved in the scopes that are left by the parts before them.  In
the initializer of a variable the name is there and not ready, and everywhere else all names are. -/
theorem Leads.regular_ofStmt {st : Stmt} (leads : Leads ⟨sites, s, .stmt context st⟩ v')
    (regular : Visit.Regular ⟨sites, s, .stmt context st⟩) : v'.Regular := by
  obtain ⟨formed, orderly, st', s', yields⟩ := id regular
  cases leads with
  | expression =>
    cases yields.stmtCase with
    | expr part => exact .ofStmt orderly formed rfl part
  | printed =>
    cases yields.stmtCase with
    | print part => exact .ofStmt orderly formed rfl part
  | bare => exact absurd formed (by simp [Stmt.Formed])
  | initializer declared =>
    cases yields.stmtCase with
    | varDecl named part =>
      cases named.run.symm.trans declared
      obtain ⟨_, ran, -⟩ := Stateful.run_map_ok.mp part.run
      -- the one place where a name is declared but not ready
      have plain := plain_of_spelled formed.1 formed.2.1
      refine ⟨formed.2.2, ⟨context.inClass, ?_, .inl rfl⟩, _, _, ran, part.silent⟩
      exact ⟨_, orderly, .inr ⟨_, plain, (declare_effect declared).scopes⟩⟩
  | block ran =>
    cases yields.stmtCase with
    | block part => exact ⟨formed, orderly.opened, _, _, part⟩
  | condition =>
    cases yields.stmtCase with
    | ifThen first second => exact .ofStmt orderly formed.1 rfl first
    | ifElse first second third => exact .ofStmt orderly formed.1 rfl first
  | thenBranch ran =>
    have after := orderly.afterExpr ran
    cases yields.stmtCase with
    | ifThen first second =>
      cases first.run.symm.trans ran
      exact ⟨formed.2.2, after, _, _, second⟩
    | ifElse first second third =>
      cases first.run.symm.trans ran
      exact ⟨formed.2.2.1, after, _, _, second⟩
  | elseBranch ran ranThen =>
    cases yields.stmtCase with
    | ifElse first second third =>
      cases first.run.symm.trans ran
      cases second.run.symm.trans ranThen
      -- a branch that is a declaration leaves its name behind
      have after := (orderly.afterExpr ran).afterStmt formed.2.2.1 ranThen
      exact ⟨formed.2.2.2.2, after, _, _, third⟩
  | loopCondition =>
    cases yields.stmtCase with
    | loop first second => exact .ofStmt orderly formed.1 rfl first
  | loopBody ran =>
    cases yields.stmtCase with
    | loop first second =>
      cases first.run.symm.trans ran
      exact ⟨formed.2.2, orderly.afterExpr ran, _, _, second⟩
  | returned atTop fromInit =>
    cases yields.stmtCase with
    | ret inside plain part =>
      cases reportIf_false inside atTop
      cases reportIf_false plain fromInit
      obtain ⟨_, ran, -⟩ := Stateful.run_map_ok.mp part.run
      exact .ofStmt orderly formed.2.2 rfl ⟨ran, part.silent⟩
  | function named =>
    cases yields.stmtCase with
    | funDecl name part =>
      cases name.run.symm.trans named
      have after := orderly.afterName formed.name.1 formed.name.2 named
      exact ⟨formed, after, _, _, part⟩
  | superclass named other => exact regular.superclass named other
  | method named ranBefore ran => exact regular.method named ranBefore
  | inheritingMethod split named ranParent ranAll ranBefore ran =>
    subst split
    exact regular.inheritingMethod [_, _] named ranParent ranBefore

/-- Each of some statements is resolved in the scopes that those before it leave, and these are in
order, as each statement keeps the order. -/
theorem Leads.regular_ofStmts {sts : List Stmt} (leads : Leads ⟨sites, s, .stmts context sts⟩ v')
    (regular : Visit.Regular ⟨sites, s, .stmts context sts⟩) : v'.Regular := by
  obtain ⟨formed, orderly, sts', s', yields⟩ := regular
  cases leads with
  | element ran =>
    obtain ⟨_, _, _, _, earlier, here⟩ := stmts_yields_split yields
    cases earlier.run.symm.trans ran
    have each := Stmt.allFormed_iff.mp formed
    have formedBefore := Stmt.allFormed_iff.mpr fun st mem =>
      each st (List.mem_append_left _ mem)
    exact ⟨each _ (List.mem_append_cons_self ..), orderly.afterStmts formedBefore ran, _, _, here⟩

/-- The body of a function is resolved in a scope of its own that holds the parameters.  These are
plain names, and ready before the body is begun. -/
theorem Leads.regular_ofFunction {kind : FunctionKind} {decl : FunDecl}
    (leads : Leads ⟨sites, s, .function context kind decl⟩ v')
    (regular : Visit.Regular ⟨sites, s, .function context kind decl⟩) : v'.Regular := by
  cases leads with
  | @body _ _ _ _ name params body body' s₁ s₂ declared ran =>
    obtain ⟨⟨-, -, formedParams, formedBody⟩, orderly, decl', s', yields⟩ := regular
    obtain ⟨_, _, _, -, declares, part⟩ := function_yields yields
    cases declares.run.symm.trans declared
    refine ⟨formedBody, ?_, _, _, part⟩
    change Orderly context.inClass s₁.scopes
    rw [(declareAll_effect declared).scopes]
    refine orderly.opened.introduce fun name named => ?_
    obtain ⟨param, mem, rfl⟩ := List.mem_map.mp named
    exact plain_of_spelled (formedParams param mem).1 (formedParams param mem).2

/-- One step of a resolution keeps visits regular. -/
theorem Leads.regular (leads : Leads v v') (regular : v.Regular) : v'.Regular := by
  obtain ⟨sites, s, task⟩ := v
  cases task with
  | expr context e => exact leads.regular_ofExpr regular
  | stmt context st => exact leads.regular_ofStmt regular
  | stmts context sts => exact leads.regular_ofStmts regular
  | function context kind decl => exact leads.regular_ofFunction regular

end Regular

/-- The resolution of a well-formed program without a report is regular from beginning to end. -/
theorem Visits.regular {globals : List String} {p : Program} {v : Visit} {body' : List Stmt}
    {s' : State} (formed : Stmt.AllFormed Token.Spelled p.body)
    (yields : Yields (stmts {} p.body) (.initial globals) body' s') (visits : Visits globals p v) :
    v.Regular := by
  induction visits with
  | start => exact ⟨formed, .top, body', s', yields⟩
  | step before leads ih => exact leads.regular ih

end Scope
end Arbor
