import Arbor.Proofs.Matching
import Arbor.Proofs.Program.Renaming
import Arbor.Proofs.Scope.Orderly

/-!
# Renamed programs are resolved alike

A program that was resolved and in which local variables were renamed afterwards resolves to itself:
every reference is found at the distance it has, and nothing is reported that was not reported on the
original program.

The two walks are compared scope by scope.  A scope and its counterpart declare the same names up to
the exchange of the old and the new name if a variable is renamed there, and the original scope never
declares the new one.  So no renamed reference is caught by a scope in between: there it would have
to meet the old name, which the original reference passed by, or the new one.

## Main definitions

* `Scope.State.Renamed`: states of the two walks that go with each other.

## Main statements

* `Scope.expr_renamed`, `Scope.stmts_renamed`: a renamed tree resolves to itself.
-/

namespace Arbor

/-- A name that is renamed twice is itself or the new name, whichever of the scopes are marked. -/
theorem Renaming.perm_perm_cases {ρ : Renaming} {name : String} (fresh : name ≠ ρ.new)
    (first second : Bool) :
    ρ.perm first (ρ.perm second name) = name ∨ ρ.perm first (ρ.perm second name) = ρ.new := by
  cases first with
  | false => exact (Renaming.perm_cases fresh second).imp_right And.right
  | true =>
    cases second with
    | false => exact (Renaming.perm_cases fresh true).imp_right And.right
    | true => exact .inl (Renaming.perm_perm true name)

namespace Scope

open Stateful

variable {ρ : Renaming} {marks : List Bool} {context : Context} {s s' t : State} {α β : Type}

/-! ### States that go with each other -/

/-- Scopes of the original walk and of the renamed one, with the marks they are renamed by. -/
inductive RenamedScopes (ρ : Renaming) :
    List Bool → List (Bindings Bool) → List (Bindings Bool) → Prop
  | nil : RenamedScopes ρ [] [] []
  | cons {here : Bool} {marks : List Bool} {scope scope' : Bindings Bool}
      {outer outer' : List (Bindings Bool)} (matched : scope.Matches (ρ.perm here) Eq scope')
      (fresh : scope.contains ρ.new = false) (around : RenamedScopes ρ marks outer outer') :
      RenamedScopes ρ (here :: marks) (scope :: outer) (scope' :: outer')

/-- A state of the original walk and one of the renamed walk. -/
structure State.Renamed (ρ : Renaming) (marks : List Bool) (s t : State) : Prop where
  scopes : RenamedScopes ρ marks s.scopes t.scopes
  globals : t.globals = s.globals
  silent : s.reports = #[] → t.reports = #[]

/-- What a renamed scope says of a name is what the scope says of the old one, since the swap undoes
itself. -/
theorem get?_of_matches {here : Bool} {scope scope' : Bindings Bool}
    (matched : scope.Matches (ρ.perm here) Eq scope') (name : String) :
    scope'.get? name = scope.get? (ρ.perm here name) := by
  have found := matched.get? (ρ.perm here name)
  rw [Renaming.perm_perm] at found
  generalize scope.get? (ρ.perm here name) = original at found
  generalize scope'.get? name = renamed at found
  cases found with
  | some same => exact congrArg some same.symm
  | none => rfl

theorem contains_of_matches {here : Bool} {scope scope' : Bindings Bool}
    (matched : scope.Matches (ρ.perm here) Eq scope') (name : String) :
    scope'.contains name = scope.contains (ρ.perm here name) := by
  unfold Bindings.contains
  rw [get?_of_matches matched]

/-- A reference that passed a scope by passes the renamed scope by, whatever scope it refers to. -/
theorem contains_eq_false {here marked : Bool} {scope scope' : Bindings Bool} {name : String}
    (matched : scope.Matches (ρ.perm here) Eq scope') (new : scope.contains ρ.new = false)
    (fresh : name ≠ ρ.new) (absent : scope.contains name = false) :
    scope'.contains (ρ.perm marked name) = false := by
  rw [contains_of_matches matched]
  rcases Renaming.perm_perm_cases fresh here marked with same | same
  · rw [same, absent]
  · rw [same, new]

theorem distance?_cons_of_pos {scope : Bindings Bool} {outer : List (Bindings Bool)} {name : String}
    (here : scope.contains name = true) : distance? (scope :: outer) name = some 0 := by
  unfold distance?
  rw [List.findIdx?_cons, if_pos here]

theorem distance?_cons_of_neg {scope : Bindings Bool} {outer : List (Bindings Bool)} {name : String}
    (absent : scope.contains name = false) :
    distance? (scope :: outer) name = (distance? outer name).map (· + 1) := by
  unfold distance?
  rw [List.findIdx?_cons, if_neg (Bool.eq_false_iff.mp absent)]

/-- The mark that a distance leads to is that of a scope further out. -/
theorem leadsToMark_cons (here : Bool) (hops : Option Nat) :
    leadsToMark (here :: marks) (hops.map (· + 1)) = leadsToMark marks hops := by
  cases hops <;> rfl

/-- A reference that is renamed by the mark of its scope is found in that scope.  In the scopes that
are passed on the way neither of the two names is found if the first one was not. -/
theorem RenamedScopes.distance?_eq {scopes scopes' : List (Bindings Bool)} {name : String}
    (renamed : RenamedScopes ρ marks scopes scopes') (fresh : name ≠ ρ.new) :
    distance? scopes' (ρ.perm (leadsToMark marks (distance? scopes name)) name) =
      distance? scopes name := by
  induction renamed with
  | nil => rfl
  | @cons here marks scope scope' outer outer' matched new _ ih =>
    cases found : scope.contains name with
    | true =>
      have found' : scope'.contains (ρ.perm here name) = true := by
        rw [contains_of_matches matched, Renaming.perm_perm, found]
      rw [distance?_cons_of_pos found]
      exact distance?_cons_of_pos found'
    | false =>
      rw [distance?_cons_of_neg found, leadsToMark_cons,
        distance?_cons_of_neg (contains_eq_false matched new fresh found), ih]

/-- A word of the language is found where it was, as it is neither of the two names. -/
theorem RenamedScopes.distance?_keyword {scopes scopes' : List (Bindings Bool)} {name : String}
    (renamed : RenamedScopes ρ marks scopes scopes') (fixed : ∀ marked, ρ.perm marked name = name) :
    distance? scopes' name = distance? scopes name := by
  induction renamed with
  | nil => rfl
  | @cons here marks scope scope' outer outer' matched _ _ ih =>
    have same : scope'.contains name = scope.contains name := by
      rw [contains_of_matches matched, fixed]
    cases found : scope.contains name with
    | true => rw [distance?_cons_of_pos found, distance?_cons_of_pos (same.trans found)]
    | false => rw [distance?_cons_of_neg found, distance?_cons_of_neg (same.trans found), ih]

/-- A reference to a name that is ready stays one.  If the innermost scope is marked otherwise than
the one that the reference leads to, then it does not have the name that the reference gets. -/
theorem State.Renamed.isUnready {name : String} (renamed : s.Renamed ρ marks t)
    (fresh : name ≠ ρ.new) (ready : s.isUnready name = false) :
    t.isUnready (ρ.perm (leadsToMark marks (distance? s.scopes name)) name) = false := by
  have scopes := renamed.scopes
  unfold State.isUnready at ready ⊢
  generalize s.scopes = here at scopes ready
  generalize t.scopes = there at scopes
  cases scopes with
  | nil =>
    rw [renamed.globals]
    exact ready
  | @cons mark _ scope scope' _ _ matched new _ =>
    dsimp only at ready ⊢
    rw [get?_of_matches matched]
    rcases Renaming.perm_perm_cases fresh mark
      (leadsToMark _ (distance? (scope :: _) name)) with same | same
    · rw [same, ready]
    · have absent : scope.get? ρ.new = none := Option.isNone_iff_eq_none.mp (by
        unfold Bindings.contains at new
        rw [← Option.not_isSome, new]
        rfl)
      rw [same, absent]
      rfl

/-- A name is put into the innermost scope, under the two names.  The new name stays out of the
original scope, as the name that is put there is another one. -/
theorem RenamedScopes.put {here : Bool} {scope scope' : Bindings Bool}
    {outer outer' : List (Bindings Bool)}
    (renamed : RenamedScopes ρ (here :: marks) (scope :: outer) (scope' :: outer')) {name : String}
    (fresh : name ≠ ρ.new) (ready : Bool) :
    RenamedScopes ρ (here :: marks) (scope.put name ready :: outer)
      (scope'.put (ρ.perm here name) ready :: outer') := by
  cases renamed with
  | cons matched new around =>
    refine .cons (matched.put name rfl) ?_ around
    rw [Bindings.contains_put_of_ne _ fresh.symm, new]

/-! ### Walks that go with each other -/

/-- A walk returns something, in a state that goes with a given one. -/
def Mirrors (ρ : Renaming) (marks : List Bool) (x : Resolve α) (t : State) (a : α) (s' : State) :
    Prop :=
  ∃ t', x.run t = .ok a t' ∧ s'.Renamed ρ marks t'

namespace Mirrors

variable {x : Resolve α} {k : α → Resolve β} {a : α} {b : β} {inner : List Bool}

theorem pure (renamed : s'.Renamed ρ marks t) : Mirrors ρ marks (Pure.pure a) t a s' :=
  ⟨t, rfl, renamed⟩

theorem bind {s₁ : State} (first : Mirrors ρ inner x t a s₁)
    (second : ∀ t₁, s₁.Renamed ρ inner t₁ → Mirrors ρ marks (k a) t₁ b s') :
    Mirrors ρ marks (x >>= k) t b s' := by
  obtain ⟨t₁, ran, renamed⟩ := first
  obtain ⟨t₂, ranRest, renamed'⟩ := second t₁ renamed
  exact ⟨t₂, run_bind_ok.mpr ⟨a, t₁, ran, ranRest⟩, renamed'⟩

theorem map {g : α → β} (mirrors : Mirrors ρ marks x t a s') :
    Mirrors ρ marks (g <$> x) t (g a) s' := by
  obtain ⟨t', ran, renamed⟩ := mirrors
  exact ⟨t', run_map_ok.mpr ⟨a, ran, rfl⟩, renamed⟩

end Mirrors

/-! ### Names -/

/-- Nothing is reported in the renamed walk that was not reported in the original one.  The other
direction does not hold here, and is not needed, since the original walk is silent in the end. -/
theorem reportIf_renamed {condition condition' : Bool} {token token' : Token} {error : ScopeError}
    {u : Unit} (fewer : condition = false → condition' = false) (renamed : s.Renamed ρ marks t)
    (ran : (reportIf condition token error).run s = .ok u s') :
    Mirrors ρ marks (reportIf condition' token' error) t () s' := by
  cases condition with
  | false =>
    rw [fewer rfl]
    cases ran
    exact .pure renamed
  | true =>
    cases ran
    have loud : (s.reports.push (.scope token error)) ≠ #[] := Array.push_ne_empty
    cases condition' with
    | false => exact ⟨t, rfl, renamed.scopes, renamed.globals, fun none => absurd none loud⟩
    | true => exact ⟨_, rfl, renamed.scopes, renamed.globals, fun none => absurd none loud⟩

/-- A name that is renamed by the mark of the scope it is declared in.  It was known there if and
only if the renamed one is, so there is as little to report. -/
theorem declare_renamed {name name' : Token} {u : Unit} (fresh : name.lexeme ≠ ρ.new)
    (called : name'.lexeme = ρ.perm (marks.headD false) name.lexeme)
    (renamed : s.Renamed ρ marks t) (ran : (declare name).run s = .ok u s') :
    Mirrors ρ marks (declare name') t () s' := by
  have scopes := renamed.scopes
  generalize here : s.scopes = inner at scopes
  generalize there : t.scopes = inner' at scopes
  cases scopes with
  | nil =>
    have same : name'.lexeme = name.lexeme := called
    rw [run_declare_top here] at ran
    cases ran
    refine ⟨_, run_declare_top there, ?_⟩
    rw [same, renamed.globals]
    split
    · exact renamed
    · refine ⟨?_, rfl, renamed.silent⟩
      dsimp only
      rw [here, there]
      exact .nil
  | @cons mark marks scope scope' outer outer' matched new around =>
    rw [run_declare_local here, run_bind_ok] at ran
    obtain ⟨_, s₁, reported, changed⟩ := ran
    have same : scope'.contains name'.lexeme = scope.contains name.lexeme := by
      rw [called, contains_of_matches matched]
      exact congrArg scope.contains (Renaming.perm_perm mark name.lexeme)
    obtain ⟨t₁, reported', renamed₁⟩ := reportIf_renamed
      (fun no => same.trans no) renamed reported
    rw [run_modify_ok] at changed
    subst changed
    refine ⟨_, (run_declare_local there).trans (run_bind_ok.mpr ⟨_, t₁, reported', rfl⟩), ?_⟩
    refine ⟨?_, renamed₁.globals, renamed₁.silent⟩
    dsimp only
    rw [called]
    exact RenamedScopes.put (.cons matched new around) fresh false

/-- A name becomes ready under its two names, in the innermost scope or among the globals, where
nothing is renamed. -/
theorem define_renamed {name name' : Token} {u : Unit} (fresh : name.lexeme ≠ ρ.new)
    (called : name'.lexeme = ρ.perm (marks.headD false) name.lexeme)
    (renamed : s.Renamed ρ marks t) (ran : (define name).run s = .ok u s') :
    Mirrors ρ marks (define name') t () s' := by
  obtain ⟨scopes, globals, reports, resolutions⟩ := s
  obtain ⟨scopes', globals', reports', resolutions'⟩ := t
  obtain ⟨around, same, silent⟩ := renamed
  cases ran
  refine ⟨_, rfl, ?_⟩
  cases around with
  | nil =>
    have lexeme : name'.lexeme = name.lexeme := called
    dsimp only at same ⊢
    refine ⟨.nil, ?_, silent⟩
    rw [lexeme, same]
  | cons matched new around =>
    refine ⟨?_, same, silent⟩
    dsimp only
    rw [called]
    exact RenamedScopes.put (.cons matched new around) fresh true

/-- Parameters, renamed by the mark of their scope, which all of them are declared in.  So they are
renamed together or not at all. -/
theorem declareAll_renamed {params : List Token} {u : Unit}
    (fit : ∀ param ∈ params, param.lexeme ≠ ρ.new) (renamed : s.Renamed ρ marks t)
    (ran : (declareAll params).run s = .ok u s') :
    Mirrors ρ marks (declareAll (params.map (ρ.token (marks.headD false)))) t () s' := by
  induction params generalizing s t with
  | nil =>
    cases ran
    exact .pure renamed
  | cons name rest ih =>
    simp only [declareAll, run_bind_ok] at ran
    obtain ⟨_, s₁, declared, _, s₂, defined, ranRest⟩ := ran
    have fresh := fit name (List.mem_cons_self ..)
    have called := Renaming.token_lexeme fresh (marks.headD false)
    refine (declare_renamed fresh called renamed declared).bind fun t₁ renamed₁ => ?_
    refine (define_renamed fresh called renamed₁ defined).bind fun t₂ renamed₂ => ?_
    exact ih (fun other mem => fit other (List.mem_cons_of_mem _ mem)) renamed₂ ranRest

/-- A reference is found at the same distance if its name is, under whatever name it is recorded. -/
theorem link_renamed {kind : NodeKind} {name name' : Token} {hops : Option Nat}
    (found : distance? t.scopes name'.lexeme = distance? s.scopes name.lexeme)
    (renamed : s.Renamed ρ marks t) (ran : (link kind name).run s = .ok hops s') :
    Mirrors ρ marks (link kind name') t hops s' := by
  unfold link at ran
  rw [run_modifyGet_ok] at ran
  cases distance : distance? s.scopes name.lexeme with
  | none =>
    rw [distance] at ran found
    cases ran
    refine ⟨t, run_modifyGet_ok.mpr ?_, renamed⟩
    rw [found]
  | some d =>
    rw [distance] at ran found
    cases ran
    let found' : Resolution := ⟨kind, name'.lexeme, name'.line, d⟩
    refine ⟨{ t with resolutions := t.resolutions.push found' }, run_modifyGet_ok.mpr ?_,
      renamed.scopes, renamed.globals, renamed.silent⟩
    rw [found]

/-- A reference that is renamed by the mark of its scope is found at its distance. -/
theorem link_renamed_token {kind : NodeKind} {name : Token} {hops : Option Nat}
    (fresh : name.lexeme ≠ ρ.new) (renamed : s.Renamed ρ marks t)
    (ran : (link kind name).run s = .ok hops s') :
    Mirrors ρ marks (link kind (ρ.token (leadsToMark marks hops) name)) t hops s' := by
  refine link_renamed ?_ renamed ran
  rw [Renaming.token_lexeme fresh, (link_effect ran).1]
  exact renamed.scopes.distance?_eq fresh

/-- A keyword keeps its name and is found where it was, or is reported on both sides. -/
theorem linkUnless_renamed {error? : Option ScopeError} {kind : NodeKind} {keyword : Token}
    {hops : Option Nat} (fixed : ∀ marked, ρ.perm marked keyword.lexeme = keyword.lexeme)
    (renamed : s.Renamed ρ marks t) (ran : (linkUnless error? kind keyword).run s = .ok hops s') :
    Mirrors ρ marks (linkUnless error? kind keyword) t hops s' := by
  cases error? with
  | none => exact link_renamed (renamed.scopes.distance?_keyword fixed) renamed ran
  | some error =>
    obtain ⟨_, s₁, reported, returned⟩ := run_bind_ok.mp ran
    cases returned
    have mirrors : Mirrors ρ marks (reportIf true keyword error) t () s' :=
      reportIf_renamed (fun same => same) renamed reported
    exact Mirrors.bind mirrors fun t₁ renamed₁ => .pure renamed₁

/-- A scope is opened, in which a variable is renamed or none is. -/
theorem State.Renamed.opened (renamed : s.Renamed ρ marks t) (here : Bool) :
    (s.opened []).Renamed ρ (here :: marks) (t.opened []) :=
  ⟨.cons .empty rfl renamed.scopes, renamed.globals, renamed.silent⟩

/-- A scope is opened for a word of the language. -/
theorem State.Renamed.opened_keyword (renamed : s.Renamed ρ marks t) {name : String}
    (apart : name ≠ ρ.new) : (s.opened [name]).Renamed ρ (false :: marks) (t.opened [name]) := by
  have new : (Bindings.empty.put name true).contains ρ.new = false :=
    Bindings.contains_put_of_ne Bindings.empty apart.symm true
  exact ⟨.cons (Bindings.Matches.empty.put name rfl) new renamed.scopes, renamed.globals,
    renamed.silent⟩

theorem State.Renamed.closed {here : Bool} (renamed : s.Renamed ρ (here :: marks) t) :
    State.Renamed ρ marks { s with scopes := s.scopes.tail } { t with scopes := t.scopes.tail } := by
  refine ⟨?_, renamed.globals, renamed.silent⟩
  have scopes := renamed.scopes
  generalize s.scopes = inner at scopes
  generalize t.scopes = inner' at scopes
  cases scopes with
  | cons _ _ around => exact around

/-- What happens inside a scope goes with what happens inside its counterpart. -/
theorem within_renamed {ready : List String} {here : Bool} {x x' : Resolve α} {a a' : α}
    (ran : (within ready x).run s = .ok a s')
    (inside : ∀ s₁, x.run (s.opened ready) = .ok a s₁ →
      Mirrors ρ (here :: marks) x' (t.opened ready) a' s₁) :
    Mirrors ρ marks (within ready x') t a' s' := by
  obtain ⟨s₁, ranInside, rfl⟩ := within_run.mp ran
  obtain ⟨t₁, ranInside', renamed⟩ := inside s₁ ranInside
  exact ⟨_, within_run.mpr ⟨t₁, ranInside', rfl⟩, renamed.closed⟩

/-! ### Expressions -/

mutual

/-- A renamed expression resolves to itself.  Every name in it is renamed by the mark of the scope
that its distance leads to, and from there the same distance leads back. -/
theorem expr_renamed (context : Context) : ∀ (e : Expr) {e' : Expr} {s s' t : State},
    e.Formed ρ.Fits → s.Renamed ρ marks t → (expr context e).run s = .ok e' s' →
      Mirrors ρ marks (expr context (e'.rename ρ marks)) t (e'.rename ρ marks) s'
  | .literal value, _, s, s', t, _, renamed, ran => by
    cases ran
    exact .pure renamed
  | .grouping inner, _, s, s', t, formed, renamed, ran => by
    simp only [expr, run_bind_ok, run_pure_ok] at ran
    obtain ⟨_, _, ran, rfl, rfl⟩ := ran
    exact (expr_renamed context inner formed renamed ran).bind fun _ renamed' => .pure renamed'
  | .var name hops, _, s, s', t, formed, renamed, ran => by
    simp only [expr, run_bind_ok, run_pure_ok, run_get_ok] at ran
    obtain ⟨_, _, ⟨rfl, rfl⟩, _, s₁, reported, hops, _, linked, rfl, rfl⟩ := ran
    have distance : hops = distance? s.scopes name.lexeme := by
      rw [(link_effect linked).1, (reportIf_effect reported).scopes]
      rfl
    have fewer : s.isUnready name.lexeme = false →
        t.isUnready (ρ.token (leadsToMark marks hops) name).lexeme = false := by
      intro ready
      rw [Renaming.token_lexeme formed.2.fresh, distance]
      exact renamed.isUnready formed.2.fresh ready
    have looks : Mirrors ρ marks get t t s := ⟨t, rfl, renamed⟩
    refine looks.bind fun t₀ renamed₀ => ?_
    refine (reportIf_renamed fewer renamed₀ reported).bind fun t₁ renamed₁ => ?_
    exact (link_renamed_token formed.2.fresh renamed₁ linked).bind fun _ renamed₂ => .pure renamed₂
  | .assign name value hops, _, s, s', t, formed, renamed, ran => by
    simp only [expr, run_bind_ok, run_pure_ok] at ran
    obtain ⟨_, _, ran, _, _, linked, rfl, rfl⟩ := ran
    refine (expr_renamed context value formed.2.2 renamed ran).bind fun _ renamed' => ?_
    exact (link_renamed_token formed.2.1.fresh renamed' linked).bind fun _ renamed'' =>
      .pure renamed''
  | .unary operator right, _, s, s', t, formed, renamed, ran => by
    simp only [expr, run_bind_ok, run_pure_ok] at ran
    obtain ⟨_, _, ran, rfl, rfl⟩ := ran
    exact (expr_renamed context right formed.2.2 renamed ran).bind fun _ renamed' => .pure renamed'
  | .binary left operator right, _, s, s', t, formed, renamed, ran
  | .logical left operator right, _, s, s', t, formed, renamed, ran => by
    simp only [expr, run_bind_ok, run_pure_ok] at ran
    obtain ⟨_, _, ranLeft, _, _, ranRight, rfl, rfl⟩ := ran
    refine (expr_renamed context left formed.2.2.1 renamed ranLeft).bind fun _ renamed' => ?_
    exact (expr_renamed context right formed.2.2.2 renamed' ranRight).bind fun _ renamed'' =>
      .pure renamed''
  | .call callee paren arguments, _, s, s', t, formed, renamed, ran => by
    simp only [expr, run_bind_ok, run_pure_ok] at ran
    obtain ⟨_, _, ranCallee, _, _, ranArguments, rfl, rfl⟩ := ran
    refine (expr_renamed context callee formed.2.2.1 renamed ranCallee).bind fun _ renamed' => ?_
    exact (exprs_renamed context arguments formed.2.2.2 renamed' ranArguments).bind
      fun _ renamed'' => .pure renamed''
  | .getField object name, _, s, s', t, formed, renamed, ran => by
    simp only [expr, run_bind_ok, run_pure_ok] at ran
    obtain ⟨_, _, ran, rfl, rfl⟩ := ran
    exact (expr_renamed context object formed.2.2 renamed ran).bind fun _ renamed' => .pure renamed'
  | .setField object name value, _, s, s', t, formed, renamed, ran => by
    simp only [expr, run_bind_ok, run_pure_ok] at ran
    obtain ⟨_, _, ranValue, _, _, ranObject, rfl, rfl⟩ := ran
    refine (expr_renamed context value formed.2.2.2 renamed ranValue).bind fun _ renamed' => ?_
    exact (expr_renamed context object formed.2.2.1 renamed' ranObject).bind fun _ renamed'' =>
      .pure renamed''
  | .this keyword hops, _, s, s', t, formed, renamed, ran => by
    simp only [expr, run_bind_ok, run_pure_ok] at ran
    obtain ⟨_, _, linked, rfl, rfl⟩ := ran
    have fixed : ∀ marked, ρ.perm marked keyword.lexeme = keyword.lexeme := by
      rw [formed.2.spelled.this formed.1]
      exact Renaming.perm_this
    exact (linkUnless_renamed fixed renamed linked).bind fun _ renamed' => .pure renamed'
  | .super keyword method hops, _, s, s', t, formed, renamed, ran => by
    simp only [expr, run_bind_ok, run_pure_ok] at ran
    obtain ⟨_, _, linked, rfl, rfl⟩ := ran
    have fixed : ∀ marked, ρ.perm marked keyword.lexeme = keyword.lexeme := by
      rw [formed.2.1.spelled.super formed.1]
      exact Renaming.perm_super
    exact (linkUnless_renamed fixed renamed linked).bind fun _ renamed' => .pure renamed'
  | .misfit what, _, s, s', t, formed, _, _ => formed.elim
termination_by structural e => e

/-- Renamed arguments resolve to themselves, one behind the other. -/
theorem exprs_renamed (context : Context) : ∀ (es : List Expr) {es' : List Expr} {s s' t : State},
    Expr.AllFormed ρ.Fits es → s.Renamed ρ marks t → (exprs context es).run s = .ok es' s' →
      Mirrors ρ marks (exprs context (Expr.allRename ρ marks es')) t (Expr.allRename ρ marks es') s'
  | [], _, s, s', t, _, renamed, ran => by
    cases ran
    exact .pure renamed
  | e :: rest, _, s, s', t, formed, renamed, ran => by
    simp only [exprs, run_bind_ok, run_pure_ok] at ran
    obtain ⟨_, _, ranFirst, _, _, ranRest, rfl, rfl⟩ := ran
    refine (expr_renamed context e formed.1 renamed ranFirst).bind fun _ renamed' => ?_
    exact (exprs_renamed context rest formed.2 renamed' ranRest).bind fun _ renamed'' =>
      .pure renamed''
termination_by structural es => es

end

/-- So does an expression that may be left out. -/
theorem expr?_renamed {e? e?' : Option Expr} (formed : Expr.OptionFormed ρ.Fits e?)
    (renamed : s.Renamed ρ marks t) (ran : (expr? context e?).run s = .ok e?' s') :
    Mirrors ρ marks (expr? context (e?'.map (Expr.rename ρ marks))) t
      (e?'.map (Expr.rename ρ marks)) s' := by
  cases e? with
  | none =>
    cases ran
    exact .pure renamed
  | some e =>
    obtain ⟨_, ranInner, rfl⟩ := run_map_ok.mp ran
    exact (expr_renamed context e formed renamed ranInner).map

theorem isSome_expr? {e? e?' : Option Expr} (ran : (expr? context e?).run s = .ok e?' s') :
    e?'.isSome = e?.isSome := by
  cases e? with
  | none =>
    cases ran
    rfl
  | some e =>
    obtain ⟨_, -, rfl⟩ := run_map_ok.mp ran
    rfl

/-! ### Statements -/

/-- A superclass is blamed by the name of the variable that holds it.  It differs from the name of
the class before and after, since the new name is not that of the class. -/
theorem superclass_renamed {name : Token} {parent parent' : Superclass}
    (formed : parent.Formed ρ.Fits) (kept : name.lexeme ≠ ρ.new) (renamed : s.Renamed ρ marks t)
    (ran : (superclass context name parent).run s = .ok parent' s') :
    Mirrors ρ marks (superclass context name (parent'.rename ρ marks)) t (parent'.rename ρ marks)
      s' := by
  obtain ⟨kind, fits, hops, value⟩ := formed
  simp only [superclass, run_bind_ok, run_pure_ok] at ran
  obtain ⟨_, s₁, reported, value', _, ran, rfl, rfl⟩ := ran
  have valueFormed : parent.value.Formed ρ.Fits := by
    rw [value]
    exact ⟨kind, fits⟩
  have fewer : (parent.name.lexeme == name.lexeme) = false →
      ((Superclass.rename ρ marks ⟨parent.name, value'⟩).name.lexeme == name.lexeme) = false := by
    intro differ
    have apart : parent.name.lexeme ≠ name.lexeme := by simpa using differ
    have renamedName := Renaming.token_lexeme fits.fresh (value'.isMarked marks)
    rw [beq_eq_false_iff_ne]
    dsimp only [Superclass.rename]
    rw [renamedName]
    rcases Renaming.perm_cases fits.fresh (value'.isMarked marks) with same | ⟨-, same⟩
    · rw [same]
      exact apart
    · rw [same]
      exact kept.symm
  refine (reportIf_renamed fewer renamed reported).bind fun t₁ renamed₁ => ?_
  exact (expr_renamed _ _ valueFormed renamed₁ ran).bind fun _ renamed₂ => .pure renamed₂

mutual

/-- A renamed statement resolves to itself.  The induction is on the statement; a scope that is
opened in it is marked if the variable is declared there, and so are the names it is given. -/
theorem stmt_renamed (context : Context) :
    ∀ (st : Stmt) {marks : List Bool} {st' st'' : Stmt} {s s' t : State}, st.Formed ρ.Fits →
      s.Renamed ρ marks t → (stmt context st).run s = .ok st' s' → st'.Renamed ρ marks st'' →
        Mirrors ρ marks (stmt context st'') t st'' s'
  | .expr e, marks, _, _, s, s', t, formed, renamed, ran, same => by
    simp only [stmt, run_bind_ok, run_pure_ok] at ran
    obtain ⟨_, _, ran, rfl, rfl⟩ := ran
    cases same
    exact (expr_renamed context e formed renamed ran).bind fun _ renamed' => .pure renamed'
  | .print e, marks, _, _, s, s', t, formed, renamed, ran, same => by
    simp only [stmt, run_bind_ok, run_pure_ok] at ran
    obtain ⟨_, _, ran, rfl, rfl⟩ := ran
    cases same
    exact (expr_renamed context e formed renamed ran).bind fun _ renamed' => .pure renamed'
  | .varDecl name initializer, marks, _, _, s, s', t, formed, renamed, ran, same => by
    simp only [stmt, run_bind_ok, run_pure_ok] at ran
    obtain ⟨_, _, declared, _, _, ran, _, _, defined, rfl, rfl⟩ := ran
    cases same
    have fresh := formed.2.1.fresh
    have called := Renaming.token_lexeme fresh (marks.headD false)
    refine (declare_renamed fresh called renamed declared).bind fun _ renamed₁ => ?_
    refine (expr?_renamed formed.2.2 renamed₁ ran).bind fun _ renamed₂ => ?_
    exact (define_renamed fresh called renamed₂ defined).bind fun _ renamed₃ => .pure renamed₃
  | .block statements, marks, _, _, s, s', t, formed, renamed, ran, same => by
    simp only [stmt, run_bind_ok, run_pure_ok] at ran
    obtain ⟨_, _, ran, rfl, rfl⟩ := ran
    obtain ⟨here, statements'', rfl, bodies⟩ := same
    have inside := within_renamed ran fun s₁ ranInside =>
      stmts_renamed context statements formed (renamed.opened here) ranInside bodies
    exact inside.bind fun _ renamed' => .pure renamed'
  | .ifElse condition thenBranch none, marks, _, _, s, s', t, formed, renamed, ran, same => by
    simp only [stmt, run_bind_ok, run_pure_ok] at ran
    obtain ⟨_, _, ranCondition, _, _, ranThen, rfl, rfl⟩ := ran
    obtain ⟨thenBranch'', rfl, branches⟩ := same
    refine (expr_renamed context condition formed.1 renamed ranCondition).bind fun _ renamed₁ => ?_
    exact (stmt_renamed context thenBranch formed.2.2 renamed₁ ranThen branches).bind
      fun _ renamed₂ => .pure renamed₂
  | .ifElse condition thenBranch (some elseBranch), marks, _, _, s, s', t, formed, renamed, ran,
      same => by
    simp only [stmt, run_bind_ok, run_pure_ok] at ran
    obtain ⟨_, _, ranCondition, _, _, ranThen, _, _, ranElse, rfl, rfl⟩ := ran
    obtain ⟨thenBranch'', elseBranch'', rfl, thens, elses⟩ := same
    refine (expr_renamed context condition formed.1 renamed ranCondition).bind fun _ renamed₁ => ?_
    refine (stmt_renamed context thenBranch formed.2.2.1 renamed₁ ranThen thens).bind
      fun _ renamed₂ => ?_
    exact (stmt_renamed context elseBranch formed.2.2.2.2 renamed₂ ranElse elses).bind
      fun _ renamed₃ => .pure renamed₃
  | .loop condition body, marks, _, _, s, s', t, formed, renamed, ran, same => by
    simp only [stmt, run_bind_ok, run_pure_ok] at ran
    obtain ⟨_, _, ranCondition, _, _, ranBody, rfl, rfl⟩ := ran
    obtain ⟨body'', rfl, bodies⟩ := same
    refine (expr_renamed context condition formed.1 renamed ranCondition).bind fun _ renamed₁ => ?_
    exact (stmt_renamed _ body formed.2.2 renamed₁ ranBody bodies).bind fun _ renamed₂ =>
      .pure renamed₂
  | .funDecl decl, marks, _, _, s, s', t, formed, renamed, ran, same => by
    simp only [stmt, run_bind_ok, run_pure_ok] at ran
    obtain ⟨_, s₁, declared, _, s₂, defined, _, _, ran, rfl, rfl⟩ := ran
    obtain ⟨decl'', rfl, keeps, decls⟩ := same
    rw [(function_effect _ _ _ ran).1] at keeps
    have fresh := formed.name.2.fresh
    have called : decl''.name.lexeme = ρ.perm (marks.headD false) decl.name.lexeme := by
      rw [decls.same.1, (function_effect _ _ _ ran).1, keeps.perm fresh]
    refine (declare_renamed fresh called renamed declared).bind fun _ renamed₁ => ?_
    refine (define_renamed fresh called renamed₁ defined).bind fun _ renamed₂ => ?_
    exact (function_renamed context .function decl formed renamed₂ ran decls).bind
      fun _ renamed₃ => .pure renamed₃
  | .classDecl name none members, marks, _, _, s, s', t, formed, renamed, ran, same => by
    simp only [stmt, run_bind_ok, run_pure_ok] at ran
    obtain ⟨_, s₁, declared, _, s₂, defined, _, _, ran, rfl, rfl⟩ := ran
    obtain ⟨members'', rfl, keeps, each⟩ := same
    have fresh := formed.2.1.fresh
    have called := (keeps.perm fresh).symm
    refine (declare_renamed fresh called renamed declared).bind fun _ renamed₁ => ?_
    refine (define_renamed fresh called renamed₁ defined).bind fun _ renamed₂ => ?_
    have inside := within_renamed ran fun s₃ ranInside =>
      methods_renamed _ members formed.2.2 (renamed₂.opened_keyword Renaming.this_ne_new) ranInside each
    exact inside.bind fun _ renamed₃ => .pure renamed₃
  | .classDecl name (some parent) members, marks, _, _, s, s', t, formed, renamed, ran, same => by
    simp only [stmt, run_bind_ok, run_pure_ok] at ran
    obtain ⟨_, s₁, declared, _, s₂, defined, _, s₃, ranParent, _, _, ran, rfl, rfl⟩ := ran
    obtain ⟨members'', rfl, keeps, each⟩ := same
    have fresh := formed.2.1.fresh
    have called := (keeps.perm fresh).symm
    refine (declare_renamed fresh called renamed declared).bind fun _ renamed₁ => ?_
    refine (define_renamed fresh called renamed₁ defined).bind fun _ renamed₂ => ?_
    refine (superclass_renamed formed.2.2.1 fresh renamed₂ ranParent).bind fun _ renamed₃ => ?_
    -- the scope of `this` stands in that of `super`, and nothing is renamed in either
    have inside := within_renamed ran fun s₄ ranOuter => within_renamed ranOuter fun s₅ ranInner =>
      methods_renamed _ members formed.2.2.2
        ((renamed₃.opened_keyword Renaming.super_ne_new).opened_keyword Renaming.this_ne_new) ranInner each
    exact inside.bind fun _ renamed₄ => .pure renamed₄
  | .ret keyword value, marks, _, _, s, s', t, formed, renamed, ran, same => by
    simp only [stmt, run_bind_ok, run_pure_ok] at ran
    obtain ⟨_, _, atTop, _, _, fromInit, value', _, ran, rfl, rfl⟩ := ran
    cases same
    have given : (value'.map (Expr.rename ρ marks)).isSome = value.isSome := by
      rw [Option.isSome_map, isSome_expr? ran]
    refine (reportIf_renamed (fun no => no) renamed atTop).bind fun _ renamed₁ => ?_
    refine (reportIf_renamed (fun no => ?_) renamed₁ fromInit).bind fun _ renamed₂ => ?_
    · rw [given]
      exact no
    · exact (expr?_renamed formed.2.2 renamed₂ ran).bind fun _ renamed₃ => .pure renamed₃
  | .brk keyword, marks, _, _, s, s', t, formed, renamed, ran, same
  | .cont keyword, marks, _, _, s, s', t, formed, renamed, ran, same => by
    simp only [stmt, run_bind_ok, run_pure_ok] at ran
    obtain ⟨_, _, reported, rfl, rfl⟩ := ran
    cases same
    exact (reportIf_renamed (fun no => no) renamed reported).bind fun _ renamed' => .pure renamed'
  | .bare e, _, _, _, s, s', t, formed, _, _, _ => formed.elim
  | .misfit what, _, _, _, s, s', t, formed, _, _, _ => formed.elim
termination_by structural st => st

/-- A list of renamed statements resolves to itself, from the first to the last in one scope. -/
theorem stmts_renamed (context : Context) :
    ∀ (sts : List Stmt) {marks : List Bool} {sts' sts'' : List Stmt} {s s' t : State},
      Stmt.AllFormed ρ.Fits sts → s.Renamed ρ marks t → (stmts context sts).run s = .ok sts' s' →
      Stmt.AllRenamed ρ marks sts' sts'' → Mirrors ρ marks (stmts context sts'') t sts'' s'
  | [], _, _, _, s, s', t, _, renamed, ran, same => by
    cases ran
    cases same
    exact .pure renamed
  | st :: rest, _, _, _, s, s', t, formed, renamed, ran, same => by
    simp only [stmts, run_bind_ok, run_pure_ok] at ran
    obtain ⟨_, _, ranFirst, _, _, ranRest, rfl, rfl⟩ := ran
    obtain ⟨st'', rest'', rfl, first, others⟩ := same
    refine (stmt_renamed context st formed.1 renamed ranFirst first).bind fun _ renamed₁ => ?_
    exact (stmts_renamed context rest formed.2 renamed₁ ranRest others).bind fun _ renamed₂ =>
      .pure renamed₂
termination_by structural sts => sts

/-- A renamed function resolves to itself, in a scope that may be the marked one: then its
parameters are renamed by that mark. -/
theorem function_renamed (context : Context) (kind : FunctionKind) :
    ∀ (decl : FunDecl) {marks : List Bool} {decl' decl'' : FunDecl} {s s' t : State},
      decl.Formed ρ.Fits → s.Renamed ρ marks t →
      (function context kind decl).run s = .ok decl' s' → decl'.Renamed ρ marks decl'' →
        Mirrors ρ marks (function context kind decl'') t decl'' s'
  | ⟨name, params, body⟩, marks, _, _, s, s', t, formed, renamed, ran, same => by
    simp only [function, run_bind_ok, run_pure_ok] at ran
    obtain ⟨_, _, ran, rfl, rfl⟩ := ran
    obtain ⟨here, body'', rfl, bodies⟩ := same
    have fit : ∀ param ∈ params, param.lexeme ≠ ρ.new :=
      fun param mem => (formed.2.2.1 param mem).2.fresh
    have inside : Mirrors ρ marks (within [] (do
        declareAll (params.map (ρ.token here))
        stmts { context with function := some kind, inLoop := false } body'')) t body'' _ :=
      within_renamed ran fun s₁ ranInside => by
        obtain ⟨_, s₂, declared, ranBody⟩ := run_bind_ok.mp ranInside
        exact (declareAll_renamed fit (renamed.opened here) declared).bind fun _ renamed₁ =>
          stmts_renamed _ body formed.2.2.2 renamed₁ ranBody bodies
    exact inside.bind fun _ renamed' => .pure renamed'
termination_by structural decl => decl

/-- Renamed methods resolve to themselves.  Their kind depends on their name, which is kept. -/
theorem methods_renamed (context : Context) :
    ∀ (decls : List FunDecl) {marks : List Bool} {decls' decls'' : List FunDecl} {s s' t : State},
      FunDecl.AllFormed ρ.Fits decls → s.Renamed ρ marks t →
      (methods context decls).run s = .ok decls' s' → FunDecl.AllRenamed ρ marks decls' decls'' →
        Mirrors ρ marks (methods context decls'') t decls'' s'
  | [], _, _, _, s, s', t, _, renamed, ran, same => by
    cases ran
    cases same
    exact .pure renamed
  | decl :: rest, _, _, _, s, s', t, formed, renamed, ran, same => by
    simp only [methods, run_bind_ok, run_pure_ok] at ran
    obtain ⟨decl', _, ranFirst, _, _, ranRest, rfl, rfl⟩ := ran
    obtain ⟨decl'', rest'', rfl, first, others⟩ := same
    have name : decl''.name = decl.name :=
      first.same.1.trans (function_effect _ _ _ ranFirst).1
    have firstMirrors := function_renamed context _ decl formed.1 renamed ranFirst first
    rw [← name] at firstMirrors
    refine firstMirrors.bind fun _ renamed₁ => ?_
    exact (methods_renamed context rest formed.2 renamed₁ ranRest others).bind fun _ renamed₂ =>
      .pure renamed₂
termination_by structural decls => decls

end

end Scope
end Arbor
