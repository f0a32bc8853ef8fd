import Arbor.Proofs.Scope.Orderly

/-!
# Inside a class with a superclass

Around a place in a method of a class with a superclass there are, from inside to outside, the
scopes of blocks and of functions nested in the method, which hold no keyword, then the scope that
holds `this`, and right around it the one that holds `super`.  So both keywords belong to the same
class, and `super` is one scope further away than `this`.

## Main definitions

* `Derived`: scopes around a place in a method of a class with a superclass.

## Main statements

* `Derived.distances`: how far away `this` and `super` are there.
* `Visits.enclosed`: a resolution that is in such a class has those scopes around it.
-/

namespace Arbor
namespace Scope

/-- Scopes, with their sites, around a place in a method of a class with a superclass: those of the
class, and inside them some that hold no keyword. -/
inductive Derived : List Site → List (Bindings Bool) → Prop
  | method {decl : FunDecl} {name : Token} {methods : List FunDecl} {sites : List Site}
      {this super : Bindings Bool} {scopes : List (Bindings Bool)} (mem : decl ∈ methods)
      (holds : this.contains "this" = true) (lacks : this.contains "super" = false)
      (holdsSuper : super.contains "super" = true) :
      Derived (.receiver decl :: .parent name methods :: sites) (this :: super :: scopes)
  | inner {site : Site} {sites : List Site} {scope : Bindings Bool} {scopes : List (Bindings Bool)}
      (lacks : ∀ keyword, ¬ Plain keyword → scope.contains keyword = false)
      (rest : Derived sites scopes) : Derived (site :: sites) (scope :: scopes)

namespace Derived

variable {site : Site} {sites : List Site} {scope scope' : Bindings Bool}
variable {scopes : List (Bindings Bool)}

theorem distance?_cons_of_holds {name : String} (holds : scope.contains name = true)
    (scopes : List (Bindings Bool)) :
    distance? (scope :: scopes) name = some 0 := by
  rw [distance?, List.findIdx?_cons, if_pos holds]

theorem distance?_cons_of_lacks {name : String} {d : Nat} (lacks : scope.contains name = false)
    (found : distance? scopes name = some d) : distance? (scope :: scopes) name = some (d + 1) := by
  unfold distance? at found ⊢
  rw [List.findIdx?_cons, lacks, found]
  rfl

/-- `this` belongs to a method around the place, and `super`, one scope further away, to the class
that has this method. -/
theorem distances (derived : Derived sites scopes) :
    ∃ d decl name methods, distance? scopes "this" = some d ∧
      distance? scopes "super" = some (d + 1) ∧ sites[d]? = some (.receiver decl) ∧
      sites[d + 1]? = some (.parent name methods) ∧ decl ∈ methods := by
  induction derived with
  | @method decl name methods _ _ _ scopes mem holds lacks holdsSuper =>
    have outside := distance?_cons_of_lacks lacks (distance?_cons_of_holds holdsSuper scopes)
    exact ⟨0, decl, name, methods, distance?_cons_of_holds holds _, outside, rfl, rfl, mem⟩
  | inner lacks _ ih =>
    obtain ⟨d, decl, name, methods, this, super, receiver, parent, mem⟩ := ih
    have this := distance?_cons_of_lacks (lacks _ not_plain_this) this
    have super := distance?_cons_of_lacks (lacks _ not_plain_super) super
    exact ⟨d + 1, decl, name, methods, this, super, receiver, parent, mem⟩

/-- Only the keywords of the innermost scope matter.  Names that are introduced there are no
keywords, so that they do not hide that the scopes are those of a class with a superclass. -/
theorem congr_head (derived : Derived sites (scope :: scopes))
    (same : ∀ keyword, ¬ Plain keyword → scope'.contains keyword = scope.contains keyword) :
    Derived sites (scope' :: scopes) := by
  cases derived with
  | method mem holds lacks holdsSuper =>
    rw [← same _ not_plain_this] at holds
    rw [← same _ not_plain_super] at lacks
    exact .method mem holds lacks holdsSuper
  | inner lacks rest =>
    exact .inner (fun keyword notPlain => (same keyword notPlain).trans (lacks keyword notPlain)) rest

theorem introduce {names : List String} (derived : Derived sites scopes)
    (plain : ∀ name ∈ names, Plain name) : Derived sites (introduce names scopes) := by
  cases scopes with
  | nil => exact derived
  | cons scope outer =>
    refine derived.congr_head fun keyword notPlain => contains_foldl_introduced fun mem => ?_
    exact notPlain (plain keyword mem)

theorem marked {name : String} (derived : Derived sites scopes) (plain : Plain name) :
    Derived sites (marked false name scopes) := by
  cases scopes with
  | nil => exact derived
  | cons scope outer =>
    exact derived.congr_head fun keyword notPlain => Ajar.contains_marked plain notPlain scope

/-- A new empty scope is one of a block or a function. -/
theorem opened {s : State} (derived : Derived sites s.scopes) :
    Derived (site :: sites) (s.opened []).scopes :=
  .inner (fun _ _ => rfl) derived

/-- The scopes of a class with a superclass. -/
theorem ofClass {decl : FunDecl} {name : Token} {methods : List FunDecl} (s : State)
    (mem : decl ∈ methods) :
    Derived (.receiver decl :: .parent name methods :: sites)
      ((s.opened ["super"]).opened ["this"]).scopes :=
  .method mem (by decide) (by decide) (by decide)

theorem after {s s' : State} (derived : Derived sites s.scopes) (effect : Effect id s s') :
    Derived sites s'.scopes := by
  rw [effect.scopes]
  exact derived

theorem afterName {name : Token} {s s' : State} (derived : Derived sites s.scopes)
    (identifier : name.kind = .identifier) (spelled : name.Spelled)
    (ran : (do declare name; define name).run s = .ok () s') : Derived sites s'.scopes := by
  rw [(declare_define_effect ran).scopes]
  refine derived.introduce fun other mem => ?_
  rw [List.mem_singleton.mp mem]
  exact plain_of_spelled identifier spelled

end Derived

/-! ### Along a resolution -/

/-- Nothing is wrong with `super` only in a class with a superclass. -/
theorem inClass_of_superError? {context : Context} (fine : superError? context = none) :
    context.inClass = some .derived := by
  unfold superError? at fine
  split at fine
  · cases fine
  · cases fine
  · assumption

/-- What the resolver knows about where its task is. -/
def Task.context : Task → Context
  | .expr context _ => context
  | .stmt context _ => context
  | .stmts context _ => context
  | .function context _ _ => context

/-- A visit in a class with a superclass is inside the scopes of the class, unless it is to the name
of the superclass. -/
def Visit.Enclosed (v : Visit) : Prop :=
  v.task.context.inClass = some .derived →
    (∃ context name hops, v.task = .expr context (.var name hops)) ∨ Derived v.sites v.state.scopes

/-- A name has no parts. -/
theorem Leads.derived {v v' : Visit} (leads : Leads v v') (enclosed : v.Enclosed)
    (inClass : v.task.context.inClass = some .derived) : Derived v.sites v.state.scopes := by
  rcases enclosed inClass with ⟨context, name, hops, var⟩ | derived
  · obtain ⟨sites, s, task⟩ := v
    cases var
    cases leads
  · exact derived

/-- A method of a class is resolved to one of the resolved methods.  Resolving is deterministic, so
the methods in front of it leave the state in which it is resolved. -/
theorem mem_of_run_methods {context : Context} {decl decl' : FunDecl} {after : List FunDecl}
    {s₁ s₂ : State} (ran : (function context (methodKind decl.name) decl).run s₁ = .ok decl' s₂) :
    ∀ {before before' members : List FunDecl} {s s' : State},
      (methods context (before ++ decl :: after)).run s = .ok members s' →
      (methods context before).run s = .ok before' s₁ → decl' ∈ members
  | [], _, _, s, s', all, ranBefore => by
    cases ranBefore
    simp only [List.nil_append, methods, Stateful.run_bind_ok, Stateful.run_pure_ok] at all
    obtain ⟨_, _, ranFirst, _, _, -, rfl, -⟩ := all
    cases ran.symm.trans ranFirst
    exact List.mem_cons_self
  | other :: before, _, _, s, s', all, ranBefore => by
    simp only [List.cons_append, methods, Stateful.run_bind_ok, Stateful.run_pure_ok]
      at all ranBefore
    obtain ⟨_, _, ranFirst, _, _, ranRest, rfl, -⟩ := all
    obtain ⟨_, _, ranFirst', _, _, ranRest', -, rfl⟩ := ranBefore
    cases ranFirst.symm.trans ranFirst'
    exact List.mem_cons_of_mem _ (mem_of_run_methods ran ranRest ranRest')

/-- One step of a resolution keeps to the scopes of a class with a superclass.  A step into a new
scope opens one inside, and parts that are resolved in between introduce plain names only. -/
theorem Leads.enclosed {v v' : Visit} (leads : Leads v v') (regular : v.Regular)
    (enclosed : v.Enclosed) : v'.Enclosed := by
  intro inClass
  have derived := leads.derived enclosed
  cases leads with
  | grouping | assigned | operand | left | logicalLeft | callee | object | fieldValue | expression
  | printed | bare | condition | loopCondition => exact .inr (derived inClass)
  | right ran | logicalRight ran | fieldObject ran | thenBranch ran | loopBody ran =>
    exact .inr ((derived inClass).after (expr_effect _ _ ran))
  | argument ran ranBefore =>
    exact .inr ((derived inClass).after ((expr_effect _ _ ran).trans (exprs_effect _ _ ranBefore)))
  | returned atTop fromInit =>
    exact .inr ((derived inClass).after ((reportIf_effect atTop).trans (reportIf_effect fromInit)))
  | initializer declared =>
    obtain ⟨⟨identifier, spelled, -⟩, -⟩ := regular
    have plain := plain_of_spelled identifier spelled
    refine .inr ?_
    rw [(declare_effect declared).scopes]
    exact (derived inClass).marked plain
  | block => exact .inr (derived inClass).opened
  | @elseBranch _ _ _ _ _ thenBranch _ _ _ _ ran ranThen =>
    obtain ⟨formed, -⟩ := regular
    refine .inr ?_
    rw [(stmt_effect _ thenBranch ranThen).2.scopes]
    exact ((derived inClass).after (expr_effect _ _ ran)).introduce
      (plain_of_mem_introduces formed.2.2.1)
  | function named =>
    obtain ⟨formed, -⟩ := regular
    exact .inr ((derived inClass).afterName formed.name.1 formed.name.2 named)
  | superclass named other =>
    -- the exception: it is resolved outside of the class
    obtain ⟨⟨-, -, ⟨-, -, hops, var⟩, -⟩, -⟩ := regular
    exact .inl ⟨_, _, hops, congrArg _ var⟩
  | method => cases inClass
  | inheritingMethod split named ranParent ranAll ranBefore ran =>
    subst split
    have mem := mem_of_run_methods ran ranAll ranBefore
    exact .inr ((Derived.ofClass _ mem).after (methods_effect _ _ ranBefore))
  | @element _ _ _ before _ _ _ _ ran =>
    obtain ⟨formed, -⟩ := regular
    have each := Stmt.allFormed_iff.mp formed
    have formedBefore := Stmt.allFormed_iff.mpr fun st mem => each st (List.mem_append_left _ mem)
    refine .inr ?_
    rw [(stmts_effect _ before ran).2.scopes]
    exact (derived inClass).introduce (plain_of_mem_introducedBy formedBefore)
  | body declared =>
    obtain ⟨⟨-, -, formedParams, -⟩, -⟩ := regular
    refine .inr ?_
    rw [(declareAll_effect declared).scopes]
    refine (derived inClass).opened.introduce fun name named => ?_
    obtain ⟨param, mem, rfl⟩ := List.mem_map.mp named
    exact plain_of_spelled (formedParams param mem).1 (formedParams param mem).2

/-- The resolution of a well-formed program without a report keeps to the scopes of the classes it
comes to. -/
theorem Visits.enclosed {globals : List String} {p : Program} {v : Visit} {body' : List Stmt}
    {s' : State} (formed : Stmt.AllFormed Token.Spelled p.body)
    (yields : Yields (stmts {} p.body) (.initial globals) body' s') (visits : Visits globals p v) :
    v.Enclosed := by
  induction visits with
  | start => exact fun inClass => nomatch inClass
  | step before leads ih => exact leads.enclosed (before.regular formed yields) ih

end Scope
end Arbor
