/-!
# Bindings

A finite map from names to values that remembers the order in which names first came in.
Binding a name again changes its value and moves nothing.

## Main statements

* `Bindings.get?_put_self`, `Bindings.get?_put_of_ne`: what a lookup finds after `put`.
* `Bindings.names_put`: the names after `put`.
-/

namespace Arbor

/-- Names and their values, in the order in which the names first came in. -/
structure Bindings (α : Type) where
  entries : List (String × α) := []

namespace Bindings

variable {α : Type}

/-- No bindings. -/
def empty : Bindings α := ⟨[]⟩

instance : Inhabited (Bindings α) := ⟨empty⟩

/-- The value of the first entry for a name. -/
def find? (name : String) : List (String × α) → Option α
  | [] => none
  | (key, value) :: rest => if key = name then some value else find? name rest

/-- The entries with the value of a name replaced, or with the name added at the end. -/
def replace (name : String) (value : α) : List (String × α) → List (String × α)
  | [] => [(name, value)]
  | (key, old) :: rest =>
    if key = name then (key, value) :: rest else (key, old) :: replace name value rest

/-- The value bound to a name. -/
def get? (b : Bindings α) (name : String) : Option α :=
  find? name b.entries

/-- Whether a name is bound. -/
def contains (b : Bindings α) (name : String) : Bool :=
  (b.get? name).isSome

/-- Binds a name to a value. -/
def put (b : Bindings α) (name : String) (value : α) : Bindings α :=
  ⟨replace name value b.entries⟩

/-- The bound names. -/
def names (b : Bindings α) : List String :=
  b.entries.map Prod.fst

/-- The bindings in the order of their names. -/
def sorted (b : Bindings α) : List (String × α) :=
  b.entries.mergeSort fun x y => decide (x.1 ≤ y.1)

/-! ### Lookups -/

@[simp] theorem get?_empty (name : String) : (empty : Bindings α).get? name = none :=
  rfl

@[simp] theorem get?_mk_nil (name : String) : (⟨[]⟩ : Bindings α).get? name = none :=
  rfl

/-- After a binding its name is found, with the new value. -/
theorem find?_replace_self (name : String) (value : α) (entries : List (String × α)) :
    find? name (replace name value entries) = some value := by
  induction entries with
  | nil => simp [replace, find?]
  | cons entry rest ih =>
    obtain ⟨key, old⟩ := entry
    by_cases h : key = name <;> simp [replace, find?, h, ih]

/-- All other names are found as before.  An entry that is replaced keeps its place and its name,
and a new one is behind all others. -/
theorem find?_replace_of_ne {name other : String} (ne : other ≠ name) (value : α)
    (entries : List (String × α)) :
    find? other (replace name value entries) = find? other entries := by
  induction entries with
  | nil => simp [replace, find?, Ne.symm ne]
  | cons entry rest ih =>
    obtain ⟨key, old⟩ := entry
    by_cases h : key = name
    · subst h
      simp [replace, find?, Ne.symm ne]
    · by_cases h' : key = other
      · subst h'
        simp [replace, find?, h]
      · simp [replace, find?, h, h', ih]

@[simp] theorem get?_put_self (b : Bindings α) (name : String) (value : α) :
    (b.put name value).get? name = some value :=
  find?_replace_self name value b.entries

theorem get?_put_of_ne (b : Bindings α) {name other : String} (ne : other ≠ name) (value : α) :
    (b.put name value).get? other = b.get? other :=
  find?_replace_of_ne ne value b.entries

/-- A new name goes to the end, a bound name stays where it is.  So names are listed in the order in
which they were bound for the first time. -/
theorem names_put (b : Bindings α) (name : String) (value : α) :
    (b.put name value).names = if name ∈ b.names then b.names else b.names ++ [name] := by
  obtain ⟨entries⟩ := b
  simp only [put, names]
  induction entries with
  | nil => simp [replace]
  | cons entry rest ih =>
    obtain ⟨key, old⟩ := entry
    by_cases h : key = name
    · simp [replace, h]
    · have h' : ¬ name = key := fun e => h e.symm
      simp only [replace, h, if_false, List.map_cons, ih, List.mem_cons, h', false_or]
      by_cases mem : name ∈ rest.map Prod.fst <;> simp [mem]

/-- A name is contained if it is among the names, whatever is bound to it. -/
theorem contains_iff (b : Bindings α) {name : String} :
    b.contains name = true ↔ name ∈ b.names := by
  obtain ⟨entries⟩ := b
  unfold contains get? names
  induction entries with
  | nil => simp [find?]
  | cons entry rest ih =>
    obtain ⟨key, value⟩ := entry
    by_cases same : key = name
    · simp [find?, same]
    · have apart : ¬ name = key := fun e => same e.symm
      simp only [find?, if_neg same, List.map_cons, List.mem_cons, apart, false_or]
      exact ih

end Bindings
end Arbor
