import QueryPlan.Value

/-!
# Binding lists

A binding list pairs variables with values and keeps the order in which they were added. `add` and
`ofList?` refuse a variable that is bound already, so every list they build is `Distinct`. The type
itself does not carry that proof, because expressions hold binding lists of expressions.

Each operation is described through `entries`, the sequence of pairs.
-/

namespace QueryPlan

/-- The variable that would be bound twice. -/
structure DuplicateVariable where
  var : Var
deriving DecidableEq

/-- The refusal of a second binding as messages give it. -/
def DuplicateVariable.message (d : DuplicateVariable) : String :=
  "Duplicate variable " ++ d.var.text ++ " in variable-expression list"

/-- Variables paired with values, in the order of their bindings. -/
structure Bindings (α : Type) where
  entries : List (Var × α)

namespace Bindings

variable {α β : Type}

/-- The list that binds nothing. -/
def empty : Bindings α := ⟨[]⟩

/-- The default is the list that binds nothing. -/
instance : Inhabited (Bindings α) := ⟨empty⟩

/-- The bound variables, in binding order. -/
def vars (b : Bindings α) : List Var := b.entries.map (·.1)

/-- The values, in binding order. -/
def values (b : Bindings α) : List α := b.entries.map (·.2)

/-- The number of bindings. -/
def size (b : Bindings α) : Nat := b.entries.length

/-- Nothing is bound. -/
def isEmpty (b : Bindings α) : Bool := b.entries.isEmpty

/-- The value bound to a variable. -/
def get? (b : Bindings α) (v : Var) : Option α := b.entries.lookup v

/-- The variable is bound. -/
def contains (b : Bindings α) (v : Var) : Bool := b.vars.contains v

/-- One more binding at the end, unless the variable is bound already. -/
def add (b : Bindings α) (v : Var) (a : α) : Except DuplicateVariable (Bindings α) :=
  if b.contains v then .error ⟨v⟩ else .ok ⟨b.entries ++ [(v, a)]⟩

/-- The bindings of a list of pairs, added one after the other. -/
def ofList? (pairs : List (Var × α)) : Except DuplicateVariable (Bindings α) :=
  pairs.foldlM (fun b p => b.add p.1 p.2) empty

/-- The variables of a list, in their order, bound to new values. -/
def rebind (b : Bindings α) (values : List β) : Except DuplicateVariable (Bindings β) :=
  ofList? (b.vars.zip values)

/-- No variable is bound twice. -/
def Distinct (b : Bindings α) : Prop := b.vars.Nodup

/-- A variable is bound exactly if it is one of the variables of the list. -/
theorem contains_iff {b : Bindings α} {v : Var} : b.contains v = true ↔ v ∈ b.vars := by
  simp [contains]

/-- A new variable is appended, and nothing else changes. -/
theorem add_eq_ok_iff {b c : Bindings α} {v : Var} {a : α} :
    b.add v a = .ok c ↔ v ∉ b.vars ∧ c = ⟨b.entries ++ [(v, a)]⟩ := by
  unfold add
  by_cases h : v ∈ b.vars <;> simp [contains_iff, h, eq_comm (a := c)]

/-- A bound variable is refused by its name. -/
theorem add_eq_error_iff {b : Bindings α} {v : Var} {a : α} {d : DuplicateVariable} :
    b.add v a = .error d ↔ v ∈ b.vars ∧ d = ⟨v⟩ := by
  unfold add
  by_cases h : v ∈ b.vars <;> simp [contains_iff, h, eq_comm (a := d)]

/-- Adding keeps the variables distinct. -/
theorem Distinct.add {b c : Bindings α} {v : Var} {a : α} (h : b.Distinct)
    (e : b.add v a = .ok c) : c.Distinct := by
  obtain ⟨hv, rfl⟩ := add_eq_ok_iff.1 e
  simp only [Distinct, vars, List.map_append, List.map_cons, List.map_nil] at h hv ⊢
  rw [List.nodup_append]
  refine ⟨h, by simp, ?_⟩
  intro x hx y hy e
  simp only [List.mem_singleton] at hy
  exact hv (hy ▸ e ▸ hx)

/-- A value is smaller than the list that binds it. -/
theorem sizeOf_lt_of_mem_values [SizeOf α] {b : Bindings α} {a : α} (h : a ∈ b.values) :
    sizeOf a < sizeOf b := by
  obtain ⟨⟨v, a⟩, hp, rfl⟩ := List.mem_map.1 h
  have h1 := List.sizeOf_lt_of_mem hp
  have h2 : sizeOf (v, a) = 1 + sizeOf v + sizeOf a := rfl
  have h3 : sizeOf b = 1 + sizeOf b.entries := by cases b; rfl
  simp only
  omega

end Bindings

end QueryPlan
