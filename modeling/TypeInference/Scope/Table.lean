import TypeInference.Scope.Symbol

/-!
# `Scope.Table` — the names of one scope

A table lists names with their symbols in the order of their declaration. The first entry of a name counts;
`Scopes.insert` sees to it that there is no second one.

## Contents
* `Table`, `Table.find?` — tables and look-up;
* `Table.insert`, `Table.update` — a further name, and a change of the symbol of a name.
-/

namespace TypeInference

/-! ## Tables -/

/-- The names of a scope with their symbols, in the order of declaration. -/
abbrev Table := List (String × Symbol)

namespace Table

/-- The symbol of a name: that of its first entry, if the name should have several. -/
def find? (table : Table) (name : String) : Option Symbol := List.lookup name table

/-- Declares a further name, behind the others. That the name is new is for the caller to see to. -/
def insert (table : Table) (name : String) (symbol : Symbol) : Table := table ++ [(name, symbol)]

/-- Changes the symbol of a name; nothing happens if the name is not declared. -/
def update (table : Table) (name : String) (change : Symbol → Symbol) : Table :=
  table.map fun entry => if entry.1 = name then (entry.1, change entry.2) else entry

/-! ## Look-up -/

@[simp] theorem find?_nil (name : String) : find? [] name = none := rfl

/-- The first entry decides, if it is the name's; otherwise the rest of the table does. -/
theorem find?_cons (entry : String × Symbol) (table : Table) (name : String) :
    find? (entry :: table) name = if entry.1 = name then some entry.2 else find? table name := by
  obtain ⟨key, symbol⟩ := entry
  by_cases h : key = name
  · simp [find?, h]
  · simp [find?, List.lookup_cons, h, beq_eq_false_iff_ne.mpr (Ne.symm h)]

/-- The first of two tables decides, if it has the name. -/
theorem find?_append (table more : Table) (name : String) :
    (table ++ more).find? name = (table.find? name).or (more.find? name) :=
  List.lookup_append

/-- A name that is new is found after its declaration, and every other name is found as before. The name must be
    new: the entry is added at the end, where an earlier one would hide it. -/
theorem find?_insert {table : Table} {name : String} (symbol : Symbol) (other : String)
    (h : table.find? name = none) :
    (table.insert name symbol).find? other = if name = other then some symbol else table.find? other := by
  induction table with
  | nil => simp [insert, find?_cons]
  | cons entry table ih =>
    rw [find?_cons] at h
    split at h
    case isTrue => cases h
    case isFalse hne =>
      have tail := ih h
      simp only [insert, List.cons_append, find?_cons] at tail ⊢
      by_cases he : entry.1 = other
      · subst he
        simp [Ne.symm hne]
      · simp [he, tail]

/-- A change shows at its name and at no other; a name that is not in the table is not added to it. -/
theorem find?_update (table : Table) (name : String) (change : Symbol → Symbol) (other : String) :
    (table.update name change).find? other =
      if name = other then (table.find? other).map change else table.find? other := by
  induction table with
  | nil => simp [update]
  | cons entry table ih =>
    simp only [update, List.map_cons, find?_cons] at ih ⊢
    by_cases hn : entry.1 = name
    · by_cases ho : name = other <;> simp_all
    · by_cases he : entry.1 = other
      · subst he
        simp [hn, Ne.symm hn]
      · simp [hn, he, ih]

end Table

end TypeInference
