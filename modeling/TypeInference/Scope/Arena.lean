import TypeInference.Diagnostic
import TypeInference.Scope.Table

/-!
# `Scope.Arena` — scopes inside scopes

Scopes are numbered as they are opened, and each but the outermost knows the scope around it. A name means
the nearest declaration on the way out. An arena can go back to an earlier number of scopes, and one scope
can be kept with the names it had then. The number of a new scope is the number of scopes so far, which fits the 32
bits of a scope's number as long as there are fewer than 2^32 scopes (`Syntax.Mark`).

## Contents
* `Scope`, `Scopes` — one scope, and the arena of all;
* `openRoot`, `openChild` — new scopes;
* `getLocal`, `insert`, `update` — the names of one scope;
* `lookup`, `resolve` — the meaning of a name in a scope;
* `ScopeSnapshot`, `snapshot`, `rollback` — going back to earlier scopes.
-/

namespace TypeInference

/-! ## Scopes -/

/-- One scope: the scope around it, if any, and its names in the order of their declarations. -/
structure Scope where
  parent : Option ScopeId
  table : Table
  deriving DecidableEq, Repr

/-- The arena of scopes, in the order in which they were opened. Scopes are never closed: a scope that has been left
    stays in the arena, since nodes have recorded it. -/
structure Scopes where
  toArray : Array Scope
  deriving DecidableEq, Repr

namespace Scopes

/-- The arena without scopes, from which a session begins. -/
def empty : Scopes := ⟨#[]⟩

/-- How many scopes there are. It is also the number that the next scope gets. -/
def size (scopes : Scopes) : Nat := scopes.toArray.size

/-- The scope of a number; a number that no scope has is a fault. -/
def get (scopes : Scopes) (id : ScopeId) : Except Fault Scope :=
  match scopes.toArray[id.index]? with
  | some scope => .ok scope
  | none => .error (.danglingScope id)

/-- A number has a scope exactly when it is below the size, and then it is the scope at that place of the arena. -/
theorem get_eq_ok_iff {scopes : Scopes} {id : ScopeId} {scope : Scope} :
    scopes.get id = .ok scope ↔ scopes.toArray[id.index]? = some scope := by
  unfold get
  split <;> simp_all

/-! ## New scopes -/

/-- Adds a scope at the end, under the number that is the size so far. -/
def allocate (scopes : Scopes) (scope : Scope) : ScopeId × Scopes :=
  (⟨scopes.toArray.size⟩, ⟨scopes.toArray.push scope⟩)

/-- A new scope without a scope around it. A session opens one at its beginning, its global scope. -/
def openRoot (scopes : Scopes) : ScopeId × Scopes := scopes.allocate ⟨none, []⟩

/-- A new scope inside `parent`, with no names yet. That the parent exists is not asked; a parent that does not is
    met only by a look-up. -/
def openChild (parent : ScopeId) (scopes : Scopes) : ScopeId × Scopes := scopes.allocate ⟨some parent, []⟩

@[simp] theorem size_allocate (scopes : Scopes) (scope : Scope) :
    (scopes.allocate scope).2.size = scopes.size + 1 := by
  simp [allocate, size]

/-! ## The names of one scope -/

/-- The scope around a scope, which is absent for an outermost one. -/
def parent (scopes : Scopes) (id : ScopeId) : Except Fault (Option ScopeId) :=
  Scope.parent <$> scopes.get id

/-- The names that a scope itself has, without those of the scopes around it. -/
def table (scopes : Scopes) (id : ScopeId) : Except Fault Table :=
  Scope.table <$> scopes.get id

/-- The symbol that a scope itself has for a name; scopes around it are not asked. -/
def getLocal (scopes : Scopes) (id : ScopeId) (name : String) : Except Fault (Option Symbol) :=
  (Table.find? · name) <$> scopes.table id

/-- Changes the names of a scope, and neither its place nor any other scope. -/
def mapTable (id : ScopeId) (change : Table → Table) (scopes : Scopes) : Except Fault Scopes := do
  let scope ← scopes.get id
  pure ⟨scopes.toArray.setIfInBounds id.index { scope with table := change scope.table }⟩

/-- Declares a name in a scope, unless the scope itself has it. A name of a scope further out may be declared again:
    it is hidden from then on. -/
def insert (id : ScopeId) (name : String) (symbol : Symbol) (scopes : Scopes) :
    Except (Halt Diagnostic) Scopes := do
  match ← Halt.ofQuery (scopes.getLocal id name) with
  | some _ => throw (.failure ⟨.duplicate symbol.kind name, symbol.span⟩)
  | none => Halt.ofQuery (scopes.mapTable id (·.insert name symbol))

/-- Changes the symbol that a scope itself has for a name, if there is one. The look-up that found the symbol tells
    which scope that is. -/
def update (id : ScopeId) (name : String) (change : Symbol → Symbol) (scopes : Scopes) :
    Except Fault Scopes :=
  scopes.mapTable id (·.update name change)

/-! ## The meaning of a name -/

/-- `lookup` along at most `fuel` scopes. A way out that is longer than that is a fault, not a name that is missing. -/
def lookupWithin (scopes : Scopes) (name : String) :
    Nat → ScopeId → Except Fault (Option (ScopeId × Symbol))
  | 0, _ => .error .endlessWalk
  | fuel + 1, id => do
    let scope ← scopes.get id
    match scope.table.find? name with
    | some symbol => pure (some (id, symbol))
    | none =>
      match scope.parent with
      | some parent => scopes.lookupWithin name fuel parent
      | none => pure none

/-- The nearest declaration of a name, from a scope on the way out, with the scope that has it. A way out
    that ends visits no scope twice. -/
def lookup (scopes : Scopes) (id : ScopeId) (name : String) : Except Fault (Option (ScopeId × Symbol)) :=
  scopes.lookupWithin name (scopes.size + 1) id

/-- The meaning of a name that has to have one: a name that no scope around declares is refused where it is written. -/
def resolve (scopes : Scopes) (id : ScopeId) (name : Ident) : Except (Halt Diagnostic) (ScopeId × Symbol) := do
  match ← Halt.ofQuery (scopes.lookup id name.name) with
  | some found => pure found
  | none => throw (.failure ⟨.undefined name.name, name.span⟩)

end Scopes

/-! ## Going back -/

/-- The number of scopes at some time, and the names that the scope `kept` had then. A submission changes no other
    scope that was there before it, so this is enough to go back by. -/
structure ScopeSnapshot where
  size : Nat
  kept : ScopeId
  table : Table
  deriving DecidableEq, Repr

namespace Scopes

/-- Notes the present number of scopes and the names of one of them. -/
def snapshot (scopes : Scopes) (kept : ScopeId) : Except Fault ScopeSnapshot := do
  pure ⟨scopes.size, kept, ← scopes.table kept⟩

/-- Drops the scopes opened since a snapshot, and gives the kept scope, if it is still there, the names it had.
    Nothing can go wrong, for no number is looked up. -/
def rollback (snap : ScopeSnapshot) (scopes : Scopes) : Scopes :=
  ⟨(scopes.toArray.take snap.size).modify snap.kept.index ({ · with table := snap.table })⟩

end Scopes

end TypeInference
