import TypeInference.Fault

/-!
# `Ty.Store` — the store of types

A store is a growing row of nodes together with its *trail*: the variables bound since the trail was last
dropped, newest first. Nodes are added at the end, so a type keeps its number for as long as it lives; the
only other change is that an unbound variable becomes bound. The number of a new node is the number of nodes so far,
which fits the 32 bits of a type's number as long as there are fewer than 2^32 nodes (`Ty.Node`).

## Contents
* `Store`, `Store.initial` — stores, and the one that holds just the primitive types;
* `Store.get` — the node of a number;
* `Store.allocate` and the constructors of types built on it;
* `Store.bind` — the binding of a variable, noted on the trail.
-/

namespace TypeInference

/-! ## Rows of nodes -/

/-- A row of nodes, and the variables bound so far, newest first. The trail is what `Store.rollback` needs to go
    back to an earlier row: nodes added since are cut off, and variables bound since are unbound. -/
structure Store where
  nodes : Array Node
  trail : List TypeId
  deriving DecidableEq, Repr

namespace Store

/-- The store that holds the four primitive types, at the numbers that `TypeId` gives them. -/
def initial : Store where
  nodes := #[.op .number [], .op .bool [], .op .string [], .op .unit []]
  trail := []

/-- How many types there are. It is also the number that the next type gets. -/
def size (s : Store) : Nat := s.nodes.size

/-- The node of a number; a number beyond the row is a fault, for numbers are only handed out for nodes that exist. -/
def get (s : Store) (id : TypeId) : Except Fault Node :=
  match s.nodes[id.index]? with
  | some node => .ok node
  | none => .error (.danglingType id)

/-- A number has a node exactly when it is below the size, and then it is the node at that place of the row. -/
theorem get_eq_ok_iff {s : Store} {id : TypeId} {node : Node} :
    s.get id = .ok node ↔ s.nodes[id.index]? = some node := by
  unfold get
  split <;> simp_all

/-! ## New types -/

/-- Adds a node at the end, under the number that is the size so far. -/
def allocate (s : Store) (node : Node) : TypeId × Store :=
  (⟨s.nodes.size⟩, { s with nodes := s.nodes.push node })

@[simp] theorem allocate_fst (s : Store) (node : Node) : (s.allocate node).1 = ⟨s.size⟩ := rfl

@[simp] theorem size_allocate (s : Store) (node : Node) : (s.allocate node).2.size = s.size + 1 := by
  simp [allocate, size]

@[simp] theorem trail_allocate (s : Store) (node : Node) : (s.allocate node).2.trail = s.trail := rfl

/-- Adding a node leaves the nodes that are there alone: types keep their numbers for as long as the store is not
    rolled back. -/
theorem get_allocate_of_lt {s : Store} {node : Node} {id : TypeId} (h : id.index < s.size) :
    (s.allocate node).2.get id = s.get id := by
  simp [get, allocate, Array.getElem?_push, Nat.ne_of_lt (show id.index < s.nodes.size from h)]

theorem get_allocate_self (s : Store) (node : Node) : (s.allocate node).2.get ⟨s.size⟩ = .ok node := by
  simp [get, allocate, size]

/-- A new unbound variable. It is a type of its own until it is bound, and no type that exists has it as a part. -/
def newVar (s : Store) : TypeId × Store := s.allocate (.var none)

/-- A constructor applied to components, as they are: a component that is a bound variable is kept, not replaced by
    what it is bound to. -/
def operator (con : Constructor) (args : List TypeId) (s : Store) : TypeId × Store :=
  s.allocate (.op con args)

/-- The type of the lists of an element type, made anew at every call. -/
def list (element : TypeId) (s : Store) : TypeId × Store := s.operator .list [element]

/-- The type of the maps from a key type to a value type, in this order. -/
def map (key value : TypeId) (s : Store) : TypeId × Store := s.operator .map [key, value]

/-- The type of the tuples of these components; how many there are is part of the constructor. -/
def tuple (elements : List TypeId) (s : Store) : TypeId × Store :=
  s.operator (.tuple elements.length) elements

/-- The type of the functions from these parameters to a result, which is kept as the last component. -/
def function (params : List TypeId) (result : TypeId) (s : Store) : TypeId × Store :=
  s.operator .function (params ++ [result])

/-- A type that the program declares under a name. The name is all that the constructor has, wherever it was
    declared. -/
def named (name : String) (args : List TypeId) (s : Store) : TypeId × Store :=
  s.operator (.named name) args

/-! ## Binding -/

/-- Binds an unbound variable and notes it on the trail. Binding a constructor, or a variable that is bound already,
    is misuse: callers follow bindings first (`Store.view`). -/
def bind (var target : TypeId) (s : Store) : Except Fault Store := do
  match ← s.get var with
  | .var none =>
    pure { nodes := s.nodes.setIfInBounds var.index (.var (some target)), trail := var :: s.trail }
  | _ => throw (.notBindable var)

/-- A binding succeeds exactly on an unbound variable, and this is what it leaves: one node has changed, and the
    trail has grown by the variable. -/
theorem bind_eq_ok_iff {s s' : Store} {var target : TypeId} :
    s.bind var target = .ok s' ↔
      s.get var = .ok (.var none) ∧
        s' = ⟨s.nodes.setIfInBounds var.index (.var (some target)), var :: s.trail⟩ := by
  unfold bind
  cases h : s.get var with
  | error f => simp [Bind.bind, Except.bind]
  | ok node =>
    cases node with
    | op con args => simp [Bind.bind, Except.bind, throw, throwThe, MonadExceptOf.throw]
    | var binding =>
      cases binding with
      | some found => simp [Bind.bind, Except.bind, throw, throwThe, MonadExceptOf.throw]
      | none => simp [Bind.bind, Except.bind, pure, Except.pure, eq_comm]

theorem size_of_bind {s s' : Store} {var target : TypeId} (h : s.bind var target = .ok s') :
    s'.size = s.size := by
  obtain ⟨_, rfl⟩ := bind_eq_ok_iff.mp h
  simp [size]

theorem get_of_bind_self {s s' : Store} {var target : TypeId} (h : s.bind var target = .ok s') :
    s'.get var = .ok (.var (some target)) := by
  obtain ⟨hvar, rfl⟩ := bind_eq_ok_iff.mp h
  obtain ⟨hlt, _⟩ := Array.getElem?_eq_some_iff.mp (get_eq_ok_iff.mp hvar)
  exact get_eq_ok_iff.mpr (by simp [hlt])

theorem get_of_bind_ne {s s' : Store} {var target id : TypeId} (h : s.bind var target = .ok s')
    (hne : id ≠ var) : s'.get id = s.get id := by
  obtain ⟨_, rfl⟩ := bind_eq_ok_iff.mp h
  have hindex : var.index ≠ id.index := fun he => hne (by cases id; cases var; simp_all)
  simp [get, hindex]

end Store

end TypeInference
