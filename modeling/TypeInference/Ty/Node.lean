/-!
# `Ty.Node` — what a store of types holds

Types are nodes of a store, named by their number. A node is a variable, bound to another type or not, or a
type constructor applied to components.

Numbers of types are natural numbers here, where a machine keeps them in words of 32 bits. They are made by counting
the nodes of a store (`Store.allocate`) and are otherwise only compared, so the two agree for as long as a store has
fewer than 2^32 nodes, and what is proved about stores holds of the machine's stores up to that size.

## Contents
* `TypeId` — the number of a node, and the four numbers that every store gives to the primitive types;
* `Constructor` — type constructors and their text;
* `Node` — variables and applied constructors.
-/

namespace TypeInference

/-! ## Numbers of types -/

/-- The number of a type in its store: a word of 32 bits, and a natural number here (see above). -/
structure TypeId where
  index : Nat
  deriving DecidableEq, Repr

namespace TypeId

/-- The type of numbers is the first node of every store. -/
def number : TypeId := ⟨0⟩

/-- The type of truth values is the second node of every store. -/
def bool : TypeId := ⟨1⟩

/-- The type of strings is the third node of every store. -/
def string : TypeId := ⟨2⟩

/-- The type of statements without a value is the fourth node of every store. -/
def unit : TypeId := ⟨3⟩

end TypeId

/-! ## Constructors and nodes -/

/-- The name of a type constructor. Two types have the same constructor if and only if the names are equal, so the
    arity of a tuple is part of its name, and of a type that the program declares nothing is known but the name that
    was written. -/
inductive Constructor
  | number
  | bool
  | string
  | unit
  | list
  | map
  /-- Tuples; how many components there are is part of the name. -/
  | tuple (arity : Nat)
  /-- Functions; the components are the parameters, then the result. -/
  | function
  /-- A blueprint, struct, enum or trait of the program. -/
  | named (name : String)
  deriving DecidableEq, Repr

/-- The text of a constructor standing alone. Types with components are displayed by `Constructor.display`, which
    uses it for the primitive types and for declared ones only. -/
def Constructor.text : Constructor → String
  | .number => "Number"
  | .bool => "Bool"
  | .string => "String"
  | .unit => "Unit"
  | .list => "List"
  | .map => "Map"
  | .tuple arity => "Tuple#" ++ toString arity
  | .function => "Fn"
  | .named name => name

/-- A node of a store. Nodes refer to other nodes by number only, so a type can be shared, and binding a variable is
    seen wherever the variable is part of a type. -/
inductive Node
  /-- A variable, and the type it is bound to, if any. -/
  | var (binding : Option TypeId)
  /-- A constructor applied to components. -/
  | op (con : Constructor) (args : List TypeId)
  deriving DecidableEq, Repr

end TypeInference
