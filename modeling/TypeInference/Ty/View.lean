import TypeInference.Ty.Store

/-!
# `Ty.View` — types read through the bindings of their variables

A bound variable stands for what it is bound to. `root` follows the bindings to the node that a type stands
for, and `view` shows that node: an unbound variable, or a constructor with its components. Comparison and
the search for a variable go on into the components.

The walks below a type are bounded: a walk that ends never visits the same node, or the same pair of nodes,
twice on its way down, so a walk deeper than the number of nodes (`walkBound`), or of pairs of nodes
(`pairBound`), goes on for ever and is reported as a fault.

## Contents
* `root`, `view`, `View` — what a type stands for;
* `hasConstructor`, `operator?` — questions about the view;
* `same` — equality of the types that two numbers stand for;
* `occurs`, `isPinned` — whether a variable is part of a type, or of any type of a list.
-/

namespace TypeInference

/-- What a type stands for once bindings are followed. A view is never a bound variable, which is why comparison,
    unification and display look at views and not at nodes. -/
inductive View
  /-- The unbound variable of this number. -/
  | var (id : TypeId)
  /-- A constructor applied to components, standing at this number. -/
  | op (id : TypeId) (con : Constructor) (args : List TypeId)
  deriving DecidableEq, Repr

/-- The number at which a view stands: that of the variable, or that of the constructor's node. -/
def View.id : View → TypeId
  | .var id => id
  | .op id _ _ => id

/-- The constructor and the components, unless the view is a variable. -/
def View.operator? : View → Option (Constructor × List TypeId)
  | .var _ => none
  | .op _ con args => some (con, args)

namespace Store

/-- How deep a walk along single types can go that comes to an end: it would visit a node twice otherwise, and there
    are only so many nodes. -/
def walkBound (s : Store) : Nat := s.size + 1

/-- How deep a walk along pairs of types, or one that changes the store, can go that comes to an end. Unification
    adds no nodes, so the same bound serves while variables are being bound. -/
def pairBound (s : Store) : Nat := (s.size + 1) * (s.size + 1) * (s.size + 1)

theorem size_lt_pairBound (s : Store) : s.size < s.pairBound :=
  calc s.size < s.size + 1 := Nat.lt_succ_self _
    _ ≤ (s.size + 1) * (s.size + 1) := Nat.le_mul_self _
    _ ≤ s.pairBound := Nat.le_mul_of_pos_right _ (Nat.succ_pos _)

/-! ## Following bindings -/

/-- Whether a type is a variable, bound or not; what it is bound to is not looked at. -/
def isVar (s : Store) (id : TypeId) : Except Fault Bool := do
  match ← s.get id with
  | .var _ => pure true
  | .op _ _ => pure false

/-- What a type is bound to, if it is a bound variable. The answer may be a bound variable itself. -/
def binding? (s : Store) (id : TypeId) : Except Fault (Option TypeId) := do
  match ← s.get id with
  | .var target => pure target
  | .op _ _ => pure none

/-- Follows at most `fuel` bindings, to the first type that is not bound. Running out of steps means that the
    bindings run in a circle. -/
def rootWithin (s : Store) : Nat → TypeId → Except Fault TypeId
  | 0, _ => .error .endlessWalk
  | fuel + 1, id => do
    match ← s.binding? id with
    | some target => s.rootWithin fuel target
    | none => pure id

/-- The unbound variable or constructor that a type stands for, at the end of its bindings. -/
def root (s : Store) (id : TypeId) : Except Fault TypeId := s.rootWithin s.walkBound id

/-- What a type stands for: the unbound variable or the constructor at the end of its bindings, with the number at
    which it stands. -/
def view (s : Store) (id : TypeId) : Except Fault View := do
  let root ← s.root id
  match ← s.get root with
  | .var _ => pure (.var root)
  | .op con args => pure (.op root con args)

/-- The constructor and the components of a type, unless it stands for a variable, in which case there is nothing to
    know about it yet. -/
def operator? (s : Store) (id : TypeId) : Except Fault (Option (Constructor × List TypeId)) :=
  View.operator? <$> s.view id

/-- Whether a type stands for the constructor `con`, applied to anything. -/
def hasConstructor (s : Store) (con : Constructor) (id : TypeId) : Except Fault Bool := do
  match ← s.view id with
  | .var _ => pure false
  | .op _ found _ => pure (found = con)

/-! ## Equality -/

/-- `same` on types whose walk ends within `fuel` steps; each step goes from a pair of types to pairs of components. -/
def sameWithin (s : Store) : Nat → TypeId → TypeId → Except Fault Bool
  | 0, _, _ => .error .endlessWalk
  | fuel + 1, a, b => do
    match ← s.view a, ← s.view b with
    | .var x, .var y => pure (x = y)
    | .op _ con args, .op _ con' args' =>
      if con = con' ∧ args.length = args'.length then
        (args.zip args').allM fun pair => s.sameWithin fuel pair.1 pair.2
      else
        pure false
    | _, _ => pure false

/-- Whether two types are equal through the bindings: the same variable, or equal constructors with as many
    components, pairwise equal. -/
def same (s : Store) (a b : TypeId) : Except Fault Bool := s.sameWithin s.pairBound a b

/-! ## Occurrence -/

/-- `occurs` on types whose walk ends within `fuel` steps; each step goes from a type to its components. -/
def occursWithin (s : Store) (var : TypeId) : Nat → TypeId → Except Fault Bool
  | 0, _ => .error .endlessWalk
  | fuel + 1, ty => do
    match ← s.view ty with
    | .var id => pure (id = var)
    | .op _ _ args => args.anyM (s.occursWithin var fuel)

/-- Whether the unbound variable `var` is `ty`, or is part of it behind any bindings. -/
def occurs (s : Store) (var ty : TypeId) : Except Fault Bool := s.occursWithin var s.walkBound ty

/-- Whether the unbound variable `var` is part of any of the types `pinned`. -/
def isPinned (s : Store) (pinned : List TypeId) (var : TypeId) : Except Fault Bool :=
  pinned.anyM (s.occurs var)

end Store

end TypeInference
