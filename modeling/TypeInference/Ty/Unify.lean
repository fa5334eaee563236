import TypeInference.Ty.Display

/-!
# `Ty.Unify` — making two types equal

Unification binds variables until two types are equal, or finds the first place at which they clash. Two
constructors are compared first and their components are then unified from left to right; a variable is
bound to the other side, unless it is part of it. What was bound before a clash stays bound: the trail tells
what there is to undo.

## Contents
* `Clash` — why two types cannot be made equal;
* `UnifyM` — computations that bind variables and can clash;
* `Store.unify` — the unification of two types.
-/

namespace TypeInference

/-! ## Clashes -/

/-- Why two types cannot be made equal; the types are given by their texts, as they were when the clash was found.
    The texts are taken at once because a rollback may unbind what they show. -/
inductive Clash
  /-- Different constructors, or different numbers of components. -/
  | mismatch (left right : String)
  /-- A variable that would have to contain itself. -/
  | recursive (var ty : String)
  deriving DecidableEq, Repr

/-- The wording of a clash, with the two types as they were displayed when it came up. -/
def Clash.message : Clash → String
  | .mismatch left right => "type mismatch: " ++ left ++ " != " ++ right
  | .recursive var ty => "recursive unification: " ++ var ++ " occurs in " ++ ty

/-! ## Steps -/

/-- Computations that bind variables of a store and can clash; the store is kept in every case, so what was bound
    before a clash can be undone by whoever asked for it. -/
abbrev UnifyM := EStateM (Halt Clash) Store

namespace UnifyM

/-- Reads the store. What cannot be read is a fault, for which no clash is to blame. -/
def query {α : Type} (ask : Store → Except Fault α) : UnifyM α := fun s =>
  match ask s with
  | .ok a => .ok a s
  | .error f => .error (.fault f) s

/-- Binds a variable to a type, and notes the binding on the trail. -/
def assign (var target : TypeId) : UnifyM Unit := fun s =>
  match s.bind var target with
  | .ok s => .ok () s
  | .error f => .error (.fault f) s

/-- Stops with a clash that names two types by their texts, the left one first. The texts can only be missing if
    numbers are misused. -/
def clash {α : Type} (reason : String → String → Clash) (a b : TypeId) : UnifyM α := do
  let left ← query (·.display a)
  let right ← query (·.display b)
  throw (.failure (reason left right))

/-- Binds the unbound variable `var` to `target`, which is not bound itself; nothing happens if they are
    the same, and a type that contains the variable is refused. -/
def solve (var target : TypeId) : UnifyM Unit := do
  if var = target then
    pure ()
  else if ← query (·.occurs var target) then
    clash .recursive var target
  else
    assign var target

/-! ## The walk over both types -/

/-- `Store.unify` on types whose walk ends within `fuel` steps. Both sides are viewed anew at every pair of
    components, because an earlier pair may have bound variables that are part of a later one. -/
def unifyWithin : Nat → TypeId → TypeId → UnifyM Unit
  | 0, _, _ => throw (.fault .endlessWalk)
  | fuel + 1, a, b => do
    match ← query (·.view a), ← query (·.view b) with
    | .var x, right => solve x right.id
    | left, .var y => solve y left.id
    | .op left con args, .op right con' args' =>
      if con = con' ∧ args.length = args'.length then
        (args.zip args').forM fun pair => unifyWithin fuel pair.1 pair.2
      else
        clash .mismatch left right

end UnifyM

/-- Makes two types equal by binding variables, or stops at their first clash. If it ends, `a` and `b` stand for the
    same type from then on; if it stops, what was bound on the way stays bound. -/
def Store.unify (a b : TypeId) : UnifyM Unit := fun s => UnifyM.unifyWithin s.pairBound a b s

end TypeInference
