import TypeInference.Ty.View

/-!
# `Ty.Instantiate` — copies of a type with new variables

An instance of a type is a copy in which every variable that is not pinned gives way to a new one, the same
at each of its places. Pinned variables are shared with the copied type, and so is a constructor without
components, which has nothing to replace.

## Contents
* `Copying` — the store while a type is being copied, and the copies of variables made so far;
* `Store.instantiate` — the copy.
-/

namespace TypeInference

/-! ## Copying on the way -/

/-- The store while a type is being copied, with the new variable of each variable met so far. The list makes the
    copy faithful: a variable that occurs twice is replaced by one and the same new variable. -/
structure Copying where
  store : Store
  copies : List (TypeId × TypeId)

namespace Copying

/-- A step of copying; it stops only by misuse, as there is nothing that copying could refuse. -/
abbrev Step := StateT Copying (Except Fault)

/-- Reads the store, with the nodes that have been added so far. -/
def query {α : Type} (ask : Store → Except Fault α) : Step α := do
  ask (← get).store

/-- The new variable that stands for `var`, made when `var` is met for the first time. -/
def copyVar (var : TypeId) : Step TypeId := do
  match (← get).copies.lookup var with
  | some copy => pure copy
  | none =>
    modifyGet fun c =>
      let (copy, store) := c.store.newVar
      (copy, { store, copies := (var, copy) :: c.copies })

/-- A new type with a constructor and components. It is a new node even if nothing in the components was replaced. -/
def copyOp (con : Constructor) (args : List TypeId) : Step TypeId :=
  modifyGet fun c =>
    let (copy, store) := c.store.operator con args
    (copy, { c with store })

/-- The copy of a type whose walk ends within `fuel` steps: components first, from left to right, then the
    type itself. -/
def copyWithin (pinned : List TypeId) : Nat → TypeId → Step TypeId
  | 0, _ => throw .endlessWalk
  | fuel + 1, ty => do
    match ← query (·.view ty) with
    | .var id => if ← query (·.isPinned pinned id) then pure id else copyVar id
    | .op id _ [] => pure id
    | .op _ con args => do
      let args ← args.mapM (copyWithin pinned fuel)
      copyOp con args

end Copying

/-! ## The copy -/

/-- A copy of `ty` with new variables for those that are part of no type in `pinned`. Old nodes are neither changed
    nor bound; what the copy shares with the type are its pinned variables and its constructors without components. -/
def Store.instantiate (pinned : List TypeId) (ty : TypeId) (s : Store) : Except Fault (TypeId × Store) := do
  let (copy, final) ← (Copying.copyWithin pinned s.pairBound ty).run { store := s, copies := [] }
  pure (copy, final.store)

end TypeInference
