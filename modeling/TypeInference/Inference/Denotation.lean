import TypeInference.Inference.State
import TypeInference.Syntax.Signature

/-!
# `Inference.Denotation` — the types that signatures stand for

Four names stand for the primitive types whatever the program declares; any other name has to mean a
blueprint, struct, enum or trait. Each use of such a name makes a new type, equal to the others of that name.

## Contents
* `primitive?` — the names of the primitive types;
* `Signature.denote` — the type of a signature in a scope;
* `denoteOrNew` — the same where no signature need be written.
-/

namespace TypeInference

open InferM

/-! ## Names of types -/

/-- The primitive type of a name, if it has one. No declaration is looked up for these names, so a type that the
    program declares under one of them cannot be meant by a signature. -/
def primitive? (name : String) : Option TypeId :=
  match name with
  | "Number" => some .number
  | "Bool" => some .bool
  | "String" => some .string
  | "Unit" => some .unit
  | _ => none

/-- The type that a name stands for in a scope. A name that no scope around declares is undefined, and one that is
    declared as anything but a type is not a type. -/
def Ident.denote (scope : ScopeId) (id : Ident) : InferM TypeId :=
  match primitive? id.name with
  | some ty => pure ty
  | none => do
    let (_, symbol) ← resolve scope id
    if symbol.kind.isType then
      create (Store.named id.name [])
    else
      refuse (.notAType symbol.kind id.name) id.span

/-! ## Signatures -/

mutual

/-- The type that a signature stands for in a scope; its parts come first, from left to right. The first part that
    stands for no type is refused. -/
def Signature.denote (scope : ScopeId) : Signature → InferM TypeId
  | .name id => id.denote scope
  | .list _ element => do
    let element ← element.denote scope
    create (Store.list element)
  | .map _ key value => do
    let key ← key.denote scope
    let value ← value.denote scope
    create (Store.map key value)
  | .tuple _ elements => do
    let elements ← denoteAll scope elements
    create (Store.tuple elements)
  | .function _ params result => do
    let params ← denoteAll scope params
    let result ← result.denote scope
    create (Store.function params result)

/-- The types of signatures side by side, from left to right; the first that is refused ends it. -/
def denoteAll (scope : ScopeId) : List Signature → InferM (List TypeId)
  | [] => pure []
  | signature :: rest => do
    let ty ← signature.denote scope
    let rest ← denoteAll scope rest
    pure (ty :: rest)

end

/-- The type that is written, or a new variable where none is: what the variable stands for is left to inference. -/
def denoteOrNew (scope : ScopeId) : Option Signature → InferM TypeId
  | some signature => signature.denote scope
  | none => create Store.newVar

end TypeInference
