import TypeInference.Inference.Denotation
import TypeInference.Inference.Operation
import TypeInference.Syntax.Expr

/-!
# `Inference.Expression` — the types of expressions

An expression is looked at from the inside out and from left to right. A name stands for an instance of its
declared type; `pinned` lists the types whose variables are shared by all uses instead of being renewed.

## Contents
* `inferName` — the type of a name that is used as a value;
* `assignable` — the declared type of a name that may be assigned;
* `typeParams` — the types of a lambda's parameters;
* `Expr.infer` — the type of an expression.
-/

namespace TypeInference

open InferM

/-! ## Names -/

/-- The type of a name that is used as a value. It is a copy of the declared type in which only pinned variables are
    shared, so a function may be used at a different type each time, and a variable at one type only. -/
def inferName (scope : ScopeId) (name : Ident) (pinned : List TypeId) : InferM TypeId := do
  let (owner, symbol) ← resolve scope name
  if symbol.kind = .label ∨ symbol.kind.isType then
    refuse (.notAValue symbol.kind name.name) name.span
  else do
    let ty ← typeOf owner name.name symbol.ty
    instantiate pinned ty

/-- The scope that declares an assigned name, and the name's type so far. Only a variable can be assigned, and only
    while it is mutable or without a value; both are asked before the assigned value is looked at. -/
def assignable (scope : ScopeId) (target : Ident) : InferM (ScopeId × Option TypeId) := do
  let (owner, symbol) ← resolve scope target
  if symbol.kind ≠ .var then
    refuse (.notAValue symbol.kind target.name) target.span
  else if !symbol.mutable && symbol.initialized then
    refuse (.immutableAssignment target.name) target.span
  else
    pure (owner, symbol.ty)

/-- The types of a lambda's parameters, recorded in its own scope. A signature is looked up in that scope, too,
    where the parameters are declared already. -/
def typeParams (own : ScopeId) : List Param → InferM (List TypeId)
  | [] => pure []
  | p :: rest => do
    let ty ← denoteOrNew own p.signature
    setType own p.name.name ty
    let rest ← typeParams own rest
    pure (ty :: rest)

/-! ## Expressions -/

mutual

/-- The type of an expression. Every form looks at its parts first and unifies what they have to have in common; a
    refusal is placed at the part that does not fit. -/
def Expr.infer (pinned : List TypeId) (e : Expr) : InferM TypeId := do
  let scope ← requireScope e.mark
  match e with
  | .number _ => pure .number
  | .string _ _ => pure .string
  | .bool _ _ => pure .bool
  | .name _ id => inferName scope id pinned
  | .list _ items => do
    let element ← create Store.newVar
    inferElements pinned element items
    create (Store.list element)
  | .map _ entries => do
    let key ← create Store.newVar
    let value ← create Store.newVar
    inferEntries pinned key value entries
    create (Store.map key value)
  | .tuple _ items => do
    let types ← inferExprs pinned items
    create (Store.tuple types)
  | .access mark left index => do
    let leftType ← left.infer pinned
    let indexType ← index.infer pinned
    consult (·.access leftType indexType mark.span index.span)
  | .unary mark op operand => do
    let operandType ← operand.infer pinned
    inferUnary op operandType mark.span
  | .binary mark op left right => do
    let leftType ← left.infer pinned
    let rightType ← right.infer pinned
    inferBinary op leftType rightType mark.span
  | .call mark callee args => do
    let calleeType ← callee.infer pinned
    let argTypes ← inferExprs pinned args
    let result ← create Store.newVar
    let expected ← create (Store.function argTypes result)
    unify mark.span calleeType expected
    pure result
  | .lambda mark own params body => do
    let own ← requireScope { mark with scope := own }
    let types ← typeParams own params
    let result ← body.infer (pinned ++ types)
    create (Store.function types result)
  | .when mark cond yes no => do
    let condType ← cond.infer pinned
    unify cond.span condType .bool
    let yesType ← yes.infer pinned
    let noType ← no.infer pinned
    unify mark.span yesType noType
    pure yesType
  | .assign _ target value => do
    let (owner, declared) ← assignable scope target
    let actual ← value.infer pinned
    let declared ← typeOf owner target.name declared
    unify value.span declared actual
    update owner target.name ({ · with initialized := true })
    pure actual

/-- The types of expressions side by side, from left to right, each in the state that the one before it leaves. -/
def inferExprs (pinned : List TypeId) : List Expr → InferM (List TypeId)
  | [] => pure []
  | e :: rest => do
    let ty ← e.infer pinned
    let rest ← inferExprs pinned rest
    pure (ty :: rest)

/-- Makes the type of every item equal to the element type, one item after another, so that the first item that does
    not fit is the one that is refused. -/
def inferElements (pinned : List TypeId) (element : TypeId) : List Expr → InferM Unit
  | [] => pure ()
  | e :: rest => do
    let ty ← e.infer pinned
    unify e.span element ty
    inferElements pinned element rest

/-- Makes the types of all keys equal, and the types of all values. Each entry's key comes before its value. -/
def inferEntries (pinned : List TypeId) (keyType valueType : TypeId) : List (Expr × Expr) → InferM Unit
  | [] => pure ()
  | (key, value) :: rest => do
    let ty ← key.infer pinned
    unify key.span keyType ty
    let ty ← value.infer pinned
    unify value.span valueType ty
    inferEntries pinned keyType valueType rest

end

end TypeInference
