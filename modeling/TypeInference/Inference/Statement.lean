import TypeInference.Inference.Expression
import TypeInference.Scope.Declaration

/-!
# `Inference.Statement` — the types of statements, blocks and programs

Every declaration of a list of statements has a type before the first statement is looked at: a variable its
written type or a new variable, a function the type of its signature with new variables in the gaps, a type
itself. Variables stay pinned in the whole list; a function is pinned until its own body has been looked at,
and may be used at different types from then on.

## Contents
* `Pins`, `predeclareAll` — the types given in advance, and the pinned ones among them;
* `inferDefs`, `inferFields`, `checkVariants`, `checkJump`, `functionParts` — the parts of statements;
* `Stmt.infer`, `Block.infer`, `inferStmts` — statements and lists of statements;
* `inferList`, `Program.infer` — whole lists of statements.
-/

namespace TypeInference

open InferM

/-! ## Declarations ahead of use -/

/-- The types that are pinned in a list of statements: those of its variables, and those of its functions whose
    bodies have not been looked at. A use of a pinned type shares its variables. -/
structure Pins where
  vars : List TypeId
  functions : List TypeId

namespace Pins

/-- Nothing is pinned, as for statements that declare no values. -/
def none : Pins := ⟨[], []⟩

/-- The pins of two declarations: the variables of both, and the functions of both, in their order. -/
def append (a b : Pins) : Pins := ⟨a.vars ++ b.vars, a.functions ++ b.functions⟩

/-- All pinned types, those of variables before those of functions. -/
def all (pins : Pins) : List TypeId := pins.vars ++ pins.functions

/-- The pins without one function's type. All pins of that type go, which is no loss: no two functions are given one
    type. -/
def release (pins : Pins) (ty : TypeId) : Pins := { pins with functions := pins.functions.filter (· ≠ ty) }

end Pins

/-- Gives each defined variable a type: the one that is written for it, or a new variable. -/
def predeclareVars (scope : ScopeId) : List VarDef → InferM (List TypeId)
  | [] => pure []
  | d :: rest => do
    let ty ← denoteOrNew scope d.signature
    setType scope d.name.name ty
    let rest ← predeclareVars scope rest
    pure (ty :: rest)

/-- The types written for parameters, with new variables in the gaps. They are looked up around the function, not in
    its own scope. -/
def paramTypes (scope : ScopeId) : List Param → InferM (List TypeId)
  | [] => pure []
  | p :: rest => do
    let ty ← denoteOrNew scope p.signature
    let rest ← paramTypes scope rest
    pure (ty :: rest)

/-- Gives the names of a declaration their types, and says which of these types are pinned. A type's name has a type
    of that name, which has no variables and needs no pin. -/
def Declaration.predeclare (scope : ScopeId) : Declaration → InferM Pins
  | .vars _ defs => do
    let types ← predeclareVars scope defs
    pure ⟨types, []⟩
  | .function name params result => do
    let params ← paramTypes scope params
    let result ← denoteOrNew scope result
    let ty ← create (Store.function params result)
    setType scope name.name ty
    pure ⟨[], [ty]⟩
  | .type _ name => do
    let ty ← create (Store.named name.name [])
    setType scope name.name ty
    pure .none

/-- Gives the names that a statement declares their types; most statements declare none, and then nothing happens. -/
def Stmt.predeclare (scope : ScopeId) (stmt : Stmt) : InferM Pins :=
  match stmt.declaration? with
  | some declaration => declaration.predeclare scope
  | none => pure .none

/-- Gives the names that a list of statements declares their types, from the first statement to the last; bodies are
    not looked at yet. -/
def predeclareAll (scope : ScopeId) : List Stmt → InferM Pins
  | [] => pure .none
  | stmt :: rest => do
    let first ← stmt.predeclare scope
    let rest ← predeclareAll scope rest
    pure (first.append rest)

/-- Once a function's body has been looked at, the type its name has is pinned no longer: later statements may use
    the function at different types. -/
def Stmt.settle (scope : ScopeId) (pins : Pins) : Stmt → InferM Pins
  | .function _ name _ _ _ => do
    match (← getLocal scope name.name).bind Symbol.ty with
    | some ty => pure (pins.release ty)
    | none => pure pins
  | _ => pure pins

/-! ## Parts of statements -/

/-- Makes the type of each variable equal to that of its first value, one definition after another. A variable is
    visible in its own first value, at its own type. -/
def inferDefs (scope : ScopeId) (pinned : List TypeId) : List VarDef → InferM Unit
  | [] => pure ()
  | d :: rest => do
    let declared ← declaredType scope d.name.name
    match d.value with
    | some value => do
      let actual ← value.infer pinned
      unify d.span declared actual
    | none => pure ()
    inferDefs scope pinned rest

/-- Checks that the fields of a struct have different names and types that exist; `seen` are the names so
    far. -/
def inferFields (scope : ScopeId) (seen : List String) : List Field → InferM Unit
  | [] => pure ()
  | f :: rest =>
    if f.name.name ∈ seen then
      refuse (.duplicate .var f.name.name) f.name.span
    else do
      let _ ← f.signature.denote scope
      inferFields scope (f.name.name :: seen) rest

/-- Checks that the variants of an enum have different names; `seen` are the names so far. -/
def checkVariants (seen : List String) : List Ident → InferM Unit
  | [] => pure ()
  | v :: rest =>
    if v.name ∈ seen then
      refuse (.duplicate .variant v.name) v.span
    else
      checkVariants (v.name :: seen) rest

/-- Checks that the target of a jump, if it is named, is a label. A jump that names none is always accepted. -/
def checkJump (scope : ScopeId) : Option Ident → InferM Unit
  | none => pure ()
  | some label => do
    let (_, symbol) ← resolve scope label
    if symbol.kind ≠ .label then
      refuse (.notALabel symbol.kind label.name) label.span

/-- Looks at a condition, which has to be a truth value. Conditions of branches and of loops are alike in this. -/
def inferCondition (pinned : List TypeId) (cond : Expr) : InferM Unit := do
  let ty ← cond.infer pinned
  unify cond.span ty .bool

/-- New variables, as many as `count` says, for the parts of a function about which nothing is known. -/
def newVars : Nat → InferM (List TypeId)
  | 0 => pure []
  | count + 1 => do
    let ty ← create Store.newVar
    let rest ← newVars count
    pure (ty :: rest)

/-- The types of a function's parameters and of its result: those of `ty` if it is a function of so many parameters,
    and otherwise new ones, with which `ty` is made equal. A function that was given its type ahead has the first
    case. -/
def functionParts (span : Span) (ty : TypeId) (arity : Nat) : InferM (List TypeId × TypeId) := do
  let known : Option (List TypeId × TypeId) :=
    match ← query (·.operator? ty) with
    | some (.function, args) =>
      if args.length = arity + 1 then args.getLast?.map (args.dropLast, ·) else none
    | _ => none
  match known with
  | some parts => pure parts
  | none => do
    let params ← newVars arity
    let result ← create Store.newVar
    let expected ← create (Store.function params result)
    unify span ty expected
    pure (params, result)

/-- Records the types of a function's parameters in its own scope. -/
def setParamTypes (own : ScopeId) : List Param → List TypeId → InferM Unit
  | p :: params, ty :: types => do
    setType own p.name.name ty
    setParamTypes own params types
  | _, _ => pure ()

/-! ## Statements -/

mutual

/-- The type of a statement in a scope: that of its expression, that of the name it declares, or the type of
    statements without a value. A function's body is looked at with the function itself pinned, so it can only call
    itself at one type. -/
def Stmt.infer (scope : ScopeId) (pinned : List TypeId) : Stmt → InferM TypeId
  | .vars _ _ defs => do
    inferDefs scope pinned defs
    pure .unit
  | .function mark name params _ body => do
    let own ← requireScope mark
    let ty ← declaredType scope name.name
    let (types, result) ← functionParts mark.span ty params.length
    setParamTypes own params types
    let returned ← withFrame result (body.infer (pinned ++ [ty]))
    if !returned then
      unify mark.span result .unit
    pure ty
  | .blueprint _ name body => do
    let _ ← body.infer pinned
    declaredType scope name.name
  | .trait _ name body => do
    let _ ← body.infer pinned
    declaredType scope name.name
  | .struct _ name fields => do
    inferFields scope [] fields
    declaredType scope name.name
  | .enum _ name variants => do
    checkVariants [] variants
    declaredType scope name.name
  | .label mark _ stmt => do
    let own ← requireScope mark
    let pins ← stmt.predeclare own
    stmt.infer own (pinned ++ pins.all)
  | .block body => body.infer pinned
  | .branch _ cond body elifs otherwise => do
    inferCondition pinned cond
    let _ ← body.infer pinned
    inferElifs pinned elifs
    match otherwise with
    | some last => last.infer pinned
    | none => pure .unit
  | .loop _ cond body => do
    inferCondition pinned cond
    body.infer pinned
  | .ret span value => do
    match ← expectedResult? with
    | none => refuse .returnOutsideFunction span
    | some expected => do
      let actual ←
        match value with
        | some value => value.infer pinned
        | none => pure .unit
      unify span expected actual
      markReturned
      pure .unit
  | .jump _ _ label => do
    checkJump scope label
    pure .unit
  | .expr e => e.infer pinned

/-- Looks at the statements of a block, which itself has no value. Its declarations are given types first, as those
    of a program are. -/
def Block.infer (pinned : List TypeId) : Block → InferM TypeId
  | .mk mark stmts => do
    let scope ← requireScope mark
    let pins ← predeclareAll scope stmts
    let _ ← inferStmts scope pinned pins stmts
    pure .unit

/-- The types of statements one after another, after their declarations have been given types. -/
def inferStmts (scope : ScopeId) (pinned : List TypeId) (pins : Pins) : List Stmt → InferM (List TypeId)
  | [] => pure []
  | stmt :: rest => do
    let ty ← stmt.infer scope (pinned ++ pins.all)
    let pins ← stmt.settle scope pins
    let rest ← inferStmts scope pinned pins rest
    pure (ty :: rest)

/-- Looks at the further conditions of a branch, and at their blocks. -/
def inferElifs (pinned : List TypeId) : List Elif → InferM Unit
  | [] => pure ()
  | .mk _ cond body :: rest => do
    inferCondition pinned cond
    let _ ← body.infer pinned
    inferElifs pinned rest

end

/-! ## Lists and programs -/

/-- The types of a list of statements that stand in `scope`: declarations first, then the statements in order. This
    is what a submission runs. -/
def inferList (scope : ScopeId) (pinned : List TypeId) (stmts : List Stmt) : InferM (List TypeId) := do
  let pins ← predeclareAll scope stmts
  inferStmts scope pinned pins stmts

/-- Where a program begins. -/
def Program.span (program : Program) : Span := (program.stmts.head?.map Stmt.span).getD .origin

/-- The type of a program in the scope recorded for it: that of its last statement. -/
def Program.infer (pinned : List TypeId) (program : Program) : InferM TypeId := do
  let scope ← requireScope ⟨program.span, program.scope⟩
  let types ← inferList scope pinned program.stmts
  pure (types.getLast?.getD .unit)

end TypeInference
