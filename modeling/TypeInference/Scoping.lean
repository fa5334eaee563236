import TypeInference.Scope.Declaration

/-!
# `Scoping` — a scope for every node

The first pass over a tree goes from the outside in. Blocks, functions, lambdas and labels open a scope of
their own and declare in it, ahead of everything inside, the names that belong there; every expression
records the scope it stands in. The pass ends at the first name that cannot be declared: the nodes that were
reached by then keep what they recorded, and the others stay as they were.

## Contents
* `Scoping`, `ScopingM` — the arena during the pass, and why it ended early;
* `unlessHalted`, `openScope`, `declareAll` — its steps;
* `Expr.annotate`, `Stmt.annotate`, `Block.annotate`, `Program.annotate` — the pass over each kind of node.
-/

namespace TypeInference

/-! ## Steps of the pass -/

/-- The arena during the pass, and the reason why the pass ended, once it has. The arena is kept after the end: what
    has been opened and declared by then stays. -/
structure Scoping where
  scopes : Scopes
  halt : Option (Halt Diagnostic)

/-- The steps of the pass. They never fail themselves: that the pass has ended is part of the state, so that the
    tree is always built to its end. -/
abbrev ScopingM := StateM Scoping

/-- A pass that has not begun, over the arena that the session has. -/
def Scoping.start (scopes : Scopes) : Scoping := ⟨scopes, none⟩

namespace ScopingM

/-- Visits a node unless the pass has ended; then the node stays as it is. -/
def unlessHalted {α : Type} (node : α) (visit : ScopingM α) : ScopingM α := fun s =>
  match s.halt with
  | some _ => (node, s)
  | none => visit s

/-- Nothing is visited after the end: neither the node nor the state changes any more. -/
theorem unlessHalted_of_some {α : Type} {node : α} {visit : ScopingM α} {s : Scoping} {reason : Halt Diagnostic}
    (h : s.halt = some reason) : unlessHalted node visit s = (node, s) := by
  simp [unlessHalted, h]

theorem unlessHalted_of_none {α : Type} {node : α} {visit : ScopingM α} {s : Scoping}
    (h : s.halt = none) : unlessHalted node visit s = visit s := by
  simp [unlessHalted, h]

/-- Opens a scope inside `parent`. Scopes are opened from the outside in, so their numbers follow the order in which
    the nodes are met. -/
def openScope (parent : ScopeId) : ScopingM ScopeId :=
  modifyGet fun s =>
    let (id, scopes) := s.scopes.openChild parent
    (id, { s with scopes })

/-- Changes the arena; a change that is refused ends the pass, and an ended pass changes nothing. -/
def attempt (change : Scopes → Except (Halt Diagnostic) Scopes) : ScopingM Unit :=
  unlessHalted () <| modify fun s =>
    match change s.scopes with
    | .ok scopes => { s with scopes }
    | .error reason => { s with halt := some reason }

/-- Declares names in a scope, in order, up to the first that cannot be declared. The names before it stay declared. -/
def declareAll (strict : Bool) (id : ScopeId) (symbols : List (Ident × Symbol)) : ScopingM Unit :=
  symbols.forM fun entry => attempt (·.declare strict id entry.1 entry.2)

end ScopingM

open ScopingM

/-- The same mark with a recorded scope, in place of what was recorded before. -/
def Mark.record (mark : Mark) (scope : ScopeId) : Mark := { mark with scope := some scope }

/-! ## Expressions -/

mutual

/-- The pass over an expression that stands in the scope `parent`. Every node records `parent`, and a lambda opens a
    scope for its parameters and its body, which it records as well. -/
def Expr.annotate (strict : Bool) (parent : ScopeId) (e : Expr) : ScopingM Expr :=
  unlessHalted e <|
    match e with
    | .number mark => pure (.number (mark.record parent))
    | .string mark value => pure (.string (mark.record parent) value)
    | .bool mark value => pure (.bool (mark.record parent) value)
    | .name mark id => pure (.name (mark.record parent) id)
    | .list mark items => do
      let items ← annotateExprs strict parent items
      pure (.list (mark.record parent) items)
    | .map mark entries => do
      let entries ← annotateEntries strict parent entries
      pure (.map (mark.record parent) entries)
    | .tuple mark items => do
      let items ← annotateExprs strict parent items
      pure (.tuple (mark.record parent) items)
    | .access mark left index => do
      let left ← left.annotate strict parent
      let index ← index.annotate strict parent
      pure (.access (mark.record parent) left index)
    | .unary mark op operand => do
      let operand ← operand.annotate strict parent
      pure (.unary (mark.record parent) op operand)
    | .binary mark op left right => do
      let left ← left.annotate strict parent
      let right ← right.annotate strict parent
      pure (.binary (mark.record parent) op left right)
    | .call mark callee args => do
      let callee ← callee.annotate strict parent
      let args ← annotateExprs strict parent args
      pure (.call (mark.record parent) callee args)
    | .lambda mark _ params body => do
      let own ← openScope parent
      declareAll strict own (Param.symbols params)
      let body ← body.annotate strict own
      pure (.lambda (mark.record parent) (some own) params body)
    | .when mark cond yes no => do
      let cond ← cond.annotate strict parent
      let yes ← yes.annotate strict parent
      let no ← no.annotate strict parent
      pure (.when (mark.record parent) cond yes no)
    | .assign mark target value => do
      let value ← value.annotate strict parent
      pure (.assign (mark.record parent) target value)

/-- The pass over expressions side by side, from left to right. -/
def annotateExprs (strict : Bool) (parent : ScopeId) : List Expr → ScopingM (List Expr)
  | [] => pure []
  | e :: rest => do
    let e ← e.annotate strict parent
    let rest ← annotateExprs strict parent rest
    pure (e :: rest)

/-- The pass over the entries of a map, each key before its value. -/
def annotateEntries (strict : Bool) (parent : ScopeId) : List (Expr × Expr) → ScopingM (List (Expr × Expr))
  | [] => pure []
  | (key, value) :: rest => do
    let key ← key.annotate strict parent
    let value ← value.annotate strict parent
    let rest ← annotateEntries strict parent rest
    pure ((key, value) :: rest)

end

/-- The pass over an expression that may be absent; where there is none, nothing is done. -/
def annotateOption (strict : Bool) (parent : ScopeId) : Option Expr → ScopingM (Option Expr)
  | none => pure none
  | some e => some <$> e.annotate strict parent

/-- The pass over the first value of a variable. The variable's name has been declared before. -/
def VarDef.annotate (strict : Bool) (parent : ScopeId) (d : VarDef) : ScopingM VarDef := do
  let value ← annotateOption strict parent d.value
  pure { d with value }

/-! ## Statements -/

mutual

/-- The pass over a statement that stands in the scope `parent`; what it declares there has been declared
    already. -/
def Stmt.annotate (strict : Bool) (parent : ScopeId) (stmt : Stmt) : ScopingM Stmt :=
  unlessHalted stmt <|
    match stmt with
    | .vars span kind defs => do
      let defs ← defs.mapM (·.annotate strict parent)
      pure (.vars span kind defs)
    | .function mark name params result body => do
      let own ← openScope parent
      declareAll strict own (Param.symbols params)
      let body ← body.annotate strict own
      pure (.function (mark.record own) name params result body)
    | .blueprint span name body => do
      let body ← body.annotate strict parent
      pure (.blueprint span name body)
    | .trait span name body => do
      let body ← body.annotate strict parent
      pure (.trait span name body)
    | .struct span name fields => pure (.struct span name fields)
    | .enum span name variants => pure (.enum span name variants)
    | .label mark name stmt => do
      let own ← openScope parent
      attempt (·.insert own name.name (.declared .label name.span))
      declareAll strict own stmt.symbols
      let stmt ← stmt.annotate strict own
      pure (.label (mark.record own) name stmt)
    | .block body => do
      let body ← body.annotate strict parent
      pure (.block body)
    | .branch span cond body elifs otherwise => do
      let cond ← cond.annotate strict parent
      let body ← body.annotate strict parent
      let elifs ← annotateElifs strict parent elifs
      match otherwise with
      | none => pure (.branch span cond body elifs none)
      | some last => do
        let last ← last.annotate strict parent
        pure (.branch span cond body elifs (some last))
    | .loop span cond body => do
      let cond ← cond.annotate strict parent
      let body ← body.annotate strict parent
      pure (.loop span cond body)
    | .ret span value => do
      let value ← annotateOption strict parent value
      pure (.ret span value)
    | .jump span kind label => pure (.jump span kind label)
    | .expr e => do
      let e ← e.annotate strict parent
      pure (.expr e)

/-- The pass over a block, in a scope of its own: all names of its statements are declared before any statement is
    visited, so that they may refer to each other in any order. -/
def Block.annotate (strict : Bool) (parent : ScopeId) (block : Block) : ScopingM Block :=
  unlessHalted block <|
    match block with
    | .mk mark stmts => do
      let own ← openScope parent
      declareAll strict own (stmts.flatMap Stmt.symbols)
      let stmts ← annotateStmts strict own stmts
      pure (.mk (mark.record own) stmts)

/-- The pass over statements one after another, once all of their names have been declared. -/
def annotateStmts (strict : Bool) (parent : ScopeId) : List Stmt → ScopingM (List Stmt)
  | [] => pure []
  | stmt :: rest => do
    let stmt ← stmt.annotate strict parent
    let rest ← annotateStmts strict parent rest
    pure (stmt :: rest)

/-- The pass over the further conditions of a branch, each before its block. -/
def annotateElifs (strict : Bool) (parent : ScopeId) : List Elif → ScopingM (List Elif)
  | [] => pure []
  | .mk span cond body :: rest => do
    let cond ← cond.annotate strict parent
    let body ← body.annotate strict parent
    let rest ← annotateElifs strict parent rest
    pure (.mk span cond body :: rest)

end

/-! ## Programs -/

/-- The pass over a program, whose statements stand in the scope `parent` itself. Names of earlier programs are in
    that scope already, so a repeated one ends the pass. -/
def Program.annotate (strict : Bool) (parent : ScopeId) (program : Program) : ScopingM Program := do
  declareAll strict parent (program.stmts.flatMap Stmt.symbols)
  let stmts ← annotateStmts strict parent program.stmts
  pure { stmts, scope := some parent }

end TypeInference
