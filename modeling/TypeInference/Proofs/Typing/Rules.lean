import Mathlib.Data.List.Forall2
import TypeInference.Proofs.Scope.Chain
import TypeInference.Proofs.Ty.Tree
import TypeInference.Syntax.Stmt

/-!
# `Proofs.Typing.Rules` — the typing rules

What it means that a tree of the program is well typed, said about finite type trees and without any
inference. The trees of types and an arena are given, from which the types of names are read: the rules do
not say how they came to be there. Every node has one tree, and all nodes obey their rules at once.

A variable has exactly the tree of its type at each of its uses. A function may be used at any **instance** of
its tree that leaves the variables of the variables in sight alone (`InSight`).

## Contents
* `Tree.number` and the like, `Signature.tree` — the trees that syntax stands for;
* `ExprTyped` — expressions;
* `Stmt.returns` — whether a statement can return from the function around it;
* `StmtTyped`, `BlockTyped`, `StmtsTyped` — statements, given what `return` has to give back.
-/

namespace TypeInference

/-! ## Trees -/

namespace Tree

def number : Tree := .app .number []

def bool : Tree := .app .bool []

def string : Tree := .app .string []

def unit : Tree := .app .unit []

def list (element : Tree) : Tree := .app .list [element]

def map (key value : Tree) : Tree := .app .map [key, value]

def tuple (elements : List Tree) : Tree := .app (.tuple elements.length) elements

def function (params : List Tree) (result : Tree) : Tree := .app .function (params ++ [result])

def named (name : String) : Tree := .app (.named name) []

end Tree

/-- The tree of a written name: a primitive type, or the type of that name. It does not depend on where the name is
    declared, as types are told apart by their names alone. -/
def nameTree (name : String) : Tree :=
  match name with
  | "Number" => .number
  | "Bool" => .bool
  | "String" => .string
  | "Unit" => .unit
  | other => .named other

mutual

/-- The tree of a written type. There is no variable in it, since there is no way to write one. -/
def Signature.tree : Signature → Tree
  | .name id => nameTree id.name
  | .list _ element => .list element.tree
  | .map _ key value => .map key.tree value.tree
  | .tuple _ elements => .tuple (treesOf elements)
  | .function _ params result => .function (treesOf params) result.tree

/-- The trees of written types side by side, one for each signature. -/
def treesOf : List Signature → List Tree
  | [] => []
  | signature :: rest => signature.tree :: treesOf rest

end

/-! ## Operators -/

/-- What a unary operator asks of its operand, and gives: the two are the same tree. -/
def UnaryOp.tree : UnaryOp → Tree
  | .plus | .minus => .number
  | .not => .bool

/-- What a binary operator asks of both operands; equality only asks that they are alike. -/
def BinaryOp.operandTree? : BinaryOp → Option Tree
  | .add | .sub | .mul | .div | .mod | .pow => some .number
  | .concat => some .string
  | .lt | .gt | .le | .ge => some .number
  | .and | .or | .xor => some .bool
  | .eq | .ne => none

/-- What a binary operator gives, whatever its operands are. -/
def BinaryOp.resultTree : BinaryOp → Tree
  | .add | .sub | .mul | .div | .mod | .pow => .number
  | .concat => .string
  | .lt | .gt | .le | .ge | .and | .or | .xor | .eq | .ne => .bool

/-! ## Expressions -/

variable (tree : TypeId → Tree) (scopes : Scopes)

/-! ### Names -/

/-- The type variable is part of the type of a variable that `scope` sees. What is still to be learned of it is
    learned for all uses of that variable at once, so it may not be instantiated. -/
def InSight (scope : ScopeId) (v : TypeId) : Prop :=
  ∃ owner name symbol ty, scopes.Sees scope owner ∧ scopes.symbolAt owner name = some symbol ∧
    symbol.kind = .var ∧ symbol.ty = some ty ∧ (tree ty).HasVar v

/-- A name that was declared in `scope` has this tree, which is that of its written type, if it has one. -/
def DeclaredAs (scope : ScopeId) (name : String) (signature : Option Signature) (t : Tree) : Prop :=
  ∃ ty, scopes.typeAt scope name = some ty ∧ tree ty = t ∧ ∀ sig, signature = some sig → t = sig.tree

/-- A parameter has the tree that its name has in the scope of its function. -/
def ParamTyped (own : ScopeId) (p : Param) (t : Tree) : Prop :=
  DeclaredAs tree scopes own p.name.name p.signature t

/-- The typing rules of expressions. There is a rule for each form of expression, and two for names: a variable has
    the one tree of its type, and a function an instance of its tree. -/
inductive ExprTyped : Expr → Tree → Prop
  | number {mark : Mark} : ExprTyped (.number mark) .number
  | string {mark : Mark} {value : String} : ExprTyped (.string mark value) .string
  | bool {mark : Mark} {value : Bool} : ExprTyped (.bool mark value) .bool
  | name {mark : Mark} {id : Ident} {scope owner : ScopeId} {symbol : Symbol} {ty : TypeId} :
      mark.scope = some scope → scopes.lookup scope id.name = .ok (some (owner, symbol)) →
      symbol.kind = .var → symbol.ty = some ty → ExprTyped (.name mark id) (tree ty)
  | generic {mark : Mark} {id : Ident} {scope owner : ScopeId} {symbol : Symbol} {ty : TypeId}
      {σ : TypeId → Tree} :
      mark.scope = some scope → scopes.lookup scope id.name = .ok (some (owner, symbol)) →
      symbol.kind ≠ .var → symbol.kind.isValue = true → symbol.ty = some ty →
      (∀ v, InSight tree scopes scope v → σ v = .var v) →
      ExprTyped (.name mark id) ((tree ty).subst σ)
  | list {mark : Mark} {items : List Expr} {element : Tree} :
      (∀ e ∈ items, ExprTyped e element) → ExprTyped (.list mark items) (.list element)
  | map {mark : Mark} {entries : List (Expr × Expr)} {key value : Tree} :
      (∀ entry ∈ entries, ExprTyped entry.1 key) → (∀ entry ∈ entries, ExprTyped entry.2 value) →
      ExprTyped (.map mark entries) (.map key value)
  | tuple {mark : Mark} {items : List Expr} {elements : List Tree} :
      List.Forall₂ ExprTyped items elements → ExprTyped (.tuple mark items) (.tuple elements)
  | accessString {mark : Mark} {left index : Expr} {t : Tree} :
      ExprTyped left .string → ExprTyped index t → ExprTyped (.access mark left index) .string
  | accessList {mark : Mark} {left index : Expr} {element : Tree} :
      ExprTyped left (.list element) → ExprTyped index .number → ExprTyped (.access mark left index) element
  | accessMap {mark : Mark} {left index : Expr} {key value : Tree} :
      ExprTyped left (.map key value) → ExprTyped index key → ExprTyped (.access mark left index) value
  | unary {mark : Mark} {op : UnaryOp} {operand : Expr} :
      ExprTyped operand op.tree → ExprTyped (.unary mark op operand) op.tree
  | binary {mark : Mark} {op : BinaryOp} {left right : Expr} {t : Tree} :
      ExprTyped left t → ExprTyped right t → (∀ u, op.operandTree? = some u → t = u) →
      ExprTyped (.binary mark op left right) op.resultTree
  | call {mark : Mark} {callee : Expr} {args : List Expr} {params : List Tree} {result : Tree} :
      ExprTyped callee (.function params result) → List.Forall₂ ExprTyped args params →
      ExprTyped (.call mark callee args) result
  | lambda {mark : Mark} {own : ScopeId} {params : List Param} {body : Expr} {trees : List Tree}
      {result : Tree} :
      List.Forall₂ (ParamTyped tree scopes own) params trees → ExprTyped body result →
      ExprTyped (.lambda mark (some own) params body) (.function trees result)
  | when {mark : Mark} {cond yes no : Expr} {t : Tree} :
      ExprTyped cond .bool → ExprTyped yes t → ExprTyped no t → ExprTyped (.when mark cond yes no) t
  | assign {mark : Mark} {target : Ident} {value : Expr} {scope owner : ScopeId} {symbol : Symbol}
      {ty : TypeId} :
      mark.scope = some scope → scopes.lookup scope target.name = .ok (some (owner, symbol)) →
      symbol.kind = .var → symbol.ty = some ty → ExprTyped value (tree ty) →
      ExprTyped (.assign mark target value) (tree ty)

/-! ## Statements -/

mutual

/-- Whether the statement can return from the function it stands in; functions inside it return for
    themselves. -/
def Stmt.returns : Stmt → Bool
  | .ret _ _ => true
  | .label _ _ stmt => stmt.returns
  | .blueprint _ _ body => body.returns
  | .trait _ _ body => body.returns
  | .block body => body.returns
  | .branch _ _ body elifs none => body.returns || elifsReturn elifs
  | .branch _ _ body elifs (some last) => body.returns || elifsReturn elifs || last.returns
  | .loop _ _ body => body.returns
  | .vars _ _ _ => false
  | .function _ _ _ _ _ => false
  | .struct _ _ _ => false
  | .enum _ _ _ => false
  | .jump _ _ _ => false
  | .expr _ => false

def Block.returns : Block → Bool
  | .mk _ stmts => stmtsReturn stmts

def stmtsReturn : List Stmt → Bool
  | [] => false
  | stmt :: rest => stmt.returns || stmtsReturn rest

def elifsReturn : List Elif → Bool
  | [] => false
  | .mk _ _ body :: rest => body.returns || elifsReturn rest

end

/-- A defined variable has the tree of its first value, and of its written type. Without either it may have any
    tree, as long as all its uses agree. -/
structure DefTyped (scope : ScopeId) (d : VarDef) : Prop where
  declared : ∃ t, DeclaredAs tree scopes scope d.name.name d.signature t ∧
    ∀ value, d.value = some value → ExprTyped tree scopes value t

mutual

/-- The typing rules of statements; `expected` is what `return` has to give back, inside a function. A function that
    returns nothing gives back a unit. -/
inductive StmtTyped : Option Tree → ScopeId → Stmt → Tree → Prop
  | vars {expected : Option Tree} {scope : ScopeId} {span : Span} {kind : VarKind} {defs : List VarDef} :
      (∀ d ∈ defs, DefTyped tree scopes scope d) → StmtTyped expected scope (.vars span kind defs) .unit
  | function {expected : Option Tree} {scope own : ScopeId} {mark : Mark} {name : Ident} {params : List Param}
      {signature : Option Signature} {body : Block} {trees : List Tree} {result : Tree} :
      mark.scope = some own → DeclaredAs tree scopes scope name.name none (.function trees result) →
      List.Forall₂ (ParamTyped tree scopes own) params trees →
      (∀ sig, signature = some sig → result = sig.tree) →
      BlockTyped (some result) body → (body.returns = false → result = .unit) →
      StmtTyped expected scope (.function mark name params signature body) (.function trees result)
  | blueprint {expected : Option Tree} {scope : ScopeId} {span : Span} {name : Ident} {body : Block} :
      BlockTyped expected body → DeclaredAs tree scopes scope name.name none (.named name.name) →
      StmtTyped expected scope (.blueprint span name body) (.named name.name)
  | trait {expected : Option Tree} {scope : ScopeId} {span : Span} {name : Ident} {body : Block} :
      BlockTyped expected body → DeclaredAs tree scopes scope name.name none (.named name.name) →
      StmtTyped expected scope (.trait span name body) (.named name.name)
  | struct {expected : Option Tree} {scope : ScopeId} {span : Span} {name : Ident} {fields : List Field} :
      DeclaredAs tree scopes scope name.name none (.named name.name) →
      StmtTyped expected scope (.struct span name fields) (.named name.name)
  | enum {expected : Option Tree} {scope : ScopeId} {span : Span} {name : Ident} {variants : List Ident} :
      DeclaredAs tree scopes scope name.name none (.named name.name) →
      StmtTyped expected scope (.enum span name variants) (.named name.name)
  | label {expected : Option Tree} {scope own : ScopeId} {mark : Mark} {name : Ident} {stmt : Stmt}
      {t : Tree} :
      mark.scope = some own → StmtTyped expected own stmt t →
      StmtTyped expected scope (.label mark name stmt) t
  | block {expected : Option Tree} {scope : ScopeId} {body : Block} :
      BlockTyped expected body → StmtTyped expected scope (.block body) .unit
  | branch {expected : Option Tree} {scope : ScopeId} {span : Span} {cond : Expr} {body : Block}
      {elifs : List Elif} {otherwise : Option Block} :
      ExprTyped tree scopes cond .bool → BlockTyped expected body → ElifsTyped expected elifs →
      (∀ last, otherwise = some last → BlockTyped expected last) →
      StmtTyped expected scope (.branch span cond body elifs otherwise) .unit
  | loop {expected : Option Tree} {scope : ScopeId} {span : Span} {cond : Expr} {body : Block} :
      ExprTyped tree scopes cond .bool → BlockTyped expected body →
      StmtTyped expected scope (.loop span cond body) .unit
  | retValue {scope : ScopeId} {span : Span} {value : Expr} {t : Tree} :
      ExprTyped tree scopes value t → StmtTyped (some t) scope (.ret span (some value)) .unit
  | retUnit {scope : ScopeId} {span : Span} : StmtTyped (some .unit) scope (.ret span none) .unit
  | jump {expected : Option Tree} {scope : ScopeId} {span : Span} {kind : JumpKind} {label : Option Ident} :
      StmtTyped expected scope (.jump span kind label) .unit
  | expr {expected : Option Tree} {scope : ScopeId} {e : Expr} {t : Tree} :
      ExprTyped tree scopes e t → StmtTyped expected scope (.expr e) t

/-- The statements of a block are well typed in the scope of the block. -/
inductive BlockTyped : Option Tree → Block → Prop
  | mk {expected : Option Tree} {own : ScopeId} {mark : Mark} {stmts : List Stmt} {trees : List Tree} :
      mark.scope = some own → StmtsTyped expected own stmts trees → BlockTyped expected (.mk mark stmts)

/-- Statements one after another, with their trees. -/
inductive StmtsTyped : Option Tree → ScopeId → List Stmt → List Tree → Prop
  | nil {expected : Option Tree} {scope : ScopeId} : StmtsTyped expected scope [] []
  | cons {expected : Option Tree} {scope : ScopeId} {stmt : Stmt} {rest : List Stmt} {t : Tree}
      {trees : List Tree} :
      StmtTyped expected scope stmt t → StmtsTyped expected scope rest trees →
      StmtsTyped expected scope (stmt :: rest) (t :: trees)

/-- The further conditions of a branch, with their blocks. -/
inductive ElifsTyped : Option Tree → List Elif → Prop
  | nil {expected : Option Tree} : ElifsTyped expected []
  | cons {expected : Option Tree} {span : Span} {cond : Expr} {body : Block} {rest : List Elif} :
      ExprTyped tree scopes cond .bool → BlockTyped expected body → ElifsTyped expected rest →
      ElifsTyped expected (.mk span cond body :: rest)

end

end TypeInference
