import TypeInference.Scope.Arena
import TypeInference.Syntax.Stmt

/-!
# `Scope.Declaration` — what statements declare

Variables, functions and types are declared in the scope that a statement stands in, before anything in that
scope is looked at, so that declarations see each other in any order. In strict mode a value may not take
the name of a type from a scope further out.

## Contents
* `Declaration`, `Stmt.declaration?` — what a statement declares;
* `Declaration.symbols`, `Param.symbol` — the names it brings, with their symbols;
* `Scopes.declare` — the declaration of a name, with the rule of strict mode.
-/

namespace TypeInference

/-! ## Declarations -/

/-- What a statement brings into the scope it stands in. Only what declaring needs is kept: the body of a function
    or blueprint plays no part in it. -/
inductive Declaration
  | vars (kind : VarKind) (defs : List VarDef)
  | function (name : Ident) (params : List Param) (result : Option Signature)
  | type (kind : SymbolKind) (name : Ident)

/-- The declaration that a statement is, if it is one. A label declares its name too, but in a scope of its own, so
    it brings nothing into the scope around it. -/
def Stmt.declaration? : Stmt → Option Declaration
  | .vars _ kind defs => some (.vars kind defs)
  | .function _ name params result _ => some (.function name params result)
  | .blueprint _ name _ => some (.type .blueprint name)
  | .struct _ name _ => some (.type .struct name)
  | .enum _ name _ => some (.type .enum name)
  | .trait _ name _ => some (.type .trait name)
  | .label _ _ _ => none
  | .block _ => none
  | .branch _ _ _ _ _ => none
  | .loop _ _ _ => none
  | .ret _ _ => none
  | .jump _ _ _ => none
  | .expr _ => none

/-! ## The names they bring -/

/-- A defined variable can be assigned again unless it is a constant, and has a value if one is written. -/
def VarDef.symbol (kind : VarKind) (d : VarDef) : Symbol :=
  { Symbol.declared .var d.name.span with mutable := kind ≠ .constant, initialized := d.value.isSome }

/-- A parameter has its value from the call, and keeps it. -/
def Param.symbol (p : Param) : Symbol := Symbol.declared .var p.name.span

/-- The names that a declaration brings, in order, with their symbols. Only a statement that defines variables can
    bring more than one. -/
def Declaration.symbols : Declaration → List (Ident × Symbol)
  | .vars kind defs => defs.map fun d => (d.name, d.symbol kind)
  | .function name _ _ => [(name, .declared .function name.span)]
  | .type kind name => [(name, .declared kind name.span)]

/-- The names that a statement brings into the scope it stands in. -/
def Stmt.symbols (stmt : Stmt) : List (Ident × Symbol) :=
  match stmt.declaration? with
  | some declaration => declaration.symbols
  | none => []

/-- The names of a parameter list, with their symbols. -/
def Param.symbols (params : List Param) : List (Ident × Symbol) := params.map fun p => (p.name, p.symbol)

namespace Scopes

/-! ## Declaring a name -/

/-- Whether the nearest declaration of a name stands in a scope further out, and is a type. A type that the scope
    itself declares is not hidden but repeated, which is refused elsewhere. -/
def hidesType (scopes : Scopes) (id : ScopeId) (name : String) : Except Fault Bool := do
  match ← scopes.lookup id name with
  | some (owner, symbol) => pure (owner ≠ id && symbol.kind.isType)
  | none => pure false

/-- Declares a name in a scope; in strict mode, no value may hide a type from further out. The rule comes before the
    question whether the name is repeated. -/
def declare (strict : Bool) (id : ScopeId) (name : Ident) (symbol : Symbol) (scopes : Scopes) :
    Except (Halt Diagnostic) Scopes := do
  if strict && !symbol.kind.isType then
    if ← Halt.ofQuery (scopes.hidesType id name.name) then
      throw (.failure ⟨.shadowsType name.name, name.span⟩)
  scopes.insert id name.name symbol

/-- Types may have any name, in strict mode as well: declaring a type is inserting it. -/
theorem declare_of_isType {strict : Bool} {id : ScopeId} {name : Ident} {symbol : Symbol} {scopes : Scopes}
    (h : symbol.kind.isType = true) :
    scopes.declare strict id name symbol = scopes.insert id name.name symbol := by
  simp [declare, h]

end Scopes

end TypeInference
