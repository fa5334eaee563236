import TypeInference.Syntax.Operator
import TypeInference.Syntax.Signature

/-!
# `Syntax.Expr` — expressions

One constructor a form; each carries the `Mark` of its node. A lambda opens a scope of its own and
remembers it beside the scope it stands in. The numeric value of a number literal plays no part in typing
and is not kept.
-/

namespace TypeInference

/-! ## Expressions -/

/-- An expression. Its children stand in the scope of its mark, but for the body of a lambda, which stands in the
    scope that the lambda opens. -/
inductive Expr
  | number (mark : Mark)
  | string (mark : Mark) (value : String)
  | bool (mark : Mark) (value : Bool)
  | name (mark : Mark) (id : Ident)
  | list (mark : Mark) (items : List Expr)
  | map (mark : Mark) (entries : List (Expr × Expr))
  | tuple (mark : Mark) (items : List Expr)
  /-- The component of a string, list or map at an index. -/
  | access (mark : Mark) (left index : Expr)
  | unary (mark : Mark) (op : UnaryOp) (operand : Expr)
  | binary (mark : Mark) (op : BinaryOp) (left right : Expr)
  | call (mark : Mark) (callee : Expr) (args : List Expr)
  /-- A function without a name; `own` is the scope of its parameters. -/
  | lambda (mark : Mark) (own : Option ScopeId) (params : List Param) (body : Expr)
  /-- One of two expressions, by a condition. -/
  | when (mark : Mark) (cond yes no : Expr)
  | assign (mark : Mark) (target : Ident) (value : Expr)

/-! ## What every node keeps -/

/-- The mark of an expression's node, which every kind of expression has. -/
def Expr.mark : Expr → Mark
  | .number mark => mark
  | .string mark _ => mark
  | .bool mark _ => mark
  | .name mark _ => mark
  | .list mark _ => mark
  | .map mark _ => mark
  | .tuple mark _ => mark
  | .access mark _ _ => mark
  | .unary mark _ _ => mark
  | .binary mark _ _ _ => mark
  | .call mark _ _ => mark
  | .lambda mark _ _ _ => mark
  | .when mark _ _ _ => mark
  | .assign mark _ _ => mark

/-- Where an expression stands; refusals that are about the expression are placed here. -/
def Expr.span (e : Expr) : Span := e.mark.span

end TypeInference
