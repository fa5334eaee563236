import TypeInference.Syntax.Expr

/-!
# `Syntax.Stmt` — statements, blocks and programs

Blocks, functions and labels open a scope and carry a `Mark`; the other statements are looked up in the
scope around them and carry a span only.

## Contents
* `VarKind`, `VarDef`, `JumpKind` — the small parts of statements;
* `Stmt`, `Block`, `Elif` — the mutual types of statements;
* `Program` — the statements of one submission.
-/

namespace TypeInference

/-! ## Parts of statements -/

/-- The ways to declare variables. They differ in whether the variable may be assigned again; in everything else the
    three are alike. -/
inductive VarKind
  /-- A variable that may be assigned again. -/
  | mutable
  /-- A variable that keeps its first value. -/
  | constant
  /-- A variable that belongs to a blueprint; it may be assigned again. -/
  | member
  deriving DecidableEq, Repr

/-- The definition of one variable, with its written type and its first value, if any. A statement may define
    several. -/
structure VarDef where
  span : Span
  name : Ident
  signature : Option Signature
  value : Option Expr

/-- The two jumps out of a loop's body. To inference they are the same: either may name a label, which has to be
    visible where the jump stands. -/
inductive JumpKind
  /-- Leaves the loop. -/
  | leave
  /-- Goes on with the next round. -/
  | resume
  deriving DecidableEq, Repr

mutual

/-- A statement. Declarations come first, then statements with parts, then the ways to leave a block, and
    expressions. -/
inductive Stmt
  | vars (span : Span) (kind : VarKind) (defs : List VarDef)
  /-- A named function; the scope of its mark holds the parameters. -/
  | function (mark : Mark) (name : Ident) (params : List Param) (result : Option Signature) (body : Block)
  | blueprint (span : Span) (name : Ident) (body : Block)
  | trait (span : Span) (name : Ident) (body : Block)
  | struct (span : Span) (name : Ident) (fields : List Field)
  | enum (span : Span) (name : Ident) (variants : List Ident)
  /-- A labelled statement; the scope of its mark holds the label. -/
  | label (mark : Mark) (name : Ident) (stmt : Stmt)
  | block (body : Block)
  | branch (span : Span) (cond : Expr) (body : Block) (elifs : List Elif) (otherwise : Option Block)
  | loop (span : Span) (cond : Expr) (body : Block)
  | ret (span : Span) (value : Option Expr)
  | jump (span : Span) (kind : JumpKind) (label : Option Ident)
  | expr (e : Expr)

/-- Statements with a scope of their own, which the mark of the block records. -/
inductive Block
  | mk (mark : Mark) (stmts : List Stmt)

/-- A further condition of a branch, with the block that belongs to it. -/
inductive Elif
  | mk (span : Span) (cond : Expr) (body : Block)

end

/-! ## Marks and places -/

/-- The mark of a block's node, with the scope of its statements. -/
def Block.mark : Block → Mark
  | .mk mark _ => mark

/-- The statements of a block, in the order in which they are written. -/
def Block.stmts : Block → List Stmt
  | .mk _ stmts => stmts

/-- Where a statement stands. -/
def Stmt.span : Stmt → Span
  | .vars span _ _ => span
  | .function mark _ _ _ _ => mark.span
  | .blueprint span _ _ => span
  | .trait span _ _ => span
  | .struct span _ _ => span
  | .enum span _ _ => span
  | .label mark _ _ => mark.span
  | .block body => body.mark.span
  | .branch span _ _ _ _ => span
  | .loop span _ _ => span
  | .ret span _ => span
  | .jump span _ _ => span
  | .expr e => e.span

/-! ## Programs -/

/-- The statements of one submission, and the scope they were declared in, once that is known. The scope of a
    program is the global one of its session. -/
structure Program where
  stmts : List Stmt
  scope : Option ScopeId

end TypeInference
