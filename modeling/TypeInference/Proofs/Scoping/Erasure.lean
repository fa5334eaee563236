import TypeInference.Scoping

/-!
# `Proofs.Scoping.Erasure` — the pass changes nothing but records

Trees are compared without the scopes that their nodes have recorded: `erase` takes the records away. The pass
over a tree leaves the erased tree as it is, wherever it ends.

## Contents
* `Expr.erase`, `Stmt.erase`, `Program.erase` — trees without records;
* `Expr.erase_annotate`, `Stmt.erase_annotate`, `Program.erase_annotate` — the pass keeps them.
-/

namespace TypeInference

/-! ## Trees without records -/

/-- The mark of a node that has not been visited: its place in the text, and no scope. -/
def Mark.erase (mark : Mark) : Mark := .fresh mark.span

mutual

/-- An expression without the scopes it has recorded. Two expressions with one erased tree are the same piece of
    syntax. -/
def Expr.erase : Expr → Expr
  | .number mark => .number mark.erase
  | .string mark value => .string mark.erase value
  | .bool mark value => .bool mark.erase value
  | .name mark id => .name mark.erase id
  | .list mark items => .list mark.erase (eraseExprs items)
  | .map mark entries => .map mark.erase (eraseEntries entries)
  | .tuple mark items => .tuple mark.erase (eraseExprs items)
  | .access mark left index => .access mark.erase left.erase index.erase
  | .unary mark op operand => .unary mark.erase op operand.erase
  | .binary mark op left right => .binary mark.erase op left.erase right.erase
  | .call mark callee args => .call mark.erase callee.erase (eraseExprs args)
  | .lambda mark _ params body => .lambda mark.erase none params body.erase
  | .when mark cond yes no => .when mark.erase cond.erase yes.erase no.erase
  | .assign mark target value => .assign mark.erase target value.erase

def eraseExprs : List Expr → List Expr
  | [] => []
  | e :: rest => e.erase :: eraseExprs rest

def eraseEntries : List (Expr × Expr) → List (Expr × Expr)
  | [] => []
  | (key, value) :: rest => (key.erase, value.erase) :: eraseEntries rest

end

/-- The definition of a variable without the scopes recorded in its first value. -/
def VarDef.erase (d : VarDef) : VarDef := { d with value := d.value.map Expr.erase }

mutual

/-- A statement without the scopes it has recorded, in it and in whatever stands inside. -/
def Stmt.erase : Stmt → Stmt
  | .vars span kind defs => .vars span kind (defs.map VarDef.erase)
  | .function mark name params result body => .function mark.erase name params result body.erase
  | .blueprint span name body => .blueprint span name body.erase
  | .trait span name body => .trait span name body.erase
  | .struct span name fields => .struct span name fields
  | .enum span name variants => .enum span name variants
  | .label mark name stmt => .label mark.erase name stmt.erase
  | .block body => .block body.erase
  | .branch span cond body elifs none => .branch span cond.erase body.erase (eraseElifs elifs) none
  | .branch span cond body elifs (some last) =>
    .branch span cond.erase body.erase (eraseElifs elifs) (some last.erase)
  | .loop span cond body => .loop span cond.erase body.erase
  | .ret span value => .ret span (value.map Expr.erase)
  | .jump span kind label => .jump span kind label
  | .expr e => .expr e.erase

def Block.erase : Block → Block
  | .mk mark stmts => .mk mark.erase (eraseStmts stmts)

def eraseStmts : List Stmt → List Stmt
  | [] => []
  | stmt :: rest => stmt.erase :: eraseStmts rest

def eraseElifs : List Elif → List Elif
  | [] => []
  | .mk span cond body :: rest => .mk span cond.erase body.erase :: eraseElifs rest

end

/-- A program without the scopes it has recorded: what is left is the text. -/
def Program.erase (program : Program) : Program := ⟨eraseStmts program.stmts, none⟩

/-! ## The pass -/

@[simp] theorem Mark.erase_record (mark : Mark) (scope : ScopeId) :
    (mark.record scope).erase = mark.erase := rfl

/-! ### The tree that a step gives -/

namespace ScopingM

variable {α β : Type}

@[simp] theorem fst_pure (a : α) (s : Scoping) : ((pure a : ScopingM α) s).1 = a := rfl

@[simp] theorem fst_bind (m : ScopingM α) (f : α → ScopingM β) (s : Scoping) :
    ((m >>= f) s).1 = (f (m s).1 (m s).2).1 := rfl

@[simp] theorem fst_map (f : α → β) (m : ScopingM α) (s : Scoping) : ((f <$> m) s).1 = f (m s).1 := rfl

/-- What a visit keeps of a node is kept where there is no visit, so each case below only has to look at a visit
    that takes place. -/
theorem erase_unlessHalted (erase : α → β) {node : α} {visit : ScopingM α}
    (h : ∀ s, erase (visit s).1 = erase node) (s : Scoping) :
    erase (unlessHalted node visit s).1 = erase node := by
  unfold unlessHalted
  split
  · rfl
  · exact h s

end ScopingM

open ScopingM

variable (strict : Bool)

/-! ### Expressions -/

mutual

/-- **The pass over an expression changes nothing but records**, from whatever state and under whatever parent. By
    recursion on the expression, with one case for each form. -/
theorem Expr.erase_annotate :
    ∀ (e : Expr) (parent : ScopeId) (s : Scoping), (e.annotate strict parent s).1.erase = e.erase
  | .number _, _, _ | .string _ _, _, _ | .bool _ _, _, _ | .name _ _, _, _ => by
    rw [Expr.annotate]
    exact erase_unlessHalted Expr.erase (fun s => by simp [Expr.erase]) _
  | .list _ items, parent, _ | .tuple _ items, parent, _ => by
    rw [Expr.annotate]
    exact erase_unlessHalted Expr.erase (fun s => by simp [Expr.erase, eraseExprs_annotate items]) _
  | .map _ entries, parent, _ => by
    rw [Expr.annotate]
    exact erase_unlessHalted Expr.erase (fun s => by simp [Expr.erase, eraseEntries_annotate entries]) _
  | .access _ left right, parent, _ | .binary _ _ left right, parent, _ => by
    rw [Expr.annotate]
    exact erase_unlessHalted Expr.erase (fun s => by
      simp [Expr.erase, left.erase_annotate, right.erase_annotate]) _
  | .unary _ _ e, parent, _ | .lambda _ _ _ e, parent, _ | .assign _ _ e, parent, _ => by
    rw [Expr.annotate]
    exact erase_unlessHalted Expr.erase (fun s => by simp [Expr.erase, e.erase_annotate]) _
  | .call _ callee args, parent, _ => by
    rw [Expr.annotate]
    exact erase_unlessHalted Expr.erase (fun s => by
      simp [Expr.erase, callee.erase_annotate, eraseExprs_annotate args]) _
  | .when _ cond yes no, parent, _ => by
    rw [Expr.annotate]
    exact erase_unlessHalted Expr.erase
      (fun s => by simp [Expr.erase, cond.erase_annotate, yes.erase_annotate, no.erase_annotate]) _

theorem eraseExprs_annotate : ∀ (items : List Expr) (parent : ScopeId) (s : Scoping),
    eraseExprs (annotateExprs strict parent items s).1 = eraseExprs items
  | [], _, _ => rfl
  | e :: rest, parent, s => by simp [annotateExprs, eraseExprs, e.erase_annotate, eraseExprs_annotate rest]

theorem eraseEntries_annotate : ∀ (entries : List (Expr × Expr)) (parent : ScopeId) (s : Scoping),
    eraseEntries (annotateEntries strict parent entries s).1 = eraseEntries entries
  | [], _, _ => rfl
  | (key, value) :: rest, parent, s => by
    simp [annotateEntries, eraseEntries, key.erase_annotate, value.erase_annotate, eraseEntries_annotate rest]

end

theorem erase_annotateOption : ∀ (value : Option Expr) (parent : ScopeId) (s : Scoping),
    (annotateOption strict parent value s).1.map Expr.erase = value.map Expr.erase
  | none, _, _ => rfl
  | some e, parent, s => congrArg some (e.erase_annotate strict parent s)

/-- The pass over a definition changes nothing but the records of its value. -/
theorem VarDef.erase_annotate (d : VarDef) (parent : ScopeId) (s : Scoping) :
    (d.annotate strict parent s).1.erase = d.erase := by
  simp [VarDef.annotate, VarDef.erase, erase_annotateOption]

theorem erase_annotateDefs : ∀ (defs : List VarDef) (parent : ScopeId) (s : Scoping),
    (defs.mapM (VarDef.annotate strict parent) s).1.map VarDef.erase = defs.map VarDef.erase
  | [], _, _ => rfl
  | d :: rest, parent, s => by simp [List.mapM_cons, d.erase_annotate, erase_annotateDefs rest]

/-! ### Statements and programs -/

mutual

/-- **The pass over a statement changes nothing but records**, by recursion on the statement; declarations that are
    refused on the way make no difference to the tree. -/
theorem Stmt.erase_annotate : ∀ (stmt : Stmt) (parent : ScopeId) (s : Scoping),
    (stmt.annotate strict parent s).1.erase = stmt.erase
  | .vars _ _ defs, parent, _ => by
    rw [Stmt.annotate]
    exact erase_unlessHalted Stmt.erase (fun s => by simp [Stmt.erase, erase_annotateDefs strict defs]) _
  | .struct _ _ _, _, _ | .enum _ _ _, _, _ | .jump _ _ _, _, _ => by
    rw [Stmt.annotate]
    exact erase_unlessHalted Stmt.erase (fun s => by simp) _
  | .function _ _ _ _ body, parent, _ | .blueprint _ _ body, parent, _ | .trait _ _ body, parent, _
  | .block body, parent, _ => by
    rw [Stmt.annotate]
    exact erase_unlessHalted Stmt.erase (fun s => by simp [Stmt.erase, body.erase_annotate]) _
  | .label _ _ stmt, parent, _ => by
    rw [Stmt.annotate]
    exact erase_unlessHalted Stmt.erase (fun s => by simp [Stmt.erase, stmt.erase_annotate]) _
  | .branch _ cond body elifs none, parent, _ => by
    rw [Stmt.annotate]
    exact erase_unlessHalted Stmt.erase
      (fun s => by simp [Stmt.erase, cond.erase_annotate, body.erase_annotate, eraseElifs_annotate elifs]) _
  | .branch _ cond body elifs (some last), parent, _ => by
    rw [Stmt.annotate]
    exact erase_unlessHalted Stmt.erase (fun s => by
      simp [Stmt.erase, cond.erase_annotate, body.erase_annotate, eraseElifs_annotate elifs,
        last.erase_annotate]) _
  | .loop _ cond body, parent, _ => by
    rw [Stmt.annotate]
    exact erase_unlessHalted Stmt.erase (fun s => by
      simp [Stmt.erase, cond.erase_annotate, body.erase_annotate]) _
  | .ret _ value, parent, _ => by
    rw [Stmt.annotate]
    exact erase_unlessHalted Stmt.erase (fun s => by simp [Stmt.erase, erase_annotateOption strict value]) _
  | .expr e, parent, _ => by
    rw [Stmt.annotate]
    exact erase_unlessHalted Stmt.erase (fun s => by simp [Stmt.erase, e.erase_annotate]) _

theorem Block.erase_annotate : ∀ (block : Block) (parent : ScopeId) (s : Scoping),
    (block.annotate strict parent s).1.erase = block.erase
  | .mk _ stmts, parent, _ => by
    rw [Block.annotate]
    exact erase_unlessHalted Block.erase (fun s => by simp [Block.erase, eraseStmts_annotate stmts]) _

theorem eraseStmts_annotate : ∀ (stmts : List Stmt) (parent : ScopeId) (s : Scoping),
    eraseStmts (annotateStmts strict parent stmts s).1 = eraseStmts stmts
  | [], _, _ => rfl
  | stmt :: rest, parent, s => by
    simp [annotateStmts, eraseStmts, stmt.erase_annotate, eraseStmts_annotate rest]

theorem eraseElifs_annotate : ∀ (elifs : List Elif) (parent : ScopeId) (s : Scoping),
    eraseElifs (annotateElifs strict parent elifs s).1 = eraseElifs elifs
  | [], _, _ => rfl
  | .mk _ cond body :: rest, parent, s => by
    simp [annotateElifs, eraseElifs, cond.erase_annotate, body.erase_annotate, eraseElifs_annotate rest]

end

/-- **The pass over a program changes nothing but records.** What the analysis reads of a tree besides is what its
    author wrote. -/
theorem Program.erase_annotate (program : Program) (parent : ScopeId) (s : Scoping) :
    (program.annotate strict parent s).1.erase = program.erase := by
  simp [Program.annotate, Program.erase, eraseStmts_annotate]

end TypeInference
