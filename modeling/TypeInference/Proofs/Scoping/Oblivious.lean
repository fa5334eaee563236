import TypeInference.Proofs.Scoping.Erasure
import TypeInference.Proofs.Scoping.Pass

/-!
# `Proofs.Scoping.Oblivious` — the first pass looks at no record

What a tree has recorded before the pass plays no part in it. The pass over a tree and the pass over the same
tree without records open the same scopes and end at the same name, and if neither ends early they leave the same
tree: every record is written anew.

## Contents
* `Same`, `Alike` — two steps that cannot be told apart, with `Same.bind`, `Alike.bind` and `Same.visit`;
* `Expr.annotate_erase`, `Stmt.annotate_erase` — the pass over each kind of node;
* `Program.annotate_alike` — two programs that differ in records only.
-/

namespace TypeInference

namespace ScopingM

variable {α β : Type}

/-! ## Steps -/

/-- The two steps reach the same state as long as the pass goes on, and give the same unless it ends with them. A
    step that ends the pass may leave a tree half visited, with old records in it. -/
structure Same (m m' : ScopingM α) : Prop where
  state : ∀ g, (m ⟨g, none⟩).2 = (m' ⟨g, none⟩).2
  result : ∀ g, (m ⟨g, none⟩).2.halt = none → (m ⟨g, none⟩).1 = (m' ⟨g, none⟩).1

/-- The two steps do the same while the pass goes on, and nothing after its end. -/
structure Alike (m m' : ScopingM α) : Prop extends Same m m' where
  idle : Idle m
  idle' : Idle m'

variable {m m' m'' : ScopingM α} {next next' : α → ScopingM β}

theorem Same.refl (m : ScopingM α) : Same m m := ⟨fun _ => rfl, fun _ _ => rfl⟩

theorem Same.symm (h : Same m m') : Same m' m :=
  ⟨fun g => (h.state g).symm, fun g hhalt => (h.result g (by rwa [h.state])).symm⟩

theorem Same.trans (h : Same m m') (h' : Same m' m'') : Same m m'' where
  state g := (h.state g).trans (h'.state g)
  result g hhalt := (h.result g hhalt).trans (h'.result g (by rwa [← h.state]))

theorem Alike.of_idle (h : Idle m) : Alike m m := ⟨.refl m, h, h⟩

theorem Alike.pure (a : α) : Alike (pure a : ScopingM α) (pure a) := .of_idle fun _ _ => rfl

/-! ### Steps in sequence -/

/-- What two such steps come to: both go on in one state with one result, or both end in one state. -/
theorem Same.cases (h : Same m m') (g : Scopes) :
    (∃ a g', m ⟨g, none⟩ = (a, ⟨g', none⟩) ∧ m' ⟨g, none⟩ = (a, ⟨g', none⟩)) ∨
      ∃ ended, ended.halt ≠ none ∧ (m ⟨g, none⟩).2 = ended ∧ (m' ⟨g, none⟩).2 = ended := by
  have hstate := h.state g
  have hresult := h.result g
  generalize m ⟨g, none⟩ = first at *
  obtain ⟨a, g', halt⟩ := first
  cases halt with
  | none => exact .inl ⟨a, g', rfl, (Prod.ext (hresult rfl) hstate).symm⟩
  | some reason => exact .inr ⟨⟨g', some reason⟩, by simp, rfl, hstate.symm⟩

/-- **Steps one after another.** If the first ends the pass, the results of the second ones are of no account, and
    these may differ. -/
theorem Same.bind (h : Same m m') (hnext : ∀ a, Alike (next a) (next' a)) : Same (m >>= next) (m' >>= next') := by
  refine ⟨fun g => ?_, fun g hhalt => ?_⟩
  · show (next (m ⟨g, none⟩).1 (m ⟨g, none⟩).2).2 = (next' (m' ⟨g, none⟩).1 (m' ⟨g, none⟩).2).2
    rcases h.cases g with ⟨a, g', hm, hm'⟩ | ⟨ended, hended, hm, hm'⟩
    · rw [hm, hm']
      exact (hnext a).state g'
    · rw [hm, hm', (hnext _).idle _ hended, (hnext _).idle' _ hended]
  · replace hhalt : (next (m ⟨g, none⟩).1 (m ⟨g, none⟩).2).2.halt = none := hhalt
    show (next (m ⟨g, none⟩).1 (m ⟨g, none⟩).2).1 = (next' (m' ⟨g, none⟩).1 (m' ⟨g, none⟩).2).1
    rcases h.cases g with ⟨a, g', hm, hm'⟩ | ⟨ended, hended, hm, -⟩
    · rw [hm] at hhalt
      rw [hm, hm']
      exact (hnext a).result g' hhalt
    · rw [hm, (hnext _).idle _ hended] at hhalt
      exact absurd hhalt hended

theorem Alike.bind (h : Alike m m') (hnext : ∀ a, Alike (next a) (next' a)) :
    Alike (m >>= next) (m' >>= next') :=
  ⟨h.toSame.bind hnext, h.idle.bind fun a => (hnext a).idle, h.idle'.bind fun a => (hnext a).idle'⟩

/-- Two nodes are visited alike although they may look different before. -/
theorem Same.visit {visit visit' : ScopingM α} {node node' : α} (h : Same visit visit') :
    Alike (unlessHalted node visit) (unlessHalted node' visit') :=
  ⟨⟨h.state, h.result⟩, idle_unlessHalted _ _, idle_unlessHalted _ _⟩

/-- A scope is opened and filled, and the pass goes on inside. -/
theorem Alike.opening {parent : ScopeId} {fill : ScopeId → ScopingM Unit} {inside inside' : ScopeId → ScopingM α}
    (hfill : ∀ own, Idle (fill own)) (h : ∀ own, Alike (inside own) (inside' own)) :
    Same (do let own ← openScope parent; fill own; inside own)
      (do let own ← openScope parent; fill own; inside' own) :=
  (Same.refl _).bind fun own => (Alike.of_idle (hfill own)).bind fun _ => h own

end ScopingM

open ScopingM

/-! ## Trees -/

/-- A record does not depend on what was recorded before, and this is all that the pass does with a mark. -/
@[simp] theorem Mark.record_erase (mark : Mark) (scope : ScopeId) :
    mark.erase.record scope = mark.record scope := rfl

variable (strict : Bool)

mutual

/-- **The pass over an expression looks at no record.** By recursion on the expression. -/
theorem Expr.annotate_erase : ∀ (e : Expr) (parent : ScopeId),
    Alike (e.erase.annotate strict parent) (e.annotate strict parent)
  | .number _, _ | .string _ _, _ | .bool _ _, _ | .name _ _, _ => by
    rw [Expr.erase, Expr.annotate, Expr.annotate, Mark.record_erase]
    exact (Same.refl _).visit
  | .list _ items, parent | .tuple _ items, parent => by
    rw [Expr.erase, Expr.annotate, Expr.annotate]
    exact ((annotateExprs_erase items parent).bind fun _ => .pure _).visit
  | .map _ entries, parent => by
    rw [Expr.erase, Expr.annotate, Expr.annotate]
    exact ((annotateEntries_erase entries parent).bind fun _ => .pure _).visit
  | .unary _ _ e, parent | .assign _ _ e, parent => by
    rw [Expr.erase, Expr.annotate, Expr.annotate]
    exact ((e.annotate_erase parent).bind fun _ => .pure _).visit
  | .access _ left right, parent | .binary _ _ left right, parent => by
    rw [Expr.erase, Expr.annotate, Expr.annotate]
    exact ((left.annotate_erase parent).bind fun _ =>
      (right.annotate_erase parent).bind fun _ => .pure _).visit
  | .call _ callee args, parent => by
    rw [Expr.erase, Expr.annotate, Expr.annotate]
    exact ((callee.annotate_erase parent).bind fun _ =>
      (annotateExprs_erase args parent).bind fun _ => .pure _).visit
  | .lambda _ _ params body, parent => by
    rw [Expr.erase, Expr.annotate, Expr.annotate]
    exact (Alike.opening (fun own => idle_declareAll strict own _) fun own =>
      (body.annotate_erase own).bind fun _ => .pure _).visit
  | .when _ cond yes no, parent => by
    rw [Expr.erase, Expr.annotate, Expr.annotate]
    exact ((cond.annotate_erase parent).bind fun _ => (yes.annotate_erase parent).bind fun _ =>
      (no.annotate_erase parent).bind fun _ => .pure _).visit

theorem annotateExprs_erase : ∀ (items : List Expr) (parent : ScopeId),
    Alike (annotateExprs strict parent (eraseExprs items)) (annotateExprs strict parent items)
  | [], _ => by
    rw [eraseExprs, annotateExprs]
    exact .pure _
  | e :: rest, parent => by
    rw [eraseExprs, annotateExprs, annotateExprs]
    exact (e.annotate_erase parent).bind fun _ => (annotateExprs_erase rest parent).bind fun _ => .pure _

theorem annotateEntries_erase : ∀ (entries : List (Expr × Expr)) (parent : ScopeId),
    Alike (annotateEntries strict parent (eraseEntries entries)) (annotateEntries strict parent entries)
  | [], _ => by
    rw [eraseEntries, annotateEntries]
    exact .pure _
  | (key, value) :: rest, parent => by
    rw [eraseEntries, annotateEntries, annotateEntries]
    exact (key.annotate_erase parent).bind fun _ => (value.annotate_erase parent).bind fun _ =>
      (annotateEntries_erase rest parent).bind fun _ => .pure _

end

theorem annotateOption_erase (value : Option Expr) (parent : ScopeId) :
    Alike (annotateOption strict parent (value.map Expr.erase)) (annotateOption strict parent value) := by
  cases value with
  | none => exact .pure none
  | some e => exact (e.annotate_erase strict parent).bind fun e' => .pure (some e')

theorem annotateDefs_erase (parent : ScopeId) : ∀ defs : List VarDef,
    Alike ((defs.map VarDef.erase).mapM (VarDef.annotate strict parent)) (defs.mapM (VarDef.annotate strict parent))
  | [] => .pure []
  | d :: rest => by
    rw [List.map_cons, List.mapM_cons, List.mapM_cons]
    exact ((annotateOption_erase strict d.value parent).bind fun value => .pure { d with value }).bind fun _ =>
      (annotateDefs_erase parent rest).bind fun _ => .pure _

/-! ### Statements and programs -/

/-- What a statement declares is written in it, not recorded. -/
theorem Stmt.symbols_erase (stmt : Stmt) : stmt.erase.symbols = stmt.symbols := by
  cases stmt with
  | vars span kind defs =>
    simp only [erase, symbols, declaration?, Declaration.symbols, List.map_map]
    exact List.map_congr_left fun d _ => by simp [VarDef.erase, VarDef.symbol]
  | branch span cond body elifs otherwise => cases otherwise <;> rfl
  | _ => rfl

theorem symbols_eraseStmts (stmts : List Stmt) :
    (eraseStmts stmts).flatMap Stmt.symbols = stmts.flatMap Stmt.symbols := by
  induction stmts with
  | nil => rfl
  | cons stmt rest ih => rw [eraseStmts, List.flatMap_cons, List.flatMap_cons, stmt.symbols_erase, ih]

mutual

/-- **The pass over a statement looks at no record**, by recursion on the statement. -/
theorem Stmt.annotate_erase : ∀ (stmt : Stmt) (parent : ScopeId),
    Alike (stmt.erase.annotate strict parent) (stmt.annotate strict parent)
  | .vars _ _ defs, parent => by
    rw [Stmt.erase, Stmt.annotate, Stmt.annotate]
    exact ((annotateDefs_erase strict parent defs).bind fun _ => .pure _).visit
  | .struct _ _ _, _ | .enum _ _ _, _ | .jump _ _ _, _ => by
    rw [Stmt.erase, Stmt.annotate]
    exact (Same.refl _).visit
  | .function _ _ params _ body, parent => by
    rw [Stmt.erase, Stmt.annotate, Stmt.annotate]
    exact (Alike.opening (fun own => idle_declareAll strict own _) fun own =>
      (body.annotate_erase own).bind fun _ => .pure _).visit
  | .blueprint _ _ body, parent | .trait _ _ body, parent | .block body, parent => by
    rw [Stmt.erase, Stmt.annotate, Stmt.annotate]
    exact ((body.annotate_erase parent).bind fun _ => .pure _).visit
  | .label _ name stmt, parent => by
    rw [Stmt.erase, Stmt.annotate, Stmt.annotate, stmt.symbols_erase]
    exact ((Same.refl _).bind fun own => (Alike.of_idle (idle_attempt _)).bind fun _ =>
      (Alike.of_idle (idle_declareAll strict own _)).bind fun _ =>
        (stmt.annotate_erase own).bind fun _ => .pure _).visit
  | .branch _ cond body elifs none, parent => by
    rw [Stmt.erase, Stmt.annotate, Stmt.annotate]
    exact ((cond.annotate_erase strict parent).bind fun _ => (body.annotate_erase parent).bind fun _ =>
      (annotateElifs_erase elifs parent).bind fun _ => .pure _).visit
  | .branch _ cond body elifs (some last), parent => by
    rw [Stmt.erase, Stmt.annotate, Stmt.annotate]
    exact ((cond.annotate_erase strict parent).bind fun _ => (body.annotate_erase parent).bind fun _ =>
      (annotateElifs_erase elifs parent).bind fun _ => (last.annotate_erase parent).bind fun _ => .pure _).visit
  | .loop _ cond body, parent => by
    rw [Stmt.erase, Stmt.annotate, Stmt.annotate]
    exact ((cond.annotate_erase strict parent).bind fun _ => (body.annotate_erase parent).bind fun _ =>
      .pure _).visit
  | .ret _ value, parent => by
    rw [Stmt.erase, Stmt.annotate, Stmt.annotate]
    exact ((annotateOption_erase strict value parent).bind fun _ => .pure _).visit
  | .expr e, parent => by
    rw [Stmt.erase, Stmt.annotate, Stmt.annotate]
    exact ((e.annotate_erase strict parent).bind fun _ => .pure _).visit

theorem Block.annotate_erase : ∀ (block : Block) (parent : ScopeId),
    Alike (block.erase.annotate strict parent) (block.annotate strict parent)
  | .mk _ stmts, parent => by
    rw [Block.erase, Block.annotate, Block.annotate, symbols_eraseStmts]
    exact (Alike.opening (fun own => idle_declareAll strict own _) fun own =>
      (annotateStmts_erase stmts own).bind fun _ => .pure _).visit

theorem annotateStmts_erase : ∀ (stmts : List Stmt) (parent : ScopeId),
    Alike (annotateStmts strict parent (eraseStmts stmts)) (annotateStmts strict parent stmts)
  | [], _ => by
    rw [eraseStmts, annotateStmts]
    exact .pure _
  | stmt :: rest, parent => by
    rw [eraseStmts, annotateStmts, annotateStmts]
    exact (stmt.annotate_erase parent).bind fun _ => (annotateStmts_erase rest parent).bind fun _ => .pure _

theorem annotateElifs_erase : ∀ (elifs : List Elif) (parent : ScopeId),
    Alike (annotateElifs strict parent (eraseElifs elifs)) (annotateElifs strict parent elifs)
  | [], _ => by
    rw [eraseElifs, annotateElifs]
    exact .pure _
  | .mk _ cond body :: rest, parent => by
    rw [eraseElifs, annotateElifs, annotateElifs]
    exact (cond.annotate_erase strict parent).bind fun _ => (body.annotate_erase parent).bind fun _ =>
      (annotateElifs_erase rest parent).bind fun _ => .pure _

end

/-- The pass over a program looks at no record. -/
theorem Program.annotate_erase (program : Program) (parent : ScopeId) :
    Alike (program.erase.annotate strict parent) (program.annotate strict parent) := by
  rw [Program.annotate, Program.annotate, Program.erase, symbols_eraseStmts]
  exact (Alike.of_idle (idle_declareAll strict parent _)).bind fun _ =>
    (annotateStmts_erase strict program.stmts parent).bind fun _ => .pure _

/-- **Two programs that differ in records only** go through the same pass, for both go through that of the program
    without records. -/
theorem Program.annotate_alike {program other : Program} (h : program.erase = other.erase) (parent : ScopeId) :
    Same (program.annotate strict parent) (other.annotate strict parent) :=
  (program.annotate_erase strict parent).toSame.symm.trans (h ▸ (other.annotate_erase strict parent).toSame)

end TypeInference
