import TypeInference.Proofs.Scoping.Annotation

/-!
# `Proofs.Scoping.Relocation` — the first pass looks at no scope but its own

Without strict mode, what the pass does with a tree depends on nothing but the number of scopes there are: it
records that number and the next ones. In an arena with more scopes the same pass opens the same scopes further on,
and records them where they are. In an arena with as many scopes it does just the same, so programs can be scoped
one after another or all at once.

## Contents
* `Expr.relocate`, `Stmt.relocate`, `Program.relocate` — trees whose scopes are at other places;
* `Scopes.append` — further scopes at the end;
* `Relocates` — steps that do the same elsewhere, with `Relocates.bind` and `Relocates.opening`;
* `Expr.annotate_relocates`, `Stmt.annotate_relocates` — the pass over each kind of node;
* `annotateStmts_relocates`, `annotateStmts_same` — statements.
-/

namespace TypeInference

/-! ## Trees at other places -/

section Relocate

variable (place : ScopeId → ScopeId)

/-- The mark of a node whose scope is at another place; a mark without a scope is as it was. -/
def Mark.relocate (mark : Mark) : Mark := { mark with scope := mark.scope.map place }

mutual

/-- An expression whose scopes are at other places. Nothing else in it changes, for names are written and not
    numbered. -/
def Expr.relocate : Expr → Expr
  | .number mark => .number (mark.relocate place)
  | .string mark value => .string (mark.relocate place) value
  | .bool mark value => .bool (mark.relocate place) value
  | .name mark id => .name (mark.relocate place) id
  | .list mark items => .list (mark.relocate place) (relocateExprs items)
  | .map mark entries => .map (mark.relocate place) (relocateEntries entries)
  | .tuple mark items => .tuple (mark.relocate place) (relocateExprs items)
  | .access mark left index => .access (mark.relocate place) left.relocate index.relocate
  | .unary mark op operand => .unary (mark.relocate place) op operand.relocate
  | .binary mark op left right => .binary (mark.relocate place) op left.relocate right.relocate
  | .call mark callee args => .call (mark.relocate place) callee.relocate (relocateExprs args)
  | .lambda mark own params body => .lambda (mark.relocate place) (own.map place) params body.relocate
  | .when mark cond yes no => .when (mark.relocate place) cond.relocate yes.relocate no.relocate
  | .assign mark target value => .assign (mark.relocate place) target value.relocate

def relocateExprs : List Expr → List Expr
  | [] => []
  | e :: rest => e.relocate :: relocateExprs rest

def relocateEntries : List (Expr × Expr) → List (Expr × Expr)
  | [] => []
  | (key, value) :: rest => (key.relocate, value.relocate) :: relocateEntries rest

end

/-- The definition of a variable, with the scopes of its first value at other places. -/
def VarDef.relocate (d : VarDef) : VarDef := { d with value := d.value.map (Expr.relocate place) }

mutual

/-- A statement whose scopes are at other places, with those of everything inside. -/
def Stmt.relocate : Stmt → Stmt
  | .vars span kind defs => .vars span kind (defs.map (VarDef.relocate place))
  | .function mark name params result body => .function (mark.relocate place) name params result body.relocate
  | .blueprint span name body => .blueprint span name body.relocate
  | .trait span name body => .trait span name body.relocate
  | .struct span name fields => .struct span name fields
  | .enum span name variants => .enum span name variants
  | .label mark name stmt => .label (mark.relocate place) name stmt.relocate
  | .block body => .block body.relocate
  | .branch span cond body elifs none => .branch span (cond.relocate place) body.relocate (relocateElifs elifs) none
  | .branch span cond body elifs (some last) =>
    .branch span (cond.relocate place) body.relocate (relocateElifs elifs) (some last.relocate)
  | .loop span cond body => .loop span (cond.relocate place) body.relocate
  | .ret span value => .ret span (value.map (Expr.relocate place))
  | .jump span kind label => .jump span kind label
  | .expr e => .expr (e.relocate place)

def Block.relocate : Block → Block
  | .mk mark stmts => .mk (mark.relocate place) (relocateStmts stmts)

def relocateStmts : List Stmt → List Stmt
  | [] => []
  | stmt :: rest => stmt.relocate :: relocateStmts rest

def relocateElifs : List Elif → List Elif
  | [] => []
  | .mk span cond body :: rest => .mk span (cond.relocate place) body.relocate :: relocateElifs rest

end

/-- A program whose scopes are at other places, its own one included. -/
def Program.relocate (program : Program) : Program := ⟨relocateStmts place program.stmts, program.scope.map place⟩

/-- A scope inside one that is at another place. Its names need no change, since they have no types while the pass
    is going on. -/
def Scope.relocate (scope : Scope) : Scope := { scope with parent := scope.parent.map place }

end Relocate

/-! ### Where everything stays -/

@[simp] theorem Mark.relocate_id (mark : Mark) : mark.relocate id = mark := by
  rw [relocate, Option.map_id]
  rfl

mutual

/-- Nothing is different where every scope stays. -/
@[simp] theorem Expr.relocate_id : ∀ e : Expr, e.relocate id = e
  | .number _ | .string _ _ | .bool _ _ | .name _ _ => by simp [Expr.relocate]
  | .list _ items | .tuple _ items => by simp [Expr.relocate, relocateExprs_id items]
  | .map _ entries => by simp [Expr.relocate, relocateEntries_id entries]
  | .access _ left right | .binary _ _ left right => by simp [Expr.relocate, left.relocate_id, right.relocate_id]
  | .unary _ _ e | .assign _ _ e => by simp [Expr.relocate, e.relocate_id]
  | .call _ callee args => by simp [Expr.relocate, callee.relocate_id, relocateExprs_id args]
  | .lambda _ own _ body => by simp [Expr.relocate, body.relocate_id]
  | .when _ cond yes no => by simp [Expr.relocate, cond.relocate_id, yes.relocate_id, no.relocate_id]

theorem relocateExprs_id : ∀ items : List Expr, relocateExprs id items = items
  | [] => rfl
  | e :: rest => by rw [relocateExprs, e.relocate_id, relocateExprs_id rest]

theorem relocateEntries_id : ∀ entries : List (Expr × Expr), relocateEntries id entries = entries
  | [] => rfl
  | (key, value) :: rest => by rw [relocateEntries, key.relocate_id, value.relocate_id, relocateEntries_id rest]

end

theorem relocate_id_expr : Expr.relocate id = id := funext Expr.relocate_id

@[simp] theorem VarDef.relocate_id (d : VarDef) : d.relocate id = d := by
  rw [relocate, relocate_id_expr, Option.map_id]
  rfl

mutual

theorem Stmt.relocate_id : ∀ stmt : Stmt, stmt.relocate id = stmt
  | .vars _ _ defs => by
    rw [Stmt.relocate, show VarDef.relocate id = id from funext VarDef.relocate_id, List.map_id]
  | .function _ _ _ _ body => by rw [Stmt.relocate, body.relocate_id, Mark.relocate_id]
  | .blueprint _ _ body | .trait _ _ body | .block body => by rw [Stmt.relocate, body.relocate_id]
  | .struct _ _ _ | .enum _ _ _ | .jump _ _ _ => rfl
  | .label _ _ stmt => by rw [Stmt.relocate, stmt.relocate_id, Mark.relocate_id]
  | .branch _ cond body elifs none => by rw [Stmt.relocate, cond.relocate_id, body.relocate_id, relocateElifs_id elifs]
  | .branch _ cond body elifs (some last) => by
    rw [Stmt.relocate, cond.relocate_id, body.relocate_id, relocateElifs_id elifs, last.relocate_id]
  | .loop _ cond body => by rw [Stmt.relocate, cond.relocate_id, body.relocate_id]
  | .ret _ value => by rw [Stmt.relocate, relocate_id_expr, Option.map_id]; rfl
  | .expr e => by rw [Stmt.relocate, e.relocate_id]

theorem Block.relocate_id : ∀ block : Block, block.relocate id = block
  | .mk _ stmts => by rw [Block.relocate, relocateStmts_id stmts, Mark.relocate_id]

theorem relocateStmts_id : ∀ stmts : List Stmt, relocateStmts id stmts = stmts
  | [] => rfl
  | stmt :: rest => by rw [relocateStmts, stmt.relocate_id, relocateStmts_id rest]

theorem relocateElifs_id : ∀ elifs : List Elif, relocateElifs id elifs = elifs
  | [] => rfl
  | .mk _ cond body :: rest => by rw [relocateElifs, cond.relocate_id, body.relocate_id, relocateElifs_id rest]

end

theorem Scope.relocate_id : Scope.relocate id = id := by
  funext scope
  rw [relocate, Option.map_id]
  rfl

/-! ## Scopes at the end -/

/-- The arena with further scopes at the end. Scopes refer to each other by number, so the further ones may stand
    inside the earlier ones. -/
def Scopes.append (g : Scopes) (new : Array Scope) : Scopes := ⟨g.toArray ++ new⟩

namespace Scopes

@[simp] theorem size_append (g : Scopes) (new : Array Scope) : (g.append new).size = g.size + new.size := by
  simp [append, size]

@[simp] theorem append_empty (g : Scopes) : g.append #[] = g := by simp [append]

theorem append_append (g : Scopes) (new more : Array Scope) :
    (g.append new).append more = g.append (new ++ more) := by
  simp [append, Array.append_assoc]

theorem allocate_eq_append (g : Scopes) (scope : Scope) : (g.allocate scope).2 = g.append #[scope] :=
  congrArg Scopes.mk Array.push_eq_append

theorem scopeAt_append (g : Scopes) (new : Array Scope) (id : ScopeId) :
    (g.append new).scopeAt id = if id.index < g.size then g.scopeAt id else new[id.index - g.size]? := by
  simp only [scopeAt, append, Array.getElem?_append]
  rfl

end Scopes

namespace ScopingM

open Scopes

variable {α β : Type} {parent : ScopeId}

/-! ## Steps -/

/-- The scopes from the number `start` on are `gap` places further on; nothing is said of those before. -/
def Shifts (place : ScopeId → ScopeId) (start gap : Nat) : Prop := ∀ n, start ≤ n → place ⟨n⟩ = ⟨n + gap⟩

/-- The steps change nothing once the pass has ended. If the first one does not end it, it has added scopes, and in
    any arena that has `gap` scopes more the second one adds the same, and gives the same, at the other places. -/
structure Relocates (place : ScopeId → ScopeId) (start gap : Nat) (f : α → α) (m m' : ScopingM α) : Prop where
  idle : Idle m
  same : Shifts place start gap → ∀ g h : Scopes, start ≤ g.size → h.size = g.size + gap → ∀ a g',
    m ⟨g, none⟩ = (a, ⟨g', none⟩) → ∃ new, g' = g.append new ∧
      m' ⟨h, none⟩ = (f a, ⟨h.append (new.map (Scope.relocate place)), none⟩)

variable {place : ScopeId → ScopeId} {start gap : Nat} {f : α → α} {f' : β → β} {m m' : ScopingM α}
  {next next' : α → ScopingM β}

theorem Relocates.pure {a a' : α} (ha : f a = a') :
    Relocates place start gap f (pure a : ScopingM α) (pure a') := by
  refine ⟨fun _ _ => rfl, fun _ g h _ _ b g' hrun => ?_⟩
  cases hrun
  exact ⟨#[], by simp, by rw [Array.map_empty, append_empty, ha]; rfl⟩

/-- Steps one after another. The first adds scopes on both sides, and as many, so the second again runs in arenas
    that differ by the gap. -/
theorem Relocates.bind (hm : Relocates place start gap f m m')
    (hnext : ∀ a, Relocates place start gap f' (next a) (next' (f a))) :
    Relocates place start gap f' (m >>= next) (m' >>= next') := by
  refine ⟨hm.idle.bind fun a => (hnext a).idle, fun hplace g h hstart hsize b g'' hrun => ?_⟩
  replace hrun : next (m ⟨g, none⟩).1 (m ⟨g, none⟩).2 = (b, ⟨g'', none⟩) := hrun
  show ∃ new, _ ∧ next' (m' ⟨h, none⟩).1 (m' ⟨h, none⟩).2 = _
  rcases hfirst : m ⟨g, none⟩ with ⟨a, g', _ | reason⟩
  · rw [hfirst] at hrun
    obtain ⟨new, rfl, hfirst'⟩ := hm.same hplace g h hstart hsize a g' hfirst
    have hsize' : (h.append (new.map (Scope.relocate place))).size = (g.append new).size + gap := by
      rw [size_append, size_append, Array.size_map, hsize, Nat.add_right_comm]
    obtain ⟨more, rfl, hrest'⟩ := (hnext a).same hplace (g.append new) (h.append (new.map (Scope.relocate place)))
      (by rw [size_append]; exact hstart.trans (Nat.le_add_right _ _)) hsize' b g'' hrun
    exact ⟨new ++ more, append_append g new more, by rw [hfirst', hrest', append_append, Array.map_append]⟩
  · -- The pass has ended with the first step, and the second is idle.
    rw [hfirst] at hrun
    have hidle := (hnext a).idle ⟨g', some reason⟩ (by simp)
    rw [hrun] at hidle
    cases hidle

theorem Relocates.visit {visit visit' : ScopingM α} {node node' : α}
    (h : Shifts place start gap → ∀ g h : Scopes, start ≤ g.size → h.size = g.size + gap →
      ∀ a g', visit ⟨g, none⟩ = (a, ⟨g', none⟩) →
        ∃ new, g' = g.append new ∧ visit' ⟨h, none⟩ = (f a, ⟨h.append (new.map (Scope.relocate place)), none⟩)) :
    Relocates place start gap f (unlessHalted node visit) (unlessHalted node' visit') :=
  ⟨idle_unlessHalted node visit, h⟩

theorem Relocates.node {node node' : α} (h : Relocates place start gap f m m') :
    Relocates place start gap f (unlessHalted node m) (unlessHalted node' m') :=
  .visit h.same

/-! ### Filling a scope -/

/-- Whether a name is new decides whether it can be inserted, and this is seen in the table of the scope. -/
theorem insert_last (g : Scopes) (outer : Option ScopeId) (table : Table) (name : String) (symbol : Symbol) :
    (g.append #[⟨outer, table⟩]).insert ⟨g.size⟩ name symbol =
      match table.find? name with
      | some _ => .error (.failure ⟨.duplicate symbol.kind name, symbol.span⟩)
      | none => .ok (g.append #[⟨outer, table.insert name symbol⟩]) := by
  have hget : (g.append #[⟨outer, table⟩]).get ⟨g.size⟩ = .ok ⟨outer, table⟩ :=
    get_eq_ok_iff_scopeAt.mpr (by simp [scopeAt_append])
  simp only [Scopes.insert, getLocal, Scopes.table, hget, Except.map_ok, Halt.ofQuery, ok_bind]
  cases table.find? name with
  | some _ => rfl
  | none =>
    have harray (x y : Scope) : (g.toArray ++ #[x]).setIfInBounds g.size y = g.toArray ++ #[y] := by
      rw [size, Array.setIfInBounds_append_right (Nat.le_refl _)]
      simp
    simp only [mapTable, hget, ok_bind]
    exact congrArg (fun array => Except.ok (Scopes.mk array)) (harray _ _)

/-- **Filling the last scope** depends on the names only, neither on the arena in front of it nor on what is around. -/
theorem declareAll_last : ∀ (symbols : List (Ident × Symbol)) (table : Table),
    ∃ filled halt, ∀ (outer : Option ScopeId) (g : Scopes),
      declareAll false ⟨g.size⟩ symbols ⟨g.append #[⟨outer, table⟩], none⟩ =
        ((), ⟨g.append #[⟨outer, filled⟩], halt⟩)
  | [], table => ⟨table, none, fun _ _ => rfl⟩
  | entry :: symbols, table => by
    have hstep : ∀ (outer : Option ScopeId) (g : Scopes),
        declareAll false ⟨g.size⟩ (entry :: symbols) ⟨g.append #[⟨outer, table⟩], none⟩ =
        declareAll false ⟨g.size⟩ symbols
          (attempt (·.insert ⟨g.size⟩ entry.1.name entry.2) ⟨g.append #[⟨outer, table⟩], none⟩).2 :=
      fun _ _ => rfl
    cases hfind : table.find? entry.1.name with
    | some found =>
      refine ⟨table, some (.failure ⟨.duplicate entry.2.kind entry.1.name, entry.2.span⟩), fun outer g => ?_⟩
      have hinsert := insert_last g outer table entry.1.name entry.2
      rw [hfind] at hinsert
      rw [hstep, attempt_of_error hinsert]
      exact Prod.ext rfl (idle_declareAll false _ symbols _ (by simp))
    | none =>
      obtain ⟨filled, halt, hrest⟩ := declareAll_last symbols (table.insert entry.1.name entry.2)
      refine ⟨filled, halt, fun outer g => ?_⟩
      have hinsert := insert_last g outer table entry.1.name entry.2
      rw [hfind] at hinsert
      rw [hstep, attempt_of_ok hinsert, hrest]

/-- **A scope is opened and filled**, and the pass goes on inside. -/
theorem Relocates.opening (symbols : List (Ident × Symbol)) {inside inside' : ScopeId → ScopingM α} {node node' : α}
    (hinside : ∀ own, Relocates place start gap f (inside own) (inside' (place own))) :
    Relocates place start gap f
      (unlessHalted node do
        let own ← openScope parent
        declareAll false own symbols
        inside own)
      (unlessHalted node' do
        let own ← openScope (place parent)
        declareAll false own symbols
        inside' own) := by
  refine .visit fun hplace g h hstart hsize a g' hrun => ?_
  obtain ⟨filled, halt, hfill⟩ := declareAll_last symbols []
  -- Filling the new scope with declarations does the same wherever the scope stands.
  have hafter : ∀ (outer : ScopeId) (inside : ScopeId → ScopingM α) (g : Scopes), (do
      let own ← openScope outer
      declareAll false own symbols
      inside own : ScopingM α) ⟨g, none⟩ = inside ⟨g.size⟩ ⟨g.append #[⟨some outer, filled⟩], halt⟩ := by
    intro outer inside g
    show inside ⟨g.size⟩ (declareAll false ⟨g.size⟩ symbols ⟨(g.openChild outer).2, none⟩).2 = _
    rw [openChild, allocate_eq_append, hfill]
  rw [hafter] at hrun ⊢
  cases halt with
  | some reason =>
    have hidle := (hinside ⟨g.size⟩).idle ⟨g.append #[⟨some parent, filled⟩], some reason⟩ (by simp)
    rw [hrun] at hidle
    cases hidle
  | none =>
    have hown : place ⟨g.size⟩ = ⟨h.size⟩ := (hplace _ hstart).trans (by rw [hsize])
    obtain ⟨new, rfl, hinside'⟩ := (hinside ⟨g.size⟩).same hplace (g.append #[⟨some parent, filled⟩])
      (h.append #[⟨some (place parent), filled⟩]) (by rw [size_append]; exact hstart.trans (Nat.le_add_right _ _))
      (by simp [hsize, Nat.add_right_comm]) a g' hrun
    refine ⟨#[⟨some parent, filled⟩] ++ new, append_append _ _ _, ?_⟩
    rw [← hown, hinside', append_append, Array.map_append, Array.map_singleton]
    rfl

end ScopingM

open ScopingM

/-! ## The pass -/

variable {place : ScopeId → ScopeId} {start gap : Nat}

mutual

/-- **The pass over an expression** does the same elsewhere. By recursion on the expression, for all places at once. -/
theorem Expr.annotate_relocates : ∀ (e : Expr) (parent : ScopeId),
    Relocates place start gap (Expr.relocate place) (e.annotate false parent) (e.annotate false (place parent))
  | .number _, _ | .string _ _, _ | .bool _ _, _ | .name _ _, _ => by
    rw [Expr.annotate, Expr.annotate]
    exact .node <| .pure rfl
  | .list _ items, parent | .tuple _ items, parent => by
    rw [Expr.annotate, Expr.annotate]
    exact .node <| (annotateExprs_relocates items parent).bind fun _ => .pure rfl
  | .map _ entries, parent => by
    rw [Expr.annotate, Expr.annotate]
    exact .node <| (annotateEntries_relocates entries parent).bind fun _ => .pure rfl
  | .unary _ _ e, parent | .assign _ _ e, parent => by
    rw [Expr.annotate, Expr.annotate]
    exact .node <| (e.annotate_relocates parent).bind fun _ => .pure rfl
  | .access _ left right, parent | .binary _ _ left right, parent => by
    rw [Expr.annotate, Expr.annotate]
    exact .node <| (left.annotate_relocates parent).bind fun _ =>
      (right.annotate_relocates parent).bind fun _ => .pure rfl
  | .call _ callee args, parent => by
    rw [Expr.annotate, Expr.annotate]
    exact .node <| (callee.annotate_relocates parent).bind fun _ =>
      (annotateExprs_relocates args parent).bind fun _ => .pure rfl
  | .lambda _ _ params body, parent => by
    rw [Expr.annotate, Expr.annotate]
    exact .opening _ fun own => (body.annotate_relocates own).bind fun _ => .pure rfl
  | .when _ cond yes no, parent => by
    rw [Expr.annotate, Expr.annotate]
    exact .node <| (cond.annotate_relocates parent).bind fun _ => (yes.annotate_relocates parent).bind fun _ =>
      (no.annotate_relocates parent).bind fun _ => .pure rfl

theorem annotateExprs_relocates : ∀ (items : List Expr) (parent : ScopeId),
    Relocates place start gap (relocateExprs place) (annotateExprs false parent items)
      (annotateExprs false (place parent) items)
  | [], _ => by
    rw [annotateExprs, annotateExprs]
    exact .pure rfl
  | e :: rest, parent => by
    rw [annotateExprs, annotateExprs]
    exact (e.annotate_relocates parent).bind fun _ =>
      (annotateExprs_relocates rest parent).bind fun _ => .pure rfl

theorem annotateEntries_relocates : ∀ (entries : List (Expr × Expr)) (parent : ScopeId),
    Relocates place start gap (relocateEntries place) (annotateEntries false parent entries)
      (annotateEntries false (place parent) entries)
  | [], _ => by
    rw [annotateEntries, annotateEntries]
    exact .pure rfl
  | (key, value) :: rest, parent => by
    rw [annotateEntries, annotateEntries]
    exact (key.annotate_relocates parent).bind fun _ => (value.annotate_relocates parent).bind fun _ =>
      (annotateEntries_relocates rest parent).bind fun _ => .pure rfl

end

theorem annotateOption_relocates (value : Option Expr) (parent : ScopeId) :
    Relocates place start gap (Option.map (Expr.relocate place)) (annotateOption false parent value)
      (annotateOption false (place parent) value) := by
  cases value with
  | none => exact .pure rfl
  | some e =>
    show Relocates place start gap _ (e.annotate false parent >>= fun e => pure (some e))
      (e.annotate false (place parent) >>= fun e => pure (some e))
    exact (e.annotate_relocates parent).bind fun _ => .pure rfl

theorem annotateDefs_relocates (parent : ScopeId) : ∀ defs : List VarDef,
    Relocates place start gap (List.map (VarDef.relocate place)) (defs.mapM (·.annotate false parent))
      (defs.mapM (·.annotate false (place parent)))
  | [] => .pure rfl
  | d :: rest => by
    have hd : Relocates place start gap (VarDef.relocate place) (d.annotate false parent)
        (d.annotate false (place parent)) :=
      (annotateOption_relocates d.value parent).bind fun _ => .pure rfl
    rw [List.mapM_cons, List.mapM_cons]
    exact hd.bind fun _ => (annotateDefs_relocates parent rest).bind fun _ => .pure rfl

/-! ### Statements -/

mutual

/-- **The pass over a statement** does the same elsewhere, by recursion on the statement. -/
theorem Stmt.annotate_relocates : ∀ (stmt : Stmt) (parent : ScopeId),
    Relocates place start gap (Stmt.relocate place) (stmt.annotate false parent) (stmt.annotate false (place parent))
  | .vars _ _ defs, parent => by
    rw [Stmt.annotate, Stmt.annotate]
    exact .node <| (annotateDefs_relocates parent defs).bind fun _ => .pure rfl
  | .function _ _ params _ body, parent => by
    rw [Stmt.annotate, Stmt.annotate]
    exact .opening _ fun own => (body.annotate_relocates own).bind fun _ => .pure rfl
  | .blueprint _ _ body, parent | .trait _ _ body, parent | .block body, parent => by
    rw [Stmt.annotate, Stmt.annotate]
    exact .node <| (body.annotate_relocates parent).bind fun _ => .pure rfl
  | .struct _ _ _, _ | .enum _ _ _, _ | .jump _ _ _, _ => by
    rw [Stmt.annotate, Stmt.annotate]
    exact .node <| .pure rfl
  | .label mark name stmt, parent => by
    rw [Stmt.annotate, Stmt.annotate]
    -- The label and what the statement declares are one list of names in the scope of the label.
    let inside : ScopeId → ScopingM Stmt := fun own => do
      let inner ← stmt.annotate false own
      pure (.label (mark.record own) name inner)
    have hinside : ∀ own, Relocates place start gap (Stmt.relocate place) (inside own) (inside (place own)) :=
      fun own => (stmt.annotate_relocates own).bind fun _ => .pure rfl
    exact .opening ((name, .declared .label name.span) :: stmt.symbols) hinside
  | .branch _ cond body elifs none, parent => by
    rw [Stmt.annotate, Stmt.annotate]
    exact .node <| (cond.annotate_relocates parent).bind fun _ => (body.annotate_relocates parent).bind fun _ =>
      (annotateElifs_relocates elifs parent).bind fun _ => .pure rfl
  | .branch _ cond body elifs (some last), parent => by
    rw [Stmt.annotate, Stmt.annotate]
    exact .node <| (cond.annotate_relocates parent).bind fun _ => (body.annotate_relocates parent).bind fun _ =>
      (annotateElifs_relocates elifs parent).bind fun _ =>
        (last.annotate_relocates parent).bind fun _ => .pure rfl
  | .loop _ cond body, parent => by
    rw [Stmt.annotate, Stmt.annotate]
    exact .node <| (cond.annotate_relocates parent).bind fun _ =>
      (body.annotate_relocates parent).bind fun _ => .pure rfl
  | .ret _ value, parent => by
    rw [Stmt.annotate, Stmt.annotate]
    exact .node <| (annotateOption_relocates value parent).bind fun _ => .pure rfl
  | .expr e, parent => by
    rw [Stmt.annotate, Stmt.annotate]
    exact .node <| (e.annotate_relocates parent).bind fun _ => .pure rfl

theorem Block.annotate_relocates : ∀ (block : Block) (parent : ScopeId),
    Relocates place start gap (Block.relocate place) (block.annotate false parent)
      (block.annotate false (place parent))
  | .mk _ stmts, parent => by
    rw [Block.annotate, Block.annotate]
    exact .opening _ fun own => (annotateStmts_relocates stmts own).bind fun _ => .pure rfl

theorem annotateStmts_relocates : ∀ (stmts : List Stmt) (parent : ScopeId),
    Relocates place start gap (relocateStmts place) (annotateStmts false parent stmts)
      (annotateStmts false (place parent) stmts)
  | [], _ => by
    rw [annotateStmts, annotateStmts]
    exact .pure rfl
  | stmt :: rest, parent => by
    rw [annotateStmts, annotateStmts]
    exact (stmt.annotate_relocates parent).bind fun _ =>
      (annotateStmts_relocates rest parent).bind fun _ => .pure rfl

theorem annotateElifs_relocates : ∀ (elifs : List Elif) (parent : ScopeId),
    Relocates place start gap (relocateElifs place) (annotateElifs false parent elifs)
      (annotateElifs false (place parent) elifs)
  | [], _ => by
    rw [annotateElifs, annotateElifs]
    exact .pure rfl
  | .mk _ cond body :: rest, parent => by
    rw [annotateElifs, annotateElifs]
    exact (cond.annotate_relocates parent).bind fun _ => (body.annotate_relocates parent).bind fun _ =>
      (annotateElifs_relocates rest parent).bind fun _ => .pure rfl

end

/-- Once the pass has ended, it changes nothing. -/
theorem idle_annotateStmts (stmts : List Stmt) (parent : ScopeId) : Idle (annotateStmts false parent stmts) :=
  (@annotateStmts_relocates id 0 0 stmts parent).idle

/-- **The pass over statements** depends on the number of scopes only: with no gap, the same scopes are added to
    either arena. -/
theorem annotateStmts_same {stmts stmts' : List Stmt} {parent : ScopeId} {g g' h : Scopes} (hsize : h.size = g.size)
    (hrun : annotateStmts false parent stmts ⟨g, none⟩ = (stmts', ⟨g', none⟩)) :
    ∃ new, g' = g.append new ∧ annotateStmts false parent stmts ⟨h, none⟩ = (stmts', ⟨h.append new, none⟩) := by
  have hplace : Shifts id 0 0 := fun _ _ => rfl
  obtain ⟨new, hnew, hsame⟩ :=
    (annotateStmts_relocates stmts parent).same hplace g h (Nat.zero_le _) hsize stmts' g' hrun
  rw [relocateStmts_id, Scope.relocate_id, Array.map_id] at hsame
  exact ⟨new, hnew, hsame⟩

end TypeInference
