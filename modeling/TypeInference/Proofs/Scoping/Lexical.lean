import TypeInference.Proofs.Scope.Lexical
import TypeInference.Proofs.Scoping.Placement

/-!
# `Proofs.Scoping.Lexical` — the arena of scopes is the text's nesting

What surrounds a node can be read off the text: parameters, the declarations of the blocks around it wherever
in a block they stand, labels with what their statements declare, and outermost the program. `sites` goes
through a tree from the outside in and lists every node that records a scope, with the frames of names around
it, innermost first. It never looks at an arena.

In an arena in which a tree is placed, the scopes of the tree are those of its blocks, functions, lambdas and
labels, one for each and numbered in the order of the text, and the tables on the way out of the scope that a
node has recorded are the frames around the node.

## Contents
* `Param.frame`, `Stmt.frame`, `stmtsFrame` — the names that one construct declares;
* `Site`, `Expr.sites`, `Stmt.sites`, `Program.sites` — all nodes that record a scope, with their frames;
* `Lexical`, `Expr.Placed.lexical`, `Stmt.Placed.lexical` — placed trees have the frames of their text.
-/

namespace TypeInference

open Scopes

/-! ## Frames -/

/-- The frame of a parameter list. A parameter is a variable that has a value and keeps it. -/
def Param.frame (params : List Param) : Table :=
  params.map fun p =>
    (p.name.name, { kind := .var, mutable := false, initialized := true, ty := none, span := p.name.span })

/-- The names that a statement declares in the frame it stands in. A variable can be assigned again unless it
    is a constant, and has a value if one is written; functions and types are there for good. -/
def Stmt.frame : Stmt → Table
  | .vars _ kind defs => defs.map fun d =>
    (d.name.name, {
      kind := .var, mutable := kind ≠ .constant, initialized := d.value.isSome, ty := none,
      span := d.name.span })
  | .function _ name _ _ _ => [(name.name, ⟨.function, false, true, none, name.span⟩)]
  | .blueprint _ name _ => [(name.name, ⟨.blueprint, false, true, none, name.span⟩)]
  | .trait _ name _ => [(name.name, ⟨.trait, false, true, none, name.span⟩)]
  | .struct _ name _ => [(name.name, ⟨.struct, false, true, none, name.span⟩)]
  | .enum _ name _ => [(name.name, ⟨.enum, false, true, none, name.span⟩)]
  | .label _ _ _ | .block _ | .branch _ _ _ _ _ | .loop _ _ _ | .ret _ _ | .jump _ _ _ | .expr _ => []

/-- The names that a list of statements declares, wherever in the list. All of them are in sight of all statements
    of the list, those before the declaration included. -/
def stmtsFrame (stmts : List Stmt) : Table := stmts.flatMap Stmt.frame

/-- A label stands in one frame with what its statement declares, and its own name comes first. -/
def labelFrame (name : Ident) (stmt : Stmt) : Table :=
  (name.name, ⟨.label, false, true, none, name.span⟩) :: stmt.frame

/-! ### Frames are what the pass declares -/

/-- The frames are the tables that the pass fills. They are written out above so that the text can be read without
    the declarations of the program. -/
theorem entriesOf_params (params : List Param) : entriesOf (Param.symbols params) = Param.frame params := by
  simp [entriesOf, Param.symbols, Param.frame, Param.symbol, Symbol.declared]

theorem entriesOf_stmt (stmt : Stmt) : entriesOf stmt.symbols = stmt.frame := by
  cases stmt with
  | vars span kind defs =>
    simp [entriesOf, Stmt.symbols, Stmt.declaration?, Declaration.symbols, Stmt.frame, VarDef.symbol,
      Symbol.declared]
  | _ => rfl

theorem entriesOf_stmts (stmts : List Stmt) : entriesOf (stmts.flatMap Stmt.symbols) = stmtsFrame stmts := by
  induction stmts with
  | nil => rfl
  | cons stmt rest ih =>
    rw [List.flatMap_cons, entriesOf, List.map_append, ← entriesOf, ← entriesOf, ih, entriesOf_stmt]
    rfl

theorem entriesOf_label (name : Ident) (stmt : Stmt) :
    entriesOf ((name, .declared .label name.span) :: stmt.symbols) = labelFrame name stmt := by
  rw [labelFrame, ← entriesOf_stmt]
  rfl

/-! ## Sites -/

/-- A scope that a node has recorded, with the frames around the node, innermost first. The node `opens` the
    scope if it is its own one, and stands in it otherwise. -/
structure Site where
  opens : Bool
  scope : Option ScopeId
  frames : List Table

mutual

/-- The sites of an expression; a lambda stands in one scope and opens another. Every expression is a site, so a
    tree has one site for every record. -/
def Expr.sites (frames : List Table) : Expr → List Site
  | .number mark => [⟨false, mark.scope, frames⟩]
  | .string mark _ => [⟨false, mark.scope, frames⟩]
  | .bool mark _ => [⟨false, mark.scope, frames⟩]
  | .name mark _ => [⟨false, mark.scope, frames⟩]
  | .list mark items => ⟨false, mark.scope, frames⟩ :: exprsSites frames items
  | .map mark entries => ⟨false, mark.scope, frames⟩ :: entriesSites frames entries
  | .tuple mark items => ⟨false, mark.scope, frames⟩ :: exprsSites frames items
  | .access mark left index => ⟨false, mark.scope, frames⟩ :: (left.sites frames ++ index.sites frames)
  | .unary mark _ operand => ⟨false, mark.scope, frames⟩ :: operand.sites frames
  | .binary mark _ left right => ⟨false, mark.scope, frames⟩ :: (left.sites frames ++ right.sites frames)
  | .call mark callee args => ⟨false, mark.scope, frames⟩ :: (callee.sites frames ++ exprsSites frames args)
  | .lambda mark own params body =>
    ⟨false, mark.scope, frames⟩ :: ⟨true, own, Param.frame params :: frames⟩ ::
      body.sites (Param.frame params :: frames)
  | .when mark cond yes no =>
    ⟨false, mark.scope, frames⟩ :: (cond.sites frames ++ (yes.sites frames ++ no.sites frames))
  | .assign mark _ value => ⟨false, mark.scope, frames⟩ :: value.sites frames

def exprsSites (frames : List Table) : List Expr → List Site
  | [] => []
  | e :: rest => e.sites frames ++ exprsSites frames rest

def entriesSites (frames : List Table) : List (Expr × Expr) → List Site
  | [] => []
  | (key, value) :: rest => key.sites frames ++ (value.sites frames ++ entriesSites frames rest)

end

/-- The sites of an expression that may be absent, of which there are none then. -/
def optionSites (frames : List Table) : Option Expr → List Site
  | none => []
  | some e => e.sites frames

/-- The sites of the first values of variables, in the order of the definitions. -/
def defsSites (frames : List Table) : List VarDef → List Site
  | [] => []
  | d :: rest => optionSites frames d.value ++ defsSites frames rest

mutual

/-- The sites of a statement; what it declares in the frame it stands in is there already. -/
def Stmt.sites (frames : List Table) : Stmt → List Site
  | .vars _ _ defs => defsSites frames defs
  | .function mark _ params _ body =>
    ⟨true, mark.scope, Param.frame params :: frames⟩ :: body.sites (Param.frame params :: frames)
  | .blueprint _ _ body => body.sites frames
  | .trait _ _ body => body.sites frames
  | .struct _ _ _ => []
  | .enum _ _ _ => []
  | .label mark name stmt =>
    ⟨true, mark.scope, labelFrame name stmt :: frames⟩ :: stmt.sites (labelFrame name stmt :: frames)
  | .block body => body.sites frames
  | .branch _ cond body elifs none => cond.sites frames ++ (body.sites frames ++ elifsSites frames elifs)
  | .branch _ cond body elifs (some last) =>
    cond.sites frames ++ (body.sites frames ++ (elifsSites frames elifs ++ last.sites frames))
  | .loop _ cond body => cond.sites frames ++ body.sites frames
  | .ret _ value => optionSites frames value
  | .jump _ _ _ => []
  | .expr e => e.sites frames

def Block.sites (frames : List Table) : Block → List Site
  | .mk mark stmts =>
    ⟨true, mark.scope, stmtsFrame stmts :: frames⟩ :: stmtsSites (stmtsFrame stmts :: frames) stmts

def stmtsSites (frames : List Table) : List Stmt → List Site
  | [] => []
  | stmt :: rest => stmt.sites frames ++ stmtsSites frames rest

def elifsSites (frames : List Table) : List Elif → List Site
  | [] => []
  | .mk _ cond body :: rest => cond.sites frames ++ (body.sites frames ++ elifsSites frames rest)

end

/-- The sites of a program: its declarations come on top of the names that the global scope `held`. -/
def Program.sites (held : Table) (program : Program) : List Site :=
  ⟨false, program.scope, [held ++ stmtsFrame program.stmts]⟩ ::
    stmtsSites [held ++ stmtsFrame program.stmts] program.stmts

/-- The scopes that are opened at some of the sites, in their order. -/
def openedScopes (sites : List Site) : List (Option ScopeId) := (sites.filter Site.opens).map Site.scope

/-! ## Placed trees -/

/-- The sites open the scopes from `n` up to `n'`, in this order, and the tables on the way out of each recorded
    scope are the frames around its node. The first two fields say how scopes are numbered, and the third what is
    known in them. -/
structure Lexical (g : Scopes) (sites : List Site) (n n' : Nat) : Prop where
  opened : openedScopes sites = (List.range' n (openedScopes sites).length).map fun i => some ⟨i⟩
  size_eq : n' = n + (openedScopes sites).length
  framed : ∀ site ∈ sites, ∃ id, site.scope = some id ∧ g.Chain id site.frames

namespace Lexical

variable {g : Scopes} {sites sites' : List Site} {n m n' : Nat} {scope : ScopeId} {frames : List Table}

/-! ### Sites side by side -/

theorem nil (h : n' = n) : Lexical g [] n n' := ⟨rfl, h, by simp⟩

/-- The sites of two trees side by side; the second goes on counting where the first has ended. -/
theorem append (h : Lexical g sites n m) (h' : Lexical g sites' m n') :
    Lexical g (sites ++ sites') n n' := by
  have happend : openedScopes (sites ++ sites') = openedScopes sites ++ openedScopes sites' := by
    simp [openedScopes]
  refine ⟨?_, ?_, fun site hsite => (List.mem_append.mp hsite).elim (h.framed site) (h'.framed site)⟩
  · rw [happend, List.length_append, ← List.range'_append_1, List.map_append, ← h.opened, ← h.size_eq,
      ← h'.opened]
  · rw [happend, List.length_append, h'.size_eq, h.size_eq, Nat.add_assoc]

theorem stand (hchain : g.Chain scope frames) {mark : Option ScopeId} (hmark : mark = some scope)
    (h : Lexical g sites n n') : Lexical g (⟨false, mark, frames⟩ :: sites) n n' :=
  ⟨h.opened, h.size_eq, List.forall_mem_cons.mpr ⟨⟨scope, hmark, hchain⟩, h.framed⟩⟩

theorem enter (hchain : g.Chain ⟨n⟩ frames) {mark : Option ScopeId} (hmark : mark = some ⟨n⟩)
    (h : Lexical g sites (n + 1) n') : Lexical g (⟨true, mark, frames⟩ :: sites) n n' := by
  subst hmark
  have hcons : openedScopes (⟨true, some ⟨n⟩, frames⟩ :: sites) = some ⟨n⟩ :: openedScopes sites := rfl
  refine ⟨?_, ?_, List.forall_mem_cons.mpr ⟨⟨⟨n⟩, rfl, hchain⟩, h.framed⟩⟩
  · rw [hcons, List.length_cons, List.range'_succ, List.map_cons, ← h.opened]
  · rw [hcons, List.length_cons, h.size_eq, Nat.add_assoc, Nat.add_comm 1]

end Lexical

variable {g : Scopes} {frames : List Table}

/-- A scope that has been opened has the frame of its names around it, in front of the frames of its parent. -/
theorem Scopes.Opened.chain {own parent : ScopeId} {symbols : List (Ident × Symbol)}
    (h : g.Opened own parent symbols) (hparent : g.Chain parent frames) :
    g.Chain own (entriesOf symbols :: frames) :=
  .inside h.scope hparent

/-! ### Trees -/

mutual

/-- **Placed expressions have the frames of their text.** By recursion on the expression, with one case for each
    form; a lambda goes on inside its own scope, with one more frame. -/
theorem Expr.Placed.lexical {scope : ScopeId} {frames : List Table} {n n' : Nat}
    (hchain : g.Chain scope frames) :
    ∀ {e : Expr}, e.Placed g scope n n' → Lexical g (e.sites frames) n n'
  | .number _, ⟨hmark, h⟩ | .string _ _, ⟨hmark, h⟩ | .bool _ _, ⟨hmark, h⟩ | .name _ _, ⟨hmark, h⟩ =>
    .stand hchain hmark (.nil h)
  | .list _ _, ⟨hmark, h⟩ | .tuple _ _, ⟨hmark, h⟩ => .stand hchain hmark (PlacedExprs.lexical hchain h)
  | .map _ _, ⟨hmark, h⟩ => .stand hchain hmark (PlacedEntries.lexical hchain h)
  | .access _ _ _, ⟨hmark, _, h, h'⟩ | .binary _ _ _ _, ⟨hmark, _, h, h'⟩ =>
    .stand hchain hmark ((h.lexical hchain).append (h'.lexical hchain))
  | .unary _ _ _, ⟨hmark, h⟩ | .assign _ _ _, ⟨hmark, h⟩ => .stand hchain hmark (h.lexical hchain)
  | .call _ _ _, ⟨hmark, _, h, h'⟩ =>
    .stand hchain hmark ((h.lexical hchain).append (PlacedExprs.lexical hchain h'))
  | .lambda _ _ params _, ⟨hmark, hown, hopened, h⟩ => by
    have hinner := hopened.chain hchain
    rw [entriesOf_params] at hinner
    exact .stand hchain hmark (.enter hinner hown (h.lexical hinner))
  | .when _ _ _ _, ⟨hmark, _, _, h, h', h''⟩ =>
    .stand hchain hmark ((h.lexical hchain).append ((h'.lexical hchain).append (h''.lexical hchain)))

theorem PlacedExprs.lexical {scope : ScopeId} {frames : List Table} {n n' : Nat}
    (hchain : g.Chain scope frames) :
    ∀ {items : List Expr}, PlacedExprs g scope items n n' → Lexical g (exprsSites frames items) n n'
  | [], h => .nil h
  | _ :: _, ⟨_, h, h'⟩ => (h.lexical hchain).append (PlacedExprs.lexical hchain h')

theorem PlacedEntries.lexical {scope : ScopeId} {frames : List Table} {n n' : Nat}
    (hchain : g.Chain scope frames) :
    ∀ {entries : List (Expr × Expr)}, PlacedEntries g scope entries n n' →
      Lexical g (entriesSites frames entries) n n'
  | [], h => .nil h
  | _ :: _, ⟨_, _, h, h', h''⟩ =>
    (h.lexical hchain).append ((h'.lexical hchain).append (PlacedEntries.lexical hchain h''))

end

theorem PlacedOption.lexical {scope : ScopeId} {n n' : Nat} (hchain : g.Chain scope frames) :
    ∀ {value : Option Expr}, PlacedOption g scope value n n' → Lexical g (optionSites frames value) n n'
  | none, h => .nil h
  | some _, h => Expr.Placed.lexical hchain h

theorem PlacedDefs.lexical {scope : ScopeId} {n n' : Nat} (hchain : g.Chain scope frames) :
    ∀ {defs : List VarDef}, PlacedDefs g scope defs n n' → Lexical g (defsSites frames defs) n n'
  | [], h => .nil h
  | _ :: _, ⟨_, h, h'⟩ => (PlacedOption.lexical hchain h).append (PlacedDefs.lexical hchain h')

mutual

/-- **Placed statements have the frames of their text**, by recursion on the statement. -/
theorem Stmt.Placed.lexical {scope : ScopeId} {frames : List Table} {n n' : Nat}
    (hchain : g.Chain scope frames) :
    ∀ {stmt : Stmt}, stmt.Placed g scope n n' → Lexical g (stmt.sites frames) n n'
  | .vars _ _ _, h => PlacedDefs.lexical hchain h
  | .function _ _ _ _ _, ⟨hmark, hopened, h⟩ => by
    have hinner := hopened.chain hchain
    rw [entriesOf_params] at hinner
    exact .enter hinner hmark (h.lexical hinner)
  | .blueprint _ _ _, h | .trait _ _ _, h | .block _, h => Block.Placed.lexical hchain h
  | .struct _ _ _, h | .enum _ _ _, h | .jump _ _ _, h => .nil h
  | .label _ _ _, ⟨hmark, hopened, h⟩ => by
    have hinner := hopened.chain hchain
    rw [entriesOf_label] at hinner
    exact .enter hinner hmark (h.lexical hinner)
  | .branch _ _ _ _ none, ⟨_, _, h, h', h''⟩ =>
    (h.lexical hchain).append ((h'.lexical hchain).append (PlacedElifs.lexical hchain h''))
  | .branch _ _ _ _ (some _), ⟨_, _, _, h, h', h'', hlast⟩ =>
    (h.lexical hchain).append ((h'.lexical hchain).append
      ((PlacedElifs.lexical hchain h'').append (hlast.lexical hchain)))
  | .loop _ _ _, ⟨_, h, h'⟩ => (h.lexical hchain).append (h'.lexical hchain)
  | .ret _ _, h => PlacedOption.lexical hchain h
  | .expr _, h => Expr.Placed.lexical hchain h

theorem Block.Placed.lexical {scope : ScopeId} {frames : List Table} {n n' : Nat}
    (hchain : g.Chain scope frames) :
    ∀ {block : Block}, block.Placed g scope n n' → Lexical g (block.sites frames) n n'
  | .mk _ _, ⟨hmark, hopened, h⟩ => by
    have hinner := hopened.chain hchain
    rw [entriesOf_stmts] at hinner
    exact .enter hinner hmark (PlacedStmts.lexical hinner h)

theorem PlacedStmts.lexical {scope : ScopeId} {frames : List Table} {n n' : Nat}
    (hchain : g.Chain scope frames) :
    ∀ {stmts : List Stmt}, PlacedStmts g scope stmts n n' → Lexical g (stmtsSites frames stmts) n n'
  | [], h => .nil h
  | _ :: _, ⟨_, h, h'⟩ => (h.lexical hchain).append (PlacedStmts.lexical hchain h')

theorem PlacedElifs.lexical {scope : ScopeId} {frames : List Table} {n n' : Nat}
    (hchain : g.Chain scope frames) :
    ∀ {elifs : List Elif}, PlacedElifs g scope elifs n n' → Lexical g (elifsSites frames elifs) n n'
  | [], h => .nil h
  | .mk _ _ _ :: _, ⟨_, _, h, h', h''⟩ =>
    (h.lexical hchain).append ((h'.lexical hchain).append (PlacedElifs.lexical hchain h''))

end

end TypeInference
