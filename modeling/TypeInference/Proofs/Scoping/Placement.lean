import TypeInference.Proofs.Scope.Chain
import TypeInference.Scope.Declaration

/-!
# `Proofs.Scoping.Placement` — trees whose nodes know their scopes

A tree is *placed* in an arena when every expression has recorded the scope it stands in, and every block,
function, lambda and label has a scope of its own there, inside the scope around it and with exactly the names
that it declares. The own scopes of a tree are numbered in the order of the tree: `Placed g scope tree n n'`
says that they are the scopes from `n` up to, but not including, `n'`.

## Contents
* `Scopes.Opened` — a scope that has been opened for a list of names;
* `Expr.Placed`, `Stmt.Placed`, `Block.Placed` and their lists;
* `Expr.Placed.le`, `Stmt.Placed.le` — the numbers go up.
-/

namespace TypeInference

open Scopes

/-! ## Scopes opened for names -/

/-- The table that declaring these names in an empty scope makes, in the order in which they are declared. -/
def entriesOf (symbols : List (Ident × Symbol)) : Table := symbols.map fun entry => (entry.1.name, entry.2)

/-- The names that are declared, without their places and symbols. -/
def namesOf (symbols : List (Ident × Symbol)) : List String := symbols.map fun entry => entry.1.name

theorem names_entriesOf (symbols : List (Ident × Symbol)) : (entriesOf symbols).map Prod.fst = namesOf symbols :=
  List.map_map

theorem entriesOf_append (symbols more : List (Ident × Symbol)) :
    entriesOf (symbols ++ more) = entriesOf symbols ++ entriesOf more :=
  List.map_append

theorem namesOf_append (symbols more : List (Ident × Symbol)) :
    namesOf (symbols ++ more) = namesOf symbols ++ namesOf more :=
  List.map_append

/-- Names that are different are found at their entries. -/
theorem find?_entriesOf {symbols : List (Ident × Symbol)} (h : (namesOf symbols).Nodup)
    {entry : Ident × Symbol} (hentry : entry ∈ symbols) :
    (entriesOf symbols).find? entry.1.name = some entry.2 := by
  induction symbols with
  | nil => cases hentry
  | cons first symbols ih =>
    obtain ⟨hnot, hnodup⟩ := List.nodup_cons.mp h
    rw [entriesOf, List.map_cons, Table.find?_cons]
    rcases List.mem_cons.mp hentry with rfl | hentry
    · exact if_pos rfl
    · rw [if_neg fun he => hnot (List.mem_map.mpr ⟨entry, hentry, he.symm⟩)]
      exact ih hnodup hentry

/-- What is found among declared names is one of them. -/
theorem exists_of_find?_entriesOf {symbols : List (Ident × Symbol)} {name : String} {symbol : Symbol}
    (h : (entriesOf symbols).find? name = some symbol) : ∃ entry ∈ symbols, entry.1.name = name ∧ entry.2 = symbol := by
  obtain ⟨entry, hentry, heq⟩ := List.mem_map.mp (mem_of_find? h)
  cases heq
  exact ⟨entry, hentry, rfl, rfl⟩

/-- The scope `own` has been opened inside `parent` for these names, which are different from each other. It has no
    further names: those of inner scopes are in their own tables. -/
structure Scopes.Opened (g : Scopes) (own parent : ScopeId) (symbols : List (Ident × Symbol)) : Prop where
  scope : g.scopeAt own = some ⟨some parent, entriesOf symbols⟩
  nodup : (namesOf symbols).Nodup

namespace Scopes.Opened

variable {g : Scopes} {own parent : ScopeId} {symbols : List (Ident × Symbol)}

theorem parentOf (h : g.Opened own parent symbols) : g.parentOf own = some parent := by
  rw [Scopes.parentOf, h.scope]; rfl

theorem exists_of_symbolAt (h : g.Opened own parent symbols) {name : String} {symbol : Symbol}
    (hs : g.symbolAt own name = some symbol) : ∃ entry ∈ symbols, entry.1.name = name ∧ entry.2 = symbol := by
  rw [symbolAt, h.scope, Option.bind_some] at hs
  exact exists_of_find?_entriesOf hs

theorem symbolAt_of_mem (h : g.Opened own parent symbols) {entry : Ident × Symbol} (hentry : entry ∈ symbols) :
    g.symbolAt own entry.1.name = some entry.2 := by
  rw [symbolAt, h.scope, Option.bind_some]
  exact find?_entriesOf h.nodup hentry

end Scopes.Opened

/-! ## Expressions -/

mutual

/-- The expression stands in `scope`, and its own scopes are those from `n` to `n'`. Only a lambda has a scope of
    its own; the other forms pass the numbers on from part to part. -/
def Expr.Placed (g : Scopes) (scope : ScopeId) : Expr → Nat → Nat → Prop
  | .number mark, n, n' => mark.scope = some scope ∧ n' = n
  | .string mark _, n, n' => mark.scope = some scope ∧ n' = n
  | .bool mark _, n, n' => mark.scope = some scope ∧ n' = n
  | .name mark _, n, n' => mark.scope = some scope ∧ n' = n
  | .list mark items, n, n' => mark.scope = some scope ∧ PlacedExprs g scope items n n'
  | .map mark entries, n, n' => mark.scope = some scope ∧ PlacedEntries g scope entries n n'
  | .tuple mark items, n, n' => mark.scope = some scope ∧ PlacedExprs g scope items n n'
  | .access mark left index, n, n' =>
    mark.scope = some scope ∧ ∃ m, left.Placed g scope n m ∧ index.Placed g scope m n'
  | .unary mark _ operand, n, n' => mark.scope = some scope ∧ operand.Placed g scope n n'
  | .binary mark _ left right, n, n' =>
    mark.scope = some scope ∧ ∃ m, left.Placed g scope n m ∧ right.Placed g scope m n'
  | .call mark callee args, n, n' =>
    mark.scope = some scope ∧ ∃ m, callee.Placed g scope n m ∧ PlacedExprs g scope args m n'
  | .lambda mark own params body, n, n' =>
    mark.scope = some scope ∧ own = some ⟨n⟩ ∧ g.Opened ⟨n⟩ scope (Param.symbols params) ∧
      body.Placed g ⟨n⟩ (n + 1) n'
  | .when mark cond yes no, n, n' =>
    mark.scope = some scope ∧ ∃ m m', cond.Placed g scope n m ∧ yes.Placed g scope m m' ∧
      no.Placed g scope m' n'
  | .assign mark _ value, n, n' => mark.scope = some scope ∧ value.Placed g scope n n'

/-- Expressions side by side: each takes the scopes that follow those of the one before it. -/
def PlacedExprs (g : Scopes) (scope : ScopeId) : List Expr → Nat → Nat → Prop
  | [], n, n' => n' = n
  | e :: rest, n, n' => ∃ m, e.Placed g scope n m ∧ PlacedExprs g scope rest m n'

/-- The entries of a map, each key before its value. -/
def PlacedEntries (g : Scopes) (scope : ScopeId) : List (Expr × Expr) → Nat → Nat → Prop
  | [], n, n' => n' = n
  | (key, value) :: rest, n, n' =>
    ∃ m m', key.Placed g scope n m ∧ value.Placed g scope m m' ∧ PlacedEntries g scope rest m' n'

end

/-! ### First values -/

/-- An expression that may be absent, and takes no scopes then. -/
def PlacedOption (g : Scopes) (scope : ScopeId) : Option Expr → Nat → Nat → Prop
  | none, n, n' => n' = n
  | some e, n, n' => e.Placed g scope n n'

/-- The first values of variables, from left to right; a definition without one takes no scopes. -/
def PlacedDefs (g : Scopes) (scope : ScopeId) : List VarDef → Nat → Nat → Prop
  | [], n, n' => n' = n
  | d :: rest, n, n' => ∃ m, PlacedOption g scope d.value n m ∧ PlacedDefs g scope rest m n'

/-! ## Statements -/

mutual

/-- The statement stands in `scope`, and its own scopes are those from `n` to `n'`. A statement that opens a scope
    has the number `n` itself, so a scope comes before all scopes inside it. -/
def Stmt.Placed (g : Scopes) (scope : ScopeId) : Stmt → Nat → Nat → Prop
  | .vars _ _ defs, n, n' => PlacedDefs g scope defs n n'
  | .function mark _ params _ body, n, n' =>
    mark.scope = some ⟨n⟩ ∧ g.Opened ⟨n⟩ scope (Param.symbols params) ∧ body.Placed g ⟨n⟩ (n + 1) n'
  | .blueprint _ _ body, n, n' => body.Placed g scope n n'
  | .trait _ _ body, n, n' => body.Placed g scope n n'
  | .struct _ _ _, n, n' => n' = n
  | .enum _ _ _, n, n' => n' = n
  | .label mark name stmt, n, n' =>
    mark.scope = some ⟨n⟩ ∧ g.Opened ⟨n⟩ scope ((name, .declared .label name.span) :: stmt.symbols) ∧
      stmt.Placed g ⟨n⟩ (n + 1) n'
  | .block body, n, n' => body.Placed g scope n n'
  | .branch _ cond body elifs none, n, n' =>
    ∃ m m', cond.Placed g scope n m ∧ body.Placed g scope m m' ∧ PlacedElifs g scope elifs m' n'
  | .branch _ cond body elifs (some last), n, n' =>
    ∃ m m' m'', cond.Placed g scope n m ∧ body.Placed g scope m m' ∧ PlacedElifs g scope elifs m' m'' ∧
      last.Placed g scope m'' n'
  | .loop _ cond body, n, n' => ∃ m, cond.Placed g scope n m ∧ body.Placed g scope m n'
  | .ret _ value, n, n' => PlacedOption g scope value n n'
  | .jump _ _ _, n, n' => n' = n
  | .expr e, n, n' => e.Placed g scope n n'

/-- The block stands in `scope`, and has the scope `n` for itself. -/
def Block.Placed (g : Scopes) (scope : ScopeId) : Block → Nat → Nat → Prop
  | .mk mark stmts, n, n' =>
    mark.scope = some ⟨n⟩ ∧ g.Opened ⟨n⟩ scope (stmts.flatMap Stmt.symbols) ∧
      PlacedStmts g ⟨n⟩ stmts (n + 1) n'

/-- Statements one after another: each takes the scopes that follow those of the one before it. -/
def PlacedStmts (g : Scopes) (scope : ScopeId) : List Stmt → Nat → Nat → Prop
  | [], n, n' => n' = n
  | stmt :: rest, n, n' => ∃ m, stmt.Placed g scope n m ∧ PlacedStmts g scope rest m n'

/-- The further conditions of a branch, each before its block. -/
def PlacedElifs (g : Scopes) (scope : ScopeId) : List Elif → Nat → Nat → Prop
  | [], n, n' => n' = n
  | .mk _ cond body :: rest, n, n' =>
    ∃ m m', cond.Placed g scope n m ∧ body.Placed g scope m m' ∧ PlacedElifs g scope rest m' n'

end

/-! ## Numbers go up -/

variable {g : Scopes}

mutual

/-- By recursion on the expression, as the numbers are passed on. -/
theorem Expr.Placed.le {scope : ScopeId} {n n' : Nat} : ∀ {e : Expr}, e.Placed g scope n n' → n ≤ n'
  | .number _, ⟨_, h⟩ | .string _ _, ⟨_, h⟩ | .bool _ _, ⟨_, h⟩ | .name _ _, ⟨_, h⟩ => h.ge
  | .list _ _, ⟨_, h⟩ | .tuple _ _, ⟨_, h⟩ => PlacedExprs.le h
  | .map _ _, ⟨_, h⟩ => PlacedEntries.le h
  | .access _ _ _, ⟨_, _, h, h'⟩ | .binary _ _ _ _, ⟨_, _, h, h'⟩ => h.le.trans h'.le
  | .unary _ _ _, ⟨_, h⟩ | .assign _ _ _, ⟨_, h⟩ => h.le
  | .call _ _ _, ⟨_, _, h, h'⟩ => h.le.trans (PlacedExprs.le h')
  | .lambda _ _ _ _, ⟨_, _, _, h⟩ => (Nat.le_succ _).trans h.le
  | .when _ _ _ _, ⟨_, _, _, h, h', h''⟩ => h.le.trans (h'.le.trans h''.le)

theorem PlacedExprs.le {scope : ScopeId} {n n' : Nat} :
    ∀ {items : List Expr}, PlacedExprs g scope items n n' → n ≤ n'
  | [], h => Nat.le_of_eq h.symm
  | _ :: _, ⟨_, h, h'⟩ => h.le.trans (PlacedExprs.le h')

theorem PlacedEntries.le {scope : ScopeId} {n n' : Nat} :
    ∀ {entries : List (Expr × Expr)}, PlacedEntries g scope entries n n' → n ≤ n'
  | [], h => Nat.le_of_eq h.symm
  | _ :: _, ⟨_, _, h, h', h''⟩ => h.le.trans (h'.le.trans (PlacedEntries.le h''))

end

theorem PlacedOption.le {scope : ScopeId} {n n' : Nat} :
    ∀ {value : Option Expr}, PlacedOption g scope value n n' → n ≤ n'
  | none, h => Nat.le_of_eq h.symm
  | some _, h => Expr.Placed.le h

theorem PlacedDefs.le {scope : ScopeId} {n n' : Nat} :
    ∀ {defs : List VarDef}, PlacedDefs g scope defs n n' → n ≤ n'
  | [], h => Nat.le_of_eq h.symm
  | _ :: _, ⟨_, h, h'⟩ => (PlacedOption.le h).trans (PlacedDefs.le h')

mutual

/-- By recursion on the statement, in the same way. -/
theorem Stmt.Placed.le {scope : ScopeId} {n n' : Nat} : ∀ {stmt : Stmt}, stmt.Placed g scope n n' → n ≤ n'
  | .vars _ _ _, h => PlacedDefs.le h
  | .function _ _ _ _ _, ⟨_, _, h⟩ => (Nat.le_succ _).trans h.le
  | .blueprint _ _ _, h | .trait _ _ _, h | .block _, h => Block.Placed.le h
  | .struct _ _ _, h | .enum _ _ _, h | .jump _ _ _, h => Nat.le_of_eq h.symm
  | .label _ _ _, ⟨_, _, h⟩ => (Nat.le_succ _).trans h.le
  | .branch _ _ _ _ none, ⟨_, _, h, h', h''⟩ => h.le.trans (h'.le.trans (PlacedElifs.le h''))
  | .branch _ _ _ _ (some _), ⟨_, _, _, h, h', h'', h'''⟩ =>
    h.le.trans (h'.le.trans ((PlacedElifs.le h'').trans h'''.le))
  | .loop _ _ _, ⟨_, h, h'⟩ => h.le.trans h'.le
  | .ret _ _, h => PlacedOption.le h
  | .expr _, h => Expr.Placed.le h

theorem Block.Placed.le {scope : ScopeId} {n n' : Nat} : ∀ {block : Block}, block.Placed g scope n n' → n ≤ n'
  | .mk _ _, ⟨_, _, h⟩ => (Nat.le_succ _).trans (PlacedStmts.le h)

theorem PlacedStmts.le {scope : ScopeId} {n n' : Nat} :
    ∀ {stmts : List Stmt}, PlacedStmts g scope stmts n n' → n ≤ n'
  | [], h => Nat.le_of_eq h.symm
  | _ :: _, ⟨_, h, h'⟩ => h.le.trans (PlacedStmts.le h')

theorem PlacedElifs.le {scope : ScopeId} {n n' : Nat} :
    ∀ {elifs : List Elif}, PlacedElifs g scope elifs n n' → n ≤ n'
  | [], h => Nat.le_of_eq h.symm
  | .mk _ _ _ :: _, ⟨_, _, h, h', h''⟩ => h.le.trans (h'.le.trans (PlacedElifs.le h''))

end

end TypeInference
