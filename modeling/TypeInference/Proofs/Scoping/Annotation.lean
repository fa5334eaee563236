import TypeInference.Proofs.Scoping.Pass

/-!
# `Proofs.Scoping.Annotation` — every tree is placed, whatever it had recorded

The pass over each kind of node, by induction on the tree. What the nodes recorded before plays no part: every
mark is overwritten on the way.

Main statements: `Expr.annotate_pass`, `Stmt.annotate_pass`, and `Program.annotate_run` for the statements of
a program, which stand in the global scope itself.
-/

namespace TypeInference

open Scopes ScopingM

variable {strict : Bool}

/-! ## Declared symbols -/

/-- Symbols have no types when they are declared; types are given by the inference. -/
theorem Param.ty_of_mem_symbols {params : List Param} :
    ∀ entry ∈ Param.symbols params, entry.2.ty = none := by
  intro entry h
  obtain ⟨p, -, rfl⟩ := List.mem_map.mp h
  rfl

theorem Stmt.ty_of_mem_symbols {stmt : Stmt} : ∀ entry ∈ stmt.symbols, entry.2.ty = none := by
  intro entry h
  unfold Stmt.symbols at h
  split at h
  · next declaration _ =>
    cases declaration with
    | vars kind defs =>
      obtain ⟨d, -, rfl⟩ := List.mem_map.mp h
      rfl
    | function _ _ _ | type _ _ =>
      cases List.mem_singleton.mp h
      rfl
  · cases h

/-! ## Expressions -/

mutual

/-- **The pass places every expression.** By recursion on the expression: for each form, the steps of the pass are
    put together with `Pass.bind`, and a lambda with `Runs.opening`. -/
theorem Expr.annotate_pass (strict : Bool) : ∀ (e : Expr) (parent : ScopeId),
    Pass parent (e.annotate strict parent) fun later e' n n' => e'.Placed later parent n n'
  | .number _, parent | .string _ _, parent | .bool _ _, parent | .name _ _, parent => by
    rw [Expr.annotate]
    refine (Pass.pure _).visit ?_
    rintro later e' n n' ⟨rfl, rfl⟩
    exact ⟨rfl, rfl⟩
  | .list _ items, parent | .tuple _ items, parent => by
    rw [Expr.annotate]
    refine ((annotateExprs_pass strict items parent).bind fun _ => .pure _).visit ?_
    rintro later e' n n' ⟨items', m, hitems, rfl, rfl⟩
    exact ⟨rfl, hitems⟩
  | .map mark entries, parent => by
    rw [Expr.annotate]
    refine ((annotateEntries_pass strict entries parent).bind fun _ => .pure _).visit ?_
    rintro later e' n n' ⟨entries', m, hentries, rfl, rfl⟩
    exact ⟨rfl, hentries⟩
  | .unary _ _ e, parent | .assign _ _ e, parent => by
    rw [Expr.annotate]
    refine ((e.annotate_pass strict parent).bind fun _ => .pure _).visit ?_
    rintro later e' n n' ⟨inner, m, hinner, rfl, rfl⟩
    exact ⟨rfl, hinner⟩
  | .access _ left right, parent | .binary _ _ left right, parent => by
    rw [Expr.annotate]
    refine ((left.annotate_pass strict parent).bind fun _ =>
      (right.annotate_pass strict parent).bind fun _ => .pure _).visit ?_
    rintro later e' n n' ⟨left', m, hleft, right', m', hright, rfl, rfl⟩
    exact ⟨rfl, m, hleft, hright⟩
  | .call mark callee args, parent => by
    rw [Expr.annotate]
    refine ((callee.annotate_pass strict parent).bind fun _ =>
      (annotateExprs_pass strict args parent).bind fun _ => .pure _).visit ?_
    rintro later e' n n' ⟨callee', m, hcallee, args', m', hargs, rfl, rfl⟩
    exact ⟨rfl, m, hcallee, hargs⟩
  | .lambda mark _ params body, parent => by
    rw [Expr.annotate]
    refine (Runs.opening Param.ty_of_mem_symbols (fun ho hown => declareAll_run strict _ ho hown) fun own =>
      (body.annotate_pass strict own).bind fun _ => .pure _).visit ?_
    rintro later e' n n' ⟨hopened, body', m, hbody, rfl, rfl⟩
    exact ⟨rfl, rfl, hopened, hbody⟩
  | .when mark cond yes no, parent => by
    rw [Expr.annotate]
    refine ((cond.annotate_pass strict parent).bind fun _ => (yes.annotate_pass strict parent).bind fun _ =>
      (no.annotate_pass strict parent).bind fun _ => .pure _).visit ?_
    rintro later e' n n' ⟨cond', m, hcond, yes', m', hyes, no', m'', hno, rfl, rfl⟩
    exact ⟨rfl, m, m', hcond, hyes, hno⟩

theorem annotateExprs_pass (strict : Bool) : ∀ (items : List Expr) (parent : ScopeId),
    Pass parent (annotateExprs strict parent items) fun later items' n n' =>
      PlacedExprs later parent items' n n'
  | [], parent => by
    rw [annotateExprs]
    refine (Pass.pure _).mono ?_
    rintro later items' n n' ⟨rfl, rfl⟩
    rfl
  | e :: rest, parent => by
    rw [annotateExprs]
    refine ((e.annotate_pass strict parent).bind fun _ =>
      (annotateExprs_pass strict rest parent).bind fun _ => .pure _).mono ?_
    rintro later items' n n' ⟨e', m, he, rest', m', hrest, rfl, rfl⟩
    exact ⟨m, he, hrest⟩

theorem annotateEntries_pass (strict : Bool) : ∀ (entries : List (Expr × Expr)) (parent : ScopeId),
    Pass parent (annotateEntries strict parent entries) fun later entries' n n' =>
      PlacedEntries later parent entries' n n'
  | [], parent => by
    rw [annotateEntries]
    refine (Pass.pure _).mono ?_
    rintro later entries' n n' ⟨rfl, rfl⟩
    rfl
  | (key, value) :: rest, parent => by
    rw [annotateEntries]
    refine ((key.annotate_pass strict parent).bind fun _ => (value.annotate_pass strict parent).bind fun _ =>
      (annotateEntries_pass strict rest parent).bind fun _ => .pure _).mono ?_
    rintro later entries' n n' ⟨key', m, hkey, value', m', hvalue, rest', m'', hrest, rfl, rfl⟩
    exact ⟨m, m', hkey, hvalue, hrest⟩

end

theorem annotateOption_pass (strict : Bool) (value : Option Expr) (parent : ScopeId) :
    Pass parent (annotateOption strict parent value) fun later value' n n' =>
      PlacedOption later parent value' n n' ∧ value'.isSome = value.isSome := by
  cases value with
  | none =>
    refine (Pass.pure _).mono ?_
    rintro later value' n n' ⟨rfl, rfl⟩
    exact ⟨rfl, rfl⟩
  | some e =>
    refine ((e.annotate_pass strict parent).bind fun e' => .pure (some e')).mono ?_
    rintro later value' n n' ⟨e', m, he, rfl, rfl⟩
    exact ⟨he, rfl⟩

/-- The pass over variable definitions keeps what they declare. -/
theorem annotateDefs_pass (strict : Bool) (parent : ScopeId) : ∀ (defs : List VarDef),
    Pass parent (defs.mapM (·.annotate strict parent)) fun later defs' n n' =>
      PlacedDefs later parent defs' n n' ∧
        ∀ kind, defs'.map (fun d => (d.name, d.symbol kind)) = defs.map fun d => (d.name, d.symbol kind)
  | [] => by
    refine (Pass.pure _).mono ?_
    rintro later defs' n n' ⟨rfl, rfl⟩
    exact ⟨rfl, fun _ => rfl⟩
  | d :: rest => by
    rw [List.mapM_cons]
    have hd : Pass parent (d.annotate strict parent) fun later d' n n' =>
        PlacedOption later parent d'.value n n' ∧
          ∀ kind, (d'.name, d'.symbol kind) = (d.name, d.symbol kind) := by
      refine ((annotateOption_pass strict d.value parent).bind fun value => .pure { d with value }).mono ?_
      rintro later d' n n' ⟨value, m, ⟨hvalue, hsome⟩, rfl, rfl⟩
      exact ⟨hvalue, fun kind => by simp [VarDef.symbol, hsome]⟩
    refine (hd.bind fun _ => (annotateDefs_pass strict parent rest).bind fun _ => .pure _).mono ?_
    rintro later defs' n n' ⟨d', m, ⟨hd', hsymbol⟩, rest', m', ⟨hrest, hsymbols⟩, rfl, rfl⟩
    exact ⟨⟨m, hd', hrest⟩, fun kind => by rw [List.map_cons, List.map_cons, hsymbol, hsymbols]⟩

/-! ## Statements -/

mutual

/-- **The pass places every statement**, and keeps what it declares. That it keeps the declarations matters to the
    scope around, whose table has been filled from the tree before the pass. -/
theorem Stmt.annotate_pass (strict : Bool) : ∀ (stmt : Stmt) (parent : ScopeId),
    Pass parent (stmt.annotate strict parent) fun later stmt' n n' =>
      stmt'.Placed later parent n n' ∧ stmt'.symbols = stmt.symbols
  | .vars span kind defs, parent => by
    rw [Stmt.annotate]
    refine ((annotateDefs_pass strict parent defs).bind fun _ => .pure _).visit ?_
    rintro later stmt' n n' ⟨defs', m, ⟨hdefs, hsymbols⟩, rfl, rfl⟩
    exact ⟨hdefs, hsymbols kind⟩
  | .function mark name params result body, parent => by
    rw [Stmt.annotate]
    refine (Runs.opening Param.ty_of_mem_symbols (fun ho hown => declareAll_run strict _ ho hown) fun own =>
      (body.annotate_pass strict own).bind fun _ => .pure _).visit ?_
    rintro later stmt' n n' ⟨hopened, body', m, hbody, rfl, rfl⟩
    exact ⟨⟨rfl, hopened, hbody⟩, rfl⟩
  | .blueprint _ _ body, parent | .trait _ _ body, parent | .block body, parent => by
    rw [Stmt.annotate]
    refine ((body.annotate_pass strict parent).bind fun _ => .pure _).visit ?_
    rintro later stmt' n n' ⟨body', m, hbody, rfl, rfl⟩
    exact ⟨hbody, rfl⟩
  | .struct _ _ _, parent | .enum _ _ _, parent | .jump _ _ _, parent => by
    rw [Stmt.annotate]
    refine (Pass.pure _).visit ?_
    rintro later stmt' n n' ⟨rfl, rfl⟩
    exact ⟨rfl, rfl⟩
  | .label mark name stmt, parent => by
    rw [Stmt.annotate]
    -- The label and what the statement declares are one list of names in the scope of the label.
    have h := @Runs.opening _ parent
      (fun own => do
        attempt (·.insert own name.name (.declared .label name.span))
        declareAll strict own stmt.symbols)
      ((name, .declared .label name.span) :: stmt.symbols) _ _
      (List.forall_mem_cons.mpr ⟨rfl, Stmt.ty_of_mem_symbols⟩)
      (fun ho hown => (attempt_run (insert_cases hown name.name _) (.refl hown)).cons ho hown
        (idle_declareAll strict _ stmt.symbols) (declareAll_run strict stmt.symbols))
      fun own => (stmt.annotate_pass strict own).bind fun stmt' =>
        .pure (Stmt.label (mark.record own) name stmt')
    refine h.visit ?_
    rintro later stmt' n n' ⟨hopened, inner, m, ⟨hinner, hsymbols⟩, rfl, rfl⟩
    exact ⟨⟨rfl, hsymbols ▸ hopened, hinner⟩, rfl⟩
  | .branch span cond body elifs none, parent => by
    rw [Stmt.annotate]
    refine ((cond.annotate_pass strict parent).bind fun _ => (body.annotate_pass strict parent).bind fun _ =>
      (annotateElifs_pass strict elifs parent).bind fun _ => .pure _).visit ?_
    rintro later stmt' n n' ⟨cond', m, hcond, body', m', hbody, elifs', m'', helifs, rfl, rfl⟩
    exact ⟨⟨m, m', hcond, hbody, helifs⟩, rfl⟩
  | .branch span cond body elifs (some last), parent => by
    rw [Stmt.annotate]
    refine ((cond.annotate_pass strict parent).bind fun _ => (body.annotate_pass strict parent).bind fun _ =>
      (annotateElifs_pass strict elifs parent).bind fun _ => (last.annotate_pass strict parent).bind fun _ =>
      .pure _).visit ?_
    rintro later stmt' n n' ⟨cond', m, hcond, body', m', hbody, elifs', m'', helifs, last', k,
      hlast, rfl, rfl⟩
    exact ⟨⟨m, m', m'', hcond, hbody, helifs, hlast⟩, rfl⟩
  | .loop span cond body, parent => by
    rw [Stmt.annotate]
    refine ((cond.annotate_pass strict parent).bind fun _ => (body.annotate_pass strict parent).bind fun _ =>
      .pure _).visit ?_
    rintro later stmt' n n' ⟨cond', m, hcond, body', m', hbody, rfl, rfl⟩
    exact ⟨⟨m, hcond, hbody⟩, rfl⟩
  | .ret span value, parent => by
    rw [Stmt.annotate]
    refine ((annotateOption_pass strict value parent).bind fun _ => .pure _).visit ?_
    rintro later stmt' n n' ⟨value', m, ⟨hvalue, -⟩, rfl, rfl⟩
    exact ⟨hvalue, rfl⟩
  | .expr e, parent => by
    rw [Stmt.annotate]
    refine ((e.annotate_pass strict parent).bind fun _ => .pure _).visit ?_
    rintro later stmt' n n' ⟨e', m, he, rfl, rfl⟩
    exact ⟨he, rfl⟩

theorem Block.annotate_pass (strict : Bool) : ∀ (block : Block) (parent : ScopeId),
    Pass parent (block.annotate strict parent) fun later block' n n' => block'.Placed later parent n n'
  | .mk mark stmts, parent => by
    rw [Block.annotate]
    refine (Runs.opening (fun entry hentry => ?_) (fun ho hown => declareAll_run strict _ ho hown) fun own =>
      (annotateStmts_pass strict stmts own).bind fun _ => .pure _).visit ?_
    · obtain ⟨stmt, -, hmem⟩ := List.mem_flatMap.mp hentry
      exact Stmt.ty_of_mem_symbols entry hmem
    · rintro later block' n n' ⟨hopened, stmts', m, ⟨hstmts, hsymbols⟩, rfl, rfl⟩
      exact ⟨rfl, hsymbols ▸ hopened, hstmts⟩

theorem annotateStmts_pass (strict : Bool) : ∀ (stmts : List Stmt) (parent : ScopeId),
    Pass parent (annotateStmts strict parent stmts) fun later stmts' n n' =>
      PlacedStmts later parent stmts' n n' ∧ stmts'.flatMap Stmt.symbols = stmts.flatMap Stmt.symbols
  | [], parent => by
    rw [annotateStmts]
    refine (Pass.pure _).mono ?_
    rintro later stmts' n n' ⟨rfl, rfl⟩
    exact ⟨rfl, rfl⟩
  | stmt :: rest, parent => by
    rw [annotateStmts]
    refine ((stmt.annotate_pass strict parent).bind fun _ =>
      (annotateStmts_pass strict rest parent).bind fun _ => .pure _).mono ?_
    rintro later stmts' n n' ⟨stmt', m, ⟨hstmt, hsymbol⟩, rest', m', ⟨hrest, hsymbols⟩, rfl, rfl⟩
    exact ⟨⟨m, hstmt, hrest⟩, by rw [List.flatMap_cons, List.flatMap_cons, hsymbol, hsymbols]⟩

theorem annotateElifs_pass (strict : Bool) : ∀ (elifs : List Elif) (parent : ScopeId),
    Pass parent (annotateElifs strict parent elifs) fun later elifs' n n' =>
      PlacedElifs later parent elifs' n n'
  | [], parent => by
    rw [annotateElifs]
    refine (Pass.pure _).mono ?_
    rintro later elifs' n n' ⟨rfl, rfl⟩
    rfl
  | .mk span cond body :: rest, parent => by
    rw [annotateElifs]
    refine ((cond.annotate_pass strict parent).bind fun _ => (body.annotate_pass strict parent).bind fun _ =>
      (annotateElifs_pass strict rest parent).bind fun _ => .pure _).mono ?_
    rintro later elifs' n n' ⟨cond', m, hcond, body', m', hbody, rest', m'', hrest, rfl, rfl⟩
    exact ⟨m, m', hcond, hbody, hrest⟩

end

/-! ## Programs -/

/-- The pass leaves as many statements as there are. -/
theorem length_annotateStmts (strict : Bool) (parent : ScopeId) : ∀ (stmts : List Stmt) (s : Scoping),
    (annotateStmts strict parent stmts s).1.length = stmts.length
  | [], _ => rfl
  | stmt :: rest, s => congrArg (· + 1)
    (length_annotateStmts strict parent rest (stmt.annotate strict parent s).2)

/-- The statements of a program stand in the scope `global`, which had the names in `table` before; the scopes of
    the program begin at `n` and are the last ones of the arena. The program's own names are different, and new. -/
structure Program.Placed (g : Scopes) (global : ScopeId) (outer : Option ScopeId) (table : Table)
    (program : Program) (n : Nat) : Prop where
  stmts : PlacedStmts g global program.stmts n g.size
  scope : g.scopeAt global = some ⟨outer, table ++ entriesOf (program.stmts.flatMap Stmt.symbols)⟩
  nodup : (namesOf (program.stmts.flatMap Stmt.symbols)).Nodup
  fresh : ∀ name ∈ namesOf (program.stmts.flatMap Stmt.symbols), table.find? name = none

/-- What the pass over a program has done, whether it was refused or not. In either case no type has been given to
    any name. -/
structure Program.Scoped (g : Scopes) (global : ScopeId) (outer : Option ScopeId) (table : Table)
    (program : Program) (after : Scoping) : Prop where
  grown : Extends {global} g after.scopes
  ordered : after.scopes.Ordered
  gives : ∀ {id kind ty}, after.scopes.Gives id kind ty → g.Gives id kind ty
  refused : ∀ reason, after.halt = some reason → reason.IsRefusal
  placed : after.halt = none → program.Placed after.scopes global outer table g.size

/-! ### No type is given -/

/-- Names that a scope gets without types give nothing. -/
theorem Scopes.Refilled.gives {g g' : Scopes} {own : ScopeId} {outer : Option ScopeId} {table added : Table}
    (h : Refilled g own (table ++ added) g') (hown : g.scopeAt own = some ⟨outer, table⟩)
    (huntyped : ∀ entry ∈ added, entry.2.ty = none) {id : ScopeId} {kind : SymbolKind} {ty : TypeId}
    (hgives : g'.Gives id kind ty) : g.Gives id kind ty := by
  obtain ⟨scope, hscope, entry, hmem, hkind, hty⟩ := hgives
  by_cases he : id = own
  · subst he
    cases (h.scopeAt_own hown).symm.trans hscope
    rcases List.mem_append.mp hmem with hold | hnew
    · exact ⟨_, hown, entry, hold, hkind, hty⟩
    · cases (huntyped entry hnew).symm.trans hty
  · rw [h.scope, if_neg he] at hscope
    exact ⟨scope, hscope, entry, hmem, hkind, hty⟩

/-- Scopes that are opened without types give nothing. -/
theorem Scopes.Extends.gives {g g' : Scopes} (h : Extends ∅ g g')
    (huntyped : ∀ (id : ScopeId) (kind : SymbolKind) (ty : TypeId), g.size ≤ id.index → ¬ g'.Gives id kind ty)
    {id : ScopeId} {kind : SymbolKind} {ty : TypeId} (hgives : g'.Gives id kind ty) : g.Gives id kind ty := by
  by_cases hlt : id.index < g.size
  · obtain ⟨scope, hscope, hentry⟩ := hgives
    exact ⟨scope, (h.scope id hlt (by simp)).symm.trans hscope, hentry⟩
  · exact absurd hgives (huntyped id kind ty (Nat.not_lt.mp hlt))

/-- The symbols of statements have no types when they are declared. -/
theorem ty_of_mem_entriesOf (stmts : List Stmt) :
    ∀ entry ∈ entriesOf (stmts.flatMap Stmt.symbols), entry.2.ty = none := by
  intro entry h
  obtain ⟨symbol, hsymbol, rfl⟩ := List.mem_map.mp h
  obtain ⟨stmt, -, hmem⟩ := List.mem_flatMap.mp hsymbol
  exact Stmt.ty_of_mem_symbols symbol hmem

/-! ### The pass over a program -/

/-- **The pass over a program** touches no old scope but the global one, and that only by new names. -/
theorem Program.annotate_run (strict : Bool) {g : Scopes} {global : ScopeId} {outer : Option ScopeId}
    {table : Table} (ho : g.Ordered) (hglobal : g.scopeAt global = some ⟨outer, table⟩) (program : Program) :
    (program.annotate strict global (.start g)).1.Scoped g global outer table
      (program.annotate strict global (.start g)).2 := by
  have hrun : ∀ declared,
      (declareAll strict global (program.stmts.flatMap Stmt.symbols) ⟨g, none⟩).2 = declared →
      program.annotate strict global (.start g) =
        (⟨(annotateStmts strict global program.stmts declared).1, some global⟩,
          (annotateStmts strict global program.stmts declared).2) := by
    rintro _ rfl
    rfl
  obtain ⟨⟨added, hrefilled, hsub, hall⟩, hrefused⟩ :=
    declareAll_run strict (program.stmts.flatMap Stmt.symbols) ho hglobal
  -- From here on only what is known of the declarations matters, not how they were made.
  generalize (declareAll strict global (program.stmts.flatMap Stmt.symbols) ⟨g, none⟩).2 = declared at *
  rw [hrun _ rfl]
  obtain ⟨g₁, halt⟩ := declared
  have hadded := hrefilled.scopeAt_own hglobal
  have huntyped : ∀ entry ∈ added, entry.2.ty = none := fun entry hentry =>
    ty_of_mem_entriesOf program.stmts entry (hsub entry hentry)
  have hpass := annotateStmts_pass strict program.stmts global
  cases halt with
  | some reason =>
    -- A pass that has been halted changes nothing any more.
    have hsame := hpass.idle ⟨g₁, some reason⟩ (by simp)
    constructor <;> simp only [hsame]
    case grown => exact hrefilled.toExtends
    case ordered => exact hrefilled.ordered ho
    case gives => exact hrefilled.gives hglobal huntyped
    case refused => exact hrefused
    case placed => exact fun hhalt => nomatch hhalt
  | none =>
    obtain ⟨rfl, hnodup, hfresh⟩ := hall rfl
    obtain ⟨hgrown, hordered, hnone, hrefused', hdone⟩ :=
      hpass.runs g₁ (hrefilled.ordered ho) (lt_of_scopeAt hadded)
    refine ⟨hrefilled.toExtends.trans (hgrown.mono (Set.empty_subset _)), hordered,
      fun hgives => hrefilled.gives hglobal huntyped (hgrown.gives hnone hgives), hrefused', fun hhalt => ?_⟩
    obtain ⟨hplaced, hsymbols⟩ := hdone hhalt _ (.refl _)
    rw [hrefilled.size_eq] at hplaced
    refine ⟨hplaced, ?_, ?_, ?_⟩ <;> simp only [hsymbols]
    · exact (hgrown.scope global (lt_of_scopeAt hadded) (by simp)).trans hadded
    · exact hnodup
    · exact hfresh

/-- **What the global scope had stays there** in its place, also when the pass is refused; what comes after it the
    program declares. -/
theorem Program.annotate_holds (strict : Bool) {g : Scopes} {global : ScopeId} {outer : Option ScopeId}
    {table : Table} (ho : g.Ordered) (hglobal : g.scopeAt global = some ⟨outer, table⟩) (program : Program) :
    ∃ added, (program.annotate strict global (.start g)).2.scopes.scopeAt global = some ⟨outer, table ++ added⟩ ∧
      added ⊆ entriesOf (program.stmts.flatMap Stmt.symbols) := by
  obtain ⟨⟨added, hrefilled, hsub, -⟩, -⟩ :=
    declareAll_run strict (program.stmts.flatMap Stmt.symbols) ho hglobal
  have hpass := annotateStmts_pass strict program.stmts global
  refine ⟨added, ?_, hsub⟩
  show (annotateStmts strict global program.stmts (declareAll strict global _ ⟨g, none⟩).2).2.scopes.scopeAt global = _
  generalize (declareAll strict global (program.stmts.flatMap Stmt.symbols) ⟨g, none⟩).2 = declared at *
  obtain ⟨g₁, halt⟩ := declared
  have hadded : g₁.scopeAt global = some ⟨outer, table ++ added⟩ := hrefilled.scopeAt_own hglobal
  cases halt with
  | some reason =>
    rw [hpass.idle ⟨g₁, some reason⟩ (by simp)]
    exact hadded
  | none =>
    have hgrown := (hpass.runs g₁ (hrefilled.ordered ho) (lt_of_scopeAt hadded)).1
    exact (hgrown.scope global (lt_of_scopeAt hadded) (by simp)).trans hadded

end TypeInference
