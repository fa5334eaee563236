import TypeInference.Proofs.Inference.Parts

/-!
# `Proofs.Inference.Statement` — inference of statements keeps to the guard and is sound

One induction over statements, blocks and lists of statements. A statement is looked at in a state that is
`Open` to it and in which its declarations are `Prepared`. What it shows is *settled*: it holds as long as no
variable is touched that is not pinned, and each further statement runs under a guard that hides those.

## Contents
* `Prepared` — the declarations of statements that are to be looked at;
* `inferReturn_allows`, `declaredName_allows` — what several kinds of statements have in common;
* `settle_eq_ok` — the pins of the functions still to come;
* `Stmt.Allowed`, `Block.Allowed`, `AllowedStmts` — what is shown of statements, with a lemma for each kind;
* `Stmt.infer_allows`, `Block.infer_allows`, `inferStmts_allows` — the induction.
-/

namespace TypeInference

open Store Scopes InferM Guard

variable {G : Guard} {r : Bool} {s s' : Inference} {pinned : List TypeId} {scope own : ScopeId} {n n' : Nat}

/-! ## What statements need -/

/-- The declarations are there, and have got their types: those of functions may be used as they are, until their
    bodies have been looked at. -/
structure Prepared (G : Guard) (scope : ScopeId) (decls : List Declaration) (s : Inference) : Prop where
  present : ∀ entry ∈ decls.flatMap Declaration.symbols,
    ∃ symbol, G.base.symbolAt scope entry.1.name = some symbol ∧ symbol.kind = entry.2.kind
  direct : ∀ name ∈ functionNames decls, G.direct scope name
  announced : G.tidy → ∀ decl ∈ decls, Eventually ∅ s fun types scopes => decl.Announced types scopes scope

namespace Prepared

variable {decls decls' : List Declaration}

theorem left (h : Prepared G scope (decls ++ decls') s) : Prepared G scope decls s where
  present := fun entry hentry =>
    h.present entry (by rw [List.flatMap_append]; exact List.mem_append_left _ hentry)
  direct := fun name hname => h.direct name (by rw [functionNames_append]; exact List.mem_append_left _ hname)
  announced := fun ht decl hdecl => h.announced ht decl (List.mem_append_left _ hdecl)

theorem right (h : Prepared G scope (decls ++ decls') s) : Prepared G scope decls' s where
  present := fun entry hentry =>
    h.present entry (by rw [List.flatMap_append]; exact List.mem_append_right _ hentry)
  direct := fun name hname =>
    h.direct name (by rw [functionNames_append]; exact List.mem_append_right _ hname)
  announced := fun ht decl hdecl => h.announced ht decl (List.mem_append_right _ hdecl)

/-- What has been prepared stays prepared through runs that are allowed, as names keep their types. -/
theorem step (h : Prepared G scope decls s) (hs : G.Step r s s') : Prepared G scope decls s' where
  present := h.present
  direct := h.direct
  announced := fun ht decl hdecl => (h.announced ht decl hdecl).always ht hs

/-- The sharper guard may list the functions among the declarations, so these are used as they are under it as well. -/
theorem sharpen (h : Prepared G scope decls s) :
    Prepared (G.sharpen pinned scope n (functionNames decls) s) scope decls s where
  present := h.present
  direct := fun name hname => ⟨h.direct name hname, fun _ => .inr (.inl ⟨rfl, hname⟩)⟩
  announced := h.announced

end Prepared

/-! ### Scopes that have been opened -/

/-- Declarations of a scope that has just been opened are prepared when they have been given types. -/
theorem Predeclared.prepared {decls : List Declaration} {pins : Pins} {symbols : List (Ident × Symbol)}
    (h : Predeclared G ⟨n⟩ decls pins s s') (hs : G.Stands pinned scope n s)
    (hopened : G.base.Opened ⟨n⟩ scope symbols) (hsub : decls.flatMap Declaration.symbols ⊆ symbols) :
    Prepared G ⟨n⟩ decls s' where
  present := fun _ hentry => ⟨_, hopened.symbolAt_of_mem (hsub hentry), rfl⟩
  direct := fun name _ => (hs.ahead ⟨n⟩ (Nat.le_refl _) (lt_of_scopeAt hopened.scope)).2 name
  announced := h.announced

/-- The scope may be entered then. Of the types that predeclaration has pinned, at least those of variables have to
    be pinned further on. -/
theorem Predeclared.open {decls : List Declaration} {pins : Pins} {symbols : List (Ident × Symbol)}
    {tys : List TypeId} (h : Predeclared G ⟨n⟩ decls pins s s') (hs : G.Step r s s')
    (hopen : G.Open pinned scope n s) (hopened : G.base.Opened ⟨n⟩ scope symbols)
    (hsub : ∀ entry ∈ symbols, entry.2.kind.isValue = true → entry ∈ decls.flatMap Declaration.symbols)
    (htys : tys ⊆ pins.all) (hvars : pins.vars ⊆ tys) : G.Open (pinned ++ tys) ⟨n⟩ (n + 1) s' := by
  refine hopen.enter hopened hs (fun ty hty => h.clear ty (htys hty))
    (fun ht => h.fresh (n + 1) (Nat.lt_succ_self n) ((hopen.fresh ht).mono (Nat.le_succ n))) ?_
  intro ht entry hentry hvalue
  obtain ⟨ty, hty, hvar⟩ := h.values ht entry (hsub entry hentry hvalue)
  refine ⟨ty, hty, fun hkind => covered_of_mem (h.clear ty (Pins.mem_all.mpr (.inl (hvar hkind)))).lt ?_⟩
  exact List.mem_append_right _ (hvars (hvar hkind))

/-- The names of variables are there, with the kind of variables. -/
theorem Prepared.vars {span : Span} {kind : VarKind} {defs : List VarDef}
    (h : Prepared G scope (declarations [.vars span kind defs]) s) :
    ∀ d ∈ defs, ∃ symbol, G.base.symbolAt scope d.name.name = some symbol ∧ symbol.kind = .var :=
  fun d hd => h.present (d.name, d.symbol kind)
    (List.mem_flatMap.mpr ⟨.vars kind defs, List.mem_cons_self, List.mem_map_of_mem hd⟩)

/-- **The scope of a label** may be entered when the statement after the label has been declared there. -/
theorem Predeclared.label {name : Ident} {stmt : Stmt} {pins : Pins}
    (h : Predeclared G ⟨n⟩ (declarations [stmt]) pins s s') (hs : G.Step r s s') (hopen : G.Open pinned scope n s)
    (hopened : G.base.Opened ⟨n⟩ scope ((name, .declared .label name.span) :: stmt.symbols)) :
    G.Open (pinned ++ pins.all) ⟨n⟩ (n + 1) s' ∧ Prepared G ⟨n⟩ (declarations [stmt]) s' := by
  have hdecls : (declarations [stmt]).flatMap Declaration.symbols = stmt.symbols := by
    rw [← flatMap_symbols, List.flatMap_singleton]
  refine ⟨h.open hs hopen hopened (fun entry hentry hvalue => ?_) (fun _ => id) (List.subset_append_left _ _),
    h.prepared hopen.toStands hopened (hdecls ▸ List.subset_cons_self _ _)⟩
  rcases List.mem_cons.mp hentry with rfl | hentry
  · cases hvalue
  · exact hdecls ▸ hentry

/-! ## What statements have in common -/

/-- The type of statements without a value is a primitive one, so its tree is known. -/
theorem settles_unit (h : G.Admits s) {J : Tree → Store → Scopes → Prop} (hJ : G.Settles pinned n s (J .unit)) :
    TypeId.unit.index < s.types.size ∧ G.Settles pinned n s fun types scopes =>
      J (types.tree .unit) types scopes := by
  have hunit : initial.get .unit = .ok (.op .unit []) := rfl
  refine ⟨(h.clear_primitive hunit).lt, hJ.fresh, fun ht types scopes hl => ?_⟩
  show J (types.tree .unit) types scopes
  rw [tree_primitive hl.types.wf hunit]
  exact hJ.holds ht types scopes hl

/-- In every state that is open to it, the computation has a result in `Q` and settles `J`. The guard is quantified,
    so that parts of a statement can be looked at under sharper and sharper guards. -/
def Settling {α : Type} (base : Scopes) (pinned : List TypeId) (scope : ScopeId) (expected : Option TypeId)
    (r : Bool) (n n' : Nat) (m : InferM α) (Q : α → Prop) (J : Store → Scopes → Prop) : Prop :=
  ∀ (G : Guard) (s : Inference), G.base = base → G.Open pinned scope n s → s.expected = expected →
    G.Allows r m s fun a s' => Q a ∧ G.Settles pinned n' s' J

namespace Settling

variable {α β : Type} {base : Scopes} {expected : Option TypeId} {m : InferM α} {Q : α → Prop}
  {J K : Store → Scopes → Prop}

theorem pure {a : α} (hQ : Q a) : Settling base pinned scope expected r n n (Pure.pure a) Q fun _ _ => True :=
  fun _ _ _ h _ => h.admits.pure ⟨hQ, h.fresh, fun _ _ _ _ => trivial⟩

theorem mono (h : Settling base pinned scope expected r n n' m Q J)
    (hJ : ∀ types scopes, J types scopes → K types scopes) :
    Settling base pinned scope expected r n n' m Q K :=
  fun G s hbase hopen hexpected => (h G s hbase hopen hexpected).mono fun _ _ _ hafter =>
    ⟨hafter.1, hafter.2.mono hJ⟩

/-- A computation that cannot return may stand where returning is allowed. -/
theorem mayReturn {r' : Bool} (h : Settling base pinned scope expected r n n' m Q J)
    (hle : r = true → r' = true) :
    Settling base pinned scope expected r' n n' m Q J :=
  fun G s hbase hopen hexpected => Within.mayReturn (h G s hbase hopen hexpected) hle

/-- **One part of a statement, then another**: what the first has settled is kept, because the second runs under a
    guard that hides the variables it depends on. -/
theorem andThen {next : α → InferM β} {P : β → Prop} {k : Nat}
    (h : Settling base pinned scope expected r n k m Q J) (hle : n ≤ k)
    (hnext : ∀ a, Settling base pinned scope expected r k n' (next a) P K) :
    Settling base pinned scope expected r n n' (m >>= next) P fun types scopes => J types scopes ∧
      K types scopes := by
  intro G s hbase hopen hexpected
  apply Allows.bind (h G s hbase hopen hexpected)
  intro a s₁ h₁ hafter
  obtain ⟨-, hsettles⟩ := hafter
  have hopen₁ := hopen.step h₁ hle hsettles.fresh
  -- What is not pinned is hidden from the second part, so it keeps what the first has settled.
  apply (hopen₁.keep [] (by simp) hsettles.holds fun hsharp => hnext a _ s₁ hbase hsharp
    (h₁.expected_eq.trans hexpected)).mono
  intro b s₂ h₂ hafter
  obtain ⟨⟨hP, hsettles₂⟩, hkept⟩ := hafter
  refine ⟨hP, hsettles₂.fresh, fun ht types scopes hl => ?_⟩
  exact ⟨hkept ht types scopes hl, hsettles₂.holds ht types scopes hl⟩

/-- A statement without a value is settled by what its parts settle. -/
theorem stmt {m : InferM TypeId} (hm : Settling G.base pinned scope expected r n n' m (· = .unit) J)
    (h : G.Open pinned scope n s) (hexpected : s.expected = expected) {stmt : Stmt}
    (hJ : ∀ types scopes, J types scopes →
      StmtTyped types.tree scopes (expected.map types.tree) scope stmt .unit) :
    G.Allows r m s fun ty s' => ty.index < s'.types.size ∧ G.Settles pinned n' s' fun types scopes =>
      StmtTyped types.tree scopes (expected.map types.tree) scope stmt (types.tree ty) := by
  apply (hm G s rfl h hexpected).mono
  intro ty s' hs hafter
  obtain ⟨hty, hsettles⟩ := hafter
  subst hty
  exact settles_unit (h.admits.step hs)
    (J := fun t types scopes => StmtTyped types.tree scopes (expected.map types.tree) scope stmt t)
    (hsettles.mono hJ)

end Settling

/-! ### Conditions, names and values given back -/

/-- A condition is settled: from then on it is well typed as a truth value. -/
theorem condition_settling {base : Scopes} {expected : Option TypeId} (cond : Expr)
    (hcond : cond.Placed base scope n n') :
    Settling base pinned scope expected r n n' (inferCondition pinned cond) (fun _ => True)
      fun types scopes => ExprTyped types.tree scopes cond .bool := by
  rintro G s rfl h -
  refine h.settle fun hready => ?_
  exact (inferCondition_allows (G := G.sharpen pinned scope n [] s) cond hcond hready).mono fun _ _ _ hend =>
    ⟨trivial, hend⟩

/-- The type of the name that a statement declares, which has been announced with its own name as the tree. -/
theorem declaredName_allows (h : G.Stands pinned scope n s) {kind : SymbolKind} {name : Ident}
    (hannounced : G.tidy → Eventually ∅ s fun types scopes =>
      (Declaration.type kind name).Announced types scopes scope)
    {J : Store → Scopes → Prop} (hJ : G.Settles pinned n s J) :
    G.Allows r (declaredType scope name.name) s fun ty s' => ty.index < s'.types.size ∧
      G.Settles pinned n s' fun types scopes => J types scopes ∧ types.tree ty = .named name.name ∧
        DeclaredAs types.tree scopes scope name.name none (.named name.name) := by
  have hsome : G.tidy → (s.scopes.typeAt scope name.name).isSome := fun ht => by
    obtain ⟨ty, hty, -⟩ := (hannounced ht).now h.admits.wf
    rw [hty]; rfl
  apply (h.admits.declaredType h.visible name.name hsome).mono
  intro ty s₁ h₁ hcase
  rcases hcase with ⟨hty, rfl⟩ | ⟨htidy, hclear⟩
  · refine ⟨h.admits.lt_of_typeAt hty, hJ.fresh, fun ht types scopes hl => ?_⟩
    obtain ⟨ty', hty', htree, hsig⟩ := hannounced ht types scopes (hl.mono (Set.empty_subset _))
    obtain rfl : ty' = ty := Option.some.inj (hty'.symm.trans (hl.kept hty))
    exact ⟨hJ.holds ht types scopes hl, htree, ty', hty', htree, hsig⟩
  · exact ⟨hclear.lt, fun ht => absurd ht htidy, fun ht => absurd ht htidy⟩

/-- A block, and the type of the name that stands for it. Blueprints and traits are looked at like this. -/
theorem declaredBlock_allows {expected : Option TypeId} (h : G.Open pinned scope n s)
    (hexpected : s.expected = expected) {kind : SymbolKind} {name : Ident} {body : Block} (hle : n ≤ n')
    (hannounced : G.tidy → Eventually ∅ s fun types scopes =>
      (Declaration.type kind name).Announced types scopes scope)
    (hbody : Settling G.base pinned scope expected r n n' (body.infer pinned) (· = .unit)
      fun types scopes => BlockTyped types.tree scopes (expected.map types.tree) body) :
    G.Allows r (do let _ ← body.infer pinned; declaredType scope name.name) s fun ty s' =>
      ty.index < s'.types.size ∧
      G.Settles pinned n' s' fun types scopes => BlockTyped types.tree scopes (expected.map types.tree) body ∧
        types.tree ty = .named name.name ∧ DeclaredAs types.tree scopes scope name.name none
          (.named name.name) := by
  apply Allows.bind (hbody G s rfl h hexpected)
  intro _ s₁ h₁ hafter
  obtain ⟨-, hbody₁⟩ := hafter
  have hstands₁ := h.toStands.step h₁ hle hbody₁.fresh
  exact declaredName_allows hstands₁ (fun ht => (hannounced ht).always ht h₁) hbody₁

/-- A value is given back: it gets the type of the result, and the function is known to return. -/
theorem inferReturn_allows {result : TypeId} (span : Span) {actual : InferM TypeId}
    {J : Tree → Store → Scopes → Prop} (h : G.Admits s) (hresult : s.types.Clear G.hidden result)
    (hactual : G.Allows true actual s fun ty s' => s'.types.Clear G.hidden ty ∧
      G.Concludes n s' fun types scopes => J (types.tree ty) types scopes) :
    G.Allows true (do let ty ← actual; unify span result ty; markReturned; pure TypeId.unit) s
      fun ty s' => ty = .unit ∧
      G.Concludes n s' fun types scopes => J (types.tree result) types scopes := by
  apply Allows.bind hactual
  intro ty s₁ h₁ hafter
  obtain ⟨hclear₁, hend₁⟩ := hafter
  have hadmits₁ := h.step h₁
  apply Allows.bind (hadmits₁.unify span (h₁.types.clear h.wf hresult) hclear₁)
  intro _ s₂ h₂ hafter
  obtain ⟨hscopes₂, heq₂⟩ := hafter
  have hadmits₂ := hadmits₁.step h₂
  apply Allows.bind (markReturned_allows hadmits₂)
  intro _ s₃ h₃ hs₃
  refine (hadmits₂.step h₃).pure
    ⟨rfl, fun ht => ⟨fresh_of_eq (by rw [hs₃, hscopes₂]) (hend₁ ht).1, fun types scopes hl => ?_⟩⟩
  show J (types.tree result) types scopes
  rw [heq₂.step h₃.types types hl.types]
  exact ((hend₁ ht).2.step ht h₂).step ht h₃ types scopes hl

/-- Components of a pinned type are covered: their variables are variables of the type. -/
theorem Store.covered_of_tree_eq {types : Store} {ty : TypeId} {con : Constructor} {args : List TypeId}
    (hwf : types.WellFormed) (hty : ty.index < types.size)
    (htree : types.tree ty = .app con (args.map types.tree)) (hmem : ty ∈ pinned) {a : TypeId} (ha : a ∈ args)
    (hlt : a.index < types.size) : types.Covered ∅ pinned a := by
  refine ⟨hlt, fun v hr hv => .inr ⟨ty, hmem, ?_⟩⟩
  have hvar : (types.tree ty).HasVar v := by
    rw [htree]
    exact .app (List.mem_map_of_mem ha) ((hwf.grounded.hasVar_tree_iff hlt).mpr ⟨hr, hv⟩)
  exact ((hwf.grounded.hasVar_tree_iff hty).mp hvar).1

/-- Function trees are equal only if their parts are. -/
theorem Tree.function_inj {params params' : List Tree} {result result' : Tree}
    (h : Tree.function params result = .function params' result') : params = params' ∧ result = result' := by
  have happend : params ++ [result] = params' ++ [result'] := by
    simpa [Tree.function] using h
  obtain ⟨hparams, hresult⟩ := List.append_inj' happend rfl
  exact ⟨hparams, List.singleton_inj.mp hresult⟩

/-! ## Functions still to come -/

/-- Under a tidy guard, each function has got the type in its place, and the types are different, so that one can be
    released without another. -/
def Pending (G : Guard) (scope : ScopeId) (names : List String) (tys : List TypeId) (s : Inference) : Prop :=
  G.tidy → List.Forall₂ (fun name ty => s.scopes.typeAt scope name = some ty) names tys ∧ tys.Nodup

theorem Pending.step {names : List String} {tys : List TypeId} (h : Pending G scope names tys s)
    (hs : G.Step r s s') : Pending G scope names tys s' :=
  fun ht => ⟨(h ht).1.imp fun _ _ hty => hs.kept ht hty, (h ht).2⟩

theorem Pending.mem {names : List String} {tys : List TypeId} (h : Pending G scope names tys s) (ht : G.tidy)
    {name : String} (hname : name ∈ names) {ty : TypeId} (hty : s.scopes.typeAt scope name = some ty) :
    ty ∈ tys := by
  obtain ⟨i, hi, rfl⟩ := List.getElem_of_mem hname
  obtain ⟨hlength, hat⟩ := List.forall₂_iff_get.mp (h ht).1
  obtain rfl : tys.get ⟨i, hlength ▸ hi⟩ = ty := Option.some.inj ((hat i hi (hlength ▸ hi)).symm.trans hty)
  exact List.getElem_mem _

/-- **A function that has been looked at** is pinned no longer; the others are. For statements of other kinds
    nothing is released. -/
theorem settle_eq_ok (hscope : scope.index < s.scopes.size) {pins : Pins} {rest : List Stmt} :
    ∀ (stmt : Stmt),
    Pending G scope (functionNames (declarations (stmt :: rest))) pins.functions s →
    ∃ pins', stmt.settle scope pins s = .ok pins' s ∧ pins'.vars = pins.vars ∧
      pins'.functions ⊆ pins.functions ∧
      Pending G scope (functionNames (declarations rest)) pins'.functions s
  | .function mark name params result body, h => by
    have hpending : G.tidy → ∃ ty tys, s.scopes.typeAt scope name.name = some ty ∧
        List.Forall₂ (fun name ty => s.scopes.typeAt scope name = some ty)
          (functionNames (declarations rest)) tys ∧
          pins.functions = ty :: tys ∧ ty ∉ tys ∧ tys.Nodup := fun ht => by
      obtain ⟨hall, hnodup⟩ := h ht
      obtain ⟨ty, tys, hty, hrest, he⟩ := List.forall₂_cons_left_iff.mp hall
      exact ⟨ty, tys, hty, hrest, he, List.nodup_cons.mp (he ▸ hnodup)⟩
    cases hty : s.scopes.typeAt scope name.name with
    | none =>
      -- Under a tidy guard the function has a type.
      refine ⟨pins, ?_, rfl, fun _ => id, fun ht => ?_⟩
      · rw [Stmt.settle, run_bind_of_ok (getLocal_eq_ok hscope name.name), ← typeAt, hty]
        rfl
      obtain ⟨ty, _, hfirst, -⟩ := hpending ht
      rw [hty] at hfirst
      cases hfirst
    | some ty =>
      refine ⟨pins.release ty, ?_, rfl, List.filter_sublist.subset, fun ht => ?_⟩
      · rw [Stmt.settle, run_bind_of_ok (getLocal_eq_ok hscope name.name), ← typeAt, hty]
        rfl
      obtain ⟨ty', tys, hfirst, hrest, hfunctions, hnot, hnodup⟩ := hpending ht
      obtain rfl : ty = ty' := Option.some.inj (hty.symm.trans hfirst)
      have hrelease : (pins.release ty).functions = tys := by
        rw [Pins.release, hfunctions, List.filter_cons_of_neg (by simp)]
        exact List.filter_eq_self.mpr fun a ha => by simpa using ne_of_mem_of_not_mem ha hnot
      rw [hrelease]
      exact ⟨hrest, hnodup⟩
  | .vars _ _ _, h | .blueprint _ _ _, h | .trait _ _ _, h | .struct _ _ _, h | .enum _ _ _, h
  | .label _ _ _, h | .block _, h | .branch _ _ _ _ _, h | .loop _ _ _, h | .ret _ _, h
  | .jump _ _ _, h | .expr _, h =>
    ⟨pins, rfl, rfl, fun _ => id, h⟩

/-! ### Statements that are under way -/

/-- What is left of a list of statements may be looked at: the variables of its scope are pinned, and so are the
    functions still to come, which have the types that they were announced with. -/
structure Guard.Underway (G : Guard) (pinned : List TypeId) (pins : Pins) (scope : ScopeId) (n : Nat)
    (stmts : List Stmt) (s : Inference) : Prop extends G.Open (pinned ++ pins.vars) scope n s where
  functions : ∀ ty ∈ pins.functions, s.types.Clear G.hidden ty
  prepared : Prepared G scope (declarations stmts) s
  pending : Pending G scope (functionNames (declarations stmts)) pins.functions s

/-- The statements of a block may be looked at when its declarations have got their types. Here the induction over
    the list begins. -/
theorem Predeclared.underway {stmts : List Stmt} {pins : Pins}
    (h : Predeclared G ⟨n⟩ (declarations stmts) pins s s') (hs : G.Step r s s') (hopen : G.Open pinned scope n s)
    (hopened : G.base.Opened ⟨n⟩ scope (stmts.flatMap Stmt.symbols)) :
    G.Underway pinned pins ⟨n⟩ (n + 1) stmts s' where
  toOpen := h.open hs hopen hopened (fun _ hentry _ => flatMap_symbols stmts ▸ hentry)
    (List.subset_append_left _ _) fun _ => id
  functions := fun ty hty => h.clear ty (Pins.mem_all.mpr (.inr hty))
  prepared := h.prepared hopen.toStands hopened (flatMap_symbols stmts ▸ fun _ => id)
  pending := fun ht => ⟨h.functions ht, h.nodup⟩

namespace Guard.Underway

variable {pins : Pins} {stmt : Stmt} {stmts later : List Stmt}

/-- The functions still to come are pinned as well, and the state is open with both. -/
theorem all (h : G.Underway pinned pins scope n stmts s) : G.Open (pinned ++ pins.all) scope n s := by
  have hall : pinned ++ pins.all = (pinned ++ pins.vars) ++ pins.functions := (List.append_assoc _ _ _).symm
  rw [hall]
  refine h.pin (List.subset_append_left _ _) ?_
  intro p hp
  exact (List.mem_append.mp hp).elim (h.pinsClear p) (h.functions p)

theorem vars_subset : pinned ++ pins.vars ⊆ pinned ++ pins.all :=
  List.append_subset.mpr ⟨List.subset_append_left _ _, fun _ hty =>
    List.mem_append_right _ (Pins.mem_all.mpr (.inl hty))⟩

/-- The types of functions still to come are pinned types, hence covered. -/
theorem covered (h : G.Underway pinned pins scope n stmts s) (ht : G.tidy) (name : String)
    (hname : name ∈ functionNames (declarations stmts)) (ty : TypeId) (hty : s.scopes.typeAt scope name = some ty) :
    s.types.Covered ∅ (pinned ++ pins.all) ty :=
  have hmem := h.pending.mem ht hname hty
  covered_of_mem (h.functions ty hmem).lt (List.mem_append_right _ (Pins.mem_all.mpr (.inr hmem)))

/-- **Under the sharper guard** the statements may be looked at as well, as it lists the functions that are still to
    come. -/
theorem sharpen (h : G.Underway pinned pins scope n stmts s) :
    (G.sharpen (pinned ++ pins.all) scope n (functionNames (declarations stmts)) s).Underway pinned pins scope n stmts
      s :=
  have hsharp := h.all.sharpen _ h.covered
  { toOpen := h.toOpen.repin hsharp rfl rfl vars_subset
    functions := fun ty hty => hsharp.pinsClear ty (List.mem_append_right _ (Pins.mem_all.mpr (.inr hty)))
    prepared := h.prepared.sharpen
    pending := h.pending }

/-- The first of the statements has its declaration prepared. -/
theorem first (h : G.Underway pinned pins scope n (stmt :: later) s) : Prepared G scope (declarations [stmt]) s :=
  (declarations_cons stmt later ▸ h.prepared).left

/-- **After the first statement** come the others; if it was a function, it is pinned no longer. This is the step of
    the induction over the list. -/
theorem rest (h : G.Underway pinned pins scope n (stmt :: later) s) (hs : G.Step r s s') (hle : n ≤ n')
    (hfresh : G.tidy → s'.Fresh n') :
    ∃ pins', stmt.settle scope pins s' = .ok pins' s' ∧ pins'.vars = pins.vars ∧
      pinned ++ pins'.all ⊆ pinned ++ pins.all ∧ G.Underway pinned pins' scope n' later s' := by
  obtain ⟨pins', hsettle, hvars, hsub, hpending⟩ :=
    settle_eq_ok ((h.admits.step hs).lt_of_visible h.visible) stmt (h.pending.step hs)
  refine ⟨pins', hsettle, hvars, ?_, hvars ▸ h.toOpen.step hs hle hfresh, fun ty hty => ?_,
    (declarations_cons stmt later ▸ h.prepared).right.step hs, hpending⟩
  · refine List.append_subset.mpr ⟨List.subset_append_left _ _, fun ty hty => List.mem_append_right _ ?_⟩
    exact Pins.mem_all.mpr ((Pins.mem_all.mp hty).imp (hvars ▸ ·) (hsub ·))
  · exact hs.types.clear h.admits.wf (h.functions ty (hsub hty))

end Guard.Underway

/-! ## Statements -/

/-- **A body that cannot return** has the result of statements, so the result of its function is unified with it. -/
theorem unitResult_allows {result : TypeId} {J : Store → Scopes → Prop} (h : G.Open pinned scope n s)
    (hclear : s.types.Clear G.hidden result) (hcovered : s.types.Covered ∅ pinned result)
    (hJ : G.Settles pinned n s J) (span : Span) :
    G.Allows r (unify span result .unit) s fun _ s' => G.Settles pinned n s' fun types scopes =>
      J types scopes ∧ types.tree result = .unit := by
  have hunit : initial.get .unit = .ok (.op .unit []) := rfl
  have hrun : (G.sharpen pinned scope n [] s).Open pinned scope n s →
      (G.sharpen pinned scope n [] s).Allows r (unify span result .unit) s fun _ s' => s'.scopes = s.scopes ∧
        (G.tidy → Eventually (s'.types.Unpinned pinned) s' fun types _ => types.tree result = .unit) := by
    intro hsharp
    have hclear' : s.types.Clear (G.sharpen pinned scope n [] s).hidden result :=
      clear_sharpen hclear fun _ => hcovered.clear_unpinned
    apply (hsharp.admits.unify span hclear' (hsharp.admits.clear_primitive hunit)).mono
    intro _ s' hs hafter
    obtain ⟨hscopes, heq⟩ := hafter
    refine ⟨hscopes, fun _ types scopes hl => ?_⟩
    exact (heq types (hl.types.mono (hsharp.hidden_subset_of_step hs))).trans (tree_primitive hl.types.wf hunit)
  apply (h.keep [] (by simp) hJ.holds hrun).mono
  intro _ s' hs hafter
  obtain ⟨⟨hscopes, heq⟩, hkept⟩ := hafter
  refine ⟨fun ht => fresh_of_eq hscopes (hJ.fresh ht), fun ht types scopes hl => ?_⟩
  exact ⟨hkept ht types scopes hl, heq ht types scopes hl⟩

/-- **The body of a function may be entered.** The variables of its parameters and of its result are those of the
    function's type, which is pinned there, so the body cannot use its own function at two types. -/
theorem Guard.Open.enterFunction {params : List Param} {tys : List TypeId} {ty result : TypeId}
    (h : G.Open pinned scope n s) (hopened : G.base.Opened ⟨n⟩ scope (Param.symbols params)) (hs : G.Step r s s')
    (hclear : s'.types.Clear G.hidden ty) (hparts : ∀ a ∈ tys ++ [result], s'.types.Clear G.hidden a)
    (htree : s'.types.tree ty = .function (tys.map s'.types.tree) (s'.types.tree result))
    (hfresh : G.tidy → s'.Fresh (n + 1))
    (htyped : G.tidy → ∀ name ∈ namesOf (Param.symbols params), ∃ a ∈ tys, s'.scopes.typeAt ⟨n⟩ name = some a) :
    s'.types.Covered ∅ (pinned ++ [ty]) result ∧ G.Open (pinned ++ [ty]) ⟨n⟩ (n + 1) s' := by
  have htree' : s'.types.tree ty = .app .function ((tys ++ [result]).map s'.types.tree) := by
    rw [htree, List.map_append, List.map_singleton, Tree.function]
  have hcovered : ∀ a ∈ tys ++ [result], s'.types.Covered ∅ (pinned ++ [ty]) a := fun a ha =>
    covered_of_tree_eq hs.types.wf hclear.lt htree' (by simp) ha (hparts a ha).lt
  refine ⟨hcovered result (by simp), h.enter hopened hs (by simpa using hclear) hfresh fun ht entry hentry _ => ?_⟩
  obtain ⟨a, ha, hat⟩ := htyped ht _ (List.mem_map_of_mem hentry)
  exact ⟨a, hat, fun _ => hcovered a (List.mem_append_left _ ha)⟩

/-- **A function whose body is well typed** goes on being well typed with the type that was announced for it. What
    is said here of trees holds at the end, and as long as no variable is touched that is not pinned. -/
theorem function_settles {mark : Mark} {name : Ident} {params : List Param} {signature : Option Signature}
    {body : Block} {expected : Option TypeId} {tys : List TypeId} {ty result : TypeId} {before s'' : Inference}
    (h : G.Open pinned scope n s) (hmark : mark.scope = some ⟨n⟩)
    (hprepared : Prepared G scope [.function name params signature] s) (hs : G.Step r s s') (hs' : G.Step r s' s'')
    (hat : G.tidy → s'.scopes.typeAt scope name.name = some ty) (hclear : s'.types.Clear G.hidden ty)
    (htree : Henceforth G.hidden s'.types fun f => f.tree ty = .function (tys.map f.tree) (f.tree result))
    (hnamed : Named G ⟨n⟩ (namesOf (Param.symbols params)) tys before s')
    (hsettled : G.Settles (pinned ++ [ty]) n' s'' fun types scopes =>
      BlockTyped types.tree scopes (some (types.tree result)) body ∧
        (body.returns = false → types.tree result = .unit)) :
    ty.index < s''.types.size ∧ G.Settles pinned n' s'' fun types scopes =>
      StmtTyped types.tree scopes (expected.map types.tree) scope (.function mark name params signature body)
        (types.tree ty) := by
  refine ⟨(hs'.types.clear hs.types.wf hclear).lt, hsettled.fresh, fun ht types scopes hl => ?_⟩
  have hl'' : Later G.hidden s'' types scopes := hl.mono (h.hidden_subset_of_step (hs.trans hs'))
  have hl' := hl''.of_step ht subset_rfl hs'
  have hat' : scopes.typeAt scope name.name = some ty := hl'.kept (hat ht)
  have htree' : types.tree ty = .function (tys.map types.tree) (types.tree result) := htree types hl'.types
  -- The trees that were announced are those that the body was looked at with.
  obtain ⟨trees, t, ⟨ty', hty', hfunction, -⟩, hwritten, hsignature⟩ :=
    hprepared.announced ht _ List.mem_cons_self types scopes
      ((hl'.of_step ht subset_rfl hs).mono (Set.empty_subset _))
  obtain rfl : ty' = ty := Option.some.inj (hty'.symm.trans hat')
  obtain ⟨rfl, rfl⟩ := Tree.function_inj (hfunction.symm.trans htree')
  obtain ⟨hblock, hunit⟩ := hsettled.holds ht types scopes (hl.mono (unpinned_anti (List.subset_append_left _ _)))
  rw [htree']
  have hparams := hnamed.paramTyped ht hl' hwritten
  exact .function hmark ⟨ty', hat', htree', by simp⟩ hparams hsignature hblock hunit

/-! ### Functions and returns -/

/-- **A function** goes on having the type that its body was looked at with. Its type is taken apart, its parameters
    get their types, its body is looked at, and a body that cannot return is given a result. -/
theorem inferFunction_allows {mark : Mark} {name : Ident} {params : List Param} {signature : Option Signature}
    {body : Block} {expected : Option TypeId} (h : G.Open pinned scope n s) (hmark : mark.scope = some ⟨n⟩)
    (hopened : G.base.Opened ⟨n⟩ scope (Param.symbols params)) (hle : n + 1 ≤ n')
    (hprepared : Prepared G scope [.function name params signature] s)
    (hbody : ∀ ty result, Settling G.base (pinned ++ [ty]) ⟨n⟩ (some result) body.returns (n + 1) n'
      (body.infer (pinned ++ [ty])) (· = .unit) fun types scopes =>
        BlockTyped types.tree scopes (some (types.tree result)) body) :
    G.Allows false (Stmt.infer scope pinned (.function mark name params signature body)) s fun ty s' =>
      ty.index < s'.types.size ∧ G.Settles pinned n' s' fun types scopes =>
        StmtTyped types.tree scopes (expected.map types.tree) scope
          (.function mark name params signature body) (types.tree ty) := by
  rw [Stmt.infer]
  refine .bind_of_ok (requireScope_eq_ok hmark) ?_
  have hannounced := fun ht => hprepared.announced ht _ List.mem_cons_self
  have hsome : G.tidy → (s.scopes.typeAt scope name.name).isSome := fun ht => by
    obtain ⟨trees, t, ⟨ty, hty, -⟩, -⟩ := (hannounced ht).now h.admits.wf
    rw [hty]; rfl
  apply Allows.bind (h.admits.declaredType h.visible name.name hsome)
  intro ty s₁ h₁ hcase
  have hadmits₁ := h.admits.step h₁
  have hclear₁ : s₁.types.Clear G.hidden ty := by
    rcases hcase with ⟨hty, rfl⟩ | ⟨-, hclear⟩
    · exact h.admits.direct (hprepared.direct _ List.mem_cons_self) hty
    · exact hclear
  have hsame : G.tidy → s₁.Fresh n ∧ s₁.scopes.typeAt scope name.name = some ty := fun ht => by
    rcases hcase with ⟨hty, rfl⟩ | ⟨htidy, -⟩
    · exact ⟨h.fresh ht, hty⟩
    · exact absurd ht htidy
  apply Allows.bind (functionParts_allows hadmits₁ mark.span hclear₁ params.length)
  intro parts s₂ h₂ hafter
  obtain ⟨hparts₂, hscopes₂, hlength, htree₂⟩ := hafter
  obtain ⟨tys, result⟩ := parts
  have hadmits₂ := hadmits₁.step h₂
  have hstands₂ := h.toStands.step (h₁.trans h₂) (Nat.le_refl n) fun ht => fresh_of_eq hscopes₂ (hsame ht).1
  have htys₂ : ∀ a ∈ tys, s₂.types.Clear G.hidden a := fun a ha => hparts₂ a (List.mem_append_left _ ha)
  apply Allows.bind (setParamTypes_allows params tys hadmits₂ hlength.symm htys₂ (hstands₂.nameable hopened))
  intro _ s₃ h₃ hafter
  obtain ⟨htypes₃, hnamed⟩ := hafter
  have hadmits₃ := hadmits₂.step h₃
  have hparts₃ : ∀ a ∈ tys ++ [result], s₃.types.Clear G.hidden a := fun a ha =>
    h₃.types.clear h₂.types.wf (hparts₂ a ha)
  have hty₃ := (h₂.trans h₃).types.clear h₁.types.wf hclear₁
  obtain ⟨hcovered, hopen₃⟩ := h.enterFunction hopened ((h₁.trans h₂).trans h₃) hty₃ hparts₃ (htree₂ s₃.types h₃.types)
    (fun ht => hnamed.fresh (n + 1) (Nat.lt_succ_self n) (fresh_of_eq hscopes₂ ((hsame ht).1.mono (Nat.le_succ n))))
    fun ht _ hname => hnamed.exists_type ht hname
  have hresult : s₃.types.Clear G.hidden result := hparts₃ result (by simp)
  have hinner := hopen₃.withFrame ⟨result, false⟩ hresult fun _ => hcovered
  apply Allows.bind (withFrame_allows (hbody ty result G _ rfl hinner rfl))
  intro flag s₄ h₄ hafter
  obtain ⟨hflag, _, inner, ⟨-, hinner₄⟩, hs₄⟩ := hafter
  have hbody₄ : G.Settles (pinned ++ [ty]) n' s₄ fun types scopes =>
    BlockTyped types.tree scopes (some (types.tree result)) body :=
    hs₄ ▸ hinner₄.withFrames s₃.frames
  have hopen₄ := hopen₃.step h₄ hle hbody₄.fresh
  have hat₃ : G.tidy → s₃.scopes.typeAt scope name.name = some ty := fun ht =>
    (h₂.trans h₃).kept ht (hsame ht).2
  have htree₃ := htree₂.step h₃.types
  cases flag with
  | true =>
    refine (hadmits₃.step h₄).pure (function_settles h hmark hprepared ((h₁.trans h₂).trans h₃) h₄ hat₃ hty₃
      htree₃ hnamed (hbody₄.mono fun _ _ hblock => ⟨hblock, fun hreturns => ?_⟩))
    cases hflag hreturns
  | false =>
    -- A body that cannot return is given the result of statements.
    have hcovered₄ := (h₄.types.mono (Set.empty_subset _)).covered h₃.types.wf hcovered
    apply Allows.bind (unitResult_allows hopen₄ (h₄.types.clear h₃.types.wf hresult) hcovered₄ hbody₄ mark.span)
    intro _ s₅ h₅ hsettled
    exact (hopen₄.admits.step h₅).pure (function_settles h hmark hprepared ((h₁.trans h₂).trans h₃) (h₄.trans h₅)
      hat₃ hty₃ htree₃ hnamed (hsettled.mono fun _ _ hboth => ⟨hboth.1, fun _ => hboth.2⟩))

/-- **A return** is well typed when the value has the tree of the result. Both kinds of return, with and without a
    value, are cases of this. -/
theorem ret_allows {span : Span} {value : Option Expr} {frame : Frame} {J : Tree → Store → Scopes → Prop}
    {actual : InferM TypeId} (h : G.Open pinned scope n s) (hframe : frame ∈ s.frames)
    (hactual : (G.sharpen pinned scope n [] s).Ready pinned scope n s →
      (G.sharpen pinned scope n [] s).Allows true actual s fun ty s' =>
        s'.types.Clear (G.sharpen pinned scope n [] s).hidden ty ∧
          (G.sharpen pinned scope n [] s).Concludes n' s' fun types scopes => J (types.tree ty) types scopes)
    (hJ : ∀ t types scopes', J t types scopes' →
      StmtTyped types.tree scopes' (some t) scope (.ret span value) .unit) :
    G.Allows true (do let ty ← actual; unify span frame.result ty; markReturned; pure TypeId.unit) s fun ty s' =>
      ty.index < s'.types.size ∧ G.Settles pinned n' s' fun types scopes' =>
        StmtTyped types.tree scopes' (some (types.tree frame.result)) scope (.ret span value) (types.tree ty) := by
  apply (h.settle fun hready => inferReturn_allows (G := G.sharpen pinned scope n [] s) span
    hready.admits (hready.admits.frames frame hframe) (hactual hready)).mono
  intro ty s' hs hafter
  obtain ⟨hty, hsettles⟩ := hafter
  subst hty
  exact settles_unit (h.admits.step hs)
    (J := fun t types scopes' => StmtTyped types.tree scopes' (some (types.tree frame.result)) scope
      (.ret span value) t)
    (hsettles.mono fun types scopes' hj => hJ _ types scopes' hj)

/-! ## What is shown of statements -/

/-- What the induction shows of a statement: its inference keeps to the guard, and the statement is well typed from
    then on, as long as no variable is touched that is not pinned. -/
def Stmt.Allowed (stmt : Stmt) : Prop :=
  ∀ ⦃G : Guard⦄ ⦃pinned : List TypeId⦄ ⦃scope : ScopeId⦄ ⦃n n' : Nat⦄ ⦃s : Inference⦄ ⦃expected : Option TypeId⦄,
    stmt.Placed G.base scope n n' → G.Open pinned scope n s → Prepared G scope (declarations [stmt]) s →
    s.expected = expected →
    G.Allows stmt.returns (stmt.infer scope pinned) s fun ty s' => ty.index < s'.types.size ∧
      G.Settles pinned n' s' fun types scopes =>
        StmtTyped types.tree scopes (expected.map types.tree) scope stmt (types.tree ty)

/-- A block has the names of its statements in a scope of its own, so it is looked at in every state that is open to
    the scope around it. -/
def Block.Allowed (block : Block) : Prop :=
  ∀ ⦃base : Scopes⦄ ⦃pinned : List TypeId⦄ ⦃scope : ScopeId⦄ ⦃n n' : Nat⦄ ⦃expected : Option TypeId⦄,
    block.Placed base scope n n' →
    Settling base pinned scope expected block.returns n n' (block.infer pinned) (· = .unit) fun types scopes =>
      BlockTyped types.tree scopes (expected.map types.tree) block

/-- Statements one after another: a function may be used at different types once its body has been looked at. Of the
    pinned types, those of the variables are left at the end. -/
def AllowedStmts (stmts : List Stmt) : Prop :=
  ∀ ⦃G : Guard⦄ ⦃pinned : List TypeId⦄ ⦃scope : ScopeId⦄ ⦃n n' : Nat⦄ ⦃s : Inference⦄ ⦃pins : Pins⦄
    ⦃expected : Option TypeId⦄, PlacedStmts G.base scope stmts n n' → G.Underway pinned pins scope n stmts s →
    s.expected = expected →
    G.Allows (stmtsReturn stmts) (inferStmts scope pinned pins stmts) s fun tys s' =>
      tys.length = stmts.length ∧ (∀ ty ∈ tys, ty.index < s'.types.size) ∧
      G.Settles (pinned ++ pins.vars) n' s' fun types scopes =>
        StmtsTyped types.tree scopes (expected.map types.tree) scope stmts (tys.map types.tree)

/-- The further conditions of a branch, each with the block that belongs to it. -/
def AllowedElifs (elifs : List Elif) : Prop :=
  ∀ ⦃base : Scopes⦄ ⦃pinned : List TypeId⦄ ⦃scope : ScopeId⦄ ⦃n n' : Nat⦄ ⦃expected : Option TypeId⦄,
    PlacedElifs base scope elifs n n' →
    Settling base pinned scope expected (elifsReturn elifs) n n' (inferElifs pinned elifs) (fun _ => True)
      fun types scopes => ElifsTyped types.tree scopes (expected.map types.tree) elifs

/-! ### Declarations

Each kind of statement has its own lemma, which assumes of the parts what the induction shows. -/

/-- Variables have been announced; what is left is to look at their first values. -/
theorem Stmt.Allowed.vars {span : Span} {kind : VarKind} {defs : List VarDef} :
    (Stmt.vars span kind defs).Allowed := by
  rintro G pinned scope n n' s expected hplaced h hprepared hexpected
  rw [Stmt.infer]
  have hannounced := fun ht => hprepared.announced ht _ List.mem_cons_self
  apply Allows.bind (h.settle fun hready => (inferDefs_allows (G := G.sharpen pinned scope n [] s) defs hplaced
    hready hprepared.vars hannounced).mono fun _ _ _ hend => ⟨trivial, hend⟩)
  intro _ s₁ h₁ hafter
  obtain ⟨_, hdefs⟩ := hafter
  exact (h.admits.step h₁).pure (settles_unit (h.admits.step h₁)
    (J := fun t types scopes => StmtTyped types.tree scopes (expected.map types.tree) scope
      (.vars span kind defs) t)
    (hdefs.mono fun _ _ => .vars))

theorem Stmt.Allowed.function {mark : Mark} {name : Ident} {params : List Param} {signature : Option Signature}
    {body : Block} (ihbody : body.Allowed) : (Stmt.function mark name params signature body).Allowed :=
  fun _ _ _ _ _ _ _ hplaced h hprepared _ =>
    inferFunction_allows h hplaced.1 hplaced.2.1 hplaced.2.2.le hprepared fun _ _ => ihbody hplaced.2.2

/-- The block of a blueprint, and the type of the blueprint's name. -/
theorem Stmt.Allowed.blueprint {span : Span} {name : Ident} {body : Block} (ihbody : body.Allowed) :
    (Stmt.blueprint span name body).Allowed := by
  rintro G pinned scope n n' s expected hbody h hprepared hexpected
  rw [Stmt.infer]
  apply (declaredBlock_allows h hexpected hbody.le (fun ht => hprepared.announced ht _ List.mem_cons_self)
    (ihbody hbody)).mono
  intro ty s₁ h₁ hafter
  refine ⟨hafter.1, hafter.2.mono fun types scopes htyped => ?_⟩
  obtain ⟨hblock, htree, hdeclared⟩ := htyped
  exact htree ▸ .blueprint hblock hdeclared

theorem Stmt.Allowed.trait {span : Span} {name : Ident} {body : Block} (ihbody : body.Allowed) :
    (Stmt.trait span name body).Allowed := by
  rintro G pinned scope n n' s expected hbody h hprepared hexpected
  rw [Stmt.infer]
  apply (declaredBlock_allows h hexpected hbody.le (fun ht => hprepared.announced ht _ List.mem_cons_self)
    (ihbody hbody)).mono
  intro ty s₁ h₁ hafter
  refine ⟨hafter.1, hafter.2.mono fun types scopes htyped => ?_⟩
  obtain ⟨hblock, htree, hdeclared⟩ := htyped
  exact htree ▸ .trait hblock hdeclared

/-- The fields of a struct leave the scopes alone, and its name has been announced. -/
theorem Stmt.Allowed.struct {span : Span} {name : Ident} {fields : List Field} :
    (Stmt.struct span name fields).Allowed := by
  rintro G pinned scope n n' s expected hn h hprepared hexpected
  obtain rfl : n' = n := hn
  rw [Stmt.infer]
  apply Allows.bind (inferFields_allows h.visible fields h.admits)
  intro _ s₁ h₁ hscopes₁
  have hprepared₁ := hprepared.step h₁
  have hfresh₁ : G.tidy → s₁.Fresh n' := fun ht => fresh_of_eq hscopes₁ (h.fresh ht)
  have hstands₁ := h.toStands.step h₁ (Nat.le_refl n') hfresh₁
  apply (declaredName_allows hstands₁ (fun ht => hprepared₁.announced ht _ List.mem_cons_self)
    (J := fun _ _ => True) ⟨hfresh₁, fun _ _ _ _ => trivial⟩).mono
  intro ty s₂ h₂ hafter
  refine ⟨hafter.1, hafter.2.mono fun types scopes htyped => ?_⟩
  obtain ⟨-, htree, hdeclared⟩ := htyped
  exact htree ▸ .struct hdeclared

theorem Stmt.Allowed.enum {span : Span} {name : Ident} {variants : List Ident} :
    (Stmt.enum span name variants).Allowed := by
  rintro G pinned scope n n' s expected hn h hprepared hexpected
  obtain rfl : n' = n := hn
  rw [Stmt.infer]
  apply Allows.bind (checkVariants_allows h.admits variants)
  intro _ s₁ h₁ hs₁
  subst hs₁
  apply (declaredName_allows h.toStands (fun ht => hprepared.announced ht _ List.mem_cons_self)
    (J := fun _ _ => True) ⟨h.fresh, fun _ _ _ _ => trivial⟩).mono
  intro ty s₂ h₂ hafter
  refine ⟨hafter.1, hafter.2.mono fun types scopes htyped => ?_⟩
  obtain ⟨-, htree, hdeclared⟩ := htyped
  exact htree ▸ .enum hdeclared

/-! ### Labels, blocks, branches and loops -/

/-- The statement after a label is looked at in the label's scope, where its declaration is the only one. -/
theorem Stmt.Allowed.label {mark : Mark} {name : Ident} {stmt : Stmt} (ih : stmt.Allowed) :
    (Stmt.label mark name stmt).Allowed := by
  rintro G pinned scope n n' s expected ⟨hmark, hopened, hstmt⟩ h hprepared hexpected
  rw [Stmt.infer]
  refine .bind_of_ok (requireScope_eq_ok hmark) ?_
  have hnames : Nameable G ⟨n⟩ (namesOf stmt.symbols) s :=
    (h.nameable hopened).rest (List.sublist_cons_self _ _) fun _ _ => rfl
  apply Allows.bind (stmt.predeclare_allows h.admits hnames)
  intro pins s₁ h₁ hpre
  obtain ⟨hopen₁, hprepared₁⟩ := hpre.label h₁ h hopened
  apply (ih hstmt hopen₁ hprepared₁ (h₁.expected_eq.trans hexpected)).mono
  intro ty s₂ h₂ hafter
  refine ⟨hafter.1, ?_⟩
  exact (hafter.2.unpin (List.subset_append_left _ _)).mono fun _ _ => .label hmark

theorem Stmt.Allowed.block {body : Block} (ihbody : body.Allowed) : (Stmt.block body).Allowed := by
  rintro G pinned scope n n' s expected hbody h hprepared hexpected
  rw [Stmt.infer]
  exact (ihbody hbody).stmt h hexpected fun _ _ => .block

/-- A branch without an else: the condition, the block, and the further conditions. -/
theorem Stmt.Allowed.branch {span : Span} {cond : Expr} {body : Block} {elifs : List Elif} (ihbody : body.Allowed)
    (ihelifs : AllowedElifs elifs) : (Stmt.branch span cond body elifs none).Allowed := by
  rintro G pinned scope n n' s expected ⟨m, m', hcond, hbody, helifs⟩ h hprepared hexpected
  rw [Stmt.infer]
  refine Settling.stmt ((condition_settling cond hcond).andThen hcond.le fun _ =>
    ((ihbody hbody).mayReturn ?_).andThen hbody.le fun _ =>
    ((ihelifs helifs).mayReturn ?_).andThen (PlacedElifs.le helifs) fun _ =>
      .pure rfl) h hexpected ?_
  · simp +contextual [Stmt.returns]
  · simp +contextual [Stmt.returns]
  · intro types scopes hparts
    obtain ⟨hc, hb, he, -⟩ := hparts
    exact .branch hc hb he fun _ hlast => absurd hlast (by simp)

/-- A branch with an else has one more block at the end, and returns only if that does. -/
theorem Stmt.Allowed.branchElse {span : Span} {cond : Expr} {body last : Block} {elifs : List Elif}
    (ihbody : body.Allowed) (ihelifs : AllowedElifs elifs) (ihlast : last.Allowed) :
    (Stmt.branch span cond body elifs (some last)).Allowed := by
  rintro G pinned scope n n' s expected ⟨m, m', m'', hcond, hbody, helifs, hlast⟩ h hprepared hexpected
  rw [Stmt.infer]
  refine Settling.stmt ((condition_settling cond hcond).andThen hcond.le fun _ =>
    ((ihbody hbody).mayReturn ?_).andThen hbody.le fun _ =>
    ((ihelifs helifs).mayReturn ?_).andThen (PlacedElifs.le helifs) fun _ =>
    (ihlast hlast).mayReturn ?_) h hexpected ?_
  · simp +contextual [Stmt.returns]
  · simp +contextual [Stmt.returns]
  · simp +contextual [Stmt.returns]
  · intro types scopes hparts
    obtain ⟨hc, hb, he, hl⟩ := hparts
    exact .branch hc hb he fun _ hlast => Option.some.inj hlast ▸ hl

/-- A loop may be left without its body being run, so the statement does not return by it. -/
theorem Stmt.Allowed.loop {span : Span} {cond : Expr} {body : Block} (ihbody : body.Allowed) :
    (Stmt.loop span cond body).Allowed := by
  rintro G pinned scope n n' s expected ⟨m, hcond, hbody⟩ h hprepared hexpected
  rw [Stmt.infer]
  refine Settling.stmt ((condition_settling cond hcond).andThen hcond.le fun _ => ihbody hbody)
    h hexpected ?_
  intro types scopes hparts
  exact .loop hparts.1 hparts.2

/-! ### Returns, jumps and expressions -/

/-- The value that is given back is written, or is that of statements. -/
theorem Stmt.Allowed.ret {span : Span} {value : Option Expr} : (Stmt.ret span value).Allowed := by
  rintro G pinned scope n n' s expected hvalue h hprepared hexpected
  subst hexpected
  rw [Stmt.infer]
  refine .bind_of_ok (a := s.expected) rfl ?_
  cases hresult : s.expected with
  | none => exact h.admits.refuse (by simp) _
  | some result =>
    obtain ⟨frame, hframe, rfl⟩ := Inference.exists_frame hresult
    cases value with
    | some value =>
      exact ret_allows h hframe (J := fun t types scopes => ExprTyped types.tree scopes value t)
        (fun hready => value.infer_allows hvalue hready) fun _ _ _ => .retValue
    | none =>
      obtain rfl : n' = n := hvalue
      have hunit : initial.get .unit = .ok (.op .unit []) := rfl
      refine ret_allows h hframe (J := fun t _ _ => t = .unit)
        (fun hready => hready.admits.pure ⟨hready.admits.clear_primitive hunit,
        fun ht => ⟨h.fresh ht, fun types scopes hl => tree_primitive hl.types.wf hunit⟩⟩) ?_
      rintro t types scopes rfl
      exact .retUnit

theorem Stmt.Allowed.jump {span : Span} {kind : JumpKind} {label : Option Ident} :
    (Stmt.jump span kind label).Allowed := by
  rintro G pinned scope n n' s expected hn h hprepared hexpected
  obtain rfl : n' = n := hn
  rw [Stmt.infer]
  apply Allows.bind (checkJump_allows h.admits h.visible label)
  intro _ s₁ h₁ hs₁
  subst hs₁
  exact h.admits.pure (settles_unit h.admits
    (J := fun t types scopes => StmtTyped types.tree scopes (expected.map types.tree) scope
      (.jump span kind label) t)
    ⟨h.fresh, fun _ _ _ _ => .jump⟩)

/-- An expression in place of a statement has the type that inference finds. -/
theorem Stmt.Allowed.expr {e : Expr} : (Stmt.expr e).Allowed := by
  rintro G pinned scope n n' s expected he h hprepared hexpected
  rw [Stmt.infer]
  apply (h.settle fun hready => e.infer_allows he hready).mono
  intro ty s₁ h₁ hafter
  obtain ⟨hclear, hend⟩ := hafter
  exact ⟨hclear.lt, hend.mono fun _ _ => .expr⟩

/-! ### Statements one after another -/

/-- The declarations of a block are given types in the block's scope, and then its statements are looked at there. -/
theorem Block.Allowed.mk {mark : Mark} {stmts : List Stmt} (ihstmts : AllowedStmts stmts) :
    (Block.mk mark stmts).Allowed := by
  rintro base pinned scope n n' expected ⟨hmark, hopened, hstmts⟩
  rintro G s rfl h hexpected
  rw [Block.infer]
  refine .bind_of_ok (requireScope_eq_ok hmark) ?_
  apply Allows.bind (predeclareAll_allows stmts h.admits (h.nameable hopened))
  intro pins s₁ h₁ hpre
  have hunderway := hpre.underway h₁ h hopened
  apply Allows.bind (ihstmts hstmts hunderway (h₁.expected_eq.trans hexpected))
  intro tys s₂ h₂ hafter
  obtain ⟨_, _, hsettles⟩ := hafter
  refine (hunderway.admits.step h₂).pure ⟨rfl, ?_⟩
  exact (hsettles.unpin (List.subset_append_left _ _)).mono fun _ _ => .mk hmark

theorem AllowedStmts.nil : AllowedStmts [] := by
  rintro G pinned scope n n' s pins expected hn h _
  obtain rfl : n' = n := hn
  rw [inferStmts]
  exact h.admits.pure ⟨rfl, by simp, h.fresh, fun _ _ _ _ => .nil⟩

/-- The rest is looked at under a guard that hides what is not pinned any longer, so what is known of the first
    statement is kept. -/
theorem AllowedStmts.cons {stmt : Stmt} {rest : List Stmt} (ih : stmt.Allowed) (ihrest : AllowedStmts rest) :
    AllowedStmts (stmt :: rest) := by
  rintro G pinned scope n n' s pins expected ⟨m, hstmt, hrest⟩ h hexpected
  rw [inferStmts]
  apply Allows.bind ((ih hstmt h.all h.first hexpected).mayReturn
    (by simp +contextual [stmtsReturn]))
  intro ty s₁ h₁ hafter
  obtain ⟨hlt, hsettles⟩ := hafter
  obtain ⟨pins', hsettle, hvars, hunpin, hunderway⟩ := h.rest h₁ hstmt.le hsettles.fresh
  refine .bind_of_ok hsettle ?_
  apply Allows.bind ((hunderway.all.keep _ hunderway.covered (hsettles.unpin hunpin).holds fun _ =>
      ihrest hrest hunderway.sharpen (h₁.expected_eq.trans hexpected)).mayReturn
    (by simp +contextual [stmtsReturn]))
  intro tys s₂ h₂ hafter
  obtain ⟨⟨hlength, hlt₂, hsettles₂⟩, hkept⟩ := hafter
  refine (hunderway.admits.step h₂).pure ⟨by rw [List.length_cons, List.length_cons, hlength],
    List.forall_mem_cons.mpr ⟨h₂.types.lt hlt, hlt₂⟩, hsettles₂.fresh, fun ht types scopes hl => ?_⟩
  rw [← hvars] at hl
  exact .cons (hkept ht types scopes (hl.mono (unpinned_anti Underway.vars_subset)))
    (hsettles₂.holds ht types scopes hl)

theorem AllowedElifs.nil : AllowedElifs [] := by
  rintro base pinned scope n n' expected hn
  obtain rfl : n' = n := hn
  rw [inferElifs]
  exact (Settling.pure trivial).mono fun _ _ _ => .nil

/-- A condition, its block, and the conditions after it. -/
theorem AllowedElifs.cons {span : Span} {cond : Expr} {body : Block} {rest : List Elif} (ihbody : body.Allowed)
    (ihrest : AllowedElifs rest) : AllowedElifs (.mk span cond body :: rest) := by
  rintro base pinned scope n n' expected ⟨m, m', hcond, hbody, hrest⟩
  rw [inferElifs]
  refine Settling.mono ((condition_settling cond hcond).andThen hcond.le fun _ =>
    ((ihbody hbody).mayReturn ?_).andThen hbody.le fun _ =>
      (ihrest hrest).mayReturn ?_) ?_
  · simp +contextual [elifsReturn]
  · simp +contextual [elifsReturn]
  · intro types scopes hparts
    obtain ⟨hc, hb, he⟩ := hparts
    exact .cons hc hb he

/-! ## The induction -/

mutual

/-- **Inference of a statement** keeps to the guard, and the statement is well typed from then on. By recursion on
    the statement, with the lemma for each kind. -/
theorem Stmt.infer_allows : ∀ stmt : Stmt, stmt.Allowed
  | .vars _ _ _ => .vars
  | .function _ _ _ _ body => .function body.infer_allows
  | .blueprint _ _ body => .blueprint body.infer_allows
  | .trait _ _ body => .trait body.infer_allows
  | .struct _ _ _ => .struct
  | .enum _ _ _ => .enum
  | .label _ _ stmt => .label stmt.infer_allows
  | .block body => .block body.infer_allows
  | .branch _ _ body elifs none => .branch body.infer_allows (inferElifs_allows elifs)
  | .branch _ _ body elifs (some last) => .branchElse body.infer_allows (inferElifs_allows elifs) last.infer_allows
  | .loop _ _ body => .loop body.infer_allows
  | .ret _ _ => .ret
  | .jump _ _ _ => .jump
  | .expr _ => .expr

theorem Block.infer_allows : ∀ block : Block, block.Allowed
  | .mk _ stmts => .mk (inferStmts_allows stmts)

theorem inferStmts_allows : ∀ stmts : List Stmt, AllowedStmts stmts
  | [] => .nil
  | stmt :: rest => .cons stmt.infer_allows (inferStmts_allows rest)

theorem inferElifs_allows : ∀ elifs : List Elif, AllowedElifs elifs
  | [] => .nil
  | .mk _ _ body :: rest => .cons body.infer_allows (inferElifs_allows rest)

end

end TypeInference
