import TypeInference.Proofs.Inference.Echo

/-!
# `Proofs.Inference.EchoStatement` — statements in the companion's run

A statement is followed where it may be looked at (`Open`), and the store `F` with which everything ends must then
leave alone what is not pinned. That is handed on from the end to the beginning: what comes after a part of a
statement runs under the sharper guard, which hides from it what the part has not pinned (`Open.later_of_step`).

## Contents
* `Open.follow` — the expressions of a statement;
* `inferDefs_echoes`, `inferFields_echoes`, `functionParts_echoes`, `inferReturn_echoes` — parts of statements;
* `Echoing` — a computation that is echoed wherever it is open, with `Echoing.andThen`;
* `Pending.links` — the functions still to come;
* `Stmt.Echoes`, `Block.Echoes`, `StmtsEcho` — what is shown of statements, with a lemma for each kind;
* `Stmt.infer_echoes`, `Block.infer_echoes`, `inferStmts_echoes` — the induction.
-/

namespace TypeInference

open Store Scopes InferM Guard

variable {R : Relocation} {F : Store} {G : Guard} {r : Bool} {s s' : Inference} {w : Companion} {scope : ScopeId}
  {n n' : Nat} {pinned pinned' : List TypeId} {ty ty' : TypeId} {u : Unit}

/-! ## What comes later -/

namespace Guard

/-- What leaves alone what is not pinned after a run leaves alone what is hidden, since hidden variables are never
    pinned. -/
theorem Stands.later (h : G.Stands pinned scope n s) (hs : G.Step r s s')
    (hF : Evolves (s'.types.Unpinned pinned) s'.types F) : Evolves G.hidden s'.types F :=
  hF.mono (h.hidden_subset_of_step hs)

/-- **From the end of a run to its beginning**: under the sharper guard a run leaves alone what was not pinned. -/
theorem Open.later_of_step {pinned₀ : List TypeId} {scope₀ : ScopeId} {n₀ : Nat} {names : List String} (ht : G.tidy)
    (hsharp : (G.sharpen pinned₀ scope₀ n₀ names s).Open pinned scope n s)
    (hs : (G.sharpen pinned₀ scope₀ n₀ names s).Step r s s') (hF : Evolves (s'.types.Unpinned pinned) s'.types F) :
    Evolves (s.types.Unpinned pinned₀) s.types F :=
  (hs.types.trans (hsharp.toStands.later hs hF)).mono (subset_hidden_sharpen ht)

/-- **An expression of a statement** is followed under the sharper guard. This gives both things that following an
    expression asks for: that it may be looked at, and what the end of everything leaves alone. -/
theorem Open.follow {α : Type} {m : InferM α} {a : α} {Q : α → Inference → Prop} (h : G.Open pinned scope n s)
    (hallows : (G.sharpen pinned scope n [] s).Ready pinned scope n s →
      (G.sharpen pinned scope n [] s).Allows r m s Q)
    (hrun : m s = .ok a s') (hF : Evolves (s'.types.Unpinned pinned) s'.types F) :
    (G.sharpen pinned scope n [] s).Ready pinned scope n s ∧
      Evolves (G.sharpen pinned scope n [] s).hidden s'.types F := by
  have hsharp := h.sharpen [] (by simp)
  obtain ⟨hs, -⟩ := (hallows hsharp.ready).ok hrun
  exact ⟨hsharp.ready, hsharp.toStands.later hs hF⟩

end Guard

/-! ## Parts of statements -/

/-- A condition is made a truth value in the companion's run, too. -/
theorem inferCondition_echoes (ht : G.tidy) (cond : Expr) (hcond : cond.Placed G.base scope n n')
    (h : G.Ready pinned scope n s) (hspares : R.Spares G.base cond.nodes)
    (hrun : inferCondition pinned cond s = .ok u s') (hF : Evolves G.hidden s'.types F) (hb : Beside R F s w)
    (hpins : List.Forall₂ w.links pinned pinned') :
    Echoed R F s' w (inferCondition pinned' (cond.relocate R.move)) fun _ _ => True := by
  have hbool : initial.get .bool = .ok (.op .bool []) := rfl
  rw [inferCondition] at hrun ⊢
  obtain ⟨c, s₁, hinfer, h₁, ⟨hclear₁, -⟩, hrun⟩ := (cond.infer_allows (r := false) hcond h).exists_of_run hrun
  have hadmits₁ := h.admits.step h₁
  obtain ⟨h₂, -⟩ := (hadmits₁.unify (r := false) cond.span hclear₁ (hadmits₁.clear_primitive hbool)).ok hrun
  refine (cond.infer_echoes ht hcond h hspares hinfer (h₂.types.trans hF) hb hpins).bind fun c' w₁ _ hb₁ hc => ?_
  exact hb₁.unify h₁.types.wf hc (hb₁.primitive hbool) hrun hF

/-- **First values** have linked types. By induction on the definitions. Each name was declared with a type, and the
    types of the two names are linked, so their values are made equal to linked types. -/
theorem inferDefs_echoes (ht : G.tidy) : ∀ (defs : List VarDef) {n : Nat} {s : Inference} {w : Companion},
    PlacedDefs G.base scope defs n n' → G.Ready pinned scope n s →
    (∀ d ∈ defs, ∃ symbol, G.base.symbolAt scope d.name.name = some symbol ∧ symbol.kind = .var) →
    (Eventually ∅ s fun types scopes => ∀ d ∈ defs, ∃ t, DeclaredAs types.tree scopes scope d.name.name d.signature t) →
    R.Spares G.base (defsNodes defs) → inferDefs scope pinned defs s = .ok u s' → Evolves G.hidden s'.types F →
    Beside R F s w → List.Forall₂ w.links pinned pinned' →
    Echoed R F s' w (inferDefs (R.move scope) pinned' (defs.map (VarDef.relocate R.move))) fun _ _ => True
  | [], n, s, w, _, _, _, _, _, hrun, _, hb, _ => by
    rw [inferDefs] at hrun
    cases hrun
    exact .pure hb trivial
  | d :: rest, n, s, w, ⟨m, hvalue, hrest⟩, h, hsymbols, hdeclared, hspares, hrun, hF, hb, hpins => by
    obtain ⟨⟨symbol, hsymbol, hkind⟩, hsymbols'⟩ := List.forall_mem_cons.mp hsymbols
    obtain ⟨t, dty, hdty, -⟩ := hdeclared.now h.admits.wf d List.mem_cons_self
    have hrestDeclared : ∀ {s₂ : Inference}, G.Step false s s₂ → Eventually ∅ s₂ fun types scopes =>
        ∀ e ∈ rest, ∃ t, DeclaredAs types.tree scopes scope e.name.name e.signature t :=
      fun hs types scopes hl => (List.forall_mem_cons.mp (hdeclared.always ht hs types scopes hl)).2
    obtain ⟨dty', hdeclared', hlink⟩ := hb.declaredType hdty
    rw [inferDefs, run_bind_of_ok (declaredType_eq_ok (h.admits.lt_of_visible h.visible) hdty)] at hrun
    rw [List.map_cons, inferDefs]
    refine .skip hdeclared' ?_
    cases hd : d.value with
    | none =>
      have hd' : (d.relocate R.move).value = none := by rw [VarDef.relocate, hd]; rfl
      rw [hd] at hvalue hrun
      rw [hd']
      obtain rfl : m = n := hvalue
      exact .skip rfl (inferDefs_echoes ht rest hrest h hsymbols' (hrestDeclared (.refl h.admits)) hspares.right hrun hF
        hb hpins)
    | some value =>
      have hd' : (d.relocate R.move).value = some (value.relocate R.move) := by rw [VarDef.relocate, hd]; rfl
      rw [defsNodes, hd] at hspares
      rw [hd] at hvalue hrun
      rw [hd']
      -- The first run is taken apart: the value, its unification, and the rest.
      obtain ⟨vty, s₁, hinfer, h₁, ⟨hclear₁, hend₁⟩, hrun⟩ :=
        (value.infer_allows (r := false) hvalue h).exists_of_run hrun
      have hready₁ := h.next h₁ hvalue.le hend₁
      have hdty₁ := h₁.types.clear h.admits.wf (h.admits.direct (h.vars .refl hsymbol hkind) hdty)
      obtain ⟨u', s₂, hunify, h₂, ⟨hscopes₂, -⟩, hrun⟩ :=
        (hready₁.admits.unify (r := false) d.span hdty₁ hclear₁).exists_of_run hrun
      have hready₂ := hready₁.same h₂ hscopes₂
      have hdeclared₂ := hrestDeclared (h₁.trans h₂)
      obtain ⟨h₃, -⟩ := (inferDefs_allows (r := false) rest hrest hready₂ hsymbols' fun _ => hdeclared₂).ok hrun
      have hF₂ := h₃.types.trans hF
      -- The companion takes the same three steps.
      refine (value.infer_echoes ht hvalue h hspares.left hinfer (h₂.types.trans hF₂) hb hpins).bind
        fun vty' w₁ hle₁ hb₁ hv => ?_
      refine (hb₁.unify h₁.types.wf (hle₁.link hlink) hv hunify hF₂).bind fun _ w₂ hle₂ hb₂ _ => ?_
      exact inferDefs_echoes ht rest hrest hready₂ hsymbols' hdeclared₂ hspares.right hrun hF hb₂
        ((hle₁.trans hle₂).all hpins)

/-- The fields of a struct: their signatures mean the same, and the names among them are the same. -/
theorem inferFields_echoes (hscope : scope ∈ G.visible) : ∀ (fields : List Field) {seen : List String} {s : Inference}
    {w : Companion}, G.Admits s → inferFields scope seen fields s = .ok u s' → Evolves G.hidden s'.types F →
    Beside R F s w → Echoed R F s' w (inferFields (R.move scope) seen fields) fun _ _ => True
  | [], seen, s, w, _, hrun, _, hb => by
    rw [inferFields] at hrun ⊢
    cases hrun
    exact .pure hb trivial
  | f :: rest, seen, s, w, h, hrun, hF, hb => by
    rw [inferFields] at hrun ⊢
    split at hrun
    · cases hrun
    · next hnew =>
      rw [if_neg hnew]
      obtain ⟨fty, s₁, hdenote, h₁, -, hrun⟩ := (f.signature.denote_allows (r := false) hscope h).exists_of_run hrun
      have hadmits₁ := h.step h₁
      obtain ⟨h₂, -⟩ := (inferFields_allows (r := false) hscope rest hadmits₁).ok hrun
      refine (f.signature.denote_echoes hscope h hdenote (h₂.types.trans hF) hb).bind fun _ w₁ _ hb₁ _ => ?_
      exact inferFields_echoes hscope rest hadmits₁ hrun hF hb₁

/-- The variants of an enum are looked at without regard to the state. -/
theorem checkVariants_eq_ok {s t t' : Inference} : ∀ {variants : List Ident} {seen : List String},
    checkVariants seen variants t = .ok u t' → checkVariants seen variants s = .ok () s
  | [], _, _ => rfl
  | v :: rest, seen, h => by
    rw [checkVariants] at h ⊢
    split at h
    · cases h
    · next hnew =>
      rw [if_neg hnew]
      exact checkVariants_eq_ok h

/-- The target of a jump is a label in the scope that has moved as well. -/
theorem checkJump_echoes (h : G.Admits s) (hscope : scope ∈ G.visible) (label : Option Ident)
    (hrun : checkJump scope label s = .ok u s') (hb : Beside R F s w) :
    checkJump (R.move scope) label w.state = .ok () w.state := by
  cases label with
  | none => rfl
  | some label =>
    obtain ⟨⟨owner, symbol⟩, s₁, -, -, ⟨rfl, hlookup, -, -⟩, hrest⟩ :=
      (h.resolve (r := false) hscope label).exists_of_run hrun
    obtain ⟨symbol', hresolve, htwins⟩ := hb.resolve hlookup
    rw [checkJump, run_bind_of_ok hresolve]
    dsimp only at hrest ⊢
    rw [htwins.kind_eq]
    split at hrest
    · cases hrest
    · next hlabel =>
      rw [if_neg hlabel]
      rfl

/-! ### Functions and values given back -/

/-- A function of so many parameters is taken apart where it is known. -/
theorem functionParts_eq_ok {params : List TypeId} {result : TypeId} (span : Span)
    (hoperator : s.types.operator? ty = .ok (some (.function, params ++ [result]))) :
    functionParts span ty params.length s = .ok (params, result) s := by
  rw [functionParts, run_bind_of_ok (query_eq_ok hoperator)]
  simp
  rfl

/-- What a type with the tree of a function shows: its parameters and its result, as many as the tree has. -/
theorem Store.WellFormed.operator?_of_tree {types : Store} (hwf : types.WellFormed) (hty : ty.index < types.size)
    {trees : List Tree} {t : Tree} (htree : types.tree ty = .function trees t) :
    ∃ params result, types.operator? ty = .ok (some (.function, params ++ [result])) ∧
      params.length = trees.length := by
  obtain ⟨v, hv, hoperator⟩ := hwf.grounded.operator?_eq_ok hty
  cases v with
  | var x =>
    rw [hv.tree_var hwf.grounded] at htree
    cases htree
  | op root con args =>
    rw [hv.tree_op hwf.grounded, Tree.function, Tree.app.injEq] at htree
    obtain ⟨rfl, hargs⟩ := htree
    obtain ⟨params, rest, rfl, hparams, hrest⟩ := List.map_eq_append_iff.mp hargs
    obtain ⟨result, rfl, -⟩ := List.map_eq_singleton_iff.mp hrest
    exact ⟨params, result, hoperator, by rw [← hparams, List.length_map]⟩

/-- **A function is taken apart** into linked types. Its head is known in the first run, so it is known to the
    companion. -/
theorem functionParts_echoes {hidden : Set TypeId} (hwf : s.types.WellFormed) (span : Span) {params : List TypeId}
    {result : TypeId} (hoperator : s.types.operator? ty = .ok (some (.function, params ++ [result])))
    (hF : Evolves hidden s.types F) (hb : Beside R F s w) (hty : w.links ty ty') :
    Echoed R F s w (functionParts span ty' params.length) fun w' parts =>
      List.Forall₂ w'.links params parts.1 ∧ w'.links result parts.2 := by
  obtain ⟨args', links, hoperator', hle, hbetween, hargs⟩ := hb.types.operator? hwf hF hty hoperator
  have hparams : List.Forall₂ links params (args'.take params.length) :=
    (List.forall₂_take_append args' params [result] hargs.flip).flip
  have hlast : List.Forall₂ links [result] (args'.drop params.length) :=
    (List.forall₂_drop_append args' params [result] hargs.flip).flip
  obtain ⟨result', _, hresult, hnil, hrest⟩ := List.forall₂_cons_left_iff.mp hlast
  obtain rfl := List.forall₂_nil_left_iff.mp hnil
  rw [← List.take_append_drop params.length args', hrest] at hoperator'
  rw [hparams.length_eq]
  exact ⟨(_, result'), ⟨links, w.state⟩, functionParts_eq_ok span hoperator', ⟨hle, le_rfl, fun h => h⟩,
    hb.withTypes hle hbetween, hparams, hresult⟩

/-- **A value is given back.** The value is echoed, its type is made equal to the linked result, and the innermost
    function returns on both sides. -/
theorem inferReturn_echoes {result result' : TypeId} {span : Span} {actual actual' : InferM TypeId}
    (h : G.Admits s) (hresult : s.types.Clear G.hidden result)
    (hactual : G.Allows true actual s fun ty s' => s'.types.Clear G.hidden ty)
    (hechoes : ∀ a s₁, actual s = .ok a s₁ → Evolves G.hidden s₁.types F →
      Echoed R F s₁ w actual' fun w' a' => w'.links a a')
    (hlink : w.links result result')
    (hrun : (do let a ← actual; unify span result a; markReturned; pure TypeId.unit) s = .ok ty s')
    (hF : Evolves G.hidden s'.types F) :
    Echoed R F s' w (do let a ← actual'; unify span result' a; markReturned; pure TypeId.unit)
      fun w' ty' => w'.links ty ty' := by
  obtain ⟨a, s₁, hfirst, h₁, hclear₁, hrun⟩ := hactual.exists_of_run hrun
  have hadmits₁ := h.step h₁
  obtain ⟨u, s₂, hunify, h₂, -, hrun⟩ :=
    (hadmits₁.unify (r := true) span (h₁.types.clear h.wf hresult) hclear₁).exists_of_run hrun
  obtain ⟨u', s₃, hmark, h₃, -, hrest⟩ := (markReturned_allows (hadmits₁.step h₂)).exists_of_run hrun
  cases hrest
  have hF₂ := h₃.types.trans hF
  refine (hechoes a s₁ hfirst (h₂.types.trans hF₂)).bind fun a' w₁ hle₁ hb₁ ha => ?_
  refine (hb₁.unify h₁.types.wf (hle₁.link hlink) ha hunify hF₂).bind fun _ w₂ _ hb₂ _ => ?_
  refine (hb₂.markReturned hmark).bind fun _ w₃ _ hb₃ _ => ?_
  exact .pure hb₃ (hb₃.primitive rfl)

/-- **A body that cannot return** has the result of statements. The first run is followed from its end: what happens
    afterwards must leave alone what is not pinned before the result is made equal to that type. -/
theorem unitResult_echoes {result : TypeId} (ht : G.tidy) (h : G.Open pinned scope n s)
    (hclear : s.types.Clear G.hidden result) (hcovered : s.types.Covered ∅ pinned result) {span : Span} {flag : Bool}
    {a : TypeId}
    (hrun : (do
      if !flag then
        unify span result .unit
      pure a) s = .ok ty s')
    (hF : Evolves (s'.types.Unpinned pinned) s'.types F) :
    ty = a ∧ Evolves (s.types.Unpinned pinned) s.types F ∧ ∀ {w : Companion} {result' a' : TypeId}, Beside R F s w →
      w.links result result' → w.links a a' →
      Echoed R F s' w (do
        if !flag then
          unify span result' .unit
        pure a') fun w' ty' => w'.links a ty' := by
  cases flag with
  | true =>
    cases hrun
    exact ⟨rfl, hF, fun hb _ ha => .pure hb ha⟩
  | false =>
    obtain ⟨u, s₁, hunify, hrest⟩ :=
      exists_of_run_bind (show (unify span result .unit >>= fun _ => pure a) s = _ from hrun)
    cases hrest
    have hsharp := h.sharpen [] (by simp)
    obtain ⟨hs, -⟩ := (hsharp.admits.unify (r := false) span (clear_sharpen hclear fun _ => hcovered.clear_unpinned)
      (hsharp.admits.clear_primitive rfl)).ok hunify
    refine ⟨rfl, hsharp.later_of_step ht hs hF, fun {w result' a'} hb hresult ha => ?_⟩
    refine (hb.unify h.admits.wf hresult (hb.primitive rfl) hunify hF).bind fun _ w₁ hle₁ hb₁ _ => ?_
    exact .pure hb₁ (hle₁.link ha)

/-- The type of the name that a statement declares is linked with that of the name in the moved scope. -/
theorem declaredName_echoes (h : G.Admits s) (hscope : scope ∈ G.visible) {name : String} {a : TypeId}
    (hname : s.scopes.typeAt scope name = some a) (hrun : declaredType scope name s = .ok ty s') (hb : Beside R F s w) :
    Echoed R F s' w (declaredType (R.move scope) name) fun w' ty' => w'.links ty ty' := by
  cases (declaredType_eq_ok (h.lt_of_visible hscope) hname).symm.trans hrun
  obtain ⟨ty', hdeclared', hlink⟩ := hb.declaredType hname
  exact ⟨ty', w, hdeclared', .refl w, hb, hlink⟩

/-! ## Statements without a value -/

/-- Wherever it is open, the computation has a result in `Q`, and is echoed with the same result. The result is no
    type, so there is nothing to be linked. -/
structure Echoing {α : Type} (R : Relocation) (F : Store) (base : Scopes) (pinned pinned' : List TypeId)
    (scope : ScopeId) (expected : Option TypeId) (n n' : Nat) (m m' : InferM α) (Q : α → Prop) : Prop where
  settling : Settling base pinned scope expected true n n' m Q fun _ _ => True
  same : ∀ {G : Guard} {s s' : Inference} {w : Companion} {a : α}, G.base = base → G.tidy → G.Open pinned scope n s →
    s.expected = expected → m s = .ok a s' → Evolves (s'.types.Unpinned pinned) s'.types F → Beside R F s w →
    List.Forall₂ w.links pinned pinned' → Echoed R F s' w m' fun _ a' => a' = a

namespace Echoing

variable {α β : Type} {base : Scopes} {expected : Option TypeId} {m m' : InferM α} {Q : α → Prop}

theorem pure {a : α} (hQ : Q a) :
    Echoing R F base pinned pinned' scope expected n n (Pure.pure a) (Pure.pure a) Q where
  settling := .pure hQ
  same := fun _ _ _ _ hrun _ hb _ => by
    cases hrun
    exact .pure hb rfl

/-- **One part of a statement, then another.** The second part runs under the sharper guard, so what comes after it
    leaves alone what was not pinned between the two. -/
theorem andThen {next next' : α → InferM β} {P : β → Prop} {k : Nat}
    (h : Echoing R F base pinned pinned' scope expected n k m m' Q) (hle : n ≤ k)
    (hnext : ∀ a, Echoing R F base pinned pinned' scope expected k n' (next a) (next' a) P) :
    Echoing R F base pinned pinned' scope expected n n' (m >>= next) (m' >>= next') P where
  settling := (h.settling.andThen hle fun a => (hnext a).settling).mono fun _ _ _ => trivial
  same := fun {G s s' w b} hbase ht hopen hexpected hrun hF hb hpins => by
    obtain ⟨a, s₁, hfirst, h₁, ⟨-, hsettles⟩, hrest⟩ := (h.settling G s hbase hopen hexpected).exists_of_run hrun
    have hsharp := (hopen.step h₁ hle hsettles.fresh).sharpen [] (by simp)
    have hexpected₁ := h₁.expected_eq.trans hexpected
    obtain ⟨h₂, -⟩ := ((hnext a).settling (G.sharpen pinned scope k [] s₁) s₁ hbase hsharp hexpected₁).ok hrest
    refine (h.same hbase ht hopen hexpected hfirst (hsharp.later_of_step ht h₂ hF) hb hpins).bind
      fun a' w₁ hle₁ hb₁ ha => ?_
    subst ha
    exact @(hnext _).same (G.sharpen pinned scope k [] s₁) _ _ _ _ hbase ht hsharp hexpected₁ hrest hF hb₁
      (hle₁.all hpins)

/-- A statement without a value gives the type of statements, which is linked with itself. -/
theorem stmt {m m' : InferM TypeId} (ht : G.tidy) (h : G.Open pinned scope n s) (hrun : m s = .ok ty s')
    (hF : Evolves (s'.types.Unpinned pinned) s'.types F) (hb : Beside R F s w)
    (hpins : List.Forall₂ w.links pinned pinned')
    (hm : Echoing R F G.base pinned pinned' scope s.expected n n' m m' (· = .unit)) :
    Echoed R F s' w m' fun w' ty' => w'.links ty ty' := by
  obtain ⟨-, hty, -⟩ := (hm.settling G s rfl h rfl).ok hrun
  refine (hm.same rfl ht h rfl hrun hF hb hpins).mono fun w' ty' hle he => ?_
  rw [he, hty]
  exact hle.link (hb.primitive rfl)

end Echoing

theorem Settling.silent {α : Type} {base : Scopes} {expected : Option TypeId} {m : InferM α} {Q : α → Prop}
    {J : Store → Scopes → Prop} (h : Settling base pinned scope expected r n n' m Q J) :
    Settling base pinned scope expected true n n' m Q fun _ _ => True :=
  (h.mayReturn fun _ => rfl).mono fun _ _ _ => trivial

/-- A condition is echoed wherever it may be looked at. -/
theorem condition_echoing {base : Scopes} {expected : Option TypeId} (cond : Expr) (hcond : cond.Placed base scope n n')
    (hspares : R.Spares base cond.nodes) :
    Echoing R F base pinned pinned' scope expected n n' (inferCondition pinned cond)
      (inferCondition pinned' (cond.relocate R.move)) fun _ => True where
  settling := (condition_settling (r := true) cond hcond).silent
  same := by
    rintro G s s' w a rfl ht h - hrun hF hb hpins
    obtain ⟨hready, hF'⟩ := h.follow (r := false)
      (fun hready => inferCondition_allows (G := G.sharpen pinned scope n [] s) cond hcond hready) hrun hF
    exact (inferCondition_echoes (G := G.sharpen pinned scope n [] s) ht cond hcond hready hspares hrun hF' hb
      hpins).mono fun _ _ _ _ => rfl

/-! ## Functions still to come -/

/-- **The types of functions still to come** are linked: on both sides they are the types of the same names. -/
theorem Pending.links {names : List String} {tys tys' : List TypeId} (h : Pending G scope names tys s)
    (h' : Pending G (R.move scope) names tys' w.state) (ht : G.tidy) (hb : Beside R F s w) :
    List.Forall₂ w.links tys tys' := by
  obtain ⟨hlength, hat⟩ := List.forall₂_iff_get.mp (h ht).1
  obtain ⟨hlength', hat'⟩ := List.forall₂_iff_get.mp (h' ht).1
  refine List.forall₂_iff_get.mpr ⟨hlength.symm.trans hlength', fun i hi hi' => ?_⟩
  obtain ⟨ty', hty', hlink⟩ := hb.scopes.exists_typeAt (hat i (hlength ▸ hi) hi)
  obtain rfl : tys'.get ⟨i, hi'⟩ = ty' := Option.some.inj ((hat' i (hlength ▸ hi) hi').symm.trans hty')
  exact hlink

/-! ## Blocks with a name -/

/-- A block, and the type of the name that stands for it, as in blueprints and traits. -/
theorem declaredBlock_echoes {m m' : InferM TypeId} {name : String} {a : TypeId} (ht : G.tidy)
    (h : G.Open pinned scope n s) (hm : Echoing R F G.base pinned pinned' scope s.expected n n' m m' (· = .unit))
    (hname : s.scopes.typeAt scope name = some a)
    (hrun : (do let _ ← m; declaredType scope name) s = .ok ty s')
    (hF : Evolves (s'.types.Unpinned pinned) s'.types F) (hb : Beside R F s w)
    (hpins : List.Forall₂ w.links pinned pinned') :
    Echoed R F s' w (do let _ ← m'; declaredType (R.move scope) name) fun w' ty' => w'.links ty ty' := by
  obtain ⟨b, s₁, hfirst, h₁, -, hrest⟩ := (hm.settling G s rfl h rfl).exists_of_run hrun
  have hadmits₁ := h.admits.step h₁
  have hname₁ := h₁.kept ht hname
  cases (declaredType_eq_ok (hadmits₁.lt_of_visible h.visible) hname₁).symm.trans hrest
  refine (hm.same rfl ht h rfl hfirst hF hb hpins).bind fun _ w₁ _ hb₁ _ => ?_
  exact declaredName_echoes hadmits₁ h.visible hname₁ hrest hb₁

/-! ## What is shown of statements -/

/-- What the induction shows of a statement: in the companion's run it has a linked type. The final store leaves
    alone what is not pinned after the statement. -/
def Stmt.Echoes (R : Relocation) (F : Store) (stmt : Stmt) : Prop :=
  ∀ ⦃G : Guard⦄ ⦃pinned pinned' : List TypeId⦄ ⦃scope : ScopeId⦄ ⦃n n' : Nat⦄ ⦃s s' : Inference⦄ ⦃w : Companion⦄
    ⦃ty : TypeId⦄, G.tidy → stmt.Placed G.base scope n n' → G.Open pinned scope n s →
    Prepared G scope (declarations [stmt]) s → R.Spares G.base stmt.nodes →
    stmt.infer scope pinned s = .ok ty s' → Evolves (s'.types.Unpinned pinned) s'.types F → Beside R F s w →
    List.Forall₂ w.links pinned pinned' →
    Echoed R F s' w ((stmt.relocate R.move).infer (R.move scope) pinned') fun w' ty' => w'.links ty ty'

/-- Blocks are echoed, wherever they are placed. A block has no value, so the result is the same on both sides. -/
def Block.Echoes (R : Relocation) (F : Store) (block : Block) : Prop :=
  ∀ ⦃base : Scopes⦄ ⦃pinned pinned' : List TypeId⦄ ⦃scope : ScopeId⦄ ⦃n n' : Nat⦄ ⦃expected : Option TypeId⦄,
    block.Placed base scope n n' → R.Spares base block.nodes →
    Echoing R F base pinned pinned' scope expected n n' (block.infer pinned) ((block.relocate R.move).infer pinned')
      (· = .unit)

/-- Statements one after another have linked types. On both sides the functions still to come have their types, and
    the types of variables are linked. -/
def StmtsEcho (R : Relocation) (F : Store) (stmts : List Stmt) : Prop :=
  ∀ ⦃G : Guard⦄ ⦃pinned pinned' : List TypeId⦄ ⦃scope : ScopeId⦄ ⦃n n' : Nat⦄ ⦃s s' : Inference⦄ ⦃w : Companion⦄
    ⦃pins pins' : Pins⦄ ⦃tys : List TypeId⦄, G.tidy → PlacedStmts G.base scope stmts n n' →
    G.Underway pinned pins scope n stmts s →
    Pending G (R.move scope) (functionNames (declarations stmts)) pins'.functions w.state →
    R.Spares G.base (stmtsNodes stmts) → List.Forall₂ w.links (pinned ++ pins.vars) (pinned' ++ pins'.vars) →
    inferStmts scope pinned pins stmts s = .ok tys s' →
    Evolves (s'.types.Unpinned (pinned ++ pins.vars)) s'.types F → Beside R F s w →
    Echoed R F s' w (inferStmts (R.move scope) pinned' pins' (relocateStmts R.move stmts)) fun w' tys' =>
      List.Forall₂ w'.links tys tys'

/-- The further conditions of a branch are echoed, together with the blocks that belong to them. -/
def ElifsEcho (R : Relocation) (F : Store) (elifs : List Elif) : Prop :=
  ∀ ⦃base : Scopes⦄ ⦃pinned pinned' : List TypeId⦄ ⦃scope : ScopeId⦄ ⦃n n' : Nat⦄ ⦃expected : Option TypeId⦄,
    PlacedElifs base scope elifs n n' → R.Spares base (elifsNodes elifs) →
    Echoing R F base pinned pinned' scope expected n n' (inferElifs pinned elifs)
      (inferElifs pinned' (relocateElifs R.move elifs)) fun _ => True

/-! ### Declarations -/

/-- The first values are followed as expressions of the statement. -/
theorem Stmt.Echoes.vars {span : Span} {kind : VarKind} {defs : List VarDef} :
    (Stmt.vars span kind defs).Echoes R F := by
  rintro G pinned pinned' scope n n' s s' w ty ht hplaced h hprepared hspares hrun hF hb hpins
  have hsymbols := hprepared.vars
  have hannounced := fun ht => hprepared.announced ht _ List.mem_cons_self
  rw [Stmt.infer] at hrun
  rw [Stmt.relocate, Stmt.infer]
  obtain ⟨u, s₁, hdefs, hrest⟩ := exists_of_run_bind hrun
  cases hrest
  obtain ⟨hready, hF'⟩ := h.follow (r := false)
    (fun hready => inferDefs_allows (G := G.sharpen pinned scope n [] s) defs hplaced hready hsymbols hannounced)
    hdefs hF
  refine (inferDefs_echoes (G := G.sharpen pinned scope n [] s) ht defs hplaced hready hsymbols (hannounced ht) hspares
    hdefs hF' hb hpins).bind fun _ w₁ _ hb₁ _ => ?_
  exact .pure hb₁ (hb₁.primitive rfl)

/-- The types of a function's parameters and of its result are linked before its body is looked at. The body is
    followed inside both functions, and then the result of a body that cannot return. -/
theorem Stmt.Echoes.function {mark : Mark} {name : Ident} {params : List Param} {signature : Option Signature}
    {body : Block} (ihbody : body.Echoes R F) : (Stmt.function mark name params signature body).Echoes R F := by
  rintro G pinned pinned' scope n n' s s' w ty ht ⟨hmark, hopened, hbody⟩ h hprepared hspares hrun hF hb hpins
  rw [Stmt.infer] at hrun
  rw [Stmt.relocate, Stmt.infer]
  refine .node hmark hrun fun hrun => ?_
  obtain ⟨trees, t, ⟨fty, hfty, htree, -⟩, hwritten, -⟩ :=
    (hprepared.announced ht _ List.mem_cons_self).now h.admits.wf
  have hclear := h.admits.direct (hprepared.direct _ List.mem_cons_self) hfty
  obtain ⟨fty', hdeclared', hlink⟩ := hb.declaredType hfty
  rw [run_bind_of_ok (declaredType_eq_ok (h.admits.lt_of_visible h.visible) hfty)] at hrun
  refine .skip hdeclared' ?_
  -- A function that has been announced is known to have its parameters.
  obtain ⟨tys, result, hoperator, hlength⟩ := h.admits.wf.operator?_of_tree hclear.lt htree
  have hlength : params.length = tys.length := hwritten.length_eq.trans hlength.symm
  have hknown := functionParts_eq_ok mark.span hoperator
  obtain ⟨-, hparts, -, -, htree⟩ := (functionParts_allows (r := false) h.admits mark.span hclear _).ok hknown
  rw [hlength, run_bind_of_ok hknown] at hrun
  rw [hlength]
  have htys : ∀ a ∈ tys, s.types.Clear G.hidden a := fun a ha => hparts a (List.mem_append_left _ ha)
  have hname := h.nameable hopened
  obtain ⟨u, s₁, hset, h₁, ⟨htypes₁, hnamed⟩, hrun⟩ :=
    (setParamTypes_allows (r := false) params tys h.admits hlength htys hname).exists_of_run hrun
  have hclear₁ := h₁.types.clear h.admits.wf hclear
  have hparts₁ : ∀ a ∈ tys ++ [result], s₁.types.Clear G.hidden a := fun a ha =>
    h₁.types.clear h.admits.wf (hparts a ha)
  have hresult₁ := hparts₁ result (by simp)
  obtain ⟨hcovered₁, hopen₁⟩ := h.enterFunction hopened h₁ hclear₁ hparts₁ (htree s₁.types h₁.types)
    (fun ht => hnamed.fresh (n + 1) (Nat.lt_succ_self n) ((h.fresh ht).mono (Nat.le_succ n)))
    fun ht _ hname => hnamed.exists_type ht hname
  have hinner := hopen₁.withFrame ⟨result, false⟩ hresult₁ fun _ => hcovered₁
  have hbodyEchoes : Echoing R F G.base (pinned ++ [fty]) (pinned' ++ [fty']) ⟨n⟩ (some result) (n + 1) _ _ _ _ :=
    ihbody hbody hspares
  obtain ⟨flag, s₂, hframe, h₂, ⟨-, _, inner, ⟨-, hinner₂⟩, hs₂⟩, hrun⟩ :=
    (withFrame_allows (r := false) (hbodyEchoes.settling G _ rfl hinner rfl)).exists_of_run hrun
  have hopen₂ : G.Open (pinned ++ [fty]) ⟨n⟩ _ s₂ :=
    hopen₁.step h₂ hbody.le (hs₂ ▸ (hinner₂.withFrames s₁.frames)).fresh
  have hcovered₂ := (h₂.types.mono (Set.empty_subset _)).covered h₁.types.wf hcovered₁
  obtain ⟨rfl, hF₂, hrest⟩ := unitResult_echoes (R := R) ht hopen₂ (h₂.types.clear h₁.types.wf hresult₁) hcovered₂ hrun
    (hF.mono (unpinned_anti (List.subset_append_left _ _)))
  have hF₁ := h₂.types.trans (hopen₁.toStands.later h₂ hF₂)
  refine (functionParts_echoes h.admits.wf mark.span hoperator (h₁.types.trans hF₁) hb hlink).bind
    fun parts' w₁ hle₁ hb₁ hparts' => ?_
  obtain ⟨htys', hresult'⟩ := hparts'
  refine (setParamTypes_echoes ht params h.admits hlength htys hname htys' hset hb₁).bind fun _ w₂ hle₂ hb₂ _ => ?_
  have hle := hle₁.trans hle₂
  refine (hb₂.withFrame (hle₂.link hresult') hframe fun a inner hinfer htypes hbInner => ?_).bind
    fun flag' w₃ hle₃ hb₃ hflag => ?_
  · refine (hbodyEchoes.same rfl ht hinner rfl hinfer (htypes ▸ hF₂) hbInner ?_).mono fun _ _ _ _ => trivial
    exact List.rel_append (hle.all hpins) (.cons (hle.link hlink) .nil)
  · subst hflag
    exact hrest hb₃ ((hle₂.trans hle₃).link hresult') ((hle.trans hle₃).link hlink)

/-- The block of a blueprint, and the type of its name. -/
theorem Stmt.Echoes.blueprint {span : Span} {name : Ident} {body : Block} (ihbody : body.Echoes R F) :
    (Stmt.blueprint span name body).Echoes R F := by
  rintro G pinned pinned' scope n n' s s' w ty ht hbody h hprepared hspares hrun hF hb hpins
  obtain ⟨a, hname, -⟩ := (hprepared.announced ht _ List.mem_cons_self).now h.admits.wf
  rw [Stmt.infer] at hrun
  rw [Stmt.relocate, Stmt.infer]
  exact declaredBlock_echoes ht h (ihbody hbody hspares) hname hrun hF hb hpins

theorem Stmt.Echoes.trait {span : Span} {name : Ident} {body : Block} (ihbody : body.Echoes R F) :
    (Stmt.trait span name body).Echoes R F := by
  rintro G pinned pinned' scope n n' s s' w ty ht hbody h hprepared hspares hrun hF hb hpins
  obtain ⟨a, hname, -⟩ := (hprepared.announced ht _ List.mem_cons_self).now h.admits.wf
  rw [Stmt.infer] at hrun
  rw [Stmt.relocate, Stmt.infer]
  exact declaredBlock_echoes ht h (ihbody hbody hspares) hname hrun hF hb hpins

theorem Stmt.Echoes.struct {span : Span} {name : Ident} {fields : List Field} :
    (Stmt.struct span name fields).Echoes R F := by
  rintro G pinned pinned' scope n n' s s' w ty ht _ h hprepared hspares hrun hF hb hpins
  obtain ⟨a, hname, -⟩ := (hprepared.announced ht _ List.mem_cons_self).now h.admits.wf
  rw [Stmt.infer] at hrun
  rw [Stmt.relocate, Stmt.infer]
  obtain ⟨u, s₁, hfields, h₁, -, hrest⟩ :=
    (inferFields_allows (r := false) h.visible fields h.admits).exists_of_run hrun
  have hadmits₁ := h.admits.step h₁
  have hname₁ := h₁.kept ht hname
  cases (declaredType_eq_ok (hadmits₁.lt_of_visible h.visible) hname₁).symm.trans hrest
  refine (inferFields_echoes h.visible fields h.admits hfields (h.toStands.later h₁ hF) hb).bind fun _ w₁ _ hb₁ _ => ?_
  exact declaredName_echoes hadmits₁ h.visible hname₁ hrest hb₁

/-- The variants of an enum, and the type of its name. -/
theorem Stmt.Echoes.enum {span : Span} {name : Ident} {variants : List Ident} :
    (Stmt.enum span name variants).Echoes R F := by
  rintro G pinned pinned' scope n n' s s' w ty ht _ h hprepared hspares hrun hF hb hpins
  obtain ⟨a, hname, -⟩ := (hprepared.announced ht _ List.mem_cons_self).now h.admits.wf
  rw [Stmt.infer] at hrun
  rw [Stmt.relocate, Stmt.infer]
  obtain ⟨u, s₁, hvariants, -, rfl, hrest⟩ := (checkVariants_allows (r := false) h.admits variants).exists_of_run hrun
  exact .skip (checkVariants_eq_ok hvariants) (declaredName_echoes h.admits h.visible hname hrest hb)

/-! ### Labels, blocks, branches and loops -/

/-- What the statement after a label declares is linked when the statement is looked at. -/
theorem Stmt.Echoes.label {mark : Mark} {name : Ident} {stmt : Stmt} (ih : stmt.Echoes R F) :
    (Stmt.label mark name stmt).Echoes R F := by
  rintro G pinned pinned' scope n n' s s' w ty ht ⟨hmark, hopened, hstmt⟩ h _ hspares hrun hF hb hpins
  rw [Stmt.infer] at hrun
  rw [Stmt.relocate, Stmt.infer]
  simp only [Stmt.predeclare_relocate]
  refine .node hmark hrun fun hrun => ?_
  have hnames : Nameable G ⟨n⟩ (namesOf stmt.symbols) s :=
    (h.nameable hopened).rest (List.sublist_cons_self _ _) fun _ _ => rfl
  obtain ⟨pins, s₁, hpredeclare, h₁, hpre, hrun⟩ :=
    (stmt.predeclare_allows (r := false) h.admits hnames).exists_of_run hrun
  obtain ⟨hopen₁, hprepared₁⟩ := hpre.label h₁ h hopened
  obtain ⟨h₂, -⟩ := (stmt.infer_allows hstmt hopen₁ hprepared₁ rfl).ok hrun
  have hF' := hF.mono (unpinned_anti (List.subset_append_left pinned pins.all))
  refine (stmt.predeclare_echoes ht h.admits hnames hpredeclare (h₂.types.trans (hopen₁.toStands.later h₂ hF')) hb).bind
    fun pins' w₁ hle₁ hb₁ hforetold => ?_
  have hfunctions : List.Forall₂ w₁.links pins.functions pins'.functions :=
    Pending.links (G := G) (fun ht => ⟨hpre.functions ht, hpre.nodup⟩)
      (fun _ => ⟨hforetold.functions, hforetold.nodup⟩) ht hb₁
  exact ih ht hstmt hopen₁ hprepared₁ hspares hrun hF' hb₁
    (List.rel_append (hle₁.all hpins) (List.rel_append hforetold.vars hfunctions))

theorem Stmt.Echoes.block {body : Block} (ihbody : body.Echoes R F) : (Stmt.block body).Echoes R F := by
  rintro G pinned pinned' scope n n' s s' w ty ht hbody h _ hspares hrun hF hb hpins
  rw [Stmt.infer] at hrun
  rw [Stmt.relocate, Stmt.infer]
  exact Echoing.stmt ht h hrun hF hb hpins (ihbody hbody hspares)

/-- A branch without an else: condition, block and further conditions, one after another. -/
theorem Stmt.Echoes.branch {span : Span} {cond : Expr} {body : Block} {elifs : List Elif} (ihbody : body.Echoes R F)
    (ihelifs : ElifsEcho R F elifs) : (Stmt.branch span cond body elifs none).Echoes R F := by
  rintro G pinned pinned' scope n n' s s' w ty ht ⟨m, m', hcond, hbody, helifs⟩ h _ hspares hrun hF hb hpins
  rw [Stmt.infer] at hrun
  rw [Stmt.relocate, Stmt.infer]
  exact Echoing.stmt ht h hrun hF hb hpins <| (condition_echoing cond hcond hspares.left).andThen hcond.le fun _ =>
    (ihbody hbody hspares.right.left).andThen hbody.le fun _ =>
    (ihelifs helifs hspares.right.right).andThen (PlacedElifs.le helifs) fun _ => .pure rfl

/-- A branch with an else has one more block at the end. -/
theorem Stmt.Echoes.branchElse {span : Span} {cond : Expr} {body last : Block} {elifs : List Elif}
    (ihbody : body.Echoes R F) (ihelifs : ElifsEcho R F elifs) (ihlast : last.Echoes R F) :
    (Stmt.branch span cond body elifs (some last)).Echoes R F := by
  rintro G pinned pinned' scope n n' s s' w ty ht ⟨m, m', m'', hcond, hbody, helifs, hlast⟩ h _ hspares hrun hF hb hpins
  rw [Stmt.infer] at hrun
  rw [Stmt.relocate, Stmt.infer]
  exact Echoing.stmt ht h hrun hF hb hpins <| (condition_echoing cond hcond hspares.left).andThen hcond.le fun _ =>
    (ihbody hbody hspares.right.left).andThen hbody.le fun _ =>
    (ihelifs helifs hspares.right.right.left).andThen (PlacedElifs.le helifs) fun _ =>
      ihlast hlast hspares.right.right.right

theorem Stmt.Echoes.loop {span : Span} {cond : Expr} {body : Block} (ihbody : body.Echoes R F) :
    (Stmt.loop span cond body).Echoes R F := by
  rintro G pinned pinned' scope n n' s s' w ty ht ⟨m, hcond, hbody⟩ h _ hspares hrun hF hb hpins
  rw [Stmt.infer] at hrun
  rw [Stmt.relocate, Stmt.infer]
  exact Echoing.stmt ht h hrun hF hb hpins <|
    (condition_echoing cond hcond hspares.left).andThen hcond.le fun _ => ihbody hbody hspares.right

/-! ### Returns, jumps and expressions -/

/-- **A return** is echoed if the value that is given back is. With and without a value, a return is a case of this. -/
theorem ret_echoes {span : Span} {frame : Frame} {result' : TypeId} {actual actual' : InferM TypeId}
    (h : G.Open pinned scope n s) (hframe : frame ∈ s.frames)
    (hactual : (G.sharpen pinned scope n [] s).Ready pinned scope n s →
      (G.sharpen pinned scope n [] s).Allows true actual s fun a s' =>
        s'.types.Clear (G.sharpen pinned scope n [] s).hidden a ∧
          (G.sharpen pinned scope n [] s).Concludes n' s' fun _ _ => True)
    (hechoes : (G.sharpen pinned scope n [] s).Ready pinned scope n s → ∀ a s₁, actual s = .ok a s₁ →
      Evolves (G.sharpen pinned scope n [] s).hidden s₁.types F →
      Echoed R F s₁ w actual' fun w' a' => w'.links a a')
    (hlink : w.links frame.result result')
    (hrun : (do let a ← actual; unify span frame.result a; markReturned; pure TypeId.unit) s = .ok ty s')
    (hF : Evolves (s'.types.Unpinned pinned) s'.types F) :
    Echoed R F s' w (do let a ← actual'; unify span result' a; markReturned; pure TypeId.unit)
      fun w' ty' => w'.links ty ty' := by
  obtain ⟨hready, hF'⟩ := h.follow (fun hready => inferReturn_allows (J := fun _ _ _ => True)
    (G := G.sharpen pinned scope n [] s) span hready.admits (hready.admits.frames frame hframe) (hactual hready))
    hrun hF
  exact inferReturn_echoes hready.admits (hready.admits.frames frame hframe)
    ((hactual hready).mono fun _ _ _ => And.left) (hechoes hready) hlink hrun hF'

/-- The value that is given back is written, or is that of statements. -/
theorem Stmt.Echoes.ret {span : Span} {value : Option Expr} : (Stmt.ret span value).Echoes R F := by
  rintro G pinned pinned' scope n n' s s' w ty ht hvalue h _ hspares hrun hF hb hpins
  rw [Stmt.infer] at hrun
  rw [Stmt.relocate, Stmt.infer]
  replace hrun := (run_bind_of_ok (show expectedResult? s = .ok s.expected s from rfl)).symm.trans hrun
  cases hresult : s.expected with
  | none =>
    rw [hresult] at hrun
    cases hrun
  | some result =>
    rw [hresult] at hrun
    obtain ⟨result', hexpected', hlink⟩ := hb.expectedResult hresult
    refine .skip hexpected' ?_
    obtain ⟨frame, hframe, rfl⟩ := Inference.exists_frame hresult
    cases value with
    | some value =>
      exact ret_echoes h hframe
        (fun hready => (value.infer_allows (G := G.sharpen pinned scope n [] s) hvalue hready).mono
          fun _ _ _ hafter => ⟨hafter.1, fun ht => ⟨(hafter.2 ht).1, fun _ _ _ => trivial⟩⟩)
        (fun hready a s₁ hinfer hF₁ => value.infer_echoes (G := G.sharpen pinned scope n [] s) ht hvalue hready
          hspares hinfer hF₁ hb hpins) hlink hrun hF
    | none =>
      obtain rfl : n' = n := hvalue
      exact ret_echoes h hframe
        (fun hready => hready.admits.pure ⟨hready.admits.clear_primitive rfl,
          fun ht => ⟨h.fresh ht, fun _ _ _ => trivial⟩⟩)
        (fun _ a s₁ hpure _ => by cases hpure; exact .pure hb (hb.primitive rfl)) hlink hrun hF

theorem Stmt.Echoes.jump {span : Span} {kind : JumpKind} {label : Option Ident} :
    (Stmt.jump span kind label).Echoes R F := by
  rintro G pinned pinned' scope n n' s s' w ty ht _ h _ hspares hrun hF hb hpins
  rw [Stmt.infer] at hrun
  rw [Stmt.relocate, Stmt.infer]
  obtain ⟨u, s₁, hjump, -, rfl, hrest⟩ := (checkJump_allows (r := false) h.admits h.visible label).exists_of_run hrun
  cases hrest
  exact .skip (checkJump_echoes h.admits h.visible label hjump hb) (.pure hb (hb.primitive rfl))

/-- An expression in place of a statement has a linked type. -/
theorem Stmt.Echoes.expr {e : Expr} : (Stmt.expr e).Echoes R F := by
  rintro G pinned pinned' scope n n' s s' w ty ht he h _ hspares hrun hF hb hpins
  rw [Stmt.infer] at hrun
  rw [Stmt.relocate, Stmt.infer]
  obtain ⟨hready, hF'⟩ := h.follow (r := false)
    (fun hready => e.infer_allows (G := G.sharpen pinned scope n [] s) he hready) hrun hF
  exact e.infer_echoes (G := G.sharpen pinned scope n [] s) ht he hready hspares hrun hF' hb hpins

/-! ### Statements one after another -/

/-- The declarations of a block get their types on both sides, and then its statements are followed. -/
theorem Block.Echoes.mk {mark : Mark} {stmts : List Stmt} (ihstmts : StmtsEcho R F stmts) :
    (Block.mk mark stmts).Echoes R F := by
  rintro base pinned pinned' scope n n' expected hplaced hspares
  refine ⟨(Block.infer_allows (.mk mark stmts) hplaced).silent, ?_⟩
  obtain ⟨hmark, hopened, hstmts⟩ := hplaced
  rintro G s s' w a rfl ht h - hrun hF hb hpins
  rw [Block.infer] at hrun
  rw [Block.relocate, Block.infer]
  simp only [predeclareAll_relocate]
  refine .node hmark hrun fun hrun => ?_
  have hname := h.nameable hopened
  obtain ⟨pins, s₁, hpredeclare, h₁, hpre, hrun⟩ :=
    (predeclareAll_allows (r := false) stmts h.admits hname).exists_of_run hrun
  have hunderway := hpre.underway h₁ h hopened
  obtain ⟨tys, s₂, hinfer, h₂, -, hrest⟩ :=
    (inferStmts_allows stmts hstmts hunderway rfl).exists_of_run hrun
  cases hrest
  have hF' := hF.mono (unpinned_anti (List.subset_append_left pinned pins.vars))
  refine (predeclareAll_echoes ht stmts h.admits hname hpredeclare (h₂.types.trans (hunderway.toStands.later h₂ hF'))
    hb).bind fun pins' w₁ hle₁ hb₁ hforetold => ?_
  refine (ihstmts ht hstmts hunderway (fun _ => ⟨hforetold.functions, hforetold.nodup⟩) hspares
    (List.rel_append (hle₁.all hpins) hforetold.vars) hinfer hF' hb₁).bind fun tys' w₂ _ hb₂ _ => ?_
  exact .pure hb₂ rfl

theorem StmtsEcho.nil : StmtsEcho R F [] := by
  rintro G pinned pinned' scope n n' s s' w pins pins' tys _ _ _ _ _ _ hrun _ hb
  rw [inferStmts] at hrun
  cases hrun
  rw [relocateStmts, inferStmts]
  exact .pure hb .nil

/-- The rest is looked at under a guard that hides what is not pinned any longer. A function that has been looked at
    is released on both sides. -/
theorem StmtsEcho.cons {stmt : Stmt} {rest : List Stmt} (ih : stmt.Echoes R F) (ihrest : StmtsEcho R F rest) :
    StmtsEcho R F (stmt :: rest) := by
  rintro G pinned pinned' scope n n' s s' w pins pins' tys ht ⟨m, hstmt, hrest⟩ h hpending hspares hpins hrun hF hb
  rw [inferStmts] at hrun
  rw [relocateStmts, inferStmts]
  obtain ⟨ty, s₁, hinfer, h₁, ⟨-, hsettles⟩, hrun⟩ := (stmt.infer_allows hstmt h.all h.first rfl).exists_of_run hrun
  obtain ⟨pins₁, hsettle, hvars, hunpin, hunderway⟩ := h.rest h₁ hstmt.le hsettles.fresh
  rw [run_bind_of_ok hsettle] at hrun
  have hsharp := hunderway.sharpen
  obtain ⟨tys', s₂, hinferRest, h₂, -, hpure⟩ :=
    (inferStmts_allows (G := G.sharpen _ _ _ _ _) rest hrest hsharp rfl).exists_of_run hrun
  cases hpure
  rw [← hvars] at hF
  have hF₁ := (hsharp.toOpen.later_of_step ht h₂ hF).mono (unpinned_anti hunpin)
  have hlinks : List.Forall₂ w.links (pinned ++ pins.all) (pinned' ++ pins'.all) := by
    rw [Pins.all, Pins.all, ← List.append_assoc, ← List.append_assoc]
    exact List.rel_append hpins (h.pending.links hpending ht hb)
  refine (ih ht hstmt h.all h.first hspares.left hinfer hF₁ hb hlinks).bind
    fun ty' w₁ hle₁ hb₁ hty => ?_
  -- The companion's function is settled as well.
  have hscope : (R.move scope).index < w₁.state.scopes.size :=
    hb₁.scopes.lt ((h.admits.step h₁).lt_of_visible h.visible)
  have hpending₁ : Pending G (R.move scope)
      (functionNames (declarations (stmt.relocate R.move :: relocateStmts R.move rest))) pins'.functions w₁.state := by
    rw [← relocateStmts, functionNames_relocate]
    exact fun ht => ⟨(hpending ht).1.imp fun _ _ hty => hle₁.kept hty, (hpending ht).2⟩
  obtain ⟨pins₁', hsettle', hvars', -, hpending₂⟩ := settle_eq_ok hscope (stmt.relocate R.move) hpending₁
  rw [functionNames_relocate] at hpending₂
  refine .skip hsettle' ?_
  rw [← hvars, ← hvars'] at hpins
  refine (ihrest (G := G.sharpen _ _ _ _ _) ht hrest hsharp hpending₂ hspares.right (hle₁.all hpins)
    hinferRest hF hb₁).bind fun tys₁' w₂ hle₂ hb₂ htys => ?_
  exact .pure hb₂ (.cons (hle₂.link hty) htys)

theorem ElifsEcho.nil : ElifsEcho R F [] := by
  rintro base pinned pinned' scope n n' expected hn _
  obtain rfl := hn
  rw [relocateElifs, inferElifs, inferElifs]
  exact .pure trivial

/-- A condition, its block, and the conditions after it. -/
theorem ElifsEcho.cons {span : Span} {cond : Expr} {body : Block} {rest : List Elif} (ihbody : body.Echoes R F)
    (ihrest : ElifsEcho R F rest) : ElifsEcho R F (.mk span cond body :: rest) := by
  rintro base pinned pinned' scope n n' expected ⟨m, m', hcond, hbody, hrest⟩ hspares
  rw [relocateElifs, inferElifs, inferElifs]
  exact (condition_echoing cond hcond hspares.left).andThen hcond.le fun _ =>
    (ihbody hbody hspares.right.left).andThen hbody.le fun _ =>
      ihrest hrest hspares.right.right

/-! ## The induction -/

mutual

/-- **Statements** have linked types. By recursion on the statement, with the lemma for each kind. -/
theorem Stmt.infer_echoes : ∀ stmt : Stmt, stmt.Echoes R F
  | .vars _ _ _ => .vars
  | .function _ _ _ _ body => .function body.infer_echoes
  | .blueprint _ _ body => .blueprint body.infer_echoes
  | .trait _ _ body => .trait body.infer_echoes
  | .struct _ _ _ => .struct
  | .enum _ _ _ => .enum
  | .label _ _ stmt => .label stmt.infer_echoes
  | .block body => .block body.infer_echoes
  | .branch _ _ body elifs none => .branch body.infer_echoes (inferElifs_echoes elifs)
  | .branch _ _ body elifs (some last) => .branchElse body.infer_echoes (inferElifs_echoes elifs) last.infer_echoes
  | .loop _ _ body => .loop body.infer_echoes
  | .ret _ _ => .ret
  | .jump _ _ _ => .jump
  | .expr _ => .expr

/-- **Blocks** are echoed, by recursion through their statements. -/
theorem Block.infer_echoes : ∀ block : Block, block.Echoes R F
  | .mk _ stmts => .mk (inferStmts_echoes stmts)

/-- **Statements one after another** have linked types. -/
theorem inferStmts_echoes : ∀ stmts : List Stmt, StmtsEcho R F stmts
  | [] => .nil
  | stmt :: rest => .cons stmt.infer_echoes (inferStmts_echoes rest)

theorem inferElifs_echoes : ∀ elifs : List Elif, ElifsEcho R F elifs
  | [] => .nil
  | .mk _ _ body :: rest => .cons body.infer_echoes (inferElifs_echoes rest)

end

end TypeInference
