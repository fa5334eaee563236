import TypeInference.Proofs.Inference.Naming
import TypeInference.Proofs.Inference.Principal
import TypeInference.Proofs.Scoping.Placement
import TypeInference.Proofs.Typing.Monomorphic

/-!
# `Proofs.Inference.Completeness` — inference finds principal types

Where every name stands for one type, inference of an expression is a principal run for the typing rules: it
succeeds as soon as some choice of trees for the type variables lets the expression be typed, and every tree
that the expression can have comes from the one type that is returned. The induction is over the expression.
Its parts are looked at one after another, and what one of them asks of the variables is there when the next
is looked at; `Principal.bind` is all that this needs.

The environment of the rules is a function of the trees of types: a name has the tree of its symbol's type.

## Contents
* `Scopes.Keeps`, `Situated` — what is asked of the state;
* `typeParams_principal`, `inferName_principal` — parameters and names;
* `Expr.IsPrincipal` — what is shown of an expression, with a lemma for each kind;
* `Expr.infer_principal` — the induction.
-/

namespace TypeInference

open Store Scopes InferM

/-! ## What is asked of the state -/

/-- The scopes of `g` from the number `n` on are in `g'` too: inside the same scopes, with the same names, of the
    same kinds. These are the scopes of what is still to be looked at. -/
def Scopes.Keeps (n : Nat) (g g' : Scopes) : Prop :=
  ∀ id : ScopeId, n ≤ id.index → id.index < g.size → g'.parentOf id = g.parentOf id ∧
    ∀ name, (g'.symbolAt id name).map Symbol.kind = (g.symbolAt id name).map Symbol.kind

variable {base : Scopes} {pinned : List TypeId} {scope : ScopeId} {n n' : Nat} {names names' : String → Prop}
  {Γ : (TypeId → Tree) → Environment} {s s' : Inference}

/-- The name means a variable with this type, all of whose type variables are pinned, so that its instances have its
    own tree. -/
structure Inference.Means (s : Inference) (pinned : List TypeId) (scope : ScopeId) (name : String)
    (ty : TypeId) : Prop where
  lookup : ∃ owner symbol, s.scopes.lookup scope name = .ok (some (owner, symbol)) ∧ symbol.kind = .var ∧
    symbol.ty = some ty
  covered : s.types.Covered ∅ pinned ty

/-- What a state must be like to look at a tree that stands in `scope`, whose own scopes begin at `n` and were
    opened in `base`: each of the names means a variable, and has its tree in the environment. -/
structure Situated (base : Scopes) (pinned : List TypeId) (scope : ScopeId) (n : Nat) (names : String → Prop)
    (Γ : (TypeId → Tree) → Environment) (s : Inference) : Prop where
  wf : s.types.WellFormed
  ordered : s.scopes.Ordered
  pins : ∀ p ∈ pinned, Inside p s
  before : scope.index < n
  keeps : base.Keeps n s.scopes
  known : ∀ name, names name → ∃ ty, s.Means pinned scope name ty ∧ ∀ reading, Γ reading name = some (reading ty)

namespace Situated

/-! ### What is known in such a state -/

theorem mono (h : Situated base pinned scope n names Γ s) (hsub : ∀ name, names' name → names name) :
    Situated base pinned scope n names' Γ s :=
  { h with known := fun name hname => h.known name (hsub name hname) }

/-- What a name means before a run, it means afterwards. -/
theorem means (h : Situated base pinned scope n names Γ s) (hs : Follows n s s') {name : String} {ty : TypeId}
    (hmeans : s.Means pinned scope name ty) : s'.Means pinned scope name ty where
  lookup := by
    rw [lookup_of_before h.ordered hs.shape.size_eq hs.before h.before]
    exact hmeans.lookup
  covered := hs.types.covered h.wf hmeans.covered

/-- **The next tree may be looked at** after a run. -/
theorem step (h : Situated base pinned scope n names Γ s) (hs : Follows n s s') (hle : n ≤ n') :
    Situated base pinned scope n' names Γ s' where
  wf := hs.types.wf
  ordered := hs.shape.ordered h.ordered
  pins := fun p hp => hs.types.lt (h.pins p hp)
  before := h.before.trans_le hle
  keeps := fun id hid hlt => by
    obtain ⟨hparent, hkinds⟩ := h.keeps id (hle.trans hid) hlt
    exact ⟨(hs.shape.parent id).trans hparent, fun name => (hs.shape.kind id name).trans (hkinds name)⟩
  known := fun name hname => by
    obtain ⟨ty, hmeans, htree⟩ := h.known name hname
    exact ⟨ty, h.means hs hmeans, htree⟩

/-- The tree of a name depends on types of the store only. -/
theorem agree (h : Situated base pinned scope n names Γ s) {reading reading' : TypeId → Tree}
    (hagree : s.types.Agree reading reading') {name : String} (hname : names name) :
    Γ reading' name = Γ reading name := by
  obtain ⟨ty, hmeans, htree⟩ := h.known name hname
  rw [htree, htree, hagree ty hmeans.covered.1]

/-- The typing of an expression depends on types of the store only, through the trees of its free names. -/
theorem hasType {e : Expr} (h : Situated base pinned scope n names Γ s) (hfree : ∀ name, e.Free name → names name)
    {reading reading' : TypeId → Tree} (hagree : s.types.Agree reading reading') {t : Tree}
    (ht : HasType (Γ reading) e t) : HasType (Γ reading') e t :=
  ht.congr e fun name hname => h.agree hagree (hfree name hname)

end Situated

/-! ## Parameters -/

theorem namesOf_symbols (params : List Param) : namesOf (Param.symbols params) = paramNames params := by
  simp [namesOf, Param.symbols, paramNames]

/-- The parameters stand in their scope, whatever has been looked at before. -/
theorem Situated.isSome_of_opened {params : List Param} (h : Situated base pinned scope n names Γ s)
    (hopened : base.Opened ⟨n⟩ scope (Param.symbols params)) :
    ∀ name ∈ paramNames params, (s.scopes.symbolAt ⟨n⟩ name).isSome := by
  intro name hname
  obtain ⟨-, hkinds⟩ := h.keeps ⟨n⟩ (Nat.le_refl n) (lt_of_scopeAt hopened.scope)
  rw [← namesOf_symbols] at hname
  obtain ⟨entry, hentry, rfl⟩ := List.mem_map.mp hname
  have hkind := hkinds entry.1.name
  rw [hopened.symbolAt_of_mem hentry] at hkind
  simpa using congrArg Option.isSome hkind

/-- The type of a name of the first scope that may change. Recording it asks for nothing. -/
theorem setType_principal (hwf : s.types.WellFormed) {name : String}
    (hthere : (s.scopes.symbolAt ⟨n⟩ name).isSome) (ty : TypeId) :
    Principal n (setType ⟨n⟩ name ty) s (fun _ _ => True) fun _ s' => s'.types = s.types ∧
      s'.scopes.typeAt ⟨n⟩ name = some ty ∧
      ∀ key, key ≠ name → s'.scopes.typeAt ⟨n⟩ key = s.scopes.typeAt ⟨n⟩ key := by
  obtain ⟨symbol, hsymbol⟩ := Option.isSome_iff_exists.mp hthere
  obtain ⟨scope, hscope, -⟩ := Option.bind_eq_some_iff.mp hsymbol
  obtain ⟨scopes, hupdate⟩ : ∃ scopes, s.scopes.update ⟨n⟩ name ({ · with ty := some ty }) = .ok scopes :=
    exists_mapTable (lt_of_scopeAt hscope) _
  have hanswer : answer (Halt.ofQuery (s.scopes.update ⟨n⟩ name ({ · with ty := some ty }))) s =
      .ok scopes s := by rw [hupdate]; rfl
  have hrun : setType ⟨n⟩ name ty s = .ok () { s with scopes } := run_bind_of_ok
    (m := get >>= fun t => answer (Halt.ofQuery (t.scopes.update ⟨n⟩ name ({ · with ty := some ty })))) hanswer
  have hfollows : Follows n s { s with scopes } := by
    refine ⟨.refl hwf, sameShape_of_update hupdate fun _ => rfl, fun id hid => ?_⟩
    rw [scopeAt_of_mapTable hupdate, if_neg]
    rintro rfl
    exact Nat.lt_irrefl _ hid
  obtain ⟨hset, hother⟩ := @typeAt_of_setType s { s with scopes } _ _ _ (symbolAt_of_update hupdate)
  exact Within.of_ok hrun hfollows ⟨⟨rfl, hset hthere, hother⟩, fun _ _ => trivial,
    fun reading _ hreads _ => ⟨reading, hreads, .refl, rfl⟩⟩

/-- **Parameters** can have any trees, each its own. -/
theorem typeParams_principal : ∀ (params : List Param) {s : Inference}, s.types.WellFormed →
    (∀ p ∈ params, p.signature = none) → (paramNames params).Nodup →
    (∀ name ∈ paramNames params, (s.scopes.symbolAt ⟨n⟩ name).isSome) →
    Principal n (typeParams ⟨n⟩ params) s (fun _ ts => ts.length = params.length) fun tys s' =>
      (∀ ty ∈ tys, Inside ty s') ∧
      List.Forall₂ (fun name ty => s'.scopes.typeAt ⟨n⟩ name = some ty) (paramNames params) tys ∧
      ∀ name, name ∉ paramNames params → s'.scopes.typeAt ⟨n⟩ name = s.scopes.typeAt ⟨n⟩ name := by
  intro params
  induction params with
  | nil =>
    intro s hwf _ _ _
    refine (Principal.pure hwf ⟨by simp, .nil, fun _ _ => rfl⟩).congr fun _ ts _ => ?_
    exact List.length_eq_zero_iff.symm
  | cons p rest ih =>
    intro s hwf hsig hnodup hthere
    obtain ⟨hnot, hnodup'⟩ := List.nodup_cons.mp hnodup
    obtain ⟨hp, hrest⟩ := List.forall_mem_cons.mp hsig
    rw [typeParams, hp]
    -- The tree of the first parameter is chosen, then nothing, then the trees of the others.
    refine (Principal.bind (P := fun _ t ts => ∃ _ : Unit, True ∧ ∃ us : List Tree,
      us.length = rest.length ∧ ts = t :: us) (newVar_principal hwf) (fun _ h => h) ?_).congr ?_
    · rintro ty s₁ hs₁ ⟨hty, hscopes₁⟩
      have hthere₁ : ∀ name ∈ paramNames (p :: rest), (s₁.scopes.symbolAt ⟨n⟩ name).isSome := by
        rwa [hscopes₁]
      refine Principal.bind (P := fun reading _ ts => ∃ us : List Tree, us.length = rest.length ∧
        ts = reading ty :: us) (setType_principal hs₁.types.wf (hthere₁ _ List.mem_cons_self) ty)
        (fun hagree => Exists.imp fun us => And.imp_right fun he => he.trans (by rw [hagree ty hty])) ?_
      rintro _ s₂ hs₂ ⟨htypes₂, hset₂, hother₂⟩
      have hthere₂ : ∀ name ∈ paramNames rest, (s₂.scopes.symbolAt ⟨n⟩ name).isSome := fun name hname => by
        obtain ⟨symbol, hsymbol⟩ := Option.isSome_iff_exists.mp (hthere₁ name (List.mem_cons_of_mem _ hname))
        obtain ⟨symbol', hsymbol', -⟩ := hs₂.shape.symbol hsymbol
        rw [hsymbol']; rfl
      have hty₂ : Inside ty s₂ := hs₂.types.lt hty
      refine Principal.bind (P := fun reading us ts => ts = reading ty :: us)
        (ih hs₂.types.wf hrest hnodup' hthere₂)
        (fun hagree he => he.trans (by rw [hagree ty hty₂])) ?_
      rintro tys s₃ hs₃ ⟨hinside, hnamed, hsame⟩
      refine Principal.pure hs₃.types.wf ⟨?_, .cons ((hsame _ hnot).trans hset₂) hnamed, fun name hname => ?_⟩
      · exact List.forall_mem_cons.mpr ⟨hs₃.types.lt hty₂, hinside⟩
      · obtain ⟨hne, hnot'⟩ := not_or.mp (mt List.mem_cons.mpr hname)
        rw [hsame name hnot', hother₂ name hne, hscopes₁]
    · intro reading ts _
      constructor
      · rintro ⟨t, -, _, -, us, hus, rfl⟩
        simp [hus]
      · intro hts
        obtain ⟨t, us, rfl⟩ := List.exists_cons_of_length_eq_add_one hts
        exact ⟨t, trivial, (), trivial, us, by simpa using hts, rfl⟩

/-! ### Into the body of a lambda -/

/-- A name of the list has the type at its place, and the tree of that type. -/
theorem exists_of_mem_paramNames {R : String → TypeId → Prop} {keys : List String} {tys : List TypeId}
    (h : List.Forall₂ R keys tys) {name : String} (hname : name ∈ keys) :
    ∃ ty ∈ tys, R name ty ∧ ∀ (Δ : Environment) (reading : TypeId → Tree),
      Δ.bind keys (tys.map reading) name = some (reading ty) := by
  induction h with
  | nil => cases hname
  | @cons key ty keys tys hty _ ih =>
    by_cases he : name = key
    · subst he
      exact ⟨ty, List.mem_cons_self, hty, fun Δ reading => by simp [Environment.bind]⟩
    · obtain ⟨ty', hmem, hR, htree⟩ := ih ((List.mem_cons.mp hname).resolve_left he)
      refine ⟨ty', List.mem_cons_of_mem _ hmem, hR, fun Δ reading => ?_⟩
      rw [← htree Δ reading]
      simp [Environment.bind, List.lookup_cons, beq_eq_false_iff_ne.mpr he]

theorem Environment.bind_of_not_mem {Δ : Environment} {keys : List String} {trees : List Tree} {name : String}
    (h : name ∉ keys) : Δ.bind keys trees name = Δ name := by
  have hnone : (keys.zip trees).lookup name = none := by
    rw [List.lookup_eq_none_iff]
    rintro ⟨key, t⟩ hmem
    exact bne_iff_ne.mpr fun (he : name = key) => h (he ▸ (List.of_mem_zip hmem).1)
  rw [Environment.bind, hnone, Option.none_or]

/-- **A lambda's body may be looked at** once its parameters have types. The types of the parameters are pinned in
    the body, so they are shared by all uses. -/
theorem Situated.enter {params : List Param} {tys : List TypeId}
    (h : Situated base pinned scope n (fun name => name ∉ paramNames params ∧ names name) Γ s)
    (hopened : base.Opened ⟨n⟩ scope (Param.symbols params)) (hs : Follows n s s')
    (htys : ∀ ty ∈ tys, Inside ty s')
    (hnamed : List.Forall₂ (fun name ty => s'.scopes.typeAt ⟨n⟩ name = some ty) (paramNames params) tys) :
    Situated base (pinned ++ tys) ⟨n⟩ (n + 1) names
      (fun reading => (Γ reading).bind (paramNames params) (tys.map reading)) s' := by
  have hstep := h.step hs (Nat.le_succ n)
  obtain ⟨hparent, hkinds⟩ := (h.step hs (Nat.le_refl n)).keeps ⟨n⟩ (Nat.le_refl n)
    (lt_of_scopeAt hopened.scope)
  refine ⟨hstep.wf, hstep.ordered, fun p hp => (List.mem_append.mp hp).elim (hstep.pins p) (htys p),
    Nat.lt_succ_self n, hstep.keeps, fun name hname => ?_⟩
  by_cases hparam : name ∈ paramNames params
  · obtain ⟨ty, hmem, hty, htree⟩ := exists_of_mem_paramNames hnamed hparam
    obtain ⟨symbol, hsymbol, hsty⟩ := Option.bind_eq_some_iff.mp hty
    refine ⟨ty, ⟨⟨⟨n⟩, symbol, lookup_of_symbolAt hsymbol, ?_, hsty⟩, ?_⟩, fun reading => htree _ reading⟩
    · -- The scope has the parameters and nothing else, and parameters are variables.
      have hkind := hkinds name
      rw [hsymbol, Option.map_some] at hkind
      obtain ⟨symbol', hsymbol', he⟩ := Option.map_eq_some_iff.mp hkind.symm
      obtain ⟨entry, hentry, -, rfl⟩ := hopened.exists_of_symbolAt hsymbol'
      obtain ⟨p, -, rfl⟩ := List.mem_map.mp hentry
      exact he.symm
    · exact covered_of_mem (htys ty hmem) (List.mem_append_right _ hmem)
  · obtain ⟨ty, hmeans, htree⟩ := hstep.known name ⟨hparam, hname⟩
    -- Another name is none of the scope's, so it is looked up around it.
    have hnone : s'.scopes.symbolAt ⟨n⟩ name = none := by
      rw [Option.eq_none_iff_forall_ne_some]
      intro symbol hsymbol
      have hkind := hkinds name
      rw [hsymbol, Option.map_some] at hkind
      obtain ⟨symbol', hsymbol', -⟩ := Option.map_eq_some_iff.mp hkind.symm
      obtain ⟨entry, hentry, rfl, -⟩ := hopened.exists_of_symbolAt hsymbol'
      exact hparam (namesOf_symbols params ▸ List.mem_map_of_mem hentry)
    refine ⟨ty, ⟨?_, hmeans.covered.mono (List.subset_append_left _ _)⟩, fun reading => ?_⟩
    · rw [lookup_of_parentOf hstep.ordered (hparent.trans hopened.parentOf) hnone]
      exact hmeans.lookup
    · rw [Environment.bind_of_not_mem hparam, htree]

/-! ## Names and literals -/

/-- **A name** has exactly the tree of its type. -/
theorem inferName_principal (h : Situated base pinned scope n names Γ s) {mark : Mark} {id : Ident}
    (hname : names id.name) :
    Principal n (inferName scope id pinned) s (fun reading t => HasType (Γ reading) (.name mark id) t)
      Inside := by
  obtain ⟨ty, hmeans, htree⟩ := h.known id.name hname
  obtain ⟨owner, symbol, hlookup, hkind, hty⟩ := hmeans.lookup
  have hresolve : resolve scope id s = .ok (owner, symbol) s := by
    rw [resolve_run, Scopes.resolve, hlookup]; rfl
  have hvalue : ¬(symbol.kind = .label ∨ symbol.kind.isType = true) := by simp [hkind, SymbolKind.isType]
  refine Within.bind_of_ok hresolve ?_
  simp only [hvalue, ↓reduceIte, hty]
  refine Within.bind_of_ok (a := ty) rfl ((instantiate_principal h.wf h.pins hmeans.covered).congr ?_)
  intro reading t _
  rw [hasType_name_iff, htree, Option.some.injEq, eq_comm]

/-- A literal has its primitive type, in every environment. -/
theorem literal_principal (hwf : s.types.WellFormed) {e : Expr} {id : TypeId} {con : Constructor}
    (hcon : initial.get id = .ok (.op con [])) (he : ∀ Δ t, HasType Δ e t ↔ t = .app con []) :
    Principal n (pure id : InferM TypeId) s (fun reading t => HasType (Γ reading) e t) Inside := by
  refine (Principal.pure hwf (lt_of_get (hwf.primitives _ _ hcon))).congr fun reading t hreads => ?_
  rw [he, ← hreads.primitive hwf hcon]
  rfl

/-! ## Expressions -/

/-- What the induction shows of an expression: **its inference is principal** for the typing rules. Environment,
    pinned types and state are quantified, since they change on the way into a lambda. -/
def Expr.IsPrincipal (base : Scopes) (e : Expr) : Prop :=
  ∀ ⦃pinned : List TypeId⦄ ⦃scope : ScopeId⦄ ⦃n n' : Nat⦄ ⦃Γ : (TypeId → Tree) → Environment⦄ ⦃s : Inference⦄,
    e.Placed base scope n n' → e.Monomorphic → Situated base pinned scope n (fun name => e.Free name) Γ s →
    Principal n (e.infer pinned) s (fun reading t => HasType (Γ reading) e t) Inside

/-- Expressions side by side: their inference is principal for the trees that all of them can have together. -/
def PrincipalExprs (base : Scopes) (items : List Expr) : Prop :=
  ∀ ⦃pinned : List TypeId⦄ ⦃scope : ScopeId⦄ ⦃n n' : Nat⦄ ⦃Γ : (TypeId → Tree) → Environment⦄ ⦃s : Inference⦄,
    PlacedExprs base scope items n n' → MonomorphicExprs items →
    Situated base pinned scope n (fun name => FreeExprs name items) Γ s →
    Principal n (inferExprs pinned items) s (fun reading ts => HaveTypes (Γ reading) items ts)
      fun tys s' => ∀ ty ∈ tys, Inside ty s'

/-- The items of a list: inference is principal for their having the tree of the common type. -/
def PrincipalElements (base : Scopes) (items : List Expr) : Prop :=
  ∀ ⦃pinned : List TypeId⦄ ⦃element : TypeId⦄ ⦃scope : ScopeId⦄ ⦃n n' : Nat⦄ ⦃Γ : (TypeId → Tree) → Environment⦄
    ⦃s : Inference⦄, PlacedExprs base scope items n n' → MonomorphicExprs items →
    Situated base pinned scope n (fun name => FreeExprs name items) Γ s → Inside element s →
    Principal n (inferElements pinned element items) s
      (fun reading _ => ∀ e ∈ items, HasType (Γ reading) e (reading element)) fun _ _ => True

/-- The entries of a map: inference is principal for keys and values having the trees of the common types. -/
def PrincipalEntries (base : Scopes) (entries : List (Expr × Expr)) : Prop :=
  ∀ ⦃pinned : List TypeId⦄ ⦃keyType valueType : TypeId⦄ ⦃scope : ScopeId⦄ ⦃n n' : Nat⦄
    ⦃Γ : (TypeId → Tree) → Environment⦄ ⦃s : Inference⦄, PlacedEntries base scope entries n n' →
    MonomorphicEntries entries → Situated base pinned scope n (fun name => FreeEntries name entries) Γ s →
    Inside keyType s → Inside valueType s →
    Principal n (inferEntries pinned keyType valueType entries) s
      (fun reading _ => ∀ entry ∈ entries, HasType (Γ reading) entry.1 (reading keyType) ∧
        HasType (Γ reading) entry.2 (reading valueType)) fun _ _ => True

/-! ### One lemma for each kind of expression -/

/-- Nothing is claimed of an expression outside of the part of the language. -/
theorem Expr.IsPrincipal.outside {e : Expr} (h : ¬ e.Monomorphic) : e.IsPrincipal base :=
  fun _ _ _ _ _ _ _ hmono => absurd hmono h

theorem Expr.IsPrincipal.number {mark : Mark} : (Expr.number mark).IsPrincipal base := by
  rintro pinned scope n n' Γ s ⟨hmark, _⟩ _ h
  rw [Expr.infer]
  exact Within.bind_of_ok (Guard.requireScope_eq_ok hmark)
    (literal_principal h.wf rfl fun _ _ => ⟨fun ht => by cases ht; rfl, fun he => he ▸ .number⟩)

theorem Expr.IsPrincipal.string {mark : Mark} {value : String} : (Expr.string mark value).IsPrincipal base := by
  rintro pinned scope n n' Γ s ⟨hmark, _⟩ _ h
  rw [Expr.infer]
  exact Within.bind_of_ok (Guard.requireScope_eq_ok hmark)
    (literal_principal h.wf rfl fun _ _ => ⟨fun ht => by cases ht; rfl, fun he => he ▸ .string⟩)

theorem Expr.IsPrincipal.bool {mark : Mark} {value : Bool} : (Expr.bool mark value).IsPrincipal base := by
  rintro pinned scope n n' Γ s ⟨hmark, _⟩ _ h
  rw [Expr.infer]
  exact Within.bind_of_ok (Guard.requireScope_eq_ok hmark)
    (literal_principal h.wf rfl fun _ _ => ⟨fun ht => by cases ht; rfl, fun he => he ▸ .bool⟩)

theorem Expr.IsPrincipal.name {mark : Mark} {id : Ident} : (Expr.name mark id).IsPrincipal base := by
  rintro pinned scope n n' Γ s ⟨hmark, _⟩ _ h
  rw [Expr.infer]
  exact Within.bind_of_ok (Guard.requireScope_eq_ok hmark) (inferName_principal h rfl)

/-- The reading of a new variable is the type of the items. -/
theorem Expr.IsPrincipal.list {mark : Mark} {items : List Expr} (ihitems : PrincipalElements base items) :
    (Expr.list mark items).IsPrincipal base := by
  rintro pinned scope n n' Γ s ⟨hmark, hitems⟩ hmono h
  rw [Expr.infer]
  refine Within.bind_of_ok (Guard.requireScope_eq_ok hmark) ?_
  refine (Principal.bind (P := fun reading element t => (∀ e ∈ items, HasType (Γ reading) e element) ∧
    t = Tree.list element) (newVar_principal h.wf) ?_ ?_).congr ?_
  · rintro reading reading' element t hagree ⟨hall, ht⟩
    exact ⟨HasType.congrElements items (fun name hname => h.agree hagree hname) hall, ht⟩
  · rintro element s₁ hs₁ ⟨helement, -⟩
    refine (ihitems hitems hmono (h.step hs₁ (Nat.le_refl n)) helement).andThen
      (P := fun reading t => t = Tree.list (reading element))
      (fun hagree ht => ht.trans (by rw [hagree element helement])) fun s₂ hs₂ => ?_
    exact operator_principal hs₂.types.wf rfl rfl (by simpa using hs₂.types.lt helement)
  · intro reading t _
    rw [hasType_list_iff]
    simp

/-- The readings of two new variables are the types of the keys and of the values. -/
theorem Expr.IsPrincipal.map {mark : Mark} {entries : List (Expr × Expr)} (ihentries : PrincipalEntries base entries) :
    (Expr.map mark entries).IsPrincipal base := by
  rintro pinned scope n n' Γ s ⟨hmark, hentries⟩ hmono h
  rw [Expr.infer]
  refine Within.bind_of_ok (Guard.requireScope_eq_ok hmark) ?_
  refine (Principal.bind (P := fun reading key t => ∃ value, True ∧
    (∀ entry ∈ entries, HasType (Γ reading) entry.1 key ∧ HasType (Γ reading) entry.2 value) ∧
      t = Tree.map key value) (newVar_principal h.wf) ?_ ?_).congr ?_
  · rintro reading reading' key t hagree ⟨value, hv, hall, ht⟩
    exact ⟨value, hv, HasType.congrEntries entries (fun name hname => h.agree hagree hname) hall, ht⟩
  · rintro key s₁ hs₁ ⟨hkey, -⟩
    have h₁ := h.step hs₁ (Nat.le_refl n)
    refine Principal.bind (P := fun reading value t =>
      (∀ entry ∈ entries, HasType (Γ reading) entry.1 (reading key) ∧ HasType (Γ reading) entry.2 value) ∧
        t = Tree.map (reading key) value) (newVar_principal h₁.wf) ?_ ?_
    · rintro reading reading' value t hagree ⟨hall, ht⟩
      rw [hagree key hkey]
      exact ⟨HasType.congrEntries entries (fun name hname => h₁.agree hagree hname) hall, ht⟩
    · rintro value s₂ hs₂ ⟨hvalue, -⟩
      have hkey₂ : Inside key s₂ := hs₂.types.lt hkey
      refine (ihentries hentries hmono (h₁.step hs₂ (Nat.le_refl n)) hkey₂
        hvalue).andThen (P := fun reading t => t = Tree.map (reading key) (reading value))
        (fun hagree ht => ht.trans (by rw [hagree key hkey₂, hagree value hvalue])) fun s₃ hs₃ => ?_
      exact operator_principal hs₃.types.wf rfl rfl
        (by simpa using ⟨hs₃.types.lt hkey₂, hs₃.types.lt hvalue⟩)
  · intro reading t _
    rw [hasType_map_iff]
    simp

/-- A tuple has the tree that its items make. -/
theorem Expr.IsPrincipal.tuple {mark : Mark} {items : List Expr} (ihitems : PrincipalExprs base items) :
    (Expr.tuple mark items).IsPrincipal base := by
  rintro pinned scope n n' Γ s ⟨hmark, hitems⟩ hmono h
  rw [Expr.infer]
  refine Within.bind_of_ok (Guard.requireScope_eq_ok hmark) ?_
  refine (Principal.bind (P := fun _ elements t => t = Tree.tuple elements)
    (ihitems hitems hmono h) (fun _ ht => ht) ?_).congr ?_
  · rintro tys s₁ hs₁ htys
    have hfits : Constructor.Takes (.tuple tys.length) tys.length := rfl
    refine (operator_principal hs₁.types.wf rfl hfits htys).congr fun reading t _ => ?_
    show _ ↔ t = Tree.tuple (tys.map reading)
    rw [Tree.tuple, List.length_map]
  · intro reading t _
    rw [hasType_tuple_iff]

/-- The operand has the tree that the operator asks for, and the answer is given. -/
theorem Expr.IsPrincipal.unary {mark : Mark} {op : UnaryOp} {operand : Expr} (ih : operand.IsPrincipal base) :
    (Expr.unary mark op operand).IsPrincipal base := by
  rintro pinned scope n n' Γ s ⟨hmark, hoperand⟩ hmono h
  rw [Expr.infer]
  refine Within.bind_of_ok (Guard.requireScope_eq_ok hmark) ?_
  refine (Principal.bind (P := fun _ u t => u = op.tree ∧ t = op.tree)
    (ih hoperand hmono h) (fun _ ht => ht)
    fun ty s₁ hs₁ hty => inferUnary_principal hs₁.types.wf op hty mark.span).congr ?_
  intro reading t _
  rw [hasType_unary_iff]
  constructor
  · rintro ⟨u, hu, rfl, ht⟩; exact ⟨hu, ht⟩
  · rintro ⟨hu, ht⟩; exact ⟨_, hu, rfl, ht⟩

theorem Expr.IsPrincipal.binary {mark : Mark} {op : BinaryOp} {left right : Expr} (ihleft : left.IsPrincipal base)
    (ihright : right.IsPrincipal base) : (Expr.binary mark op left right).IsPrincipal base := by
  rintro pinned scope n n' Γ s ⟨hmark, m, hleft, hright⟩ ⟨hml, hmr⟩ h
  rw [Expr.infer]
  refine Within.bind_of_ok (Guard.requireScope_eq_ok hmark) ?_
  refine (Principal.bind (P := fun reading l t => ∃ r, HasType (Γ reading) right r ∧
    l = r ∧ (∀ v, op.operandTree? = some v → l = v) ∧ t = op.resultTree)
    (ihleft hleft hml (h.mono fun _ hname => .inl hname)) ?_ ?_).congr ?_
  · rintro reading reading' l t hagree ⟨r, hr, hrest⟩
    exact ⟨r, h.hasType (fun _ hname => .inr hname) hagree hr, hrest⟩
  · intro lty s₁ hs₁ hlty
    have h₁ := h.step hs₁ hleft.le
    refine Principal.bind (P := fun reading r t => reading lty = r ∧
      (∀ v, op.operandTree? = some v → reading lty = v) ∧ t = op.resultTree)
      ((ihright hright hmr (h₁.mono fun _ hname => .inr hname)).relax hleft.le) ?_ ?_
    · intro reading reading' r t hagree
      rw [hagree lty hlty]
      exact id
    · intro rty s₂ hs₂ hrty
      exact inferBinary_principal hs₂.types.wf op (hs₂.types.lt hlty) hrty mark.span
  · intro reading t _
    rw [hasType_binary_iff]
    constructor
    · rintro ⟨u, hu, _, hr, rfl, hv, ht⟩; exact ⟨u, hu, hr, hv, ht⟩
    · rintro ⟨u, hu, hr, hv, ht⟩; exact ⟨u, hu, u, hr, rfl, hv, ht⟩

/-! ### Calls, lambdas and choices -/

/-- A call has a type if its callee is a function from the types of the arguments to it. -/
theorem Expr.IsPrincipal.call {mark : Mark} {callee : Expr} {args : List Expr} (ihcallee : callee.IsPrincipal base)
    (ihargs : PrincipalExprs base args) : (Expr.call mark callee args).IsPrincipal base := by
  rintro pinned scope n n' Γ s ⟨hmark, m, hcallee, hargs⟩ ⟨hmc, hma⟩ h
  rw [Expr.infer]
  refine Within.bind_of_ok (Guard.requireScope_eq_ok hmark) ?_
  refine (Principal.bind (P := fun reading c t => ∃ params, HaveTypes (Γ reading) args params ∧
    c = Tree.function params t) (ihcallee hcallee hmc (h.mono fun _ hname => .inl hname))
    ?_ ?_).congr ?_
  · rintro reading reading' c t hagree ⟨params, hparams, hc⟩
    exact ⟨params, hparams.congr args fun name hname => h.agree hagree (.inr hname), hc⟩
  · intro cty s₁ hs₁ hcty
    have h₁ := h.step hs₁ hcallee.le
    refine Principal.bind (P := fun reading params t => reading cty = Tree.function params t)
      ((ihargs hargs hma (h₁.mono fun _ hname => .inr hname)).relax hcallee.le)
      (fun hagree ht => by rwa [hagree cty hcty]) ?_
    intro tys s₂ hs₂ htys
    exact application_principal hs₂.types.wf mark.span (hs₂.types.lt hcty) htys
  · intro reading t _
    rw [hasType_call_iff]
    constructor
    · rintro ⟨c, hc, params, hparams, rfl⟩; exact ⟨params, hc, hparams⟩
    · rintro ⟨params, hc, hparams⟩; exact ⟨_, hc, params, hparams, rfl⟩

/-- The types of the parameters are read off before the body is looked at in their scope. -/
theorem Expr.IsPrincipal.lambda {mark : Mark} {own : Option ScopeId} {params : List Param} {body : Expr}
    (ihbody : body.IsPrincipal base) : (Expr.lambda mark own params body).IsPrincipal base := by
  rintro pinned scope n n' Γ s ⟨hmark, hown, hopened, hbody⟩ ⟨hsig, hmono⟩ h
  subst hown
  rw [Expr.infer]
  refine Within.bind_of_ok (Guard.requireScope_eq_ok hmark)
    (Within.bind_of_ok (Guard.requireScope_eq_ok rfl) ?_)
  -- First the trees of the parameters are chosen, then that of the result.
  refine (Principal.bind (P := fun reading trees t => ∃ result,
    HasType ((Γ reading).bind (paramNames params) trees) body result ∧ trees.length = params.length ∧
      t = Tree.function trees result)
    (typeParams_principal params h.wf hsig (namesOf_symbols params ▸ hopened.nodup)
      (h.isSome_of_opened hopened)) ?_ ?_).congr ?_
  · rintro reading reading' trees t hagree ⟨result, hresult, hlength, ht⟩
    refine ⟨result, hresult.congr body fun name hname => ?_, hlength, ht⟩
    exact Environment.bind_congr (by simpa [paramNames] using hlength) fun hnot =>
      h.agree hagree ⟨hnot, hname⟩
  · rintro tys s₁ hs₁ ⟨htys, hnamed, -⟩
    -- The body is looked at where the parameters have their types.
    have h₁ := h.enter hopened hs₁ htys hnamed
    have hlength : tys.length = params.length := by
      rw [← hnamed.length_eq, paramNames, List.length_map]
    refine Principal.bind (P := fun reading result t => (tys.map reading).length = params.length ∧
      t = Tree.function (tys.map reading) result)
      ((ihbody hbody hmono h₁).relax (Nat.le_succ n)) ?_ ?_
    · intro reading reading' result t hagree
      rw [hagree.map htys]
      exact id
    · intro result s₂ hs₂ hresult
      refine (function_principal hs₂.types.wf (fun a ha => hs₂.types.lt (htys a ha)) hresult).congr
        fun reading t _ => ?_
      rw [List.length_map]
      exact (and_iff_right hlength).symm
  · intro reading t _
    rw [hasType_lambda_iff]
    constructor
    · rintro ⟨trees, hlength, result, hresult, -, ht⟩; exact ⟨trees, result, hlength, hresult, ht⟩
    · rintro ⟨trees, result, hlength, hresult, ht⟩; exact ⟨trees, hlength, result, hresult, hlength, ht⟩

/-- **Two branches** have one type between them. -/
theorem Expr.IsPrincipal.branches {yes no : Expr} {m m' : Nat} (ihyes : yes.IsPrincipal base)
    (ihno : no.IsPrincipal base) (hyes : yes.Placed base scope n m) (hno : no.Placed base scope m m')
    (hmy : yes.Monomorphic) (hmn : no.Monomorphic)
    (h : Situated base pinned scope n (fun name => yes.Free name ∨ no.Free name) Γ s) (span : Span) :
    Principal n (do let y ← yes.infer pinned; let z ← no.infer pinned; unify span y z; pure y) s
      (fun reading t => HasType (Γ reading) yes t ∧ HasType (Γ reading) no t) Inside := by
  refine (Principal.bind (P := fun reading y t => ∃ z, HasType (Γ reading) no z ∧ y = z ∧ t = y)
    (ihyes hyes hmy (h.mono fun _ hname => .inl hname)) ?_ ?_).congr ?_
  · rintro reading reading' y t hagree ⟨z, hz, hrest⟩
    exact ⟨z, h.hasType (fun _ hname => .inr hname) hagree hz, hrest⟩
  · intro yty s₁ hs₁ hyty
    have h₁ := h.step hs₁ hyes.le
    refine Principal.bind (P := fun reading z t => reading yty = z ∧ t = reading yty)
      ((ihno hno hmn (h₁.mono fun _ hname => .inr hname)).relax hyes.le) ?_ ?_
    · intro reading reading' z t hagree
      rw [hagree yty hyty]
      exact id
    · intro nty s₂ hs₂ hnty
      have hyty₂ : Inside yty s₂ := hs₂.types.lt hyty
      exact unifyThen_principal hs₂.types.wf span hyty₂ hnty hyty₂
  · intro reading t _
    constructor
    · rintro ⟨y, hy, z, hz, rfl, rfl⟩; exact ⟨hy, hz⟩
    · rintro ⟨hy, hz⟩; exact ⟨t, hy, t, hz, rfl, rfl⟩

theorem Expr.IsPrincipal.when {mark : Mark} {cond yes no : Expr} (ihcond : cond.IsPrincipal base)
    (ihyes : yes.IsPrincipal base) (ihno : no.IsPrincipal base) : (Expr.when mark cond yes no).IsPrincipal base := by
  rintro pinned scope n n' Γ s ⟨hmark, m, m', hcond, hyes, hno⟩ ⟨hmc, hmy, hmn⟩ h
  rw [Expr.infer]
  refine Within.bind_of_ok (Guard.requireScope_eq_ok hmark) ?_
  have hbool : initial.get .bool = .ok (.op .bool []) := rfl
  refine (Principal.bind (P := fun reading c t => c = Tree.bool ∧ HasType (Γ reading) yes t ∧
    HasType (Γ reading) no t) (ihcond hcond hmc (h.mono fun _ hname => .inl hname)) ?_ ?_).congr ?_
  · rintro reading reading' c t hagree ⟨hc, hy, hz⟩
    exact ⟨hc, h.hasType (fun _ hname => .inr (.inl hname)) hagree hy,
      h.hasType (fun _ hname => .inr (.inr hname)) hagree hz⟩
  · intro cty s₁ hs₁ hcty
    have h₁ := h.step hs₁ hcond.le
    have hunify : Principal n (unify cond.span cty .bool) s₁ (fun reading _ => reading cty = .bool)
        fun _ s' => s'.scopes = s₁.scopes :=
      (unify_principal h₁.wf cond.span hcty (lt_of_get (h₁.wf.primitives _ _ hbool))).congr
        fun reading _ hreads => by rw [hreads.primitive h₁.wf hbool]; rfl
    refine hunify.andThen (P := fun reading t => HasType (Γ reading) yes t ∧ HasType (Γ reading) no t) ?_ ?_
    · rintro reading reading' t hagree ⟨hy, hz⟩
      exact ⟨h₁.hasType (fun _ hname => .inr (.inl hname)) hagree hy,
        h₁.hasType (fun _ hname => .inr (.inr hname)) hagree hz⟩
    · intro s₂ hs₂
      have h₂ := h.step (hs₁.trans hs₂) hcond.le
      exact (branches ihyes ihno hyes hno hmy hmn (h₂.mono fun _ hname => .inr hname) mark.span).relax hcond.le
  · intro reading t _
    rw [hasType_when_iff]
    constructor
    · rintro ⟨_, hc, rfl, hy, hz⟩; exact ⟨hc, hy, hz⟩
    · rintro ⟨hc, hy, hz⟩; exact ⟨_, hc, rfl, hy, hz⟩

/-! ### Expressions side by side -/

theorem PrincipalExprs.nil : PrincipalExprs base [] := by
  rintro pinned scope n n' Γ s _ _ h
  rw [inferExprs]
  exact (Principal.pure h.wf (by simp)).congr fun _ _ _ => ⟨fun he => he ▸ .nil, fun hts => by cases hts; rfl⟩

theorem PrincipalExprs.cons {e : Expr} {rest : List Expr} (ihe : e.IsPrincipal base)
    (ihrest : PrincipalExprs base rest) : PrincipalExprs base (e :: rest) := by
  rintro pinned scope n n' Γ s ⟨m, he, hrest⟩ ⟨hme, hmr⟩ h
  rw [inferExprs]
  refine (Principal.bind (P := fun reading t ts => ∃ us, HaveTypes (Γ reading) rest us ∧ ts = t :: us)
    (ihe he hme (h.mono fun _ hname => .inl hname)) ?_ ?_).congr ?_
  · rintro reading reading' t ts hagree ⟨us, hus, hts⟩
    exact ⟨us, hus.congr rest fun name hname => h.agree hagree (.inr hname), hts⟩
  · intro ty s₁ hs₁ hty
    have h₁ := h.step hs₁ he.le
    refine Principal.bind (P := fun reading us ts => ts = reading ty :: us)
      ((ihrest hrest hmr (h₁.mono fun _ hname => .inr hname)).relax he.le)
      (fun hagree hts => hts.trans (by rw [hagree ty hty])) ?_
    intro tys s₂ hs₂ htys
    exact Principal.pure hs₂.types.wf (List.forall_mem_cons.mpr ⟨hs₂.types.lt hty, htys⟩)
  · intro reading ts _
    rw [haveTypes_cons_iff]
    constructor
    · rintro ⟨t, ht, us, hus, hts⟩; exact ⟨t, us, ht, hus, hts⟩
    · rintro ⟨t, us, ht, hus, hts⟩; exact ⟨t, ht, us, hus, hts⟩

theorem PrincipalElements.nil : PrincipalElements base [] := by
  rintro pinned element scope n n' Γ s _ _ h _
  rw [inferElements]
  exact (Principal.pure h.wf trivial).congr fun _ _ _ => by simp

theorem PrincipalElements.cons {e : Expr} {rest : List Expr} (ihe : e.IsPrincipal base)
    (ihrest : PrincipalElements base rest) : PrincipalElements base (e :: rest) := by
  rintro pinned element scope n n' Γ s ⟨m, he, hrest⟩ ⟨hme, hmr⟩ h helement
  rw [inferElements]
  refine (Principal.expect (P := fun reading _ => ∀ e ∈ rest, HasType (Γ reading) e (reading element))
    e.span helement (ihe he hme (h.mono fun _ hname => .inl hname)) ?_ ?_).congr ?_
  · intro reading reading' _ hagree hall
    rw [hagree element helement]
    exact HasType.congrElements rest (fun name hname => h.agree hagree (.inr hname)) hall
  · intro s₁ hs₁
    have h₁ := h.step hs₁ he.le
    exact (ihrest hrest hmr (h₁.mono fun _ hname => .inr hname)
      (hs₁.types.lt helement)).relax he.le
  · intro reading _ _
    rw [List.forall_mem_cons]

theorem PrincipalEntries.nil : PrincipalEntries base [] := by
  rintro pinned keyType valueType scope n n' Γ s _ _ h _ _
  rw [inferEntries]
  exact (Principal.pure h.wf trivial).congr fun _ _ _ => by simp

theorem PrincipalEntries.cons {key value : Expr} {rest : List (Expr × Expr)} (ihkey : key.IsPrincipal base)
    (ihvalue : value.IsPrincipal base) (ihrest : PrincipalEntries base rest) :
    PrincipalEntries base ((key, value) :: rest) := by
  rintro pinned keyType valueType scope n n' Γ s ⟨m, m', hkey, hvalue, hrest⟩ ⟨hmk, hmv, hmr⟩ h hk hv
  rw [inferEntries]
  let All (reading : TypeId → Tree) : Prop := ∀ entry ∈ rest,
    HasType (Γ reading) entry.1 (reading keyType) ∧ HasType (Γ reading) entry.2 (reading valueType)
  -- What is left of the entry keeps its trees in readings that agree.
  have hall : ∀ {n' s'}, Situated base pinned scope n' (fun name => FreeEntries name ((key, value) :: rest))
      Γ s' → Inside keyType s' → Inside valueType s' → ∀ {reading reading' : TypeId → Tree},
      s'.types.Agree reading reading' → All reading → All reading' := by
    intro n' s' h' hk' hv' reading reading' hagree hall
    simp only [All, hagree keyType hk', hagree valueType hv']
    exact HasType.congrEntries rest (fun name hname => h'.agree hagree (.inr (.inr hname))) hall
  refine (Principal.expect (P := fun reading _ => HasType (Γ reading) value (reading valueType) ∧ All reading)
    key.span hk (ihkey hkey hmk (h.mono fun _ hname => .inl hname)) ?_ ?_).congr ?_
  · rintro reading reading' _ hagree ⟨hvt, hrest'⟩
    rw [hagree valueType hv]
    exact ⟨h.hasType (fun _ hname => .inr (.inl hname)) hagree hvt, hall h hk hv hagree hrest'⟩
  · intro s₁ hs₁
    have h₁ := h.step hs₁ hkey.le
    have hk₁ : Inside keyType s₁ := hs₁.types.lt hk
    have hv₁ : Inside valueType s₁ := hs₁.types.lt hv
    refine Principal.expect (P := fun reading _ => All reading) value.span hv₁
      ((ihvalue hvalue hmv (h₁.mono fun _ hname => .inr (.inl hname))).relax hkey.le)
      (hall h₁ hk₁ hv₁) ?_
    intro s₂ hs₂
    have h₂ := h.step (hs₁.trans hs₂) (hkey.le.trans hvalue.le)
    exact (ihrest hrest hmr (h₂.mono fun _ hname => .inr (.inr hname))
      (hs₂.types.lt hk₁) (hs₂.types.lt hv₁)).relax (hkey.le.trans hvalue.le)
  · intro reading _ _
    rw [List.forall_mem_cons, and_assoc]

/-! ### The induction -/

mutual

/-- **Inference of an expression is principal** for the typing rules. By recursion on the expression, with the lemma
    for each kind. -/
theorem Expr.infer_principal : ∀ e : Expr, e.IsPrincipal base
  | .number _ => .number
  | .string _ _ => .string
  | .bool _ _ => .bool
  | .name _ _ => .name
  | .list _ items => .list (inferElements_principal items)
  | .map _ entries => .map (inferEntries_principal entries)
  | .tuple _ items => .tuple (inferExprs_principal items)
  | .unary _ _ operand => .unary operand.infer_principal
  | .binary _ _ left right => .binary left.infer_principal right.infer_principal
  | .call _ callee args => .call callee.infer_principal (inferExprs_principal args)
  | .lambda _ _ _ body => .lambda body.infer_principal
  | .when _ cond yes no => .when cond.infer_principal yes.infer_principal no.infer_principal
  | .access _ _ _ | .assign _ _ _ => .outside id

theorem inferExprs_principal : ∀ items : List Expr, PrincipalExprs base items
  | [] => .nil
  | e :: rest => .cons e.infer_principal (inferExprs_principal rest)

theorem inferElements_principal : ∀ items : List Expr, PrincipalElements base items
  | [] => .nil
  | e :: rest => .cons e.infer_principal (inferElements_principal rest)

theorem inferEntries_principal : ∀ entries : List (Expr × Expr), PrincipalEntries base entries
  | [] => .nil
  | (key, value) :: rest => .cons key.infer_principal value.infer_principal (inferEntries_principal rest)

end

end TypeInference
