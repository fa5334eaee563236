import TypeInference.Proofs.Inference.Guard

/-!
# `Proofs.Inference.Steps` — the steps of inference keep to every guard

One lemma for each step of `Inference.State`: what it asks of an admitted state, and what it leaves behind.
Facts about trees are stated from now on (`Henceforth`), so that no later step has to be followed.

## Contents
* `Admits.create`, `Admits.operator`, `Admits.instantiate`, `Admits.unify` — steps on the store;
* `Admits.resolve`, `Admits.update`, `Admits.setType`, `Admits.typeOf` — steps on the scopes.
-/

namespace TypeInference

open Store Scopes InferM

namespace Guard

variable {G : Guard} {r : Bool} {s s' : Inference}

/-! ## Questions -/

theorem requireScope_eq_ok {mark : Mark} {scope : ScopeId} (h : mark.scope = some scope) :
    requireScope mark s = .ok scope s := by
  rw [requireScope, h]; rfl

theorem query_eq_ok {α : Type} {ask : Store → Except Fault α} {a : α} (h : ask s.types = .ok a) :
    query ask s = .ok a s := by
  rw [query_run, h]; rfl

theorem getLocal_eq_ok {scope : ScopeId} (h : scope.index < s.scopes.size) (name : String) :
    getLocal scope name s = .ok (s.scopes.symbolAt scope name) s := by
  rw [getLocal_run, Scopes.getLocal_eq_ok h]; rfl

theorem declaredType_eq_ok {scope : ScopeId} {name : String} {ty : TypeId} (h : scope.index < s.scopes.size)
    (hty : s.scopes.typeAt scope name = some ty) : declaredType scope name s = .ok ty s := by
  rw [declaredType, run_bind_of_ok (getLocal_eq_ok h name)]
  show typeOf scope name (s.scopes.typeAt scope name) s = _
  rw [hty]
  rfl

theorem Step.of_evolves {types : Store} (hs : Evolves G.hidden s.types types) : G.Step r s { s with types } :=
  ⟨hs, .refl _, fun _ _ => rfl, .inl, .inl, fun _ _ _ _ => id, .inl rfl⟩

namespace Admits

variable (h : G.Admits s)

include h

/-- A refusal is allowed by every guard, as long as it is not for want of a scope. -/
theorem refuse {α : Type} {cause : Cause} (hcause : cause ≠ .missingScope) (span : Span)
    {Q : α → Inference → Prop} : G.Allows r (refuse cause span) s Q :=
  .of_error rfl (.refl h) ⟨_, rfl, hcause⟩

theorem pure {α : Type} {a : α} {Q : α → Inference → Prop} (hQ : Q a s) : G.Allows r (pure a) s Q :=
  Within.pure (.refl h) hQ

/-! ## The store -/

/-- A new node with clear components is clear, and no hidden variable is touched. -/
theorem create {make : Store → TypeId × Store} {node : Node} (hmake : make s.types = s.types.allocate node)
    (hfits : node.Fits) (hnode : ∀ b ∈ node.refs, s.types.Clear G.hidden b) :
    G.Allows r (create make) s fun ty s' =>
      s'.types.Clear G.hidden ty ∧ s'.scopes = s.scopes ∧ ty = ⟨s.types.size⟩ ∧
        s'.types.get ty = .ok node := by
  refine .of_ok (create_run make s) (.of_evolves ?_) ⟨?_, rfl, ?_, ?_⟩ <;> simp only [hmake]
  · exact evolves_allocate h.wf hfits fun b hb => (hnode b hb).1
  · exact clear_allocate h.wf h.hidden_lt hfits hnode
  · rfl
  · exact get_allocate_self _ _

theorem newVar : G.Allows r (InferM.create Store.newVar) s fun ty s' =>
    s'.types.Clear G.hidden ty ∧ s'.scopes = s.scopes :=
  (@create _ _ _ h _ (.var none) rfl trivial (by simp [Node.refs])).mono fun _ _ _ hQ => ⟨hQ.1, hQ.2.1⟩

/-- **A new constructor** goes on being the root of its tree, whatever becomes of its components. -/
theorem operator {make : Store → TypeId × Store} {con : Constructor} {args : List TypeId}
    (hmake : make s.types = s.types.operator con args) (hfits : con.Takes args.length)
    (hargs : ∀ a ∈ args, s.types.Clear G.hidden a) :
    G.Allows r (InferM.create make) s fun ty s' => s'.types.Clear G.hidden ty ∧ s'.scopes = s.scopes ∧
      ty = ⟨s.types.size⟩ ∧ ∀ {hidden}, Henceforth hidden s'.types fun f =>
        f.tree ty = .app con (args.map f.tree) :=
  (h.create hmake hfits hargs).mono fun _ _ _ ⟨hclear, hscopes, hty, hget⟩ =>
    ⟨hclear, hscopes, hty, fun _ hl => hl.wf.grounded.tree_op (hl.kept hget (by simp))⟩

/-! ### Bindings and copies -/

/-- **Types that have been unified** go on having one tree. Both have to be clear, so that the bindings stay away
    from hidden variables. -/
theorem unifyOr {refusal : Clash → Diagnostic} {a b : TypeId}
    (href : ∀ clash, (refusal clash).cause ≠ .missingScope) (ha : s.types.Clear G.hidden a)
    (hb : s.types.Clear G.hidden b) :
    G.Allows r (unifyOr refusal a b) s fun _ s' =>
      s'.scopes = s.scopes ∧ Henceforth G.hidden s'.types fun f => f.tree a = f.tree b := by
  have hunify := Store.unify_within h.wf ha hb
  cases hrun : Store.unify a b s.types with
  | ok _ types =>
    obtain ⟨hbinds, heq⟩ := hunify.ok hrun
    refine .of_ok (unifyOr_of_ok hrun) (.of_evolves hbinds.toEvolves) ⟨rfl, ?_⟩
    exact fun f hl => hl.tree_congr hbinds.wf (hbinds.lt ha.lt) (hbinds.lt hb.lt) heq
  | error reason types =>
    obtain ⟨hbinds, hfailure⟩ := hunify.error hrun
    cases reason with
    | fault f => exact hfailure.elim
    | failure clash =>
      exact .of_error (unifyOr_of_clash hrun) (.of_evolves hbinds.toEvolves) ⟨_, rfl, href clash⟩

theorem unify (span : Span) {a b : TypeId} (ha : s.types.Clear G.hidden a) (hb : s.types.Clear G.hidden b) :
    G.Allows r (unify span a b) s fun _ s' =>
      s'.scopes = s.scopes ∧ Henceforth G.hidden s'.types fun f => f.tree a = f.tree b :=
  h.unifyOr (fun clash => by cases clash <;> simp [Clash.diagnostic]) ha hb

/-- **An instance** of a covered type goes on having the tree of the type, up to hidden variables. Without being
    covered the type still has a copy, and the copy is clear. -/
theorem instantiate {pinned : List TypeId} (hpinned : ∀ p ∈ pinned, s.types.Clear G.hidden p) {ty : TypeId}
    (hty : ty.index < s.types.size) :
    G.Allows r (instantiate pinned ty) s fun copy s' =>
      s'.types.Clear G.hidden copy ∧ s'.scopes = s.scopes ∧
        (s.types.Covered G.hidden pinned ty → Henceforth G.hidden s'.types fun f =>
          ∃ σ : TypeId → Tree, (∀ v, v ∉ G.hidden → σ v = .var v) ∧ f.tree copy = (f.tree ty).subst σ) := by
  have hrun : ∀ {copy types}, s.types.instantiate pinned ty = .ok (copy, types) →
      InferM.instantiate pinned ty s = .ok copy { s with types } := by
    intro copy types hcopy
    rw [instantiate_run, hcopy]
    rfl
  -- Types that are not covered come from states that are not tidy; their copies are only known to be clear.
  by_cases hcovered : s.types.Covered G.hidden pinned ty
  · obtain ⟨copy, types, hcopy, hgrows, hclear, hinstance⟩ :=
      h.wf.instantiate_eq_ok h.unbound hpinned hcovered
    exact .of_ok (hrun hcopy) (.of_evolves hgrows.toEvolves) ⟨hclear, rfl, fun _ => hinstance⟩
  · obtain ⟨copy, types, hcopy, hevolves, hclear⟩ := h.wf.instantiate_clear h.unbound hpinned hty
    exact .of_ok (hrun hcopy) (.of_evolves hevolves) ⟨hclear, rfl, fun hc => absurd hc hcovered⟩

/-! ## The scopes -/

/-- The meaning of a name is declared in a scope in sight, or the name is refused. -/
theorem resolve {scope : ScopeId} (hscope : scope ∈ G.visible) (name : Ident) :
    G.Allows r (resolve scope name) s fun found s' => s' = s ∧
      s.scopes.lookup scope name.name = .ok (some found) ∧ G.base.Sees scope found.1 ∧
        s.scopes.symbolAt found.1 name.name = some found.2 := by
  obtain ⟨found, hlookup, hmeans⟩ := @lookup_eq_ok s.scopes scope name.name h.ordered (h.lt_of_visible hscope)
  cases found with
  | none =>
    refine .of_error (e := .failure ⟨.undefined name.name, name.span⟩) ?_ (.refl h) ⟨_, rfl, by simp⟩
    rw [resolve_run, Scopes.resolve, hlookup]; rfl
  | some found =>
    obtain ⟨hsees, hsymbol⟩ := hmeans found.1 found.2 rfl
    refine .of_ok (a := found) ?_ (.refl h) ⟨rfl, hlookup, h.shape.symm.sees hsees, hsymbol⟩
    rw [resolve_run, Scopes.resolve, hlookup]; rfl

/-- **A change of one symbol** that gives it no type but a clear one. -/
theorem update {id : ScopeId} (hid : id ∈ G.visible) (name : String) {change : Symbol → Symbol}
    (hkind : ∀ symbol, (change symbol).kind = symbol.kind)
    (hty : ∀ symbol ty, (change symbol).ty = some ty → symbol.ty = some ty ∨ s.types.Clear G.hidden ty)
    (hkept : G.tidy → ∀ symbol ty, s.scopes.symbolAt id name = some symbol → symbol.ty = some ty →
      (change symbol).ty = some ty) :
    G.Allows r (update id name change) s fun _ s' => s'.types = s.types ∧ s'.frames = s.frames ∧
      (∀ n, id.index < n → s.Fresh n → s'.Fresh n) ∧
      ∀ other n, s'.scopes.symbolAt other n =
        if other = id ∧ name = n then (s.scopes.symbolAt id n).map change else s.scopes.symbolAt other n := by
  obtain ⟨scopes, hupdate⟩ : ∃ scopes, s.scopes.update id name change = .ok scopes :=
    exists_mapTable (h.lt_of_visible hid) _
  have hrun : InferM.update id name change s = .ok () { s with scopes } := by
    rw [update_run, hupdate]
    rfl
  refine .of_ok hrun ⟨.refl h.wf, sameShape_of_update hupdate hkind, fun other hother => ?_, fun hg => ?_,
    fun {other n ty} htype => ?_, fun ht other n ty htype => ?_, .inl rfl⟩
    ⟨rfl, rfl, fun n hn hfresh other kind ty hle hg => ?_, symbolAt_of_update hupdate⟩
  · -- Scopes that are not visible stay as they are.
    rw [scopeAt_of_mapTable hupdate, if_neg]
    rintro rfl
    exact hother hid
  · rcases gives_of_update hupdate hkind hg with hg | ⟨-, symbol, hsymbol, hold⟩
    · exact .inl hg
    · exact (hty symbol _ hsymbol).imp_left hold
  · -- A type that the change gives is clear.
    rw [typeAt, symbolAt_of_update hupdate] at htype
    split at htype
    · next he =>
      obtain ⟨rfl, rfl⟩ := he
      obtain ⟨symbol', hsymbol', hsty⟩ := Option.bind_eq_some_iff.mp htype
      obtain ⟨symbol, hsymbol, rfl⟩ := Option.map_eq_some_iff.mp hsymbol'
      exact (hty symbol ty hsty).imp_left (typeAt_of_symbolAt hsymbol)
    · exact .inl htype
  · -- Under a tidy guard the change takes no type away.
    obtain ⟨symbol, hsymbol, hsty⟩ := Option.bind_eq_some_iff.mp htype
    rw [typeAt, symbolAt_of_update hupdate]
    split
    · next he =>
      obtain ⟨rfl, rfl⟩ := he
      rw [hsymbol, Option.map_some, Option.bind_some, hkept ht symbol ty hsymbol hsty]
    · exact htype
  · rcases gives_of_update hupdate hkind hg with hg | ⟨rfl, -⟩
    · exact hfresh other kind ty hle hg
    · exact absurd hn (Nat.not_lt.mpr hle)

/-! ### Types of names -/

/-- **A name gets a clear type.** Under a tidy guard it must not have had one before. -/
theorem setType {id : ScopeId} (hid : id ∈ G.visible) (name : String) {ty : TypeId}
    (hty : s.types.Clear G.hidden ty) (hnone : G.tidy → s.scopes.typeAt id name = none) :
    G.Allows r (setType id name ty) s fun _ s' => s'.types = s.types ∧ s'.frames = s.frames ∧
      (∀ n, id.index < n → s.Fresh n → s'.Fresh n) ∧
      ∀ other n, s'.scopes.symbolAt other n =
        if other = id ∧ name = n then (s.scopes.symbolAt id n).map ({ · with ty := some ty })
        else s.scopes.symbolAt other n := by
  refine h.update hid name (fun _ => rfl) (fun _ _ he => .inr (Option.some.inj he ▸ hty)) ?_
  intro ht symbol old hsymbol hold
  have := hnone ht
  rw [typeAt_of_symbolAt hsymbol hold] at this
  cases this

/-- A name has a value from then on, and its type stays. -/
theorem setInitialized {id : ScopeId} (hid : id ∈ G.visible) (name : String) :
    G.Allows r (InferM.update id name ({ · with initialized := true })) s fun _ s' =>
      s'.types = s.types ∧ ∀ n, id.index < n → s.Fresh n → s'.Fresh n := by
  refine Within.mono (h.update hid name ?_ ?_ ?_) fun _ _ _ hafter => ⟨hafter.1, hafter.2.2.1⟩
  · exact fun _ => rfl
  · exact fun _ _ => .inl
  · exact fun _ _ _ _ hty => hty

theorem newTypeFor {id : ScopeId} (hid : id ∈ G.visible) (name : String)
    (hnone : G.tidy → s.scopes.typeAt id name = none) :
    G.Allows r (newTypeFor id name) s fun ty s' => s'.types.Clear G.hidden ty := by
  apply Allows.bind h.newVar
  intro ty s₁ h₁ hafter
  obtain ⟨hclear, hscopes⟩ := hafter
  apply Allows.bind ((h.step h₁).setType hid name hclear fun ht => hscopes ▸ hnone ht)
  intro _ s₂ h₂ hafter
  obtain ⟨htypes, _⟩ := hafter
  exact ((h.step h₁).step h₂).pure (htypes ▸ hclear)

/-- The type of a name is the one it has; a new one is made only for what has been left over. -/
theorem typeOf {id : ScopeId} (hid : id ∈ G.visible) (name : String) {declared : Option TypeId}
    (hsome : G.tidy → declared.isSome) :
    G.Allows r (typeOf id name declared) s fun ty s' =>
      (declared = some ty ∧ s' = s) ∨ (¬ G.tidy ∧ s'.types.Clear G.hidden ty) := by
  cases declared with
  | some ty => exact h.pure (.inl ⟨rfl, rfl⟩)
  | none =>
    have htidy : ¬ G.tidy := fun ht => Bool.false_ne_true (hsome ht)
    exact (h.newTypeFor hid name fun ht => absurd ht htidy).mono fun _ _ _ hclear => .inr ⟨htidy, hclear⟩

/-- The type that a scope itself has for a name, under the same condition. -/
theorem declaredType {id : ScopeId} (hid : id ∈ G.visible) (name : String)
    (hsome : G.tidy → (s.scopes.typeAt id name).isSome) :
    G.Allows r (declaredType id name) s fun ty s' =>
      (s.scopes.typeAt id name = some ty ∧ s' = s) ∨ (¬ G.tidy ∧ s'.types.Clear G.hidden ty) :=
  .bind_of_ok (getLocal_eq_ok (h.lt_of_visible hid) name) (h.typeOf hid name hsome)

end Admits

end Guard

end TypeInference
