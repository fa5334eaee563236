import TypeInference.Inference.Statement
import TypeInference.Proofs.Inference.Operation
import TypeInference.Proofs.Scoping.Placement
import TypeInference.Proofs.Typing.Rules

/-!
# `Proofs.Inference.Naming` — names get types, one after another

Parameters of lambdas and variables of a list of statements are given their types by the same loop: the
written type, or a new variable, is recorded for each name in turn (`nameAll`). The names are different and
have no types yet, so no name is given a type twice.

## Contents
* `nameAll`, with `typeParams_eq` and `predeclareVars_eq` — the loop, and where inference has it;
* `typesOf` — the types that the names of one kind have;
* `Nameable`, `Named` — what the loop asks for, and what it leaves;
* `nameAll_allows`, `typeParams_allows`, `setParamTypes_allows` — the loops keep to the guard.
-/

namespace TypeInference

open Store Scopes InferM Guard

variable {G : Guard} {r : Bool} {s s' : Inference} {own : ScopeId}

/-! ## The loop -/

/-- Gives each name its written type, or a new variable, one name after another. -/
def nameAll (scope : ScopeId) : List (String × Option Signature) → InferM (List TypeId)
  | [] => pure []
  | (name, signature) :: rest => do
    let ty ← denoteOrNew scope signature
    setType scope name ty
    let rest ← nameAll scope rest
    pure (ty :: rest)

/-- The parameters of a lambda are named by this loop. -/
theorem typeParams_eq (own : ScopeId) (params : List Param) :
    typeParams own params = nameAll own (params.map fun p => (p.name.name, p.signature)) := by
  induction params with
  | nil => rfl
  | cons p rest ih => rw [typeParams, ih]; rfl

theorem predeclareVars_eq (scope : ScopeId) (defs : List VarDef) :
    predeclareVars scope defs = nameAll scope (defs.map fun d => (d.name.name, d.signature)) := by
  induction defs with
  | nil => rfl
  | cons d rest ih => rw [predeclareVars, ih]; rfl

/-- The types that the names of one kind have, in the order of the table. -/
def typesOf (kind : SymbolKind) (table : Table) : List TypeId :=
  table.filterMap fun entry => if entry.2.kind = kind then entry.2.ty else none

theorem typesOf_append (kind : SymbolKind) (table more : Table) :
    typesOf kind (table ++ more) = typesOf kind table ++ typesOf kind more :=
  List.filterMap_append

/-! ## What the loops ask for and leave -/

/-- The names are different names of the scope, and have no types yet. Under a guard that is not tidy they may have
    types, left over from a program that was refused. -/
structure Nameable (G : Guard) (own : ScopeId) (names : List String) (s : Inference) : Prop where
  visible : own ∈ G.visible
  nodup : names.Nodup
  there : ∀ name ∈ names, (G.base.symbolAt own name).isSome
  untyped : G.tidy → ∀ name ∈ names, s.scopes.typeAt own name = none

/-- The names have got clear types in the scope, and nothing else has changed there. -/
structure Named (G : Guard) (own : ScopeId) (names : List String) (tys : List TypeId)
    (s s' : Inference) : Prop where
  clear : ∀ ty ∈ tys, s'.types.Clear G.hidden ty
  fresh : ∀ m, own.index < m → s.Fresh m → s'.Fresh m
  others : ∀ key, key ∉ names → s'.scopes.typeAt own key = s.scopes.typeAt own key
  named : G.tidy → List.Forall₂ (fun name ty => s'.scopes.typeAt own name = some ty) names tys

theorem Nameable.rest {names names' : List String} (h : Nameable G own names s) (hsub : names'.Sublist names)
    (hothers : ∀ name ∈ names', s'.scopes.typeAt own name = s.scopes.typeAt own name) :
    Nameable G own names' s' where
  visible := h.visible
  nodup := h.nodup.sublist hsub
  there := fun name hname => h.there name (hsub.subset hname)
  untyped := fun ht name hname => (hothers name hname).trans (h.untyped ht name (hsub.subset hname))

/-- Every name has got one of the types. -/
theorem Named.exists_type {names : List String} {tys : List TypeId} (h : Named G own names tys s s')
    (ht : G.tidy) {name : String} (hname : name ∈ names) :
    ∃ ty ∈ tys, s'.scopes.typeAt own name = some ty := by
  obtain ⟨i, hi, rfl⟩ := List.getElem_of_mem hname
  have hnamed := List.forall₂_iff_get.mp (h.named ht)
  exact ⟨tys.get ⟨i, hnamed.1 ▸ hi⟩, List.getElem_mem _, hnamed.2 i hi (hnamed.1 ▸ hi)⟩

/-- Parameters that have got types of the written trees are typed from then on. -/
theorem Named.paramTyped {params : List Param} {tys : List TypeId}
    (h : Named G own (namesOf (Param.symbols params)) tys s s') (ht : G.tidy) {hidden : Set TypeId}
    {types : Store} {scopes : Scopes} (hl : Later hidden s' types scopes)
    (hwritten : List.Forall₂ (fun p tree => ∀ sig, p.signature = some sig → tree = sig.tree) params
      (tys.map types.tree)) :
    List.Forall₂ (ParamTyped types.tree scopes own) params (tys.map types.tree) := by
  have hnames : namesOf (Param.symbols params) = params.map fun p => p.name.name := by
    simp [namesOf, Param.symbols]
  have hnamed := List.forall₂_iff_get.mp (List.forall₂_map_left_iff.mp (hnames ▸ h.named ht))
  have hsigs := List.forall₂_iff_get.mp (List.forall₂_map_right_iff.mp hwritten)
  refine List.forall₂_map_right_iff.mpr (List.forall₂_iff_get.mpr ⟨hnamed.1, fun i hi hi' => ?_⟩)
  exact ⟨_, hl.kept (hnamed.2 i hi hi'), rfl, hsigs.2 i hi hi'⟩

/-! ### One name -/

/-- A name that is there has the type it is given, and other names keep theirs. -/
theorem typeAt_of_setType {name : String} {ty : TypeId}
    (h : ∀ other key, s'.scopes.symbolAt other key =
      if other = own ∧ name = key then (s.scopes.symbolAt own key).map ({ · with ty := some ty })
      else s.scopes.symbolAt other key) :
    ((s.scopes.symbolAt own name).isSome → s'.scopes.typeAt own name = some ty) ∧
      ∀ key, key ≠ name → s'.scopes.typeAt own key = s.scopes.typeAt own key := by
  refine ⟨fun hsome => ?_, fun key hne => ?_⟩
  · obtain ⟨symbol, hsymbol⟩ := Option.isSome_iff_exists.mp hsome
    rw [typeAt, h, if_pos ⟨rfl, rfl⟩, hsymbol]
    rfl
  · rw [typeAt, h, if_neg fun he => hne he.2.symm, typeAt]

theorem setType_named (h : G.Admits s) {name : String} (hname : Nameable G own [name] s) {ty : TypeId}
    (hty : s.types.Clear G.hidden ty) :
    G.Allows r (setType own name ty) s fun _ s' => s'.types = s.types ∧ Named G own [name] [ty] s s' := by
  have hnone := fun ht => hname.untyped ht name List.mem_cons_self
  apply (h.setType hname.visible name hty hnone).mono
  intro _ s' hs hafter
  obtain ⟨htypes, _, hfresh, hsymbol⟩ := hafter
  obtain ⟨hset, hother⟩ := typeAt_of_setType hsymbol
  refine ⟨htypes, by simpa [htypes] using hty, hfresh, fun key hkey => hother key
    (by simpa using hkey), fun _ => ?_⟩
  obtain ⟨symbol, hsymbol⟩ := Option.isSome_iff_exists.mp (hname.there name List.mem_cons_self)
  obtain ⟨symbol', hsymbol', -⟩ := h.shape.symbol hsymbol
  exact .cons (hset (by rw [hsymbol']; rfl)) .nil

/-- The first of the names gets its type. The names that are left are other ones, so they still have no types. -/
theorem Nameable.first {name : String} {names : List String} (h : Nameable G own (name :: names) s)
    (hscopes : s'.scopes = s.scopes) :
    Nameable G own [name] s' ∧
      ∀ {s'' : Inference} {ty : TypeId}, Named G own [name] [ty] s' s'' → Nameable G own names s'' := by
  have h' : Nameable G own (name :: names) s' := h.rest (.refl _) fun _ _ => by rw [hscopes]
  refine ⟨h'.rest (by simp) fun _ _ => rfl, fun hnamed => ?_⟩
  refine h'.rest (List.sublist_cons_self _ _) fun key hkey => hnamed.others key fun hmem => ?_
  rw [List.mem_singleton.mp hmem] at hkey
  exact (List.nodup_cons.mp h.nodup).1 hkey

/-- **One name, then others**, which are different names and go on without types until it is their turn. -/
theorem Named.cons {s₁ s₂ : Inference} {name : String} {names : List String} {ty : TypeId} {tys : List TypeId}
    (hnot : name ∉ names) (h : Named G own [name] [ty] s s₁) (hs : G.Step r s₁ s₂) (hwf : s₁.types.WellFormed)
    (hrest : Named G own names tys s₁ s₂) : Named G own (name :: names) (ty :: tys) s s₂ where
  clear := List.forall_mem_cons.mpr ⟨hs.types.clear hwf (h.clear ty List.mem_cons_self), hrest.clear⟩
  fresh := fun m hm hfresh => hrest.fresh m hm (h.fresh m hm hfresh)
  others := fun key hkey => by
    rw [List.mem_cons, not_or] at hkey
    exact (hrest.others key hkey.2).trans (h.others key (by simpa using hkey.1))
  named := fun ht => .cons ((hrest.others name hnot).trans (List.forall₂_cons.mp (h.named ht)).1)
    (hrest.named ht)

/-! ## The loops -/

/-- **The loop gives every name a type**, which is the written one from now on. By induction on the list; the first
    name has its type while the others get theirs, as they are different names. -/
theorem nameAll_allows : ∀ (written : List (String × Option Signature)) {s : Inference}, G.Admits s →
    Nameable G own (written.map Prod.fst) s →
    G.Allows r (nameAll own written) s fun tys s' => Named G own (written.map Prod.fst) tys s s' ∧
      (G.tidy → Eventually ∅ s' fun types scopes =>
        List.Forall₂ (fun (entry : String × Option Signature) ty =>
          DeclaredAs types.tree scopes own entry.1 entry.2 (types.tree ty)) written tys) := by
  intro written
  induction written with
  | nil =>
    intro s h _
    exact h.pure ⟨⟨by simp, fun _ _ => id, fun _ _ => rfl, fun _ => .nil⟩, fun _ _ _ _ => .nil⟩
  | cons entry rest ih =>
    intro s h hname
    obtain ⟨name, signature⟩ := entry
    obtain ⟨hnot, -⟩ := List.nodup_cons.mp hname.nodup
    apply Allows.bind (denoteOrNew_allows h hname.visible signature)
    intro ty s₁ h₁ hafter
    obtain ⟨hclear₁, hscopes₁, htree₁⟩ := hafter
    have h' := h.step h₁
    obtain ⟨hone, hrest⟩ := hname.first hscopes₁
    apply Allows.bind (setType_named h' hone hclear₁)
    intro _ s₂ h₂ hafter
    obtain ⟨htypes₂, hnamed₂⟩ := hafter
    apply Allows.bind (ih (h'.step h₂) (hrest hnamed₂))
    intro tys s₃ h₃ hafter
    obtain ⟨hnamed₃, hwritten₃⟩ := hafter
    have hall := hnamed₂.cons hnot h₃ h₂.types.wf hnamed₃
    have hnamed : Named G own (name :: rest.map Prod.fst) (ty :: tys) s s₃ :=
      ⟨hall.clear, fun m hm hfresh => hall.fresh m hm (fresh_of_eq hscopes₁ hfresh),
        fun key hkey => (hall.others key hkey).trans (by rw [hscopes₁]), hall.named⟩
    refine ((h'.step h₂).step h₃).pure ⟨hnamed, fun ht types scopes hl => ?_⟩
    -- Both the type of the first name and its tree are kept by what comes after.
    have hty := hl.kept (List.forall₂_cons.mp (hall.named ht)).1
    have htree := (htree₁.always h₂.types).always h₃.types types hl.types
    exact .cons ⟨ty, hty, rfl, htree⟩ (hwritten₃ ht types scopes hl)

/-- **The parameters of a lambda** get types, and have the trees that are written for them. -/
theorem typeParams_allows (h : G.Admits s) (params : List Param)
    (hname : Nameable G own (namesOf (Param.symbols params)) s) :
    G.Allows r (typeParams own params) s fun tys s' => Named G own (namesOf (Param.symbols params)) tys s s' ∧
      (G.tidy → Eventually ∅ s' fun types scopes =>
        List.Forall₂ (ParamTyped types.tree scopes own) params (tys.map types.tree)) := by
  have hnames : namesOf (Param.symbols params) =
      (params.map fun p => (p.name.name, p.signature)).map Prod.fst := by
    simp [namesOf, Param.symbols]
  rw [hnames] at hname ⊢
  rw [typeParams_eq]
  refine (nameAll_allows _ h hname).mono fun tys s' _ ⟨hnamed, hwritten⟩ =>
    ⟨hnamed, fun ht types scopes hl => ?_⟩
  exact List.forall₂_map_right_iff.mpr (List.forall₂_map_left_iff.mp (hwritten ht types scopes hl))

/-- The parameters of a function get the types that are given for them. -/
theorem setParamTypes_allows : ∀ (params : List Param) (tys : List TypeId) {s : Inference}, G.Admits s →
    params.length = tys.length → (∀ ty ∈ tys, s.types.Clear G.hidden ty) →
    Nameable G own (namesOf (Param.symbols params)) s →
    G.Allows r (setParamTypes own params tys) s fun _ s' => s'.types = s.types ∧
      Named G own (namesOf (Param.symbols params)) tys s s'
  | [], [], s, h, _, _, _ => h.pure ⟨rfl, by simp, fun _ _ => id, fun _ _ => rfl, fun _ => .nil⟩
  | p :: params, ty :: tys, s, h, hlength, hclear, hname => by
    obtain ⟨hty, htys⟩ := List.forall_mem_cons.mp hclear
    obtain ⟨hnot, -⟩ := List.nodup_cons.mp hname.nodup
    obtain ⟨hone, hrest⟩ := hname.first rfl
    rw [setParamTypes]
    apply Allows.bind (setType_named h hone hty)
    intro _ s₁ h₁ hafter
    obtain ⟨htypes₁, hnamed₁⟩ := hafter
    apply (setParamTypes_allows params tys (h.step h₁) (Nat.succ.inj hlength)
      (fun a ha => h₁.types.clear h.wf (htys a ha)) (hrest hnamed₁)).mono
    intro _ s₂ h₂ hafter
    obtain ⟨htypes₂, hnamed₂⟩ := hafter
    exact ⟨htypes₂.trans htypes₁, hnamed₁.cons hnot h₂ h₁.types.wf hnamed₂⟩

/-- The names of a scope that has just been opened have no types yet. -/
theorem Guard.Stands.nameable {pinned : List TypeId} {scope : ScopeId} {n : Nat}
    {symbols : List (Ident × Symbol)} (h : G.Stands pinned scope n s)
    (hopened : G.base.Opened ⟨n⟩ scope symbols) :
    Nameable G ⟨n⟩ (namesOf symbols) s where
  visible := (h.ahead ⟨n⟩ (Nat.le_refl _) (lt_of_scopeAt hopened.scope)).1
  nodup := hopened.nodup
  there := fun name hname => by
    obtain ⟨entry, hentry, rfl⟩ := List.mem_map.mp hname
    rw [hopened.symbolAt_of_mem hentry]; rfl
  untyped := fun ht name _ => (h.fresh ht).typeAt (Nat.le_refl _) name

end TypeInference
