import TypeInference.Inference.Expression
import TypeInference.Proofs.Inference.Naming
import TypeInference.Proofs.Scoping.Placement

/-!
# `Proofs.Inference.Expression` — inference of expressions keeps to the guard and is sound

One induction over expressions shows two things at once. Under any guard, the run is a step of the guard, its
result is clear, and it stops only with a refusal. Under a tidy guard the expression is moreover well typed
**from now on**: the typing rules hold in every store and arena that inference can still lead to, so nothing
has to be proved again when a type that was found early is bound late.

Each kind of expression has a lemma of its own, which takes what is known of the parts.

## Contents
* `Ready.enter` — looking at what stands in a new scope;
* `inferName_allows`, `assignable_allows` — names;
* `Expr.Allowed` — what is shown of an expression, with `Expr.Allowed.call` and so on for each kind;
* `Expr.infer_allows` — the induction.
-/

namespace TypeInference

open Store Scopes InferM Guard

variable {G : Guard} {r : Bool} {s s' : Inference} {pinned : List TypeId} {scope : ScopeId} {n n' : Nat}

namespace Guard

/-! ## Entering a scope -/

/-- What is concluded is not lost by a run that changes no scope. -/
theorem Concludes.step {J : Store → Scopes → Prop} (h : G.Concludes n s J) (hs : G.Step r s s')
    (hscopes : s'.scopes = s.scopes) : G.Concludes n s' J :=
  fun ht => ⟨fresh_of_eq hscopes (h ht).1, (h ht).2.step ht hs⟩

/-- The next tree may be looked at after a conclusion. -/
theorem Ready.next {J : Store → Scopes → Prop} (h : G.Ready pinned scope n s) (hs : G.Step r s s')
    (hle : n ≤ n') (hJ : G.Concludes n' s' J) : G.Ready pinned scope n' s' :=
  h.step hs hle fun ht => (hJ ht).1

theorem Ready.same (h : G.Ready pinned scope n s) (hs : G.Step r s s') (hscopes : s'.scopes = s.scopes) :
    G.Ready pinned scope n s' :=
  h.step hs (Nat.le_refl _) fun ht => fresh_of_eq hscopes (h.fresh ht)

/-- A new scope stands ready once it has been opened: it is visible, and its names are used as they are. -/
theorem Stands.enter {symbols : List (Ident × Symbol)} {tys : List TypeId} (h : G.Stands pinned scope n s)
    (hopened : G.base.Opened ⟨n⟩ scope symbols) (hs : G.Step r s s')
    (htys : ∀ ty ∈ tys, s'.types.Clear G.hidden ty) (hfresh : G.tidy → s'.Fresh (n + 1)) :
    G.Stands (pinned ++ tys) ⟨n⟩ (n + 1) s' := by
  have hstep := h.step hs (Nat.le_succ n) hfresh
  obtain ⟨hvisible, hdirect⟩ := h.ahead ⟨n⟩ (Nat.le_refl _) (lt_of_scopeAt hopened.scope)
  refine ⟨hstep.admits, fun p hp => ?_, fun hsees => ?_, fun hsees hsymbol hkind => ?_, hstep.ahead, hfresh⟩
  · exact (List.mem_append.mp hp).elim (hstep.pinsClear p) (htys p)
  · rcases hsees.of_parent hopened.parentOf with rfl | hsees
    · exact hvisible
    · exact h.inside hsees
  · rcases hsees.of_parent hopened.parentOf with rfl | hsees
    · exact hdirect _
    · exact h.vars hsees hsymbol hkind

/-- **A new scope may be entered** when all values it declares have types that are pinned from there on. -/
theorem Ready.enter {symbols : List (Ident × Symbol)} {tys : List TypeId} (h : G.Ready pinned scope n s)
    (hopened : G.base.Opened ⟨n⟩ scope symbols) (hs : G.Step r s s')
    (htys : ∀ ty ∈ tys, s'.types.Clear G.hidden ty) (hfresh : G.tidy → s'.Fresh (n + 1))
    (htyped : G.tidy → ∀ entry ∈ symbols, entry.2.kind.isValue = true →
      ∃ ty ∈ tys, s'.scopes.typeAt ⟨n⟩ entry.1.name = some ty) :
    G.Ready (pinned ++ tys) ⟨n⟩ (n + 1) s' := by
  have hstep := h.step hs (Nat.le_succ n) hfresh
  refine ⟨h.toStands.enter hopened hs htys hfresh, fun ht {owner name symbol} hsees hsymbol hvalue => ?_⟩
  · rcases hsees.of_parent hopened.parentOf with rfl | hsees
    · obtain ⟨old, hold, hkind⟩ := hstep.admits.shape.symm.symbol hsymbol
      obtain ⟨entry, hentry, rfl, rfl⟩ := hopened.exists_of_symbolAt hold
      obtain ⟨ty, hmem, hty⟩ := htyped ht entry hentry (hkind ▸ hvalue)
      rw [typeAt, hsymbol, Option.bind_some] at hty
      exact ⟨ty, hty, covered_of_mem (htys ty hmem).lt (List.mem_append_right _ hmem)⟩
    · obtain ⟨ty, hty, hcovered⟩ := hstep.typed ht hsees hsymbol hvalue
      exact ⟨ty, hty, hcovered.mono (List.subset_append_left _ _)⟩

/-- A variable that is seen is used as it is, so its type is clear. -/
theorem Stands.clear_of_var (h : G.Stands pinned scope n s) {owner : ScopeId} {name : String} {symbol : Symbol}
    {ty : TypeId} (hsees : G.base.Sees scope owner) (hsymbol : s.scopes.symbolAt owner name = some symbol)
    (hkind : symbol.kind = .var) (hty : symbol.ty = some ty) : s.types.Clear G.hidden ty := by
  obtain ⟨first, hfirst, hfirstKind⟩ := h.admits.shape.symm.symbol hsymbol
  have hdirect := h.vars hsees hfirst (hfirstKind.trans hkind)
  exact h.admits.direct hdirect (typeAt_of_symbolAt hsymbol hty)

/-- A variable in sight of a later state has no hidden variable in its type, so instances leave the variables in
    sight alone, as the typing rules ask. -/
theorem Ready.not_hidden_of_inSight (h : G.Ready pinned scope n s) (ht : G.tidy) {types : Store}
    {scopes : Scopes} (hl : Later G.hidden s types scopes) {v : TypeId}
    (hv : InSight types.tree scopes scope v) : v ∉ G.hidden := by
  obtain ⟨owner, name, symbol, ty, hsees, hsymbol, hkind, hty, hvar⟩ := hv
  have hshape := h.admits.shape.trans hl.shape
  have hbase := hshape.symm.sees hsees
  obtain ⟨old, hold, holdKind⟩ := hl.shape.symm.symbol hsymbol
  -- The name had a type already, and still has it.
  obtain ⟨ty', hty', -⟩ := h.typed ht hbase hold (by rw [holdKind, hkind]; rfl)
  have hkept := hl.kept (typeAt_of_symbolAt hold hty')
  obtain rfl : ty = ty' := by
    rw [typeAt, hsymbol, Option.bind_some, hty] at hkept
    exact Option.some.inj hkept
  have hclear := hl.types.clear h.admits.wf (h.clear_of_var hbase hold (holdKind.trans hkind) hty')
  exact hclear.2 v ((hl.types.wf.grounded.hasVar_tree_iff hclear.lt).mp hvar).1

end Guard

/-! ## Names -/

/-- What a name means in a state, it means later, with the type that it has. -/
theorem Later.lookup {hidden : Set TypeId} {types : Store} {scopes : Scopes}
    (hl : Later hidden s types scopes) {owner : ScopeId} {symbol : Symbol} {name : String} {ty : TypeId}
    (hlookup : s.scopes.lookup scope name = .ok (some (owner, symbol)))
    (hsymbol : s.scopes.symbolAt owner name = some symbol) (hty : symbol.ty = some ty) :
    ∃ symbol', scopes.lookup scope name = .ok (some (owner, symbol')) ∧ symbol'.kind = symbol.kind ∧
      symbol'.ty = some ty := by
  obtain ⟨symbol', hlookup', hsymbol'⟩ := lookup_of_sameShape hl.shape hlookup
  have hkind := hl.shape.kind owner name
  have hkept := hl.kept (typeAt_of_symbolAt hsymbol hty)
  rw [hsymbol, hsymbol', Option.map_some, Option.map_some] at hkind
  rw [typeAt, hsymbol', Option.bind_some] at hkept
  exact ⟨symbol', hlookup', Option.some.inj hkind, hkept⟩

/-- A name that is neither a label nor a type is a value. -/
theorem isValue_of_not {kind : SymbolKind} (h : ¬ (kind = .label ∨ kind.isType = true)) : kind.isValue = true := by
  rw [not_or] at h
  simp [SymbolKind.isValue, h.1, Bool.eq_false_iff.mpr h.2]

/-- **A name that is used as a value** has an instance of its type, and a variable has its type itself: all of its
    variables are pinned, and a copy shares them. -/
theorem inferName_allows (h : G.Ready pinned scope n s) {mark : Mark} (hmark : mark.scope = some scope)
    (name : Ident) :
    G.Allows r (inferName scope name pinned) s fun ty s' => s'.types.Clear G.hidden ty ∧
      G.Concludes n s' fun types scopes => ExprTyped types.tree scopes (.name mark name) (types.tree ty) := by
  apply Allows.bind (h.admits.resolve h.visible name)
  intro found s₁ h₁ hafter
  obtain ⟨hs₁, hlookup, hsees, hsymbol⟩ := hafter
  subst hs₁
  obtain ⟨owner, symbol⟩ := found
  by_cases hkind : symbol.kind = .label ∨ symbol.kind.isType = true
  · simp only [hkind, ↓reduceIte]
    exact h.admits.refuse (by simp) _
  · simp only [hkind, ↓reduceIte]
    have hvalue := isValue_of_not hkind
    have hsome : G.tidy → symbol.ty.isSome := fun ht => by
      obtain ⟨ty, hty, -⟩ := h.typed ht hsees hsymbol hvalue
      rw [hty]; rfl
    apply Allows.bind (h.admits.typeOf (h.inside hsees) name.name hsome)
    intro ty s₂ h₂ hcase
    have hready₂ := h.admits.step h₂
    rcases hcase with ⟨hty, rfl⟩ | ⟨htidy, hclear⟩
    · have hrange := h.admits.lt_of_typeAt (typeAt_of_symbolAt hsymbol hty)
      apply (h.admits.instantiate h.pinsClear hrange).mono
      intro copy s₃ h₃ hafter
      obtain ⟨hclear, hscopes, hinstance⟩ := hafter
      refine ⟨hclear, fun ht => ⟨fresh_of_eq hscopes (h.fresh ht), fun types scopes hl => ?_⟩⟩
      have hl' := hl.of_step ht subset_rfl h₃
      obtain ⟨symbol', hlookup', hkind', hty'⟩ := hl'.lookup hlookup hsymbol hty
      have hcovered : s₂.types.Covered G.hidden pinned ty := by
        obtain ⟨ty', he, hcovered⟩ := h.typed ht hsees hsymbol hvalue
        exact Option.some.inj (hty.symm.trans he) ▸ hcovered
      obtain ⟨σ, hσ, htree⟩ := hinstance hcovered types hl.types
      -- The copy replaces none of the variables in sight, as the typing rules ask of an instance.
      have hinsight : ∀ v, InSight types.tree scopes scope v → σ v = .var v := fun v hv =>
        hσ v (h.not_hidden_of_inSight ht hl' hv)
      show ExprTyped types.tree scopes (.name mark name) (types.tree copy)
      rw [htree]
      by_cases hvar : symbol'.kind = .var
      · -- All variables of a variable's type are in sight.
        have hsymbol' : scopes.symbolAt owner name.name = some symbol' := by
          obtain ⟨found, hfound, hfoundAt⟩ := lookup_of_sameShape hl'.shape hlookup
          cases hfound.symm.trans hlookup'
          exact hfoundAt
        rw [Tree.subst_eq_self fun v hv => hinsight v ⟨owner, name.name, symbol', ty,
          (h.admits.shape.trans hl'.shape).sees hsees, hsymbol', hvar, hty', hv⟩]
        exact .name hmark hlookup' hvar hty'
      · exact .generic hmark hlookup' hvar (hkind' ▸ hvalue) hty' hinsight
    · -- The name was left without a type by a program that was refused.
      apply (hready₂.instantiate (fun p hp => h₂.types.clear h.admits.wf (h.pinsClear p hp)) hclear.lt).mono
      intro copy s₃ h₃ hafter
      obtain ⟨hclear, -⟩ := hafter
      exact ⟨hclear, fun ht => absurd ht htidy⟩

theorem assignable_allows (h : G.Ready pinned scope n s) (target : Ident) :
    G.Allows r (assignable scope target) s fun found s' => s' = s ∧ G.base.Sees scope found.1 ∧
      ∃ symbol, s.scopes.lookup scope target.name = .ok (some (found.1, symbol)) ∧
        s.scopes.symbolAt found.1 target.name = some symbol ∧ symbol.kind = .var ∧ symbol.ty = found.2 := by
  apply Allows.bind (h.admits.resolve h.visible target)
  intro found s₁ h₁ hafter
  obtain ⟨hs₁, hlookup, hsees, hsymbol⟩ := hafter
  subst hs₁
  by_cases hkind : found.2.kind = .var
  · by_cases himmutable : (!found.2.mutable && found.2.initialized) = true
    · simp only [hkind, ne_eq, not_true_eq_false, himmutable, ↓reduceIte]
      exact h.admits.refuse (by simp) _
    · simp only [hkind, ne_eq, not_true_eq_false, himmutable, ↓reduceIte]
      exact h.admits.pure ⟨rfl, hsees, found.2, hlookup, hsymbol, hkind, rfl⟩
  · simp only [ne_eq, hkind, not_false_eq_true, ↓reduceIte]
    exact h.admits.refuse (by simp) _

/-! ## Expressions -/

/-- An access is well typed if its parts are and the trees allow it. -/
theorem Indexable.typed {types : Store} {scopes : Scopes} {mark : Mark} {left index : Expr} {l i t : Tree}
    (h : Indexable l i t) (hl : ExprTyped types.tree scopes left l) (hi : ExprTyped types.tree scopes index i) :
    ExprTyped types.tree scopes (.access mark left index) t := by
  cases h with
  | string => exact .accessString hl hi
  | list => exact .accessList hl hi
  | map => exact .accessMap hl hi

theorem literal_allows (h : G.Ready pinned scope n s) {e : Expr} {id : TypeId} {con : Constructor}
    (hcon : initial.get id = .ok (.op con []))
    (he : ∀ (types : Store) (scopes : Scopes), ExprTyped types.tree scopes e (.app con [])) :
    G.Allows r (pure id) s fun ty s' => s'.types.Clear G.hidden ty ∧
      G.Concludes n s' fun types scopes => ExprTyped types.tree scopes e (types.tree ty) := by
  refine h.admits.pure ⟨h.admits.clear_primitive hcon, fun ht => ⟨h.fresh ht, fun types scopes hl => ?_⟩⟩
  show ExprTyped types.tree scopes e (types.tree id)
  rw [tree_primitive hl.types.wf hcon]
  exact he types scopes

/-- What is concluded of the parts makes the expression well typed, when the tree of its type is known. -/
theorem Guard.Concludes.typed {J : Store → Scopes → Prop} {e : Expr} {ty : TypeId} {t : Store → Tree}
    (h : G.Concludes n s J) (htree : Henceforth G.hidden s.types fun f => f.tree ty = t f)
    (hJ : ∀ types scopes, J types scopes → ExprTyped types.tree scopes e (t types)) :
    G.Concludes n s fun types scopes => ExprTyped types.tree scopes e (types.tree ty) := by
  refine fun ht => ⟨(h ht).1, fun types scopes hl => ?_⟩
  show ExprTyped types.tree scopes e (types.tree ty)
  rw [htree types hl.types]
  exact hJ types scopes ((h ht).2 types scopes hl)

/-- What the induction shows of an expression: its inference keeps to the guard, and from now on the expression is
    well typed. Pinned types, scope and state are quantified here, since they change on the way into a lambda. -/
def Expr.Allowed (G : Guard) (r : Bool) (e : Expr) : Prop :=
  ∀ ⦃pinned : List TypeId⦄ ⦃scope : ScopeId⦄ ⦃n n' : Nat⦄ ⦃s : Inference⦄,
    e.Placed G.base scope n n' → G.Ready pinned scope n s →
    G.Allows r (e.infer pinned) s fun ty s' => s'.types.Clear G.hidden ty ∧
      G.Concludes n' s' fun types scopes => ExprTyped types.tree scopes e (types.tree ty)

/-- Expressions side by side: each has the type that was found for it. -/
def AllowedExprs (G : Guard) (r : Bool) (items : List Expr) : Prop :=
  ∀ ⦃pinned : List TypeId⦄ ⦃scope : ScopeId⦄ ⦃n n' : Nat⦄ ⦃s : Inference⦄,
    PlacedExprs G.base scope items n n' → G.Ready pinned scope n s →
    G.Allows r (inferExprs pinned items) s fun tys s' => (∀ ty ∈ tys, s'.types.Clear G.hidden ty) ∧
      G.Concludes n' s' fun types scopes => List.Forall₂ (ExprTyped types.tree scopes) items
        (tys.map types.tree)

/-- The items of a list: their inference keeps to the guard, and all have the type that was asked for. -/
def AllowedElements (G : Guard) (r : Bool) (items : List Expr) : Prop :=
  ∀ ⦃pinned : List TypeId⦄ ⦃element : TypeId⦄ ⦃scope : ScopeId⦄ ⦃n n' : Nat⦄ ⦃s : Inference⦄,
    PlacedExprs G.base scope items n n' → G.Ready pinned scope n s → s.types.Clear G.hidden element →
    G.Allows r (inferElements pinned element items) s fun _ s' =>
      G.Concludes n' s' fun types scopes => ∀ e ∈ items, ExprTyped types.tree scopes e (types.tree element)

/-- The entries of a map: all keys have one type, and all values have one. -/
def AllowedEntries (G : Guard) (r : Bool) (entries : List (Expr × Expr)) : Prop :=
  ∀ ⦃pinned : List TypeId⦄ ⦃keyType valueType : TypeId⦄ ⦃scope : ScopeId⦄ ⦃n n' : Nat⦄ ⦃s : Inference⦄,
    PlacedEntries G.base scope entries n n' → G.Ready pinned scope n s → s.types.Clear G.hidden keyType →
    s.types.Clear G.hidden valueType →
    G.Allows r (inferEntries pinned keyType valueType entries) s fun _ s' =>
      G.Concludes n' s' fun types scopes =>
        (∀ entry ∈ entries, ExprTyped types.tree scopes entry.1 (types.tree keyType)) ∧
        ∀ entry ∈ entries, ExprTyped types.tree scopes entry.2 (types.tree valueType)

/-! ### One lemma for each kind of expression -/

theorem Expr.Allowed.number {mark : Mark} : (Expr.number mark).Allowed G r := by
  rintro pinned scope n n' s ⟨hmark, hn⟩ h
  subst hn
  rw [Expr.infer]
  exact .bind_of_ok (requireScope_eq_ok hmark) (literal_allows h rfl fun _ _ => .number)

theorem Expr.Allowed.string {mark : Mark} {value : String} : (Expr.string mark value).Allowed G r := by
  rintro pinned scope n n' s ⟨hmark, hn⟩ h
  subst hn
  rw [Expr.infer]
  exact .bind_of_ok (requireScope_eq_ok hmark) (literal_allows h rfl fun _ _ => .string)

theorem Expr.Allowed.bool {mark : Mark} {value : Bool} : (Expr.bool mark value).Allowed G r := by
  rintro pinned scope n n' s ⟨hmark, hn⟩ h
  subst hn
  rw [Expr.infer]
  exact .bind_of_ok (requireScope_eq_ok hmark) (literal_allows h rfl fun _ _ => .bool)

theorem Expr.Allowed.name {mark : Mark} {id : Ident} : (Expr.name mark id).Allowed G r := by
  rintro pinned scope n n' s ⟨hmark, hn⟩ h
  subst hn
  rw [Expr.infer]
  exact .bind_of_ok (requireScope_eq_ok hmark) (inferName_allows h hmark id)

/-- The items of a list have the new variable's type. -/
theorem Expr.Allowed.list {mark : Mark} {items : List Expr} (ihitems : AllowedElements G r items) :
    (Expr.list mark items).Allowed G r := by
  rintro pinned scope n n' s ⟨hmark, hitems⟩ h
  rw [Expr.infer]
  refine .bind_of_ok (requireScope_eq_ok hmark) ?_
  apply Allows.bind h.admits.newVar
  intro element s₁ h₁ hafter
  obtain ⟨hclear₁, hscopes₁⟩ := hafter
  apply Allows.bind (ihitems hitems (h.same h₁ hscopes₁) hclear₁)
  intro _ s₂ h₂ hend₂
  have h' := (h.admits.step h₁).step h₂
  have hclear₂ := h₂.types.clear h₁.types.wf hclear₁
  apply (h'.operator rfl (by exact rfl) (by simpa)).mono
  intro ty s₃ h₃ hafter
  obtain ⟨hclear₃, hscopes₃, _, htree₃⟩ := hafter
  exact ⟨hclear₃, (hend₂.step h₃ hscopes₃).typed htree₃ fun _ _ => .list⟩

/-- The keys and the values of a map have the types of two new variables. -/
theorem Expr.Allowed.map {mark : Mark} {entries : List (Expr × Expr)} (ihentries : AllowedEntries G r entries) :
    (Expr.map mark entries).Allowed G r := by
  rintro pinned scope n n' s ⟨hmark, hentries⟩ h
  rw [Expr.infer]
  refine .bind_of_ok (requireScope_eq_ok hmark) ?_
  apply Allows.bind h.admits.newVar
  intro key s₁ h₁ hafter
  obtain ⟨hclear₁, hscopes₁⟩ := hafter
  apply Allows.bind (h.admits.step h₁).newVar
  intro value s₂ h₂ hafter
  obtain ⟨hclear₂, hscopes₂⟩ := hafter
  have hkey := h₂.types.clear h₁.types.wf hclear₁
  have hready := (h.same h₁ hscopes₁).same h₂ hscopes₂
  apply Allows.bind (ihentries hentries hready hkey hclear₂)
  intro _ s₃ h₃ hend₃
  have h' := hready.admits.step h₃
  apply (h'.operator rfl (by exact rfl) (by simpa using
    ⟨h₃.types.clear h₂.types.wf hkey, h₃.types.clear h₂.types.wf hclear₂⟩)).mono
  intro ty s₄ h₄ hafter
  obtain ⟨hclear₄, hscopes₄, _, htree₄⟩ := hafter
  exact ⟨hclear₄, (hend₃.step h₄ hscopes₄).typed htree₄ fun _ _ hall => .map hall.1 hall.2⟩

/-- A tuple is a new constructor around the types of its items. -/
theorem Expr.Allowed.tuple {mark : Mark} {items : List Expr} (ihitems : AllowedExprs G r items) :
    (Expr.tuple mark items).Allowed G r := by
  rintro pinned scope n n' s ⟨hmark, hitems⟩ h
  rw [Expr.infer]
  refine .bind_of_ok (requireScope_eq_ok hmark) ?_
  apply Allows.bind (ihitems hitems h)
  intro tys s₁ h₁ hafter
  obtain ⟨hclear₁, hend₁⟩ := hafter
  apply ((h.admits.step h₁).operator rfl (by exact rfl) hclear₁).mono
  intro ty s₂ h₂ hafter
  obtain ⟨hclear₂, hscopes₂, _, htree₂⟩ := hafter
  refine ⟨hclear₂, (hend₁.step h₂ hscopes₂).typed htree₂ fun types scopes htypes => ?_⟩
  rw [← List.length_map types.tree]
  exact .tuple htypes

/-- What an access has found holds from then on, as trees that agree go on agreeing. -/
theorem Expr.Allowed.access {mark : Mark} {left index : Expr} (ihleft : left.Allowed G r)
    (ihindex : index.Allowed G r) : (Expr.access mark left index).Allowed G r := by
  rintro pinned scope n n' s ⟨hmark, m, hleft, hindex⟩ h
  rw [Expr.infer]
  refine .bind_of_ok (requireScope_eq_ok hmark) ?_
  apply Allows.bind (ihleft hleft h)
  intro lty s₁ h₁ hafter
  obtain ⟨hclear₁, hend₁⟩ := hafter
  have hready₁ := h.next h₁ hleft.le hend₁
  apply Allows.bind (ihindex hindex hready₁)
  intro ity s₂ h₂ hafter
  obtain ⟨hclear₂, hend₂⟩ := hafter
  have h' := hready₁.admits.step h₂
  apply (access_allows h' (h₂.types.clear h₁.types.wf hclear₁) hclear₂ mark.span index.span).mono
  intro ty s₃ h₃ hafter
  obtain ⟨hs₃, hclear₃, hindexable⟩ := hafter
  subst hs₃
  refine ⟨hclear₃, fun ht => ⟨(hend₂ ht).1, fun types scopes hl => ?_⟩⟩
  exact (hindexable types hl.types).typed ((hend₁ ht).2.step ht h₂ types scopes hl)
    ((hend₂ ht).2 types scopes hl)

/-- The operand is unified with what the operator asks for. -/
theorem Expr.Allowed.unary {mark : Mark} {op : UnaryOp} {operand : Expr} (ih : operand.Allowed G r) :
    (Expr.unary mark op operand).Allowed G r := by
  rintro pinned scope n n' s ⟨hmark, hoperand⟩ h
  rw [Expr.infer]
  refine .bind_of_ok (requireScope_eq_ok hmark) ?_
  apply Allows.bind (ih hoperand h)
  intro oty s₁ h₁ hafter
  obtain ⟨hclear₁, hend₁⟩ := hafter
  apply (inferUnary_allows (h.admits.step h₁) op hclear₁ mark.span).mono
  intro ty s₂ h₂ hafter
  obtain ⟨hclear₂, hscopes₂, htree₂⟩ := hafter
  refine ⟨hclear₂, ?_⟩
  have hend₂ := hend₁.step h₂ hscopes₂
  refine fun ht => ⟨(hend₂ ht).1, fun types scopes hl => ?_⟩
  obtain ⟨hty, hoty⟩ := htree₂ types hl.types
  show ExprTyped types.tree scopes _ (types.tree ty)
  rw [hty]
  exact .unary (hoty ▸ (hend₂ ht).2 types scopes hl)

theorem Expr.Allowed.binary {mark : Mark} {op : BinaryOp} {left right : Expr} (ihleft : left.Allowed G r)
    (ihright : right.Allowed G r) : (Expr.binary mark op left right).Allowed G r := by
  rintro pinned scope n n' s ⟨hmark, m, hleft, hright⟩ h
  rw [Expr.infer]
  refine .bind_of_ok (requireScope_eq_ok hmark) ?_
  apply Allows.bind (ihleft hleft h)
  intro lty s₁ h₁ hafter
  obtain ⟨hclear₁, hend₁⟩ := hafter
  have hready₁ := h.next h₁ hleft.le hend₁
  apply Allows.bind (ihright hright hready₁)
  intro rty s₂ h₂ hafter
  obtain ⟨hclear₂, hend₂⟩ := hafter
  have h' := hready₁.admits.step h₂
  apply (inferBinary_allows h' op (h₂.types.clear h₁.types.wf hclear₁) hclear₂ mark.span).mono
  intro ty s₃ h₃ hafter
  obtain ⟨hclear₃, hscopes₃, htree₃⟩ := hafter
  refine ⟨hclear₃, ?_⟩
  have hend₃ := hend₂.step h₃ hscopes₃
  refine fun ht => ⟨(hend₃ ht).1, fun types scopes hl => ?_⟩
  obtain ⟨hty, hsame, hoperand⟩ := htree₃ types hl.types
  have hl₁ := ((hend₁ ht).2.step ht h₂).step ht h₃ types scopes hl
  show ExprTyped types.tree scopes _ (types.tree ty)
  rw [hty]
  exact .binary hl₁ (hsame ▸ (hend₃ ht).2 types scopes hl) hoperand

/-! ### Calls, lambdas, choices and assignments -/

/-- The callee of a call is unified with a function from the arguments to a new result. -/
theorem Expr.Allowed.call {mark : Mark} {callee : Expr} {args : List Expr} (ihcallee : callee.Allowed G r)
    (ihargs : AllowedExprs G r args) : (Expr.call mark callee args).Allowed G r := by
  rintro pinned scope n n' s ⟨hmark, m, hcallee, hargs⟩ h
  rw [Expr.infer]
  refine .bind_of_ok (requireScope_eq_ok hmark) ?_
  apply Allows.bind (ihcallee hcallee h)
  intro cty s₁ h₁ hafter
  obtain ⟨hclear₁, hend₁⟩ := hafter
  have hready₁ := h.next h₁ hcallee.le hend₁
  apply Allows.bind (ihargs hargs hready₁)
  intro tys s₂ h₂ hafter
  obtain ⟨hclear₂, hend₂⟩ := hafter
  have hadmits₂ := hready₁.admits.step h₂
  apply Allows.bind hadmits₂.newVar
  intro result s₃ h₃ hafter
  obtain ⟨hclear₃, hscopes₃⟩ := hafter
  have hadmits₃ := hadmits₂.step h₃
  -- The callee is made equal to a function from the arguments to a new result.
  apply Allows.bind (hadmits₃.function (fun a ha => h₃.types.clear h₂.types.wf (hclear₂ a ha)) hclear₃)
  intro expected s₄ h₄ hafter
  obtain ⟨hclear₄, hscopes₄, _, htree₄⟩ := hafter
  have hadmits₄ := hadmits₃.step h₄
  have hcty := h₄.types.clear h₃.types.wf (h₃.types.clear h₂.types.wf (h₂.types.clear h₁.types.wf hclear₁))
  apply Allows.bind (hadmits₄.unify mark.span hcty hclear₄)
  intro _ s₅ h₅ hafter
  obtain ⟨hscopes₅, heq₅⟩ := hafter
  have hresult := h₅.types.clear h₄.types.wf (h₄.types.clear h₃.types.wf hclear₃)
  refine (hadmits₄.step h₅).pure ⟨hresult, ?_⟩
  have hend₅ := ((hend₂.step h₃ hscopes₃).step h₄ hscopes₄).step h₅ hscopes₅
  refine fun ht => ⟨(hend₅ ht).1, fun types scopes hl => ?_⟩
  have hcallee' := ((((hend₁ ht).2.step ht h₂).step ht h₃).step ht h₄).step ht h₅ types scopes hl
  have hfunction : types.tree cty = .function (tys.map types.tree) (types.tree result) :=
    (heq₅ types hl.types).trans (htree₄.step h₅.types types hl.types)
  exact .call (hfunction ▸ hcallee') ((hend₅ ht).2 types scopes hl)

/-- The body of a lambda is looked at in the scope of its parameters. -/
theorem Expr.Allowed.lambda {mark : Mark} {own : Option ScopeId} {params : List Param} {body : Expr}
    (ihbody : body.Allowed G r) : (Expr.lambda mark own params body).Allowed G r := by
  rintro pinned scope n n' s ⟨hmark, hown, hopened, hbody⟩ h
  subst hown
  rw [Expr.infer]
  refine .bind_of_ok (requireScope_eq_ok hmark) (.bind_of_ok (requireScope_eq_ok rfl) ?_)
  apply Allows.bind (typeParams_allows h.admits params (h.nameable hopened))
  intro tys s₁ h₁ hafter
  obtain ⟨hnamed, hparams⟩ := hafter
  have hfresh₁ : G.tidy → s₁.Fresh (n + 1) := fun ht =>
    hnamed.fresh (n + 1) (Nat.lt_succ_self n) ((h.fresh ht).mono (Nat.le_succ n))
  -- Parameters are pinned in the body, so each use of one has its own type.
  have hready := h.enter hopened h₁ hnamed.clear hfresh₁ fun ht entry hentry _ =>
    hnamed.exists_type ht (List.mem_map_of_mem hentry)
  apply Allows.bind (ihbody hbody hready)
  intro result s₂ h₂ hafter
  obtain ⟨hclear₂, hend₂⟩ := hafter
  apply ((hready.admits.step h₂).function (fun a ha => h₂.types.clear h₁.types.wf (hnamed.clear a ha)) hclear₂).mono
  intro ty s₃ h₃ hafter
  obtain ⟨hclear₃, hscopes₃, _, htree₃⟩ := hafter
  refine ⟨hclear₃, ?_⟩
  have hend₃ := hend₂.step h₃ hscopes₃
  refine fun ht => ⟨(hend₃ ht).1, fun types scopes hl => ?_⟩
  have htypes := ((hparams ht).always ht h₂).always ht h₃ types scopes (hl.mono (Set.empty_subset _))
  show ExprTyped types.tree scopes _ (types.tree ty)
  rw [htree₃ types hl.types]
  exact .lambda htypes ((hend₃ ht).2 types scopes hl)

/-- The condition is a truth value, and the branches are unified with each other. -/
theorem Expr.Allowed.when {mark : Mark} {cond yes no : Expr} (ihcond : cond.Allowed G r)
    (ihyes : yes.Allowed G r) (ihno : no.Allowed G r) : (Expr.when mark cond yes no).Allowed G r := by
  rintro pinned scope n n' s ⟨hmark, m, m', hcond, hyes, hno⟩ h
  rw [Expr.infer]
  refine .bind_of_ok (requireScope_eq_ok hmark) ?_
  apply Allows.bind (ihcond hcond h)
  intro cty s₁ h₁ hafter
  obtain ⟨hclear₁, hend₁⟩ := hafter
  have hready₁ := h.next h₁ hcond.le hend₁
  have hbool : initial.get .bool = .ok (.op .bool []) := rfl
  apply Allows.bind (hready₁.admits.unify cond.span hclear₁ (hready₁.admits.clear_primitive hbool))
  intro _ s₂ h₂ hafter
  obtain ⟨hscopes₂, heq₂⟩ := hafter
  have hready₂ := hready₁.same h₂ hscopes₂
  apply Allows.bind (ihyes hyes hready₂)
  intro yty s₃ h₃ hafter
  obtain ⟨hclear₃, hend₃⟩ := hafter
  have hready₃ := hready₂.next h₃ hyes.le hend₃
  apply Allows.bind (ihno hno hready₃)
  intro nty s₄ h₄ hafter
  obtain ⟨hclear₄, hend₄⟩ := hafter
  have hadmits₄ := hready₃.admits.step h₄
  have hyty := h₄.types.clear h₃.types.wf hclear₃
  apply Allows.bind (hadmits₄.unify mark.span hyty hclear₄)
  intro _ s₅ h₅ hafter
  obtain ⟨hscopes₅, heq₅⟩ := hafter
  refine (hadmits₄.step h₅).pure ⟨h₅.types.clear h₄.types.wf hyty, ?_⟩
  have hend₅ := hend₄.step h₅ hscopes₅
  refine fun ht => ⟨(hend₅ ht).1, fun types scopes hl => ?_⟩
  -- What each part has concluded is taken through the later steps to the end.
  have hcond' := ((((hend₁ ht).2.step ht h₂).step ht h₃).step ht h₄).step ht h₅ types scopes hl
  have hbool' : types.tree cty = .bool :=
    (((heq₂.step h₃.types).step h₄.types).step h₅.types types hl.types).trans
      (tree_primitive hl.types.wf hbool)
  have hyes' := ((hend₃ ht).2.step ht h₄).step ht h₅ types scopes hl
  exact .when (hbool' ▸ hcond') hyes' (heq₅ types hl.types ▸ (hend₅ ht).2 types scopes hl)

/-- An assigned variable has the type of the value, which is found first. -/
theorem Expr.Allowed.assign {mark : Mark} {target : Ident} {value : Expr} (ihvalue : value.Allowed G r) :
    (Expr.assign mark target value).Allowed G r := by
  rintro pinned scope n n' s ⟨hmark, hvalue⟩ h
  rw [Expr.infer]
  refine .bind_of_ok (requireScope_eq_ok hmark) ?_
  apply Allows.bind (assignable_allows h target)
  intro found s₀ h₀ hafter
  obtain ⟨hs₀, hsees, symbol, hlookup, hsymbol, hkind, hty⟩ := hafter
  subst hs₀
  obtain ⟨owner, declared⟩ := found
  dsimp only at hsees hlookup hsymbol hty ⊢
  subst hty
  have hvisible := h.inside hsees
  apply Allows.bind (ihvalue hvalue h)
  intro aty s₁ h₁ hafter
  obtain ⟨hclear₁, hend₁⟩ := hafter
  have hready₁ := h.next h₁ hvalue.le hend₁
  have hsome : G.tidy → symbol.ty.isSome := fun ht => by
    obtain ⟨ty, he, -⟩ := h.typed ht hsees hsymbol (by rw [hkind]; rfl)
    rw [he]; rfl
  apply Allows.bind (hready₁.admits.typeOf hvisible target.name hsome)
  intro dty s₂ h₂ hcase
  have hadmits₂ := hready₁.admits.step h₂
  have haty := h₂.types.clear h₁.types.wf hclear₁
  -- The variable is used as it is, so its type has to be clear.
  have hdty : s₂.types.Clear G.hidden dty := by
    rcases hcase with ⟨he, rfl⟩ | ⟨_, hclear⟩
    · exact h₁.types.clear h.admits.wf (h.clear_of_var hsees hsymbol hkind he)
    · exact hclear
  apply Allows.bind (hadmits₂.unify value.span hdty haty)
  intro _ s₃ h₃ hafter
  obtain ⟨hscopes₃, heq₃⟩ := hafter
  have hadmits₃ := hadmits₂.step h₃
  apply Allows.bind (hadmits₃.setInitialized hvisible target.name)
  intro _ s₄ h₄ hafter
  obtain ⟨htypes₄, hfresh₄⟩ := hafter
  refine (hadmits₃.step h₄).pure ⟨h₄.types.clear h₃.types.wf (h₃.types.clear h₂.types.wf haty),
    fun ht => ?_⟩
  rcases hcase with ⟨he, rfl⟩ | ⟨htidy, _⟩
  · -- A scope that gives a type is not one of those still to come.
    have hlt : owner.index < n' := by
      by_contra hge
      have hnone := (hend₁ ht).1.typeAt (Nat.not_lt.mp hge) target.name
      rw [h₁.kept ht (typeAt_of_symbolAt hsymbol he)] at hnone
      cases hnone
    refine ⟨hfresh₄ n' hlt (fresh_of_eq hscopes₃ (hend₁ ht).1), fun types scopes hl => ?_⟩
    have hl' := ((hl.of_step ht subset_rfl h₄).of_step ht subset_rfl h₃).of_step ht subset_rfl h₁
    obtain ⟨symbol', hlookup', hkind', hty'⟩ := hl'.lookup hlookup hsymbol he
    have hvalue' : ExprTyped types.tree scopes value (types.tree aty) :=
      ((hend₁ ht).2.step ht h₃).step ht h₄ types scopes hl
    have heq : types.tree dty = types.tree aty := (heq₃.step h₄.types) types hl.types
    show ExprTyped types.tree scopes _ (types.tree aty)
    rw [← heq] at hvalue' ⊢
    exact .assign hmark hlookup' (hkind'.trans hkind) hty' hvalue'
  · exact absurd ht htidy

/-! ### Expressions side by side -/

theorem AllowedExprs.nil : AllowedExprs G r [] := by
  intro pinned scope n n' s hn h
  obtain rfl : n' = n := hn
  rw [inferExprs]
  exact h.admits.pure ⟨by simp, fun ht => ⟨h.fresh ht, fun _ _ _ => .nil⟩⟩

theorem AllowedExprs.cons {e : Expr} {rest : List Expr} (ihe : e.Allowed G r) (ihrest : AllowedExprs G r rest) :
    AllowedExprs G r (e :: rest) := by
  rintro pinned scope n n' s ⟨m, he, hrest⟩ h
  rw [inferExprs]
  apply Allows.bind (ihe he h)
  intro ty s₁ h₁ hafter
  obtain ⟨hclear₁, hend₁⟩ := hafter
  have hready₁ := h.next h₁ he.le hend₁
  apply Allows.bind (ihrest hrest hready₁)
  intro tys s₂ h₂ hafter
  obtain ⟨hclear₂, hend₂⟩ := hafter
  refine (hready₁.admits.step h₂).pure ⟨?_, fun ht => ⟨(hend₂ ht).1, fun types scopes hl => ?_⟩⟩
  · exact List.forall_mem_cons.mpr ⟨h₂.types.clear h₁.types.wf hclear₁, hclear₂⟩
  · exact .cons ((hend₁ ht).2.step ht h₂ types scopes hl) ((hend₂ ht).2 types scopes hl)

theorem AllowedElements.nil : AllowedElements G r [] := by
  intro pinned element scope n n' s hn h _
  obtain rfl : n' = n := hn
  rw [inferElements]
  exact h.admits.pure fun ht => ⟨h.fresh ht, fun _ _ _ => by simp⟩

theorem AllowedElements.cons {e : Expr} {rest : List Expr} (ihe : e.Allowed G r)
    (ihrest : AllowedElements G r rest) : AllowedElements G r (e :: rest) := by
  rintro pinned element scope n n' s ⟨m, he, hrest⟩ h helement
  rw [inferElements]
  apply Allows.bind (ihe he h)
  intro ty s₁ h₁ hafter
  obtain ⟨hclear₁, hend₁⟩ := hafter
  have hready₁ := h.next h₁ he.le hend₁
  have helement₁ := h₁.types.clear h.admits.wf helement
  apply Allows.bind (hready₁.admits.unify e.span helement₁ hclear₁)
  intro _ s₂ h₂ hafter
  obtain ⟨hscopes₂, heq₂⟩ := hafter
  have helement₂ := h₂.types.clear h₁.types.wf helement₁
  refine (ihrest hrest (hready₁.same h₂ hscopes₂) helement₂).mono fun _ s₃ h₃ hend₃ ht =>
    ⟨(hend₃ ht).1, fun types scopes hl => List.forall_mem_cons.mpr ⟨?_, (hend₃ ht).2 types scopes hl⟩⟩
  rw [heq₂.step h₃.types types hl.types]
  exact ((hend₁ ht).2.step ht h₂).step ht h₃ types scopes hl

theorem AllowedEntries.nil : AllowedEntries G r [] := by
  intro pinned keyType valueType scope n n' s hn h _ _
  obtain rfl : n' = n := hn
  rw [inferEntries]
  exact h.admits.pure fun ht => ⟨h.fresh ht, fun _ _ _ => by simp⟩

theorem AllowedEntries.cons {key value : Expr} {rest : List (Expr × Expr)} (ihkey : key.Allowed G r)
    (ihvalue : value.Allowed G r) (ihrest : AllowedEntries G r rest) : AllowedEntries G r ((key, value) :: rest) := by
  rintro pinned keyType valueType scope n n' s ⟨m, m', hkey, hvalue, hrest⟩ h hk hv
  rw [inferEntries]
  -- The key first, then the value; each is made equal to the common type.
  apply Allows.bind (ihkey hkey h)
  intro kty s₁ h₁ hafter
  obtain ⟨hclear₁, hend₁⟩ := hafter
  have hready₁ := h.next h₁ hkey.le hend₁
  have hk₁ := h₁.types.clear h.admits.wf hk
  apply Allows.bind (hready₁.admits.unify key.span hk₁ hclear₁)
  intro _ s₂ h₂ hafter
  obtain ⟨hscopes₂, heq₂⟩ := hafter
  have hready₂ := hready₁.same h₂ hscopes₂
  apply Allows.bind (ihvalue hvalue hready₂)
  intro vty s₃ h₃ hafter
  obtain ⟨hclear₃, hend₃⟩ := hafter
  have hready₃ := hready₂.next h₃ hvalue.le hend₃
  have hv₃ := h₃.types.clear h₂.types.wf (h₂.types.clear h₁.types.wf (h₁.types.clear h.admits.wf hv))
  apply Allows.bind (hready₃.admits.unify value.span hv₃ hclear₃)
  intro _ s₄ h₄ hafter
  obtain ⟨hscopes₄, heq₄⟩ := hafter
  have hready₄ := hready₃.same h₄ hscopes₄
  have hk₄ := h₄.types.clear h₃.types.wf (h₃.types.clear h₂.types.wf (h₂.types.clear h₁.types.wf hk₁))
  have hv₄ := h₄.types.clear h₃.types.wf hv₃
  refine (ihrest hrest hready₄ hk₄ hv₄).mono fun _ s₅ h₅ hend₅ ht =>
    ⟨(hend₅ ht).1, fun types scopes hl => ?_⟩
  obtain ⟨hkeys, hvalues⟩ := (hend₅ ht).2 types scopes hl
  refine ⟨List.forall_mem_cons.mpr ⟨?_, hkeys⟩, List.forall_mem_cons.mpr ⟨?_, hvalues⟩⟩
  · rw [((heq₂.step h₃.types).step h₄.types).step h₅.types types hl.types]
    exact ((((hend₁ ht).2.step ht h₂).step ht h₃).step ht h₄).step ht h₅ types scopes hl
  · rw [(heq₄.step h₅.types) types hl.types]
    exact ((hend₃ ht).2.step ht h₄).step ht h₅ types scopes hl

/-! ### The induction -/

mutual

/-- **Inference of an expression** keeps to the guard, and from now on the expression is well typed. By recursion on
    the expression, with the lemma for each kind. -/
theorem Expr.infer_allows : ∀ e : Expr, e.Allowed G r
  | .number _ => .number
  | .string _ _ => .string
  | .bool _ _ => .bool
  | .name _ _ => .name
  | .list _ items => .list (inferElements_allows items)
  | .map _ entries => .map (inferEntries_allows entries)
  | .tuple _ items => .tuple (inferExprs_allows items)
  | .access _ left index => .access left.infer_allows index.infer_allows
  | .unary _ _ operand => .unary operand.infer_allows
  | .binary _ _ left right => .binary left.infer_allows right.infer_allows
  | .call _ callee args => .call callee.infer_allows (inferExprs_allows args)
  | .lambda _ _ _ body => .lambda body.infer_allows
  | .when _ cond yes no => .when cond.infer_allows yes.infer_allows no.infer_allows
  | .assign _ _ value => .assign value.infer_allows

theorem inferExprs_allows : ∀ items : List Expr, AllowedExprs G r items
  | [] => .nil
  | e :: rest => .cons e.infer_allows (inferExprs_allows rest)

theorem inferElements_allows : ∀ items : List Expr, AllowedElements G r items
  | [] => .nil
  | e :: rest => .cons e.infer_allows (inferElements_allows rest)

theorem inferEntries_allows : ∀ entries : List (Expr × Expr), AllowedEntries G r entries
  | [] => .nil
  | (key, value) :: rest => .cons key.infer_allows value.infer_allows (inferEntries_allows rest)

end

end TypeInference
