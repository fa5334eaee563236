import TypeInference.Proofs.Inference.EchoNaming
import TypeInference.Proofs.Inference.Occurrence

/-!
# `Proofs.Inference.Echo` — expressions in the companion's run

What the first run found out about an expression, the companion finds out, too. It cannot be refused, because the
store with which the first run ends shows that everything it asks for can be had. Only one question has an answer
that may change for the worse: whether a name that has a value by now may be assigned. So the expressions have to
*spare* the global names that cannot be assigned again.

## Contents
* `Relocation.Spares` — expressions that assign no settled name;
* `Echoed.node` — the scope that a node stands in;
* `inferName_echoes`, `assignable_echoes` — names;
* `Expr.Echoes` — what is shown of an expression, with a lemma for each kind;
* `Expr.infer_echoes` — the induction.
-/

namespace TypeInference

open Store Scopes InferM Guard

variable {R : Relocation} {F : Store} {G : Guard} {s s' : Inference} {w : Companion} {scope : ScopeId} {n n' : Nat}
  {pinned pinned' : List TypeId} {ty : TypeId}

/-! ## Settled names -/

/-- None of the expressions assigns a settled name, that is, a global name that has a value and cannot be assigned
    again. -/
def Relocation.Spares (R : Relocation) (g : Scopes) (nodes : List Expr) : Prop :=
  ∀ e ∈ nodes, ∀ name, R.settled name → e.assigns g R.global name = false

namespace Relocation.Spares

variable {g : Scopes} {nodes more : List Expr}

/-- What spares the settled names spares them in each of its parts. -/
theorem left (h : R.Spares g (nodes ++ more)) : R.Spares g nodes :=
  fun e he => h e (List.mem_append_left _ he)

theorem right (h : R.Spares g (nodes ++ more)) : R.Spares g more :=
  fun e he => h e (List.mem_append_right _ he)

end Relocation.Spares

/-! ## Nodes and names -/

/-- **A node knows the scope it stands in**, at either place: the mark of the moved tree has the scope that the
    first one's has been moved to. -/
theorem Echoed.node {α : Type} {Q : Companion → α → Prop} {mark : Mark} (hmark : mark.scope = some scope)
    {next next' : ScopeId → InferM α} {a : α} (hrun : (requireScope mark >>= next) s = .ok a s')
    (hnext : next scope s = .ok a s' → Echoed R F s' w (next' (R.move scope)) Q) :
    Echoed R F s' w (requireScope (mark.relocate R.move) >>= next') Q := by
  have hmark' : (mark.relocate R.move).scope = some (R.move scope) := by rw [Mark.relocate, hmark]; rfl
  exact .skip (requireScope_eq_ok hmark') (hnext ((run_bind_of_ok (requireScope_eq_ok hmark)).symm.trans hrun))

/-! ### Names -/

/-- **A name that is used as a value** has instances of linked types: the symbols are twins, and pinned types are
    linked with pinned types. -/
theorem inferName_echoes (ht : G.tidy) (h : G.Ready pinned scope n s) (name : Ident)
    (hrun : inferName scope name pinned s = .ok ty s') (hF : Evolves G.hidden s'.types F) (hb : Beside R F s w)
    (hpins : List.Forall₂ w.links pinned pinned') :
    Echoed R F s' w (inferName (R.move scope) name pinned') fun w' ty' => w'.links ty ty' := by
  obtain ⟨⟨owner, symbol⟩, s₁, -, -, ⟨rfl, hlookup, hsees, hsymbol⟩, hrest⟩ :=
    (h.admits.resolve (r := false) h.visible name).exists_of_run hrun
  obtain ⟨symbol', hresolve, htwins⟩ := hb.resolve hlookup
  refine .skip hresolve ?_
  dsimp only at hrest ⊢
  rw [htwins.kind_eq]
  by_cases hkind : symbol.kind = .label ∨ symbol.kind.isType = true
  · rw [if_pos hkind] at hrest
    cases hrest
  · rw [if_neg hkind] at hrest ⊢
    obtain ⟨declared, hty, hcovered⟩ := h.typed ht hsees hsymbol (isValue_of_not hkind)
    obtain ⟨declared', hty', hlink⟩ := exists_of_rel htwins.ty hty
    rw [hty] at hrest
    rw [hty']
    exact .skip rfl (hb.instantiate h.admits h.pinsClear hcovered hpins hlink hrest hF)

/-- **A name that may be assigned** may be assigned again, unless it is settled. It is found in the scope that has
    moved, and a type that it has is linked. -/
theorem assignable_echoes (h : G.Admits s) {mark : Mark} (hmark : mark.scope = some scope) {target : Ident}
    {value : Expr} (hspares : R.Spares G.base [.assign mark target value]) {found : ScopeId × Option TypeId}
    (hrun : assignable scope target s = .ok found s') (hb : Beside R F s w) :
    ∃ declared, assignable (R.move scope) target w.state = .ok (R.move found.1, declared) w.state ∧
      Option.Rel w.links found.2 declared := by
  obtain ⟨owner, declared⟩ := found
  obtain ⟨symbol, hlookup, hkind, himmutable, hty⟩ := lookup_of_assignable hrun
  dsimp only at hlookup hty ⊢
  subst hty
  obtain ⟨symbol', hresolve, htwins⟩ := hb.resolve hlookup
  refine ⟨symbol'.ty, ?_, htwins.ty⟩
  have hassigns : symbol'.mutable = false → symbol'.initialized = false := by
    intro hmutable
    rw [htwins.mutable_eq] at hmutable
    rcases htwins.initialized_eq hkind with he | he | ⟨rfl, hsettled⟩
    · exact he.trans (himmutable hmutable)
    · rw [hmutable] at he
      cases he
    · -- A settled name is not assigned.
      obtain ⟨symbol₀, hlookup₀, -⟩ := lookup_of_sameShape h.shape.symm hlookup
      have hassigns := Expr.assigns_iff.mpr ⟨mark, target.span, value, rfl,
        Scopes.denotes_iff.mpr ⟨scope, symbol₀, hmark, hlookup₀⟩⟩
      cases hassigns.symm.trans (hspares _ List.mem_cons_self _ hsettled)
  rw [assignable, run_bind_of_ok hresolve]
  dsimp only
  rw [if_neg (by rw [htwins.kind_eq, hkind]; exact fun hne => hne rfl), if_neg]
  · rfl
  · cases hmutable : symbol'.mutable with
    | true => simp
    | false => simp [hassigns hmutable]

/-! ## Operators -/

/-- A unary operator asks the same of a linked operand. -/
theorem inferUnary_echoes (h : G.Admits s) (op : UnaryOp) {operand operand' : TypeId} {span span' : Span}
    (hrun : inferUnary op operand span s = .ok ty s') (hF : Evolves G.hidden s'.types F) (hb : Beside R F s w)
    (hoperand : w.links operand operand') :
    Echoed R F s' w (inferUnary op operand' span') fun w' ty' => w'.links ty ty' := by
  obtain ⟨con, hcon, -⟩ := op.exists_type
  obtain ⟨hlt, hlt'⟩ := hb.types.lt hoperand
  obtain ⟨shown, hshown⟩ := h.wf.grounded.exists_display hlt
  obtain ⟨shown', hshown'⟩ := hb.types.wf.grounded.exists_display hlt'
  rw [inferUnary, run_bind_of_ok (query_eq_ok hshown)] at hrun
  obtain ⟨u, s₁, hunify, hrest⟩ := exists_of_run_bind hrun
  cases hrest
  refine .skip (query_eq_ok hshown') ?_
  refine (hb.unifyOr h.wf hoperand (hb.primitive hcon) hunify hF).bind fun _ w₁ _ hb₁ _ => ?_
  exact .pure hb₁ (hb₁.primitive hcon)

/-- A binary operator asks the same of linked operands. The operands' types are made equal before the second
    question is asked, so both questions are followed in the state that the first has left. -/
theorem inferBinary_echoes (h : G.Admits s) (op : BinaryOp) {left left' right right' : TypeId} {span span' : Span}
    (hleft : s.types.Clear G.hidden left) (hright : s.types.Clear G.hidden right)
    (hrun : inferBinary op left right span s = .ok ty s') (hF : Evolves G.hidden s'.types F) (hb : Beside R F s w)
    (hl : w.links left left') (hr : w.links right right') :
    Echoed R F s' w (inferBinary op left' right' span') fun w' ty' => w'.links ty ty' := by
  obtain ⟨con, hcon, -⟩ := op.exists_resultType
  obtain ⟨shownLeft, hshownLeft⟩ := h.wf.grounded.exists_display hleft.lt
  obtain ⟨shownRight, hshownRight⟩ := h.wf.grounded.exists_display hright.lt
  obtain ⟨shownLeft', hshownLeft'⟩ := hb.types.wf.grounded.exists_display (hb.types.lt hl).2
  obtain ⟨shownRight', hshownRight'⟩ := hb.types.wf.grounded.exists_display (hb.types.lt hr).2
  unfold inferBinary at hrun ⊢
  rw [run_bind_of_ok (query_eq_ok hshownLeft), run_bind_of_ok (query_eq_ok hshownRight)] at hrun
  -- Both runs show their operands for a message, which changes nothing.
  refine .skip (query_eq_ok hshownLeft') (.skip (query_eq_ok hshownRight') ?_)
  cases hoperand : op.operandType? with
  | none =>
    rw [hoperand] at hrun
    obtain ⟨u, s₁, hunify, hrest⟩ := exists_of_run_bind hrun
    cases hrest
    refine (hb.unifyOr h.wf hl hr hunify hF).bind fun _ w₁ _ hb₁ _ => ?_
    exact .pure hb₁ (hb₁.primitive hcon)
  | some expected =>
    rw [hoperand] at hrun
    obtain ⟨con', hcon', -⟩ := BinaryOp.exists_operandType hoperand
    obtain ⟨u, s₁, hunify, h₁, -, hrun⟩ :=
      (h.unifyOr (r := false) (fun _ => by simp) hleft (h.clear_primitive hcon')).exists_of_run hrun
    have hadmits₁ := h.step h₁
    obtain ⟨u', s₂, hunify', h₂, -, hrest⟩ := (hadmits₁.unifyOr (r := false) (fun _ => by simp)
      (h₁.types.clear h.wf hright) (hadmits₁.clear_primitive hcon')).exists_of_run hrun
    cases hrest
    refine (hb.unifyOr h.wf hl (hb.primitive hcon') hunify (h₂.types.trans hF)).bind fun _ w₁ hle₁ hb₁ _ => ?_
    refine (hb₁.unifyOr h₁.types.wf (hle₁.link hr) (hb₁.primitive hcon') hunify' hF).bind fun _ w₂ _ hb₂ _ => ?_
    exact .pure hb₂ (hb₂.primitive hcon)

/-! ## What is shown of expressions -/

/-- What the induction shows of an expression: in the companion's run it has a linked type. The first run is given
    by where it ends; that the second one ends is what is shown. -/
def Expr.Echoes (R : Relocation) (F : Store) (G : Guard) (e : Expr) : Prop :=
  ∀ ⦃pinned pinned' : List TypeId⦄ ⦃scope : ScopeId⦄ ⦃n n' : Nat⦄ ⦃s s' : Inference⦄ ⦃w : Companion⦄ ⦃ty : TypeId⦄,
    e.Placed G.base scope n n' → G.Ready pinned scope n s → R.Spares G.base e.nodes →
    e.infer pinned s = .ok ty s' → Evolves G.hidden s'.types F → Beside R F s w →
    List.Forall₂ w.links pinned pinned' →
    Echoed R F s' w ((e.relocate R.move).infer pinned') fun w' ty' => w'.links ty ty'

/-- Expressions side by side have linked types, one by one. -/
def ExprsEcho (R : Relocation) (F : Store) (G : Guard) (items : List Expr) : Prop :=
  ∀ ⦃pinned pinned' : List TypeId⦄ ⦃scope : ScopeId⦄ ⦃n n' : Nat⦄ ⦃s s' : Inference⦄ ⦃w : Companion⦄
    ⦃tys : List TypeId⦄, PlacedExprs G.base scope items n n' → G.Ready pinned scope n s →
    R.Spares G.base (exprsNodes items) → inferExprs pinned items s = .ok tys s' → Evolves G.hidden s'.types F →
    Beside R F s w → List.Forall₂ w.links pinned pinned' →
    Echoed R F s' w (inferExprs pinned' (relocateExprs R.move items)) fun w' tys' => List.Forall₂ w'.links tys tys'

/-- The items of a list are echoed when the types that they are to have are linked. -/
def ElementsEcho (R : Relocation) (F : Store) (G : Guard) (items : List Expr) : Prop :=
  ∀ ⦃pinned pinned' : List TypeId⦄ ⦃element element' : TypeId⦄ ⦃scope : ScopeId⦄ ⦃n n' : Nat⦄ ⦃s s' : Inference⦄
    ⦃w : Companion⦄ ⦃u : Unit⦄, PlacedExprs G.base scope items n n' → G.Ready pinned scope n s →
    s.types.Clear G.hidden element → R.Spares G.base (exprsNodes items) →
    inferElements pinned element items s = .ok u s' → Evolves G.hidden s'.types F → Beside R F s w →
    List.Forall₂ w.links pinned pinned' → w.links element element' →
    Echoed R F s' w (inferElements pinned' element' (relocateExprs R.move items)) fun _ _ => True

/-- The entries of a map are echoed when the types of keys and those of values are linked. -/
def EntriesEcho (R : Relocation) (F : Store) (G : Guard) (entries : List (Expr × Expr)) : Prop :=
  ∀ ⦃pinned pinned' : List TypeId⦄ ⦃key key' value value' : TypeId⦄ ⦃scope : ScopeId⦄ ⦃n n' : Nat⦄
    ⦃s s' : Inference⦄ ⦃w : Companion⦄ ⦃u : Unit⦄, PlacedEntries G.base scope entries n n' →
    G.Ready pinned scope n s → s.types.Clear G.hidden key → s.types.Clear G.hidden value →
    R.Spares G.base (entriesNodes entries) → inferEntries pinned key value entries s = .ok u s' →
    Evolves G.hidden s'.types F → Beside R F s w → List.Forall₂ w.links pinned pinned' → w.links key key' →
    w.links value value' →
    Echoed R F s' w (inferEntries pinned' key' value' (relocateEntries R.move entries)) fun _ _ => True

/-! ### Literals and names -/

/-- A literal has its primitive type in either run, and primitive types are linked with themselves. -/
theorem literal_echoes {mark : Mark} {id : TypeId} {con : Constructor} (hmark : mark.scope = some scope)
    (hcon : initial.get id = .ok (.op con [])) (hb : Beside R F s w)
    (hrun : (requireScope mark >>= fun _ => pure id) s = .ok ty s') :
    Echoed R F s' w (requireScope (mark.relocate R.move) >>= fun _ => pure id) fun w' ty' => w'.links ty ty' := by
  refine .node hmark hrun fun hrest => ?_
  cases hrest
  exact .pure hb (hb.primitive hcon)

theorem Expr.Echoes.number {mark : Mark} : (Expr.number mark).Echoes R F G := by
  rintro pinned pinned' scope n n' s s' w ty ⟨hmark, _⟩ _ _ hrun _ hb _
  rw [Expr.infer] at hrun
  rw [Expr.relocate, Expr.infer]
  exact literal_echoes hmark rfl hb hrun

theorem Expr.Echoes.string {mark : Mark} {value : String} : (Expr.string mark value).Echoes R F G := by
  rintro pinned pinned' scope n n' s s' w ty ⟨hmark, _⟩ _ _ hrun _ hb _
  rw [Expr.infer] at hrun
  rw [Expr.relocate, Expr.infer]
  exact literal_echoes hmark rfl hb hrun

theorem Expr.Echoes.bool {mark : Mark} {value : Bool} : (Expr.bool mark value).Echoes R F G := by
  rintro pinned pinned' scope n n' s s' w ty ⟨hmark, _⟩ _ _ hrun _ hb _
  rw [Expr.infer] at hrun
  rw [Expr.relocate, Expr.infer]
  exact literal_echoes hmark rfl hb hrun

theorem Expr.Echoes.name {mark : Mark} {id : Ident} (ht : G.tidy) : (Expr.name mark id).Echoes R F G := by
  rintro pinned pinned' scope n n' s s' w ty ⟨hmark, _⟩ h _ hrun hF hb hpins
  rw [Expr.infer] at hrun
  rw [Expr.relocate, Expr.infer]
  exact .node hmark hrun fun hrun => inferName_echoes ht h id hrun hF hb hpins

/-! ### Lists, maps, tuples and their components

Each kind of expression has its own lemma. The first run is taken apart at its steps, each part is echoed, and the
links between the parts make the link between the wholes. -/

/-- The new variables for the items are linked, so the items may be echoed and the lists are linked. -/
theorem Expr.Echoes.list {mark : Mark} {items : List Expr} (ihitems : ElementsEcho R F G items) :
    (Expr.list mark items).Echoes R F G := by
  rintro pinned pinned' scope n n' s s' w ty ⟨hmark, hitems⟩ h hspares hrun hF hb hpins
  rw [Expr.infer] at hrun
  rw [Expr.relocate, Expr.infer]
  refine .node hmark hrun fun hrun => ?_
  obtain ⟨element, s₁, hnew, h₁, ⟨hclear₁, hscopes₁⟩, hrun⟩ := (h.admits.newVar (r := false)).exists_of_run hrun
  have hready₁ := h.same h₁ hscopes₁
  obtain ⟨u, s₂, hinfer, h₂, -, hrun⟩ :=
    (inferElements_allows (r := false) items hitems hready₁ hclear₁).exists_of_run hrun
  have hclear₂ := h₂.types.clear h₁.types.wf hclear₁
  have hF₂ := (evolves_of_operator h₂.types.wf (by exact rfl) (by simpa using hclear₂.lt) hrun).trans hF
  -- On both sides the common type of the items is a new variable.
  refine (hb.newVar h.admits.wf hnew (h₂.types.trans hF₂)).bind fun element' w₁ hle₁ hb₁ helement => ?_
  refine (ihitems hitems hready₁ hclear₁ hspares.left hinfer hF₂ hb₁ (hle₁.all hpins)
    helement).bind fun _ w₂ hle₂ hb₂ _ => ?_
  exact hb₂.operator h₂.types.wf (by exact rfl) (.cons (hle₂.link helement) .nil) hrun hF

/-- Keys and values have a new variable each, and both pairs of variables are linked before the entries are looked
    at. -/
theorem Expr.Echoes.map {mark : Mark} {entries : List (Expr × Expr)} (ihentries : EntriesEcho R F G entries) :
    (Expr.map mark entries).Echoes R F G := by
  rintro pinned pinned' scope n n' s s' w ty ⟨hmark, hentries⟩ h hspares hrun hF hb hpins
  rw [Expr.infer] at hrun
  rw [Expr.relocate, Expr.infer]
  refine .node hmark hrun fun hrun => ?_
  obtain ⟨key, s₁, hnewKey, h₁, ⟨hclear₁, hscopes₁⟩, hrun⟩ := (h.admits.newVar (r := false)).exists_of_run hrun
  have hready₁ := h.same h₁ hscopes₁
  obtain ⟨value, s₂, hnewValue, h₂, ⟨hclear₂, hscopes₂⟩, hrun⟩ :=
    (hready₁.admits.newVar (r := false)).exists_of_run hrun
  have hready₂ := hready₁.same h₂ hscopes₂
  have hkey₂ := h₂.types.clear h₁.types.wf hclear₁
  obtain ⟨u, s₃, hinfer, h₃, -, hrun⟩ :=
    (inferEntries_allows (r := false) entries hentries hready₂ hkey₂ hclear₂).exists_of_run hrun
  have hF₃ := (evolves_of_operator h₃.types.wf (by exact rfl)
    (by simpa using ⟨h₃.types.lt hkey₂.lt, h₃.types.lt hclear₂.lt⟩) hrun).trans hF
  have hF₂ := h₃.types.trans hF₃
  refine (hb.newVar h.admits.wf hnewKey (h₂.types.trans hF₂)).bind fun key' w₁ hle₁ hb₁ hkey => ?_
  refine (hb₁.newVar h₁.types.wf hnewValue hF₂).bind fun value' w₂ hle₂ hb₂ hvalue => ?_
  refine (ihentries hentries hready₂ hkey₂ hclear₂ hspares.left hinfer hF₃ hb₂
    (hle₂.all (hle₁.all hpins)) (hle₂.link hkey) hvalue).bind fun _ w₃ hle₃ hb₃ _ => ?_
  exact hb₃.operator h₃.types.wf (by exact rfl)
    (.cons (hle₃.link (hle₂.link hkey)) (.cons (hle₃.link hvalue) .nil)) hrun hF

/-- A tuple is made of linked types when its items are. -/
theorem Expr.Echoes.tuple {mark : Mark} {items : List Expr} (ihitems : ExprsEcho R F G items) :
    (Expr.tuple mark items).Echoes R F G := by
  rintro pinned pinned' scope n n' s s' w ty ⟨hmark, hitems⟩ h hspares hrun hF hb hpins
  rw [Expr.infer] at hrun
  rw [Expr.relocate, Expr.infer]
  refine .node hmark hrun fun hrun => ?_
  obtain ⟨tys, s₁, hinfer, h₁, ⟨hclear₁, -⟩, hrun⟩ :=
    (inferExprs_allows (r := false) items hitems h).exists_of_run hrun
  have hF₁ := (evolves_of_operator h₁.types.wf (by exact rfl) (fun a ha => (hclear₁ a ha).lt) hrun).trans hF
  refine (ihitems hitems h hspares.left hinfer hF₁ hb hpins).bind fun tys' w₁ _ hb₁ htys => ?_
  unfold Store.tuple
  rw [← htys.length_eq]
  exact hb₁.operator h₁.types.wf (by exact rfl) htys hrun hF

/-- What the first run sees of the type on the left and of the index, the companion sees when both have been looked
    at. -/
theorem Expr.Echoes.access {mark : Mark} {left index : Expr} (ihleft : left.Echoes R F G)
    (ihindex : index.Echoes R F G) : (Expr.access mark left index).Echoes R F G := by
  rintro pinned pinned' scope n n' s s' w ty ⟨hmark, m, hleft, hindex⟩ h hspares hrun hF hb hpins
  rw [Expr.infer] at hrun
  rw [Expr.relocate, Expr.infer]
  refine .node hmark hrun fun hrun => ?_
  obtain ⟨l, s₁, hinferLeft, h₁, ⟨hclear₁, hend₁⟩, hrun⟩ := (left.infer_allows (r := false) hleft h).exists_of_run hrun
  have hready₁ := h.next h₁ hleft.le hend₁
  obtain ⟨i, s₂, hinferIndex, h₂, ⟨hclear₂, -⟩, hrun⟩ :=
    (index.infer_allows (r := false) hindex hready₁).exists_of_run hrun
  have hadmits₂ := hready₁.admits.step h₂
  obtain ⟨-, rfl, -⟩ := (access_allows (r := false) hadmits₂ (h₂.types.clear h₁.types.wf hclear₁) hclear₂ mark.span
    index.span).ok hrun
  refine (ihleft hleft h hspares.left.left hinferLeft (h₂.types.trans hF) hb hpins).bind
    fun l' w₁ hle₁ hb₁ hl => ?_
  refine (ihindex hindex hready₁ hspares.left.right hinferIndex hF hb₁ (hle₁.all hpins)).bind
    fun i' w₂ hle₂ hb₂ hi => ?_
  exact hb₂.access hadmits₂.wf (hle₂.link hl) hi hrun hF

/-! ### Operators and calls -/

theorem Expr.Echoes.unary {mark : Mark} {op : UnaryOp} {operand : Expr} (ih : operand.Echoes R F G) :
    (Expr.unary mark op operand).Echoes R F G := by
  rintro pinned pinned' scope n n' s s' w ty ⟨hmark, hoperand⟩ h hspares hrun hF hb hpins
  rw [Expr.infer] at hrun
  rw [Expr.relocate, Expr.infer]
  refine .node hmark hrun fun hrun => ?_
  obtain ⟨o, s₁, hinfer, h₁, ⟨hclear₁, -⟩, hrun⟩ := (operand.infer_allows (r := false) hoperand h).exists_of_run hrun
  have hadmits₁ := h.admits.step h₁
  have hF₁ := ((inferUnary_allows (r := false) hadmits₁ op hclear₁ mark.span).ok hrun).1.types.trans hF
  refine (ih hoperand h hspares.left hinfer hF₁ hb hpins).bind fun o' w₁ _ hb₁ ho => ?_
  exact inferUnary_echoes hadmits₁ op hrun hF hb₁ ho

/-- Both operands, then what the operator asks of them. -/
theorem Expr.Echoes.binary {mark : Mark} {op : BinaryOp} {left right : Expr} (ihleft : left.Echoes R F G)
    (ihright : right.Echoes R F G) : (Expr.binary mark op left right).Echoes R F G := by
  rintro pinned pinned' scope n n' s s' w ty ⟨hmark, m, hleft, hright⟩ h hspares hrun hF hb hpins
  rw [Expr.infer] at hrun
  rw [Expr.relocate, Expr.infer]
  refine .node hmark hrun fun hrun => ?_
  obtain ⟨l, s₁, hinferLeft, h₁, ⟨hclear₁, hend₁⟩, hrun⟩ := (left.infer_allows (r := false) hleft h).exists_of_run hrun
  have hready₁ := h.next h₁ hleft.le hend₁
  obtain ⟨r, s₂, hinferRight, h₂, ⟨hclear₂, -⟩, hrun⟩ :=
    (right.infer_allows (r := false) hright hready₁).exists_of_run hrun
  have hadmits₂ := hready₁.admits.step h₂
  have hl₂ := h₂.types.clear h₁.types.wf hclear₁
  have hF₂ := ((inferBinary_allows (r := false) hadmits₂ op hl₂ hclear₂ mark.span).ok hrun).1.types.trans hF
  refine (ihleft hleft h hspares.left.left hinferLeft (h₂.types.trans hF₂) hb hpins).bind
    fun l' w₁ hle₁ hb₁ hl => ?_
  refine (ihright hright hready₁ hspares.left.right hinferRight hF₂ hb₁ (hle₁.all hpins)).bind
    fun r' w₂ hle₂ hb₂ hr => ?_
  exact inferBinary_echoes hadmits₂ op hl₂ hclear₂ hrun hF hb₂ (hle₂.link hl) hr

/-- A call asks for a function from the arguments to a new result, and the functions asked for are linked. -/
theorem Expr.Echoes.call {mark : Mark} {callee : Expr} {args : List Expr} (ihcallee : callee.Echoes R F G)
    (ihargs : ExprsEcho R F G args) : (Expr.call mark callee args).Echoes R F G := by
  rintro pinned pinned' scope n n' s s' w ty ⟨hmark, m, hcallee, hargs⟩ h hspares hrun hF hb hpins
  rw [Expr.infer] at hrun
  rw [Expr.relocate, Expr.infer]
  refine .node hmark hrun fun hrun => ?_
  obtain ⟨c, s₁, hinferCallee, h₁, ⟨hclear₁, hend₁⟩, hrun⟩ :=
    (callee.infer_allows (r := false) hcallee h).exists_of_run hrun
  have hready₁ := h.next h₁ hcallee.le hend₁
  obtain ⟨tys, s₂, hinferArgs, h₂, ⟨hclear₂, -⟩, hrun⟩ :=
    (inferExprs_allows (r := false) args hargs hready₁).exists_of_run hrun
  have hadmits₂ := hready₁.admits.step h₂
  obtain ⟨result, s₃, hnew, h₃, ⟨hclear₃, -⟩, hrun⟩ := (hadmits₂.newVar (r := false)).exists_of_run hrun
  have hadmits₃ := hadmits₂.step h₃
  obtain ⟨expected, s₄, hfunction, h₄, ⟨hclear₄, -⟩, hrun⟩ := (hadmits₃.function (r := false)
    (fun a ha => h₃.types.clear h₂.types.wf (hclear₂ a ha)) hclear₃).exists_of_run hrun
  have hadmits₄ := hadmits₃.step h₄
  have hcallee₄ := (h₂.trans (h₃.trans h₄)).types.clear h₁.types.wf hclear₁
  obtain ⟨u, s₅, hunify, h₅, -, hrest⟩ := (hadmits₄.unify (r := false) mark.span hcallee₄ hclear₄).exists_of_run hrun
  cases hrest
  -- The final store comes after each of the steps.
  have hF₄ := h₅.types.trans hF
  have hF₃ := h₄.types.trans hF₄
  have hF₂ := h₃.types.trans hF₃
  -- The companion takes the steps in the same order.
  refine (ihcallee hcallee h hspares.left.left hinferCallee (h₂.types.trans hF₂) hb hpins).bind
    fun c' w₁ hle₁ hb₁ hc => ?_
  refine (ihargs hargs hready₁ hspares.left.right hinferArgs hF₂ hb₁ (hle₁.all hpins)).bind
    fun tys' w₂ hle₂ hb₂ htys => ?_
  refine (hb₂.newVar h₂.types.wf hnew hF₃).bind fun result' w₃ hle₃ hb₃ hresult => ?_
  refine (hb₃.function h₃.types.wf (hle₃.all htys) hresult hfunction hF₄).bind fun expected' w₄ hle₄ hb₄ hexpected => ?_
  have hc₄ := (hle₂.trans (hle₃.trans hle₄)).link hc
  refine (hb₄.unify h₄.types.wf hc₄ hexpected hunify hF).bind fun _ w₅ hle₅ hb₅ _ => ?_
  exact .pure hb₅ ((hle₄.trans hle₅).link hresult)

/-! ### Lambdas, choices and assignments -/

/-- The parameters of a lambda are pinned in its body, so their types have to be linked there. -/
theorem Expr.Echoes.lambda {mark : Mark} {own : Option ScopeId} {params : List Param} {body : Expr} (ht : G.tidy)
    (ihbody : body.Echoes R F G) : (Expr.lambda mark own params body).Echoes R F G := by
  rintro pinned pinned' scope n n' s s' w ty ⟨hmark, hown, hopened, hbody⟩ h hspares hrun hF hb hpins
  subst hown
  rw [Expr.infer] at hrun
  rw [Expr.relocate, Expr.infer]
  refine .node hmark hrun fun hrun => ?_
  have hmark' : ({ mark with scope := some ⟨n⟩ } : Mark).scope = some ⟨n⟩ := rfl
  refine .node hmark' hrun fun hrun => ?_
  have hname := h.nameable hopened
  obtain ⟨tys, s₁, hparams, h₁, ⟨hnamed, -⟩, hrun⟩ :=
    (typeParams_allows (r := false) h.admits params hname).exists_of_run hrun
  have hfresh₁ : G.tidy → s₁.Fresh (n + 1) := fun ht =>
    hnamed.fresh (n + 1) (Nat.lt_succ_self n) ((h.fresh ht).mono (Nat.le_succ n))
  have hready₁ := h.enter hopened h₁ hnamed.clear hfresh₁ fun ht entry hentry _ =>
    hnamed.exists_type ht (List.mem_map_of_mem hentry)
  obtain ⟨result, s₂, hinfer, h₂, ⟨hclear₂, -⟩, hrun⟩ :=
    (body.infer_allows (r := false) hbody hready₁).exists_of_run hrun
  have hF₂ := (evolves_of_function h₂.types.wf (fun a ha => h₂.types.lt (hnamed.clear a ha).lt) hclear₂.lt
    hrun).trans hF
  refine (typeParams_echoes ht params h.admits hname hparams (h₂.types.trans hF₂) hb).bind
    fun tys' w₁ hle₁ hb₁ htys => ?_
  refine (ihbody hbody hready₁ hspares.left hinfer hF₂ hb₁
    (List.rel_append (hle₁.all hpins) htys)).bind fun result' w₂ hle₂ hb₂ hresult => ?_
  exact hb₂.function h₂.types.wf (hle₂.all htys) hresult hrun hF

/-- The condition is made a truth value, and the two branches are made equal, on both sides. -/
theorem Expr.Echoes.when {mark : Mark} {cond yes no : Expr} (ihcond : cond.Echoes R F G) (ihyes : yes.Echoes R F G)
    (ihno : no.Echoes R F G) : (Expr.when mark cond yes no).Echoes R F G := by
  rintro pinned pinned' scope n n' s s' w ty ⟨hmark, m, m', hcond, hyes, hno⟩ h hspares hrun hF hb hpins
  rw [Expr.infer] at hrun
  rw [Expr.relocate, Expr.infer]
  refine .node hmark hrun fun hrun => ?_
  have hbool : initial.get .bool = .ok (.op .bool []) := rfl
  -- The first run in its five steps, each in a state in which the next part may be looked at.
  obtain ⟨c, s₁, hinferCond, h₁, ⟨hclear₁, hend₁⟩, hrun⟩ := (cond.infer_allows (r := false) hcond h).exists_of_run hrun
  have hready₁ := h.next h₁ hcond.le hend₁
  obtain ⟨u, s₂, hunifyCond, h₂, ⟨hscopes₂, -⟩, hrun⟩ := (hready₁.admits.unify (r := false) cond.span hclear₁
    (hready₁.admits.clear_primitive hbool)).exists_of_run hrun
  have hready₂ := hready₁.same h₂ hscopes₂
  obtain ⟨y, s₃, hinferYes, h₃, ⟨hclear₃, hend₃⟩, hrun⟩ :=
    (yes.infer_allows (r := false) hyes hready₂).exists_of_run hrun
  have hready₃ := hready₂.next h₃ hyes.le hend₃
  obtain ⟨z, s₄, hinferNo, h₄, ⟨hclear₄, -⟩, hrun⟩ := (no.infer_allows (r := false) hno hready₃).exists_of_run hrun
  have hadmits₄ := hready₃.admits.step h₄
  obtain ⟨u', s₅, hunify, h₅, -, hrest⟩ := (hadmits₄.unify (r := false) mark.span
    (h₄.types.clear h₃.types.wf hclear₃) hclear₄).exists_of_run hrun
  cases hrest
  -- The final store comes after each of them.
  have hF₄ := h₅.types.trans hF
  have hF₃ := h₄.types.trans hF₄
  have hF₂ := h₃.types.trans hF₃
  -- The companion takes the same five steps.
  refine (ihcond hcond h hspares.left.left hinferCond (h₂.types.trans hF₂) hb hpins).bind
    fun c' w₁ hle₁ hb₁ hc => ?_
  refine (hb₁.unify h₁.types.wf hc (hb₁.primitive hbool) hunifyCond hF₂).bind fun _ w₂ hle₂ hb₂ _ => ?_
  have hpins₂ := (hle₁.trans hle₂).all hpins
  refine (ihyes hyes hready₂ hspares.left.right.left hinferYes hF₃ hb₂ hpins₂).bind
    fun y' w₃ hle₃ hb₃ hy => ?_
  refine (ihno hno hready₃ hspares.left.right.right hinferNo hF₄ hb₃ (hle₃.all hpins₂)).bind
    fun z' w₄ hle₄ hb₄ hz => ?_
  refine (hb₄.unify h₄.types.wf (hle₄.link hy) hz hunify hF).bind fun _ w₅ hle₅ hb₅ _ => ?_
  exact .pure hb₅ ((hle₄.trans hle₅).link hy)

/-- A name is assigned in both runs, since the expression spares those that are settled. A name without a type gets
    the type of the value, which is linked. -/
theorem Expr.Echoes.assign {mark : Mark} {target : Ident} {value : Expr} (ht : G.tidy) (ihvalue : value.Echoes R F G) :
    (Expr.assign mark target value).Echoes R F G := by
  rintro pinned pinned' scope n n' s s' w ty ⟨hmark, hvalue⟩ h hspares hrun hF hb hpins
  rw [Expr.infer] at hrun
  rw [Expr.relocate, Expr.infer]
  refine .node hmark hrun fun hrun => ?_
  obtain ⟨⟨owner, declared⟩, s₀, hassignable, -, ⟨rfl, hsees, symbol, -, hsymbol, hkind, hdeclared⟩, hrun⟩ :=
    (assignable_allows (r := false) h target).exists_of_run hrun
  obtain ⟨declared', hassignable', hrel⟩ := assignable_echoes h.admits hmark hspares.right hassignable hb
  dsimp only at hsees hsymbol hdeclared hrun hassignable' hrel
  -- The variable has a type, in either run.
  obtain ⟨dty, hty, -⟩ := h.typed ht hsees hsymbol (by rw [hkind]; rfl)
  subst hdeclared
  obtain ⟨dty', rfl, hdty⟩ := exists_of_rel hrel hty
  rw [hty] at hrun
  obtain ⟨a, s₁, hinfer, h₁, ⟨hclear₁, hend₁⟩, hrun⟩ := (value.infer_allows (r := false) hvalue h).exists_of_run hrun
  have hready₁ := h.next h₁ hvalue.le hend₁
  replace hrun := (run_bind_of_ok (show typeOf owner target.name (some dty) s₁ = .ok dty s₁ from rfl)).symm.trans hrun
  have hclear := h₁.types.clear h.admits.wf (h.clear_of_var hsees hsymbol hkind hty)
  obtain ⟨u, s₂, hunify, h₂, -, hrun⟩ :=
    (hready₁.admits.unify (r := false) value.span hclear hclear₁).exists_of_run hrun
  have hadmits₂ := hready₁.admits.step h₂
  obtain ⟨u', s₃, hupdate, h₃, -, hrest⟩ :=
    (hadmits₂.setInitialized (r := false) (h.inside hsees) target.name).exists_of_run hrun
  cases hrest
  have hF₂ := h₃.types.trans hF
  refine .skip hassignable' ?_
  refine (ihvalue hvalue h hspares.left hinfer (h₂.types.trans hF₂) hb hpins).bind
    fun a' w₁ hle₁ hb₁ ha => ?_
  refine .skip (show typeOf (R.move owner) target.name (some dty') w₁.state = .ok dty' w₁.state from rfl) ?_
  refine (hb₁.unify h₁.types.wf (hle₁.link hdty) ha hunify hF₂).bind fun _ w₂ hle₂ hb₂ _ => ?_
  refine (hb₂.setInitialized hupdate).bind fun _ w₃ hle₃ hb₃ _ => ?_
  exact .pure hb₃ ((hle₂.trans hle₃).link ha)

/-! ### Expressions side by side -/

theorem ExprsEcho.nil : ExprsEcho R F G [] := by
  intro pinned pinned' scope n n' s s' w tys _ _ _ hrun _ hb _
  rw [inferExprs] at hrun
  cases hrun
  rw [relocateExprs, inferExprs]
  exact .pure hb .nil

/-- The first expression, then the others beside what it has left. -/
theorem ExprsEcho.cons {e : Expr} {rest : List Expr} (ihe : e.Echoes R F G) (ihrest : ExprsEcho R F G rest) :
    ExprsEcho R F G (e :: rest) := by
  rintro pinned pinned' scope n n' s s' w tys ⟨m, he, hrest⟩ h hspares hrun hF hb hpins
  rw [inferExprs] at hrun
  rw [relocateExprs, inferExprs]
  obtain ⟨a, s₁, hinfer, h₁, ⟨-, hend₁⟩, hrun⟩ := (e.infer_allows (r := false) he h).exists_of_run hrun
  have hready₁ := h.next h₁ he.le hend₁
  obtain ⟨as, s₂, hinferRest, h₂, -, hrun⟩ := (inferExprs_allows (r := false) rest hrest hready₁).exists_of_run hrun
  cases hrun
  refine (ihe he h hspares.left hinfer (h₂.types.trans hF) hb hpins).bind fun a' w₁ hle₁ hb₁ ha => ?_
  refine (ihrest hrest hready₁ hspares.right hinferRest hF hb₁ (hle₁.all hpins)).bind
    fun as' w₂ hle₂ hb₂ has => ?_
  exact .pure hb₂ (.cons (hle₂.link ha) has)

theorem ElementsEcho.nil : ElementsEcho R F G [] := by
  intro pinned pinned' element element' scope n n' s s' w u _ _ _ _ hrun _ hb _ _
  rw [inferElements] at hrun
  cases hrun
  rw [relocateExprs, inferElements]
  exact .pure hb trivial

/-- The first item is given the type of items, then the others are. -/
theorem ElementsEcho.cons {e : Expr} {rest : List Expr} (ihe : e.Echoes R F G) (ihrest : ElementsEcho R F G rest) :
    ElementsEcho R F G (e :: rest) := by
  rintro pinned pinned' element element' scope n n' s s' w u ⟨m, he, hrest⟩ h hclear hspares hrun hF hb hpins helement
  rw [inferElements] at hrun
  rw [relocateExprs, inferElements]
  obtain ⟨a, s₁, hinfer, h₁, ⟨hclear₁, hend₁⟩, hrun⟩ := (e.infer_allows (r := false) he h).exists_of_run hrun
  have hready₁ := h.next h₁ he.le hend₁
  have helement₁ := h₁.types.clear h.admits.wf hclear
  obtain ⟨u, s₂, hunify, h₂, ⟨hscopes₂, -⟩, hrun⟩ :=
    (hready₁.admits.unify (r := false) e.span helement₁ hclear₁).exists_of_run hrun
  have hready₂ := hready₁.same h₂ hscopes₂
  have helement₂ := h₂.types.clear h₁.types.wf helement₁
  have hF₂ := ((inferElements_allows (r := false) rest hrest hready₂ helement₂).ok hrun).1.types.trans hF
  refine (ihe he h hspares.left hinfer (h₂.types.trans hF₂) hb hpins).bind fun a' w₁ hle₁ hb₁ ha => ?_
  refine (hb₁.unify h₁.types.wf (hle₁.link helement) ha hunify hF₂).bind fun _ w₂ hle₂ hb₂ _ => ?_
  have hle := hle₁.trans hle₂
  exact ihrest hrest hready₂ helement₂ hspares.right hrun hF hb₂ (hle.all hpins)
    (hle.link helement)

theorem EntriesEcho.nil : EntriesEcho R F G [] := by
  intro pinned pinned' key key' value value' scope n n' s s' w u _ _ _ _ _ hrun _ hb _ _ _
  rw [inferEntries] at hrun
  cases hrun
  rw [relocateEntries, inferEntries]
  exact .pure hb trivial

/-- The key of the first entry, its value, then the other entries. -/
theorem EntriesEcho.cons {k v : Expr} {rest : List (Expr × Expr)} (ihk : k.Echoes R F G) (ihv : v.Echoes R F G)
    (ihrest : EntriesEcho R F G rest) : EntriesEcho R F G ((k, v) :: rest) := by
  rintro pinned pinned' key key' value value' scope n n' s s' w u ⟨m, m', hk, hv, hrest⟩ h hkey hvalue hspares hrun hF
    hb hpins hkeys hvalues
  rw [inferEntries] at hrun
  rw [relocateEntries, inferEntries]
  obtain ⟨a, s₁, hinferKey, h₁, ⟨hclear₁, hend₁⟩, hrun⟩ := (k.infer_allows (r := false) hk h).exists_of_run hrun
  have hready₁ := h.next h₁ hk.le hend₁
  have hkey₁ := h₁.types.clear h.admits.wf hkey
  obtain ⟨u, s₂, hunifyKey, h₂, ⟨hscopes₂, -⟩, hrun⟩ :=
    (hready₁.admits.unify (r := false) k.span hkey₁ hclear₁).exists_of_run hrun
  have hready₂ := hready₁.same h₂ hscopes₂
  obtain ⟨b, s₃, hinferValue, h₃, ⟨hclear₃, hend₃⟩, hrun⟩ := (v.infer_allows (r := false) hv hready₂).exists_of_run hrun
  have hready₃ := hready₂.next h₃ hv.le hend₃
  have hvalue₃ := ((h₁.trans h₂).trans h₃).types.clear h.admits.wf hvalue
  obtain ⟨u', s₄, hunifyValue, h₄, ⟨hscopes₄, -⟩, hrun⟩ :=
    (hready₃.admits.unify (r := false) v.span hvalue₃ hclear₃).exists_of_run hrun
  have hready₄ := hready₃.same h₄ hscopes₄
  have hkey₄ := ((h₂.trans h₃).trans h₄).types.clear h₁.types.wf hkey₁
  have hvalue₄ := h₄.types.clear h₃.types.wf hvalue₃
  have hF₄ := ((inferEntries_allows (r := false) rest hrest hready₄ hkey₄ hvalue₄).ok hrun).1.types.trans hF
  have hF₃ := h₄.types.trans hF₄
  have hF₂ := h₃.types.trans hF₃
  -- The key and the value are each made equal to the common types, which are linked.
  refine (ihk hk h hspares.left hinferKey (h₂.types.trans hF₂) hb hpins).bind fun a' w₁ hle₁ hb₁ ha => ?_
  refine (hb₁.unify h₁.types.wf (hle₁.link hkeys) ha hunifyKey hF₂).bind fun _ w₂ hle₂ hb₂ _ => ?_
  have hpins₂ := (hle₁.trans hle₂).all hpins
  refine (ihv hv hready₂ hspares.right.left hinferValue hF₃ hb₂ hpins₂).bind fun b' w₃ hle₃ hb₃ hb' => ?_
  have hle₁₃ := (hle₁.trans hle₂).trans hle₃
  refine (hb₃.unify h₃.types.wf (hle₁₃.link hvalues) hb' hunifyValue hF₄).bind fun _ w₄ hle₄ hb₄ _ => ?_
  have hle := hle₁₃.trans hle₄
  exact ihrest hrest hready₄ hkey₄ hvalue₄ hspares.right.right hrun hF hb₄ (hle.all hpins)
    (hle.link hkeys) (hle.link hvalues)

/-! ## The induction -/

mutual

/-- **Expressions** have linked types. By recursion on the expression, with the lemma for each kind. -/
theorem Expr.infer_echoes (ht : G.tidy) : ∀ e : Expr, e.Echoes R F G
  | .number _ => .number
  | .string _ _ => .string
  | .bool _ _ => .bool
  | .name _ _ => .name ht
  | .list _ items => .list (inferElements_echoes ht items)
  | .map _ entries => .map (inferEntries_echoes ht entries)
  | .tuple _ items => .tuple (inferExprs_echoes ht items)
  | .access _ left index => .access (left.infer_echoes ht) (index.infer_echoes ht)
  | .unary _ _ operand => .unary (operand.infer_echoes ht)
  | .binary _ _ left right => .binary (left.infer_echoes ht) (right.infer_echoes ht)
  | .call _ callee args => .call (callee.infer_echoes ht) (inferExprs_echoes ht args)
  | .lambda _ _ _ body => .lambda ht (body.infer_echoes ht)
  | .when _ cond yes no => .when (cond.infer_echoes ht) (yes.infer_echoes ht) (no.infer_echoes ht)
  | .assign _ _ value => .assign ht (value.infer_echoes ht)

theorem inferExprs_echoes (ht : G.tidy) : ∀ items : List Expr, ExprsEcho R F G items
  | [] => .nil
  | e :: rest => .cons (e.infer_echoes ht) (inferExprs_echoes ht rest)

theorem inferElements_echoes (ht : G.tidy) : ∀ items : List Expr, ElementsEcho R F G items
  | [] => .nil
  | e :: rest => .cons (e.infer_echoes ht) (inferElements_echoes ht rest)

theorem inferEntries_echoes (ht : G.tidy) : ∀ entries : List (Expr × Expr), EntriesEcho R F G entries
  | [] => .nil
  | (k, v) :: rest => .cons (k.infer_echoes ht) (v.infer_echoes ht) (inferEntries_echoes ht rest)

end

end TypeInference
