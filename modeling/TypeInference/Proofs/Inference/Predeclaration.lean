import TypeInference.Proofs.Inference.Naming

/-!
# `Proofs.Inference.Predeclaration` — what is known before the first statement

Before a list of statements is looked at, each name it declares has got a type. The module says what that
leaves to work with: the types are clear, those of variables are pinned, those of functions are pinned and
different from each other, and each declaration has the trees it was written with (`Announced`).

## Contents
* `declarations`, `Declaration.Announced` — the declarations of statements, and what they promise;
* `Predeclared` — what is left when they have been given types;
* `Stmt.predeclare_allows`, `predeclareAll_allows` — predeclaration keeps to the guard.
-/

namespace TypeInference

open Store Scopes InferM Guard

variable {G : Guard} {r : Bool} {s s' s'' : Inference} {own : ScopeId}

/-! ## Declarations -/

/-- The declarations among statements, in their order. Statements that declare nothing are left out, since
    predeclaration passes over them. -/
def declarations (stmts : List Stmt) : List Declaration := stmts.filterMap Stmt.declaration?

/-- The names that declarations bring, of variables, functions and types alike. -/
def declaredNames (decls : List Declaration) : List String := namesOf (decls.flatMap Declaration.symbols)

/-- The names of the functions among declarations, in the order in which their types are pinned. -/
def functionNames : List Declaration → List String
  | [] => []
  | .function name _ _ :: rest => name.name :: functionNames rest
  | .vars _ _ :: rest => functionNames rest
  | .type _ _ :: rest => functionNames rest

@[simp] theorem declaredNames_append (decls decls' : List Declaration) :
    declaredNames (decls ++ decls') = declaredNames decls ++ declaredNames decls' := by
  simp [declaredNames, namesOf]

@[simp] theorem functionNames_append (decls decls' : List Declaration) :
    functionNames (decls ++ decls') = functionNames decls ++ functionNames decls' := by
  induction decls with
  | nil => rfl
  | cons decl rest ih => cases decl <;> simp [functionNames, ih]

/-- The functions are among the names that are brought. -/
theorem mem_declaredNames {decls : List Declaration} {name : String} (h : name ∈ functionNames decls) :
    name ∈ declaredNames decls := by
  induction decls with
  | nil => cases h
  | cons decl rest ih =>
    rw [declaredNames, List.flatMap_cons, namesOf, List.map_append, List.mem_append]
    cases decl with
    | function id _ _ =>
      rcases List.mem_cons.mp h with rfl | h
      · exact .inl List.mem_cons_self
      · exact .inr (ih h)
    | vars _ _ | type _ _ => exact .inr (ih h)

/-- The declaration of the first statement, if it is one, comes first. -/
theorem declarations_cons (stmt : Stmt) (rest : List Stmt) :
    declarations (stmt :: rest) = declarations [stmt] ++ declarations rest := by
  rw [declarations, declarations, declarations, ← List.filterMap_append]
  rfl

/-- The symbols of statements are those of their declarations, so opening a scope and predeclaring its statements
    are about the same names. -/
theorem flatMap_symbols (stmts : List Stmt) :
    stmts.flatMap Stmt.symbols = (declarations stmts).flatMap Declaration.symbols := by
  induction stmts with
  | nil => rfl
  | cons stmt rest ih =>
    rw [declarations_cons, List.flatMap_cons, List.flatMap_append, ih, Stmt.symbols]
    cases hdecl : stmt.declaration? <;> simp [declarations, hdecl]

/-- A statement that declares a type gives it one of the kinds of types. -/
theorem Stmt.isType_of_declaration? {stmt : Stmt} {kind : SymbolKind} {name : Ident}
    (h : stmt.declaration? = some (.type kind name)) : kind.isType = true := by
  cases stmt <;> cases h <;> rfl

/-! ### What a declaration promises -/

/-- The names that a declaration brings have the trees that are written. What is not written, a variable's type or
    the type of a parameter, may be any tree. -/
def Declaration.Announced (types : Store) (scopes : Scopes) (own : ScopeId) : Declaration → Prop
  | .vars _ defs => ∀ d ∈ defs, ∃ t, DeclaredAs types.tree scopes own d.name.name d.signature t
  | .function name params result =>
    ∃ trees t, DeclaredAs types.tree scopes own name.name none (.function trees t) ∧
      List.Forall₂ (fun p tree => ∀ sig, p.signature = some sig → tree = sig.tree) params trees ∧
      ∀ sig, result = some sig → t = sig.tree
  | .type _ name => DeclaredAs types.tree scopes own name.name none (.named name.name)

/-! ## After predeclaration -/

/-- A pinned type is one of a variable or one of a function. -/
theorem Pins.mem_all {pins : Pins} {ty : TypeId} : ty ∈ pins.all ↔ ty ∈ pins.vars ∨ ty ∈ pins.functions :=
  List.mem_append

/-- The declarations have been given types, and `pins` are those that are pinned. Variables have a pinned type each;
    the functions have the pinned ones in order, new and different from each other, so that each of them can be let
    go of by itself. What is said of the trees is said from now on, whatever is bound later. -/
structure Predeclared (G : Guard) (own : ScopeId) (decls : List Declaration) (pins : Pins)
    (s s' : Inference) : Prop where
  clear : ∀ ty ∈ pins.all, s'.types.Clear G.hidden ty
  fresh : ∀ m, own.index < m → s.Fresh m → s'.Fresh m
  others : ∀ key, key ∉ declaredNames decls → s'.scopes.typeAt own key = s.scopes.typeAt own key
  values : G.tidy → ∀ entry ∈ decls.flatMap Declaration.symbols, ∃ ty,
    s'.scopes.typeAt own entry.1.name = some ty ∧ (entry.2.kind = .var → ty ∈ pins.vars)
  functions : G.tidy → List.Forall₂ (fun name ty => s'.scopes.typeAt own name = some ty)
    (functionNames decls) pins.functions
  nodup : pins.functions.Nodup
  new : ∀ ty ∈ pins.functions, s.types.size ≤ ty.index
  announced : G.tidy → ∀ decl ∈ decls, Eventually ∅ s' fun types scopes => decl.Announced types scopes own

theorem Predeclared.nil : Predeclared G own [] .none s s where
  clear := by simp [Pins.none, Pins.all]
  fresh := fun _ _ => id
  others := fun _ _ => rfl
  values := by simp
  functions := fun _ => .nil
  nodup := List.nodup_nil
  new := by simp [Pins.none]
  announced := by simp

/-- **Declarations one after another.** The types of the second ones are new in the later state, so they differ from
    those of the first ones; the names differ since no name is declared twice. -/
theorem Predeclared.append {decls decls' : List Declaration} {pins pins' : Pins}
    (h : Predeclared G own decls pins s s') (hwf : s'.types.WellFormed) (hle : s.types.size ≤ s'.types.size)
    (hs : G.Step r s' s'') (h' : Predeclared G own decls' pins' s' s'') :
    Predeclared G own (decls ++ decls') (pins.append pins') s s'' where
  clear := fun ty hty => by
    have hmem : ty ∈ pins.all ∨ ty ∈ pins'.all := by
      simp only [Pins.append, Pins.all, List.mem_append] at hty ⊢
      tauto
    exact hmem.elim (fun hty => hs.types.clear hwf (h.clear ty hty)) (h'.clear ty)
  fresh := fun m hm hfresh => h'.fresh m hm (h.fresh m hm hfresh)
  others := fun key hkey => by
    rw [declaredNames_append, List.mem_append, not_or] at hkey
    exact (h'.others key hkey.2).trans (h.others key hkey.1)
  values := fun ht entry hentry => by
    rw [List.flatMap_append, List.mem_append] at hentry
    rcases hentry with hentry | hentry
    · obtain ⟨ty, hty, hvar⟩ := h.values ht entry hentry
      exact ⟨ty, hs.kept ht hty, fun hkind => List.mem_append_left _ (hvar hkind)⟩
    · obtain ⟨ty, hty, hvar⟩ := h'.values ht entry hentry
      exact ⟨ty, hty, fun hkind => List.mem_append_right _ (hvar hkind)⟩
  functions := fun ht => by
    rw [functionNames_append]
    exact List.rel_append ((h.functions ht).imp fun _ _ hty => hs.kept ht hty) (h'.functions ht)
  nodup := List.nodup_append.mpr ⟨h.nodup, h'.nodup, fun ty hty ty' hty' he =>
    Nat.lt_irrefl _ (((h.clear ty (Pins.mem_all.mpr (.inr hty))).lt.trans_le (h'.new ty' hty')).trans_eq
      (he ▸ rfl))⟩
  new := fun ty hty => (List.mem_append.mp hty).elim (h.new ty) fun hty => hle.trans (h'.new ty hty)
  announced := fun ht decl hdecl => (List.mem_append.mp hdecl).elim
    (fun hdecl => (h.announced ht decl hdecl).always ht hs) (h'.announced ht decl)

/-! ## Predeclaration -/

/-- The types of parameters are those that are written. A parameter without one gets a new variable, which is clear
    because nothing that is hidden is new. -/
theorem paramTypes_allows (hscope : own ∈ G.visible) : ∀ (params : List Param) {s : Inference}, G.Admits s →
    G.Allows r (paramTypes own params) s fun tys s' => (∀ ty ∈ tys, s'.types.Clear G.hidden ty) ∧
      s'.scopes = s.scopes ∧ Henceforth ∅ s'.types fun f =>
        List.Forall₂ (fun p tree => ∀ sig, p.signature = some sig → tree = sig.tree) params (tys.map f.tree)
  | [], s, h => h.pure ⟨by simp, rfl, fun _ _ => .nil⟩
  | p :: rest, s, h => by
    rw [paramTypes]
    apply Allows.bind (denoteOrNew_allows h hscope p.signature)
    intro ty s₁ h₁ hafter
    obtain ⟨hclear₁, hscopes₁, htree₁⟩ := hafter
    apply Allows.bind (paramTypes_allows hscope rest (h.step h₁))
    intro tys s₂ h₂ hafter
    obtain ⟨hclear₂, hscopes₂, htree₂⟩ := hafter
    refine ((h.step h₁).step h₂).pure ⟨?_, hscopes₂.trans hscopes₁, fun f hl => ?_⟩
    · exact List.forall_mem_cons.mpr ⟨h₂.types.clear h₁.types.wf hclear₁, hclear₂⟩
    · exact .cons (htree₁.always h₂.types f hl) (htree₂ f hl)

/-! ### One declaration

Each kind of declaration is looked at by itself. All three lemmas assume that the names have no types yet and are
used as they are (`Nameable`), and end in `Predeclared`. -/

/-- **Variables** get the types that are written, or new ones, and are pinned. By induction on the definitions: the
    names of the rest still have no types after the first. -/
theorem predeclareVars_allows (h : G.Admits s) {kind : VarKind} {defs : List VarDef}
    (hname : Nameable G own (namesOf (Declaration.vars kind defs).symbols) s) :
    G.Allows r ((Declaration.vars kind defs).predeclare own) s fun pins s' =>
      Predeclared G own [.vars kind defs] pins s s' := by
  have hnames : namesOf (Declaration.vars kind defs).symbols =
      (defs.map fun d => (d.name.name, d.signature)).map Prod.fst := by
    simp [namesOf, Declaration.symbols]
  rw [Declaration.predeclare, predeclareVars_eq]
  apply Allows.bind (nameAll_allows _ h (hnames ▸ hname))
  intro tys s₁ h₁ hafter
  obtain ⟨hnamed, hwritten⟩ := hafter
  refine (h.step h₁).pure
    { clear := by simpa [Pins.all] using hnamed.clear
      fresh := hnamed.fresh
      others := fun key hkey => hnamed.others key (by simpa [declaredNames, hnames] using hkey)
      values := fun ht entry hentry => ?_
      functions := fun _ => .nil
      nodup := List.nodup_nil
      new := by simp
      announced := fun ht decl hdecl types scopes hl => ?_ }
  · have hmem : entry.1.name ∈ namesOf (Declaration.vars kind defs).symbols :=
      List.mem_map_of_mem (by simpa using hentry)
    obtain ⟨ty, hty, hat⟩ := hnamed.exists_type ht (hnames ▸ hmem)
    exact ⟨ty, hat, fun _ => hty⟩
  · obtain rfl := List.mem_singleton.mp hdecl
    intro d hd
    obtain ⟨i, hi, rfl⟩ := List.getElem_of_mem hd
    have hall := List.forall₂_iff_get.mp (List.forall₂_map_left_iff.mp (hwritten ht types scopes hl))
    exact ⟨_, hall.2 i hi (hall.1 ▸ hi)⟩

/-- **A function** gets a type that is made for it, and that is pinned. That it is made for it is what makes the
    types of functions differ from each other, also where two of them are written alike. -/
theorem predeclareFunction_allows (h : G.Admits s) {name : Ident} {params : List Param} {result : Option Signature}
    (hname : Nameable G own (namesOf (Declaration.function name params result).symbols) s) :
    G.Allows r ((Declaration.function name params result).predeclare own) s fun pins s' =>
      Predeclared G own [.function name params result] pins s s' := by
  have hscope := hname.visible
  rw [Declaration.predeclare]
  apply Allows.bind (paramTypes_allows hscope params h)
  intro tys s₁ h₁ hafter
  obtain ⟨hclear₁, hscopes₁, htree₁⟩ := hafter
  have hadmits₁ := h.step h₁
  apply Allows.bind (denoteOrNew_allows hadmits₁ hscope result)
  intro res s₂ h₂ hafter
  obtain ⟨hclear₂, hscopes₂, htree₂⟩ := hafter
  have hadmits₂ := hadmits₁.step h₂
  apply Allows.bind (hadmits₂.function (fun a ha => h₂.types.clear h₁.types.wf (hclear₁ a ha)) hclear₂)
  intro ty s₃ h₃ hafter
  obtain ⟨hclear₃, hscopes₃, hnew, htree₃⟩ := hafter
  have hadmits₃ := hadmits₂.step h₃
  have hscopes : s₃.scopes = s.scopes := hscopes₃.trans (hscopes₂.trans hscopes₁)
  -- No scope has changed so far, so the name still has no type.
  have hname₃ : Nameable G own [name.name] s₃ := hname.rest (.refl _) fun _ _ => by rw [hscopes]
  apply Allows.bind (setType_named hadmits₃ hname₃ hclear₃)
  intro _ s₄ h₄ hafter
  obtain ⟨htypes₄, hnamed⟩ := hafter
  have hat : G.tidy → s₄.scopes.typeAt own name.name = some ty := fun ht =>
    (List.forall₂_cons.mp (hnamed.named ht)).1
  refine (hadmits₃.step h₄).pure
    { clear := by simpa [Pins.all] using hnamed.clear
      fresh := fun m hm hfresh => hnamed.fresh m hm (fresh_of_eq hscopes hfresh)
      others := fun key hkey => ?_
      values := fun ht entry hentry => ?_
      functions := fun ht => .cons (hat ht) .nil
      nodup := List.nodup_singleton ty
      new := fun a ha => ?_
      announced := fun ht decl hdecl types scopes hl => ?_ }
  · exact (hnamed.others key (by simpa [declaredNames, namesOf, Declaration.symbols] using hkey)).trans
      (by rw [hscopes])
  · obtain rfl : entry = (name, .declared .function name.span) := by
      simpa [Declaration.symbols] using hentry
    exact ⟨ty, hat ht, fun hkind => nomatch hkind⟩
  · obtain rfl := List.mem_singleton.mp ha
    rw [hnew]
    exact h₁.types.size_le.trans h₂.types.size_le
  · obtain rfl := List.mem_singleton.mp hdecl
    -- What holds from the making of the type on holds in every later store.
    have hnow : Henceforth ∅ s₃.types fun f => f.tree ty = .function (tys.map f.tree) (f.tree res) := htree₃
    have htree : types.tree ty = .function (tys.map types.tree) (types.tree res) :=
      hnow.always h₄.types types hl.types
    exact ⟨_, _, ⟨ty, hl.kept (hat ht), htree, by simp⟩,
      ((htree₁.always h₂.types).always h₃.types).always h₄.types types hl.types,
      (htree₂.always h₃.types).always h₄.types types hl.types⟩

/-- **A type** gets its name, and nothing is pinned, since a name has no variables. -/
theorem predeclareType_allows (h : G.Admits s) {kind : SymbolKind} {name : Ident} (hkind : kind.isType = true)
    (hname : Nameable G own (namesOf (Declaration.type kind name).symbols) s) :
    G.Allows r ((Declaration.type kind name).predeclare own) s fun pins s' =>
      Predeclared G own [.type kind name] pins s s' := by
  rw [Declaration.predeclare]
  apply Allows.bind (h.operator rfl (by exact rfl) (by simp))
  intro ty s₁ h₁ hafter
  obtain ⟨hclear₁, hscopes₁, _, htree₁⟩ := hafter
  have hname₁ : Nameable G own [name.name] s₁ := hname.rest (.refl _) fun _ _ => by rw [hscopes₁]
  -- The type is a name without components, so nothing is pinned for it.
  apply Allows.bind (setType_named (h.step h₁) hname₁ hclear₁)
  intro _ s₂ h₂ hafter
  obtain ⟨htypes₂, hnamed⟩ := hafter
  have hat : G.tidy → s₂.scopes.typeAt own name.name = some ty := fun ht =>
    (List.forall₂_cons.mp (hnamed.named ht)).1
  refine ((h.step h₁).step h₂).pure
    { clear := by simp [Pins.none, Pins.all]
      fresh := fun m hm hfresh => hnamed.fresh m hm (fresh_of_eq hscopes₁ hfresh)
      others := fun key hkey => ?_
      values := fun ht entry hentry => ?_
      functions := fun _ => .nil
      nodup := List.nodup_nil
      new := by simp [Pins.none]
      announced := fun ht decl hdecl types scopes hl => ?_ }
  · exact (hnamed.others key (by simpa [declaredNames, namesOf, Declaration.symbols] using hkey)).trans
      (by rw [hscopes₁])
  · obtain rfl : entry = (name, .declared kind name.span) := by simpa [Declaration.symbols] using hentry
    refine ⟨ty, hat ht, fun hvar => ?_⟩
    obtain rfl : kind = .var := hvar
    cases hkind
  · obtain rfl := List.mem_singleton.mp hdecl
    have hnow : Henceforth ∅ s₁.types fun f => f.tree ty = .named name.name := htree₁
    have htree : types.tree ty = .named name.name := hnow.always h₂.types types hl.types
    exact ⟨ty, hl.kept (hat ht), htree, by simp⟩

/-- **A declaration** gets its types, by the lemma for its kind. -/
theorem Declaration.predeclare_allows (h : G.Admits s) (decl : Declaration)
    (hkind : ∀ kind name, decl = .type kind name → kind.isType = true)
    (hname : Nameable G own (namesOf decl.symbols) s) :
    G.Allows r (decl.predeclare own) s fun pins s' => Predeclared G own [decl] pins s s' := by
  cases decl with
  | vars kind defs => exact predeclareVars_allows h hname
  | function name params result => exact predeclareFunction_allows h hname
  | type kind name => exact predeclareType_allows h (hkind kind name rfl) hname

/-- A statement's declaration, if it is one. A statement that declares nothing changes nothing. -/
theorem Stmt.predeclare_allows (h : G.Admits s) (stmt : Stmt)
    (hname : Nameable G own (namesOf stmt.symbols) s) :
    G.Allows r (stmt.predeclare own) s fun pins s' => Predeclared G own (declarations [stmt]) pins s s' := by
  rw [Stmt.predeclare, declarations]
  rw [Stmt.symbols] at hname
  cases hdecl : stmt.declaration? with
  | none => simpa [hdecl] using h.pure .nil
  | some decl =>
    rw [hdecl] at hname
    simpa [hdecl] using decl.predeclare_allows h
      (fun kind name he => Stmt.isType_of_declaration? (he ▸ hdecl)) hname

/-! ### All declarations -/

/-- The first statement declares its names. The names that are left are other ones, so they still have no types. -/
theorem Nameable.stmt {stmt : Stmt} {rest : List Stmt}
    (h : Nameable G own (namesOf ((stmt :: rest).flatMap Stmt.symbols)) s) :
    Nameable G own (namesOf stmt.symbols) s ∧
      ∀ {s' : Inference} {pins : Pins}, Predeclared G own (declarations [stmt]) pins s s' →
        Nameable G own (namesOf (rest.flatMap Stmt.symbols)) s' := by
  rw [List.flatMap_cons, namesOf_append] at h
  refine ⟨h.rest (List.sublist_append_left _ _) fun _ _ => rfl, fun hpre => ?_⟩
  refine h.rest (List.sublist_append_right _ _) fun key hkey => hpre.others key fun hmem => ?_
  rw [declaredNames, ← flatMap_symbols] at hmem
  exact List.disjoint_of_nodup_append h.nodup (by simpa using hmem) hkey

/-- **All declarations of a list of statements** get their types. By induction on the list, with
    `Predeclared.append` for what has been done and `Nameable.stmt` for what is left to do. -/
theorem predeclareAll_allows : ∀ (stmts : List Stmt) {s : Inference}, G.Admits s →
    Nameable G own (namesOf (stmts.flatMap Stmt.symbols)) s →
    G.Allows r (predeclareAll own stmts) s fun pins s' => Predeclared G own (declarations stmts) pins s s'
  | [], s, h, _ => h.pure .nil
  | stmt :: rest, s, h, hname => by
    obtain ⟨hfirst, hrest⟩ := hname.stmt
    rw [predeclareAll]
    apply Allows.bind (stmt.predeclare_allows h hfirst)
    intro pins s₁ h₁ hpre₁
    apply Allows.bind (predeclareAll_allows rest (h.step h₁) (hrest hpre₁))
    intro pins' s₂ h₂ hpre₂
    rw [declarations_cons]
    exact ((h.step h₁).step h₂).pure (hpre₁.append h₁.types.wf h₁.types.size_le h₂ hpre₂)

end TypeInference
