import TypeInference.Proofs.Inference.Naming
import TypeInference.Proofs.Inference.Quiet
import TypeInference.Proofs.Scoping.Mentions

/-!
# `Proofs.Inference.Filling` — no name is left without a type

Names get types in four ways: the declarations of a list of statements, the parameters of functions and those of
lambdas get theirs ahead of what is inside, and a name that is asked for while it has none gets a new variable. As
inference of a placed tree comes by every scope of the tree, each name in these scopes has a type in the end, but for
the labels, which never get one.

An arena only *ripens* on the way: it keeps its shape, a name that has a type goes on having one, and labels have what
they had. `FillsIn` says of a computation that the arena ripens along each of its runs, and which names have types at
the end. For a tree these are all names of the scopes that are its own.

## Contents
* `Scopes.Ripens`, `Scopes.Filled` — arenas on the way, and names that have types;
* `FillsIn`, with `FillsIn.bind`, `FillsIn.beside` and `FillsIn.inside` — computations that fill in types;
* `fills_setType`, `fills_resolve`, … — one lemma for each step that is not quiet;
* `predeclareAll_fills`, `setParamTypes_fills`, … — names one after another;
* `Expr.infer_fills`, `Stmt.infer_fills`, `inferStmts_fills` — trees.
-/

namespace TypeInference

open Scopes InferM

/-! ## Arenas on the way -/

/-- The name is none of the labels, so it gets a type in the course of inference. -/
def Scopes.Typeable (g : Scopes) (id : ScopeId) (name : String) : Prop :=
  ∀ symbol, g.symbolAt id name = some symbol → symbol.kind ≠ .label

/-- The shape is kept, names that have types go on having types, and labels have what they had. Which type a name
    has may change: an assignment can give a name another one, if it had none when the assignment began. -/
structure Scopes.Ripens (before after : Scopes) : Prop where
  shape : SameShape before after
  typed : ∀ {id name}, (before.typeAt id name).isSome → (after.typeAt id name).isSome
  label : ∀ {id name symbol}, before.symbolAt id name = some symbol → symbol.kind = .label →
    after.typeAt id name = before.typeAt id name

/-- Those of the names that the arena `g` has, except for labels, have types in the arena `after`. -/
def Scopes.Filled (g after : Scopes) (names : Set (ScopeId × String)) : Prop :=
  ∀ ⦃id name symbol⦄, (id, name) ∈ names → g.symbolAt id name = some symbol → symbol.kind ≠ .label →
    (after.typeAt id name).isSome

/-- All names of the scopes from number `n` up to, but not including, `n'`. For a placed tree these are the scopes
    that are its own. -/
def namesBetween (n n' : Nat) : Set (ScopeId × String) := {place | n ≤ place.1.index ∧ place.1.index < n'}

/-- Some names of one scope, as they are given when the scope is filled. -/
def namesIn (own : ScopeId) (names : List String) : Set (ScopeId × String) :=
  {place | place.1 = own ∧ place.2 ∈ names}

namespace Scopes

variable {g g' g'' : Scopes} {id : ScopeId} {name : String} {names names' : Set (ScopeId × String)}

/-! ### Arenas in sequence -/

theorem Ripens.refl (g : Scopes) : g.Ripens g := ⟨.refl g, fun htyped => htyped, fun _ _ => rfl⟩

theorem Ripens.trans (h : g.Ripens g') (h' : g'.Ripens g'') : g.Ripens g'' where
  shape := h.shape.trans h'.shape
  typed := fun htyped => h'.typed (h.typed htyped)
  label := fun hsymbol hkind => by
    obtain ⟨symbol', hsymbol', hkind'⟩ := h.shape.symbol hsymbol
    exact (h'.label hsymbol' (hkind'.trans hkind)).trans (h.label hsymbol hkind)

/-- A change of one symbol lets the arena ripen, if it takes no type away and gives none to a label. -/
theorem Ripens.of_update {change : Symbol → Symbol} (h : g.update id name change = .ok g')
    (hkind : ∀ symbol, (change symbol).kind = symbol.kind)
    (htyped : ∀ symbol, symbol.ty.isSome → (change symbol).ty.isSome)
    (hlabel : ∀ symbol, g.symbolAt id name = some symbol → symbol.kind = .label → (change symbol).ty = symbol.ty) :
    g.Ripens g' where
  shape := sameShape_of_update h hkind
  typed := fun {other n} hother => by
    rw [typeAt, symbolAt_of_update h]
    split
    · next he =>
      obtain ⟨rfl, rfl⟩ := he
      rw [typeAt] at hother
      cases hsymbol : g.symbolAt other name with
      | none => rw [hsymbol] at hother; cases hother
      | some symbol =>
        rw [hsymbol] at hother
        exact htyped symbol hother
    · exact hother
  label := fun {other n symbol} hsymbol hkind => by
    rw [typeAt, typeAt, symbolAt_of_update h]
    split
    · next he =>
      obtain ⟨rfl, rfl⟩ := he
      rw [hsymbol]
      exact hlabel symbol hsymbol hkind
    · rfl

theorem Filled.empty : g.Filled g' ∅ := fun _ _ _ hmem => absurd hmem (Set.notMem_empty _)

theorem Filled.ripens (h : g.Filled g' names) (hripens : g'.Ripens g'') : g.Filled g'' names :=
  fun _ _ _ hmem hsymbol hkind => hripens.typed (h hmem hsymbol hkind)

theorem Filled.union (h : g.Filled g' names) (h' : g.Filled g' names') : g.Filled g' (names ∪ names') :=
  fun _ _ _ hmem hsymbol hkind => hmem.elim (h · hsymbol hkind) (h' · hsymbol hkind)

end Scopes

/-! ## Computations that fill in types -/

section Combinators

variable {α β : Type} {g : Scopes} {m : InferM α} {next : α → InferM β} {names names' : Set (ScopeId × String)}
  {Q Q' : α → Prop} {P : β → Prop} {n k n' : Nat}

/-- Every run from an arena of the shape of `g` lets the arena ripen; one that ends leaves types for the names, and
    has a result in `Q`. For a run that stops only the ripening is promised. -/
def FillsIn (g : Scopes) (m : InferM α) (names : Set (ScopeId × String)) (Q : α → Prop) : Prop :=
  ∀ s : Inference, SameShape g s.scopes →
    Within (fun s s' => s.scopes.Ripens s'.scopes) (fun _ => True) m s fun a s' => g.Filled s'.scopes names ∧ Q a

theorem Quiet.fills (h : Quiet m Q) : FillsIn g m ∅ Q := fun s _ =>
  ((h s).relax fun _ hquiet => hquiet.1 ▸ .refl _).mono fun _ _ _ hQ => ⟨.empty, hQ⟩

namespace FillsIn

/-! ### Computations in sequence -/

/-- The names may be fewer, and only those that the arena has and that are no labels count. -/
theorem mono (h : FillsIn g m names' Q') (hnames : ∀ ⦃id name symbol⦄, (id, name) ∈ names →
    g.symbolAt id name = some symbol → symbol.kind ≠ .label → (id, name) ∈ names') (hQ : ∀ a, Q' a → Q a) :
    FillsIn g m names Q := fun s hs =>
  (h s hs).mono fun a _ _ hafter =>
    ⟨fun _ _ _ hmem hsymbol hkind => hafter.1 (hnames hmem hsymbol hkind) hsymbol hkind, hQ a hafter.2⟩

theorem fewer (h : FillsIn g m names' Q) (hnames : names ⊆ names') : FillsIn g m names Q :=
  h.mono (fun _ _ _ hmem _ _ => hnames hmem) fun _ hQ => hQ

theorem pure {a : α} (hQ : Q a) : FillsIn g (pure a) ∅ Q := (Quiet.pure hQ).fills

theorem refuse (cause : Cause) (span : Span) : FillsIn g (refuse cause span) names Q := fun _ _ =>
  .of_error rfl (.refl _) trivial

/-- **One computation, then another.** What the first has filled in is still there after the second. -/
theorem bind (h : FillsIn g m names Q) (hnext : ∀ a, Q a → FillsIn g (next a) names' P) :
    FillsIn g (m >>= next) (names ∪ names') P := fun s hs =>
  (h s hs).bind (fun h h' => Ripens.trans h h') fun a s' hripens hafter =>
    (hnext a hafter.2 s' (hs.trans hripens.shape)).mono fun _ _ hripens' hafter' =>
      ⟨(hafter.1.ripens hripens').union hafter'.1, hafter'.2⟩

theorem andThen (h : FillsIn g m names' Q) (hnext : ∀ a, Q a → FillsIn g (next a) names P) :
    FillsIn g (m >>= next) names P :=
  (h.bind hnext).fewer Set.subset_union_right

/-- A second computation that need not fill in anything. -/
theorem before (h : FillsIn g m names Q) (hnext : ∀ a, Q a → FillsIn g (next a) ∅ P) : FillsIn g (m >>= next) names P :=
  (h.bind hnext).fewer Set.subset_union_left

theorem after (h : Quiet m Q) (hnext : ∀ a, Q a → FillsIn g (next a) names P) : FillsIn g (m >>= next) names P :=
  h.fills.andThen hnext

/-! ## Trees side by side, and inside each other -/

/-- A tree without scopes of its own has no names to fill in. -/
theorem none (h : FillsIn g m names Q) (hle : n' = n) : FillsIn g m (namesBetween n n') Q := by
  refine h.fewer fun place hplace => ?_
  subst hle
  exact absurd hplace.2 (Nat.not_lt.mpr hplace.1)

/-- **Two trees side by side.** The scopes of the second come right after those of the first. -/
theorem beside (h : FillsIn g m (namesBetween n k) Q) (hnext : ∀ a, Q a → FillsIn g (next a) (namesBetween k n') P) :
    FillsIn g (m >>= next) (namesBetween n n') P := by
  refine (h.bind hnext).fewer fun place hplace => ?_
  rcases Nat.lt_or_ge place.1.index k with hlt | hle
  · exact .inl ⟨hplace.1, hlt⟩
  · exact .inr ⟨hle, hplace.2⟩

/-- **A scope and what is inside it.** First the names of the scope get types, but for labels, and then those of the
    scopes inside. -/
theorem inside {parent : ScopeId} {symbols declared : List (Ident × Symbol)} (hopened : g.Opened ⟨n⟩ parent symbols)
    (hdeclared : ∀ entry ∈ symbols, entry.2.kind ≠ .label → entry ∈ declared)
    (h : FillsIn g m (namesIn ⟨n⟩ (namesOf declared)) Q)
    (hnext : ∀ a, Q a → FillsIn g (next a) (namesBetween (n + 1) n') P) :
    FillsIn g (m >>= next) (namesBetween n n') P := by
  refine (h.bind hnext).mono (fun id name symbol hmem hsymbol hkind => ?_) fun _ hP => hP
  rcases Nat.eq_or_lt_of_le hmem.1 with heq | hlt
  · obtain rfl : id = ⟨n⟩ := by
      cases id
      exact congrArg ScopeId.mk heq.symm
    obtain ⟨entry, hentry, rfl, rfl⟩ := hopened.exists_of_symbolAt hsymbol
    exact .inl ⟨rfl, List.mem_map_of_mem (hdeclared entry hentry hkind)⟩
  · exact .inr ⟨hlt, hmem.2⟩

end FillsIn

end Combinators

/-! ## Steps -/

section Steps

variable {α : Type} {g : Scopes} {own scope : ScopeId} {name : String}

/-- A symbol that is found can be given a type unless it is a label. -/
theorem fills_resolve (scope : ScopeId) (name : Ident) :
    FillsIn g (resolve scope name) ∅ fun found => found.2.kind ≠ .label → g.Typeable found.1 name.name := by
  intro s hs
  have hrun := resolve_run scope name s
  cases hfound : s.scopes.resolve scope name with
  | error reason => exact .of_error (hrun.trans (by rw [hfound]; rfl)) (.refl _) trivial
  | ok found =>
    refine .of_ok (hrun.trans (by rw [hfound]; rfl)) (.refl _)
      ⟨.empty, fun hkind symbol hsymbol => ?_⟩
    obtain ⟨lookedUp, hlookup, hfound⟩ := exists_of_bind_eq_ok hfound
    cases lookedUp with
    | none => cases hfound
    | some lookedUp =>
      cases hfound
      obtain ⟨symbol', hsymbol', hsame⟩ := hs.symbol hsymbol
      have hat := symbolAt_of_lookup (Halt.ofQuery_eq_ok.mp hlookup)
      obtain rfl : found.2 = symbol' := Option.some.inj (hat.symm.trans hsymbol')
      rwa [← hsame]

/-- A change of a symbol fills in its name, if it always leaves a type. -/
theorem fills_update (change : Symbol → Symbol) (hkind : ∀ symbol, (change symbol).kind = symbol.kind)
    (htyped : ∀ symbol, symbol.ty.isSome → (change symbol).ty.isSome)
    (hlabel : g.Typeable scope name ∨ ∀ symbol, (change symbol).ty = symbol.ty) :
    FillsIn g (update scope name change)
      {place | place = (scope, name) ∧ ∀ symbol, (change symbol).ty.isSome} fun _ => True := by
  intro s hs
  have hrun := update_run scope name change s
  cases hchanged : s.scopes.update scope name change with
  | error fault =>
    rw [hchanged] at hrun
    exact .of_error hrun (.refl _) trivial
  | ok scopes =>
    rw [hchanged] at hrun
    refine .of_ok hrun (.of_update hchanged hkind htyped fun symbol hsymbol hislabel => ?_)
      ⟨fun id key symbol hmem hsymbol _ => ?_, trivial⟩
    · rcases hlabel with htypeable | hsame
      · obtain ⟨before, hbefore, hsame⟩ := hs.symm.symbol hsymbol
        exact absurd (hsame.trans hislabel) (htypeable before hbefore)
      · exact hsame symbol
    · obtain ⟨heq, hsome⟩ := hmem
      cases heq
      obtain ⟨symbol', hsymbol', -⟩ := hs.symbol hsymbol
      show (scopes.typeAt scope name).isSome
      rw [typeAt, symbolAt_of_update hchanged, if_pos ⟨rfl, rfl⟩, hsymbol']
      exact hsome symbol'

/-- **A name gets a type**, and is filled in by that. -/
theorem fills_setType (h : g.Typeable scope name) (ty : TypeId) :
    FillsIn g (setType scope name ty) {(scope, name)} fun _ => True :=
  (fills_update ({ · with ty := some ty }) (fun _ => rfl) (fun _ _ => rfl) (.inl h)).fewer fun _ hplace =>
    ⟨hplace, fun _ => rfl⟩

theorem fills_markInitialized (scope : ScopeId) (name : String) :
    FillsIn g (update scope name ({ · with initialized := true })) ∅ fun _ => True :=
  (fills_update ({ · with initialized := true }) (fun _ => rfl) (fun _ htyped => htyped) (.inr fun _ => rfl)).fewer
    (Set.empty_subset _)

/-- Asking for the type of a name may give it one. It is not counted here, as the name has its type from elsewhere. -/
theorem fills_typeOf (h : g.Typeable scope name) :
    ∀ declared : Option TypeId, FillsIn g (typeOf scope name declared) ∅ fun _ => True
  | some _ => .pure trivial
  | none => .after (quiet_create _) fun ty _ => (fills_setType h ty).andThen fun _ _ => .pure trivial

theorem fills_declaredType (h : g.Typeable scope name) : FillsIn g (declaredType scope name) ∅ fun _ => True :=
  .after (quiet_getLocal scope name) fun _ _ => fills_typeOf h _

/-- **A function's body** fills in what it fills in anywhere else. -/
theorem FillsIn.inFrame {body : InferM α} {names : Set (ScopeId × String)} (h : FillsIn g body names fun _ => True)
    (result : TypeId) : FillsIn g (withFrame result body) names fun _ => True := by
  intro s hs
  have hbody := h { s with frames := ⟨result, false⟩ :: s.frames } hs
  cases hrun : body { s with frames := ⟨result, false⟩ :: s.frames } with
  | error reason s' => exact .of_error (withFrame_of_error hrun) (hbody.error hrun).1 trivial
  | ok a s' =>
    obtain ⟨hripens, hfilled, -⟩ := hbody.ok hrun
    exact .of_ok (withFrame_of_ok hrun) hripens ⟨hfilled, trivial⟩

theorem fills_markReturned : FillsIn g markReturned ∅ fun _ => True
  | ⟨_, _, []⟩, _ | ⟨_, _, _ :: _⟩, _ =>
    .of_ok rfl (.refl _) ⟨.empty, trivial⟩

end Steps

/-! ## Names -/

section Names

variable {g : Scopes} {own parent : ScopeId}

theorem namesIn_nil (own : ScopeId) : namesIn own [] = ∅ := by
  ext place
  simp [namesIn]

theorem namesIn_append (own : ScopeId) (names names' : List String) :
    namesIn own (names ++ names') = namesIn own names ∪ namesIn own names' := by
  ext place
  simp [namesIn, and_or_left]

theorem namesIn_cons (own : ScopeId) (name : String) (names : List String) :
    namesIn own (name :: names) = {(own, name)} ∪ namesIn own names := by
  ext ⟨id, key⟩
  simp [namesIn, and_or_left]

theorem Param.kind_of_mem_symbols {params : List Param} :
    ∀ entry ∈ Param.symbols params, entry.2.kind ≠ .label := by
  intro entry hentry
  obtain ⟨p, -, rfl⟩ := List.mem_map.mp hentry
  exact fun hlabel => nomatch hlabel

theorem Stmt.kind_of_mem_symbols {stmt : Stmt} : ∀ entry ∈ stmt.symbols, entry.2.kind ≠ .label := by
  intro entry hentry hlabel
  have hdeclarable := Stmt.isDeclarable_of_mem_symbols entry hentry
  rw [hlabel] at hdeclarable
  cases hdeclarable

theorem kind_of_mem_flatMap_symbols {stmts : List Stmt} :
    ∀ entry ∈ stmts.flatMap Stmt.symbols, entry.2.kind ≠ .label := by
  intro entry hentry
  obtain ⟨stmt, -, hmem⟩ := List.mem_flatMap.mp hentry
  exact Stmt.kind_of_mem_symbols entry hmem

/-- Names that a scope has been opened for can be given types unless they are labels. -/
theorem Scopes.Opened.typeable {symbols declared : List (Ident × Symbol)} (h : g.Opened own parent symbols)
    (hsub : declared ⊆ symbols) (hkind : ∀ entry ∈ declared, entry.2.kind ≠ .label) :
    ∀ name ∈ namesOf declared, g.Typeable own name := by
  intro name hname symbol hsymbol
  obtain ⟨entry, hentry, rfl⟩ := List.mem_map.mp hname
  obtain rfl : entry.2 = symbol := Option.some.inj ((h.symbolAt_of_mem (hsub hentry)).symm.trans hsymbol)
  exact hkind entry hentry

theorem inferName_fills (scope : ScopeId) (name : Ident) (pinned : List TypeId) :
    FillsIn g (inferName scope name pinned) ∅ fun _ => True := by
  refine (fills_resolve scope name).andThen fun found htypeable => ?_
  dsimp only
  split
  · exact .refuse _ _
  · next hvalue =>
    have hkind : found.2.kind ≠ .label := fun hlabel => hvalue (.inl hlabel)
    exact (fills_typeOf (htypeable hkind) _).andThen fun ty _ => (quiet_instantiate pinned ty).fills

/-- Only a variable may be assigned, so never a label. -/
theorem assignable_fills (scope : ScopeId) (target : Ident) :
    FillsIn g (assignable scope target) ∅ fun found => g.Typeable found.1 target.name := by
  refine (fills_resolve scope target).andThen fun found htypeable => ?_
  dsimp only
  split
  · exact .refuse _ _
  · next hvar =>
    have hkind : found.2.kind ≠ .label := fun hlabel => hvar (by rw [hlabel]; exact fun he => nomatch he)
    split
    · exact .refuse _ _
    · exact .pure (htypeable hkind)

/-! ### Loops over names -/

/-- **Names one after another** all get types. -/
theorem nameAll_fills : ∀ written : List (String × Option Signature),
    (∀ name ∈ written.map Prod.fst, g.Typeable own name) →
    FillsIn g (nameAll own written) (namesIn own (written.map Prod.fst)) fun _ => True
  | [], _ => by
    rw [List.map_nil, namesIn_nil]
    exact .pure trivial
  | (name, signature) :: rest, htypeable => by
    obtain ⟨hfirst, hrest⟩ := List.forall_mem_cons.mp htypeable
    rw [nameAll, List.map_cons, namesIn_cons]
    exact .after (denoteOrNew_quiet own signature) fun ty _ => (fills_setType hfirst ty).bind fun _ _ =>
      (nameAll_fills rest hrest).before fun _ _ => .pure trivial

theorem typeParams_fills (params : List Param)
    (htypeable : ∀ name ∈ namesOf (Param.symbols params), g.Typeable own name) :
    FillsIn g (typeParams own params) (namesIn own (namesOf (Param.symbols params))) fun _ => True := by
  have hnames : namesOf (Param.symbols params) =
      (params.map fun p => (p.name.name, p.signature)).map Prod.fst := by
    simp [namesOf, Param.symbols]
  rw [hnames] at htypeable ⊢
  rw [typeParams_eq]
  exact nameAll_fills _ htypeable

/-- The parameters of a function all get types, if as many types are given as there are parameters. -/
theorem setParamTypes_fills : ∀ (params : List Param) (types : List TypeId), types.length = params.length →
    (∀ name ∈ namesOf (Param.symbols params), g.Typeable own name) →
    FillsIn g (setParamTypes own params types) (namesIn own (namesOf (Param.symbols params))) fun _ => True
  | [], _, _, _ => by
    rw [Param.symbols, List.map_nil, namesOf, List.map_nil, namesIn_nil]
    exact .pure trivial
  | p :: params, [], hlength, _ => nomatch hlength
  | p :: params, ty :: types, hlength, htypeable => by
    obtain ⟨hfirst, hrest⟩ := List.forall_mem_cons.mp htypeable
    rw [setParamTypes, Param.symbols, List.map_cons, namesOf, List.map_cons, namesIn_cons]
    exact (fills_setType hfirst ty).bind fun _ _ => setParamTypes_fills params types (Nat.succ.inj hlength) hrest

/-! ## Declarations -/

/-- Whatever is declared gets a type before its tree is looked at. -/
theorem Declaration.predeclare_fills : ∀ declaration : Declaration,
    (∀ name ∈ namesOf declaration.symbols, g.Typeable own name) →
    FillsIn g (declaration.predeclare own) (namesIn own (namesOf declaration.symbols)) fun _ => True
  | .vars kind defs, htypeable => by
    have hnames : namesOf (Declaration.vars kind defs).symbols =
        (defs.map fun d => (d.name.name, d.signature)).map Prod.fst := by
      simp [namesOf, Declaration.symbols]
    rw [hnames] at htypeable ⊢
    rw [Declaration.predeclare, predeclareVars_eq]
    exact (nameAll_fills _ htypeable).before fun _ _ => .pure trivial
  | .function name params result, htypeable => by
    rw [Declaration.predeclare, Declaration.symbols, namesOf, List.map_cons, namesIn_cons]
    exact .after (paramTypes_quiet own params) fun _ _ => .after (denoteOrNew_quiet own result) fun _ _ =>
      .after (quiet_create _) fun ty _ =>
        (fills_setType (htypeable _ List.mem_cons_self) ty).bind fun _ _ => (namesIn_nil own) ▸ .pure trivial
  | .type kind name, htypeable => by
    rw [Declaration.predeclare, Declaration.symbols, namesOf, List.map_cons, namesIn_cons]
    exact .after (quiet_create _) fun ty _ =>
      (fills_setType (htypeable _ List.mem_cons_self) ty).bind fun _ _ => (namesIn_nil own) ▸ .pure trivial

theorem Stmt.predeclare_fills (stmt : Stmt) (htypeable : ∀ name ∈ namesOf stmt.symbols, g.Typeable own name) :
    FillsIn g (stmt.predeclare own) (namesIn own (namesOf stmt.symbols)) fun _ => True := by
  unfold Stmt.predeclare
  unfold Stmt.symbols at htypeable ⊢
  generalize stmt.declaration? = declared at htypeable ⊢
  cases declared with
  | some declaration => exact declaration.predeclare_fills htypeable
  | none =>
    show FillsIn g (pure Pins.none) (namesIn own []) _
    rw [namesIn_nil]
    exact .pure trivial

/-- **Declarations** give types to all names that they declare. -/
theorem predeclareAll_fills : ∀ stmts : List Stmt,
    (∀ name ∈ namesOf (stmts.flatMap Stmt.symbols), g.Typeable own name) →
    FillsIn g (predeclareAll own stmts) (namesIn own (namesOf (stmts.flatMap Stmt.symbols))) fun _ => True
  | [], _ => by
    rw [List.flatMap_nil, namesOf, List.map_nil, namesIn_nil]
    exact .pure trivial
  | stmt :: rest, htypeable => by
    rw [List.flatMap_cons, namesOf_append, List.forall_mem_append] at htypeable
    rw [List.flatMap_cons, namesOf_append, namesIn_append, predeclareAll]
    exact (stmt.predeclare_fills htypeable.1).bind fun _ _ =>
      (predeclareAll_fills rest htypeable.2).before fun _ _ => .pure trivial

end Names

/-! ## Expressions -/

section Trees

variable {g : Scopes}

mutual

/-- **An expression** fills in the names of the scopes of its lambdas. By recursion on the expression, along the
    numbers of its scopes. -/
theorem Expr.infer_fills : ∀ (e : Expr) {pinned : List TypeId} {scope : ScopeId} {n n' : Nat},
    e.Placed g scope n n' → FillsIn g (e.infer pinned) (namesBetween n n') fun _ => True
  | .number _, _, _, _, _, ⟨_, he⟩ | .string _ _, _, _, _, _, ⟨_, he⟩ | .bool _ _, _, _, _, _, ⟨_, he⟩ => by
    rw [Expr.infer]
    exact .none (.after (quiet_requireScope _) fun _ _ => .pure trivial) he
  | .name _ id, pinned, _, _, _, ⟨_, he⟩ => by
    rw [Expr.infer]
    exact .none (.after (quiet_requireScope _) fun scope _ => inferName_fills scope id pinned) he
  | .list _ items, _, _, _, _, ⟨_, hitems⟩ => by
    rw [Expr.infer]
    exact .after (quiet_requireScope _) fun _ _ => .after (quiet_create _) fun element _ =>
      (inferElements_fills items hitems element).before fun _ _ => (quiet_create _).fills
  | .map _ entries, _, _, _, _, ⟨_, hentries⟩ => by
    rw [Expr.infer]
    exact .after (quiet_requireScope _) fun _ _ => .after (quiet_create _) fun key _ =>
      .after (quiet_create _) fun value _ =>
        (inferEntries_fills entries hentries key value).before fun _ _ => (quiet_create _).fills
  | .tuple _ items, _, _, _, _, ⟨_, hitems⟩ => by
    rw [Expr.infer]
    exact .after (quiet_requireScope _) fun _ _ => (inferExprs_fills items hitems).before fun _ _ =>
      (quiet_create _).fills
  | .access _ left index, _, _, _, _, ⟨_, _, hleft, hindex⟩ => by
    rw [Expr.infer]
    exact .after (quiet_requireScope _) fun _ _ => (left.infer_fills hleft).beside fun _ _ =>
      (index.infer_fills hindex).before fun _ _ => (quiet_consult _).fills
  | .unary _ op operand, _, _, _, _, ⟨_, hoperand⟩ => by
    rw [Expr.infer]
    exact .after (quiet_requireScope _) fun _ _ => (operand.infer_fills hoperand).before fun ty _ =>
      (inferUnary_quiet op ty _).fills
  | .binary _ op left right, _, _, _, _, ⟨_, _, hleft, hright⟩ => by
    rw [Expr.infer]
    exact .after (quiet_requireScope _) fun _ _ => (left.infer_fills hleft).beside fun leftType _ =>
      (right.infer_fills hright).before fun rightType _ => (inferBinary_quiet op leftType rightType _).fills
  | .call _ callee args, _, _, _, _, ⟨_, _, hcallee, hargs⟩ => by
    rw [Expr.infer]
    exact .after (quiet_requireScope _) fun _ _ => (callee.infer_fills hcallee).beside fun _ _ =>
      (inferExprs_fills args hargs).before fun _ _ => .after (quiet_create _) fun _ _ =>
        .after (quiet_create _) fun _ _ => .after (quiet_unify _ _ _) fun _ _ => .pure trivial
  -- A lambda gives types to its parameters, and its body to the names inside.
  | .lambda _ own params body, _, _, _, _, ⟨_, hown, hopened, hbody⟩ => by
    rw [Expr.infer]
    refine .after (quiet_requireScope _) fun _ _ => .after (quiet_recorded hown) ?_
    rintro _ rfl
    have htypeable := hopened.typeable (List.Subset.refl _) Param.kind_of_mem_symbols
    exact .inside hopened (fun _ hentry _ => hentry) (typeParams_fills params htypeable)
      fun types _ => (body.infer_fills hbody).before fun _ _ => (quiet_create _).fills
  | .when _ cond yes no, _, _, _, _, ⟨_, _, _, hcond, hyes, hno⟩ => by
    rw [Expr.infer]
    exact .after (quiet_requireScope _) fun _ _ => (cond.infer_fills hcond).beside fun _ _ =>
      .after (quiet_unify _ _ _) fun _ _ => (yes.infer_fills hyes).beside fun _ _ =>
        (no.infer_fills hno).before fun _ _ => .after (quiet_unify _ _ _) fun _ _ => .pure trivial
  | .assign _ target value, _, _, _, _, ⟨_, hvalue⟩ => by
    rw [Expr.infer]
    exact .after (quiet_requireScope _) fun scope _ => (assignable_fills scope target).andThen fun found htypeable =>
      (value.infer_fills hvalue).before fun _ _ => (fills_typeOf htypeable _).andThen fun _ _ =>
        .after (quiet_unify _ _ _) fun _ _ => (fills_markInitialized _ _).andThen fun _ _ => .pure trivial

theorem inferExprs_fills : ∀ (items : List Expr) {pinned : List TypeId} {scope : ScopeId} {n n' : Nat},
    PlacedExprs g scope items n n' → FillsIn g (inferExprs pinned items) (namesBetween n n') fun _ => True
  | [], _, _, _, _, he => by
    rw [inferExprs]
    exact .none (.pure trivial) he
  | e :: rest, _, _, _, _, ⟨_, he, hrest⟩ => by
    rw [inferExprs]
    exact (e.infer_fills he).beside fun _ _ => (inferExprs_fills rest hrest).before fun _ _ => .pure trivial

theorem inferElements_fills : ∀ (items : List Expr) {pinned : List TypeId} {scope : ScopeId} {n n' : Nat},
    PlacedExprs g scope items n n' → ∀ element : TypeId,
    FillsIn g (inferElements pinned element items) (namesBetween n n') fun _ => True
  | [], _, _, _, _, he, _ => by
    rw [inferElements]
    exact .none (.pure trivial) he
  | e :: rest, _, _, _, _, ⟨_, he, hrest⟩, element => by
    rw [inferElements]
    exact (e.infer_fills he).beside fun _ _ => .after (quiet_unify _ _ _) fun _ _ =>
      inferElements_fills rest hrest element

theorem inferEntries_fills : ∀ (entries : List (Expr × Expr)) {pinned : List TypeId} {scope : ScopeId} {n n' : Nat},
    PlacedEntries g scope entries n n' → ∀ keyType valueType : TypeId,
    FillsIn g (inferEntries pinned keyType valueType entries) (namesBetween n n') fun _ => True
  | [], _, _, _, _, he, _, _ => by
    rw [inferEntries]
    exact .none (.pure trivial) he
  | (key, value) :: rest, _, _, _, _, ⟨_, _, hkey, hvalue, hrest⟩, keyType, valueType => by
    rw [inferEntries]
    exact (key.infer_fills hkey).beside fun _ _ => .after (quiet_unify _ _ _) fun _ _ =>
      (value.infer_fills hvalue).beside fun _ _ => .after (quiet_unify _ _ _) fun _ _ =>
        inferEntries_fills rest hrest keyType valueType

end

/-! ## Statements -/

theorem inferCondition_fills {cond : Expr} {pinned : List TypeId} {scope : ScopeId} {n n' : Nat}
    (hcond : cond.Placed g scope n n') : FillsIn g (inferCondition pinned cond) (namesBetween n n') fun _ => True :=
  (cond.infer_fills hcond).before fun _ _ => (quiet_unify _ _ _).fills

/-- The first values of variables fill in what is inside them. -/
theorem inferDefs_fills : ∀ (defs : List VarDef) {pinned : List TypeId} {scope : ScopeId} {n n' : Nat},
    PlacedDefs g scope defs n n' → (∀ d ∈ defs, g.Typeable scope d.name.name) →
    FillsIn g (inferDefs scope pinned defs) (namesBetween n n') fun _ => True
  | [], _, _, _, _, he, _ => by
    rw [inferDefs]
    exact .none (.pure trivial) he
  | d :: rest, _, scope, _, _, ⟨_, hvalue, hrest⟩, htypeable => by
    obtain ⟨hfirst, htypeable⟩ := List.forall_mem_cons.mp htypeable
    rw [inferDefs]
    refine (fills_declaredType hfirst).andThen fun declared _ => ?_
    cases hd : d.value with
    | none =>
      rw [hd] at hvalue
      cases hvalue
      exact inferDefs_fills rest hrest htypeable
    | some value =>
      rw [hd] at hvalue
      replace hvalue : value.Placed g scope _ _ := hvalue
      exact (value.infer_fills hvalue).beside fun _ _ => .after (quiet_unify _ _ _) fun _ _ =>
        inferDefs_fills rest hrest htypeable

/-! ### Every form of statement -/

mutual

/-- **A statement** fills in the names of the scopes that are its own, those of the functions, labels, blocks and
    lambdas in it; what it declares in the scope it stands in has a type already. -/
theorem Stmt.infer_fills : ∀ (stmt : Stmt) {pinned : List TypeId} {scope : ScopeId} {n n' : Nat},
    stmt.Placed g scope n n' → (∀ name ∈ namesOf stmt.symbols, g.Typeable scope name) →
    FillsIn g (stmt.infer scope pinned) (namesBetween n n') fun _ => True
  | .vars _ kind defs, _, _, _, _, hdefs, htypeable => by
    rw [Stmt.infer]
    have hdeclared : ∀ d ∈ defs, g.Typeable _ d.name.name := fun d hd =>
      htypeable _ (List.mem_map_of_mem (List.mem_map_of_mem hd))
    exact (inferDefs_fills defs hdefs hdeclared).before fun _ _ => .pure trivial
  | .function _ name params _ body, _, _, _, _, ⟨hmark, hopened, hbody⟩, htypeable => by
    rw [Stmt.infer]
    refine .after (quiet_recorded hmark) ?_
    rintro _ rfl
    refine (fills_declaredType (htypeable _ List.mem_cons_self)).andThen fun ty _ => ?_
    refine .after (functionParts_quiet _ ty params.length) fun parts hlength => ?_
    have hparams := hopened.typeable (List.Subset.refl _) Param.kind_of_mem_symbols
    refine .inside hopened (fun _ hentry _ => hentry)
      (setParamTypes_fills params parts.1 hlength hparams) fun _ _ => ?_
    refine ((body.infer_fills hbody).inFrame parts.2).before fun returned _ => ?_
    cases returned with
    | true => exact .pure trivial
    | false => exact .after (quiet_unify _ _ _) fun _ _ => .pure trivial
  | .blueprint _ name body, _, _, _, _, hbody, htypeable | .trait _ name body, _, _, _, _, hbody, htypeable => by
    rw [Stmt.infer]
    exact (body.infer_fills hbody).before fun _ _ => fills_declaredType (htypeable _ List.mem_cons_self)
  | .struct _ name fields, _, scope, _, _, he, htypeable => by
    rw [Stmt.infer]
    exact .none (.after (inferFields_quiet scope [] fields) fun _ _ =>
      fills_declaredType (htypeable _ List.mem_cons_self)) he
  | .enum _ name variants, _, _, _, _, he, htypeable => by
    rw [Stmt.infer]
    exact .none (.after (checkVariants_quiet [] variants) fun _ _ =>
      fills_declaredType (htypeable _ List.mem_cons_self)) he
  | .label _ name stmt, _, _, _, _, ⟨hmark, hopened, hstmt⟩, _ => by
    rw [Stmt.infer]
    refine .after (quiet_recorded hmark) ?_
    rintro _ rfl
    have htypeable := hopened.typeable (List.subset_cons_self _ _) Stmt.kind_of_mem_symbols
    refine .inside hopened (fun entry hentry hkind => ?_) (stmt.predeclare_fills htypeable) fun pins _ =>
      stmt.infer_fills hstmt htypeable
    -- The label is the one name that is not declared by the statement.
    rcases List.mem_cons.mp hentry with rfl | hentry
    · exact absurd rfl hkind
    · exact hentry
  | .block body, _, _, _, _, hbody, _ => by
    rw [Stmt.infer]
    exact body.infer_fills hbody
  | .branch _ cond body elifs none, _, _, _, _, ⟨_, _, hcond, hbody, helifs⟩, _ => by
    rw [Stmt.infer]
    exact (inferCondition_fills hcond).beside fun _ _ => (body.infer_fills hbody).beside fun _ _ =>
      (inferElifs_fills elifs helifs).before fun _ _ => .pure trivial
  | .branch _ cond body elifs (some last), _, _, _, _, ⟨_, _, _, hcond, hbody, helifs, hlast⟩, _ => by
    rw [Stmt.infer]
    exact (inferCondition_fills hcond).beside fun _ _ => (body.infer_fills hbody).beside fun _ _ =>
      (inferElifs_fills elifs helifs).beside fun _ _ => last.infer_fills hlast
  | .loop _ cond body, _, _, _, _, ⟨_, hcond, hbody⟩, _ => by
    rw [Stmt.infer]
    exact (inferCondition_fills hcond).beside fun _ _ => body.infer_fills hbody
  | .ret span value, _, _, _, _, hvalue, _ => by
    rw [Stmt.infer]
    refine .after quiet_expectedResult? fun expected _ => ?_
    cases expected with
    | none => exact .refuse _ _
    | some expected =>
      have hreturn : ∀ actual, FillsIn g (do unify span expected actual; markReturned; pure TypeId.unit) ∅
          fun _ => True := fun actual =>
        .after (quiet_unify span expected actual) fun _ _ => fills_markReturned.andThen fun _ _ => .pure trivial
      cases value with
      | none => exact .none (hreturn .unit) hvalue
      | some value => exact (value.infer_fills hvalue).before fun actual _ => hreturn actual
  | .jump _ _ label, _, scope, _, _, he, _ => by
    rw [Stmt.infer]
    exact .none (.after (checkJump_quiet scope label) fun _ _ => .pure trivial) he
  | .expr e, _, _, _, _, he, _ => by
    rw [Stmt.infer]
    exact e.infer_fills he

theorem Block.infer_fills : ∀ (block : Block) {pinned : List TypeId} {scope : ScopeId} {n n' : Nat},
    block.Placed g scope n n' → FillsIn g (block.infer pinned) (namesBetween n n') fun _ => True
  | .mk _ stmts, _, _, _, _, ⟨hmark, hopened, hstmts⟩ => by
    rw [Block.infer]
    refine .after (quiet_recorded hmark) ?_
    rintro _ rfl
    have htypeable := hopened.typeable (List.Subset.refl _) kind_of_mem_flatMap_symbols
    exact .inside hopened (fun _ hentry _ => hentry) (predeclareAll_fills stmts htypeable)
      fun pins _ => (inferStmts_fills stmts hstmts htypeable pins).before fun _ _ => .pure trivial

/-- **Statements one after another** fill in what each of them does. -/
theorem inferStmts_fills : ∀ (stmts : List Stmt) {pinned : List TypeId} {scope : ScopeId} {n n' : Nat},
    PlacedStmts g scope stmts n n' → (∀ name ∈ namesOf (stmts.flatMap Stmt.symbols), g.Typeable scope name) →
    ∀ pins : Pins, FillsIn g (inferStmts scope pinned pins stmts) (namesBetween n n') fun _ => True
  | [], _, _, _, _, he, _, _ => by
    rw [inferStmts]
    exact .none (.pure trivial) he
  | stmt :: rest, _, scope, _, _, ⟨_, hstmt, hrest⟩, htypeable, pins => by
    rw [List.flatMap_cons, namesOf_append, List.forall_mem_append] at htypeable
    rw [inferStmts]
    exact (stmt.infer_fills hstmt htypeable.1).beside fun _ _ => .after (stmt.settle_quiet scope pins) fun pins' _ =>
      (inferStmts_fills rest hrest htypeable.2 pins').before fun _ _ => .pure trivial

theorem inferElifs_fills : ∀ (elifs : List Elif) {pinned : List TypeId} {scope : ScopeId} {n n' : Nat},
    PlacedElifs g scope elifs n n' → FillsIn g (inferElifs pinned elifs) (namesBetween n n') fun _ => True
  | [], _, _, _, _, he => by
    rw [inferElifs]
    exact .none (.pure trivial) he
  | .mk _ cond body :: rest, _, _, _, _, ⟨_, _, hcond, hbody, hrest⟩ => by
    rw [inferElifs]
    exact (inferCondition_fills hcond).beside fun _ _ => (body.infer_fills hbody).beside fun _ _ =>
      inferElifs_fills rest hrest

end

end Trees

end TypeInference
