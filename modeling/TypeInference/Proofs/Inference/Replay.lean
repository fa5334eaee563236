import TypeInference.Proofs.Inference.Embedding

/-!
# `Proofs.Inference.Replay` — trees are looked at alike

What inference does with a tree depends on the state only in ways that an embedding keeps. So the same tree can
be looked at in the larger state, where foreign types are pinned as well: if the one run ends, so does the other,
with the corresponding type. The scopes that a tree opens are not the global one, so no name of theirs is an
added one; statements that stand in the global scope itself must not declare added names.

## Contents
* `Expr.infer_replays` — expressions;
* `Stmt.infer_replays`, `Block.infer_replays` — statements and blocks.
-/

namespace TypeInference

open InferM TypeInference.Embedding

variable {E : Embedding} {g : Scopes}

/-! ## Expressions -/

/-! ### Names -/

/-- A name that is used has a copy of the corresponding type, with the corresponding variables shared. -/
theorem inferName_replays {pinned pinned' : List TypeId} (hpins : E.Pins pinned pinned') (scope : ScopeId)
    (name : Ident) :
    E.Replays (inferName scope name pinned) (inferName scope name pinned') fun ty ty' => ty' = E.apply ty := by
  refine (resolve_replays scope name).bind ?_
  rintro ⟨owner, symbol⟩ _ ⟨rfl, hname, hlacks⟩
  dsimp only
  split
  · exact .throw
  · next hvalue =>
    rw [if_neg (show ¬ ((symbol.rename E.apply).kind = .label ∨ (symbol.rename E.apply).kind.isType) from hvalue)]
    refine (typeOf_replays hname hlacks).bind ?_
    rintro ty _ rfl
    exact instantiate_replays hpins ty

/-- A name that may be assigned is found in the same scope; it is no added one, and if it has no type yet it is none
    of the global scope, where all names have types. -/
theorem assignable_replays (scope : ScopeId) (target : Ident) :
    E.Replays (assignable scope target) (assignable scope target) fun found found' =>
      found' = (found.1, found.2.map E.apply) ∧ E.Owns found.1 target.name ∧
        (found.2 = none → E.Lacks found.1 target.name) := by
  refine (resolve_replays scope target).bind ?_
  rintro ⟨owner, symbol⟩ _ ⟨rfl, hname, hlacks⟩
  dsimp only
  split
  · exact .throw
  · next hvar =>
    rw [if_neg (show ¬ (symbol.rename E.apply).kind ≠ .var from hvar)]
    split
    · exact .throw
    · next hmutable =>
      rw [if_neg (show ¬ (!(symbol.rename E.apply).mutable && (symbol.rename E.apply).initialized) = true
        from hmutable)]
      exact .pure ⟨rfl, hname, hlacks⟩

mutual

/-- **Expressions are looked at alike.** By recursion on the expression. In each case both runs take the same steps,
    and what the steps give to each other corresponds; the scope of a lambda is not the global one, so the types of
    its parameters may be recorded. -/
theorem Expr.infer_replays {pinned pinned' : List TypeId} (hpins : E.Pins pinned pinned') :
    ∀ (e : Expr) {scope : ScopeId} {n n' : Nat}, e.Placed g scope n n' → E.global.index < n →
      E.Replays (e.infer pinned) (e.infer pinned') fun ty ty' => ty' = E.apply ty
  | .number mark, _, _, _, _, _ | .string mark _, _, _, _, _, _ | .bool mark _, _, _, _, _, _ => by
    rw [Expr.infer, Expr.infer]
    exact (requireScope_replays mark).bind fun _ _ _ => .pure (E.primitive (by decide)).symm
  | .name mark id, _, _, _, _, _ => by
    rw [Expr.infer, Expr.infer]
    refine (requireScope_replays mark).bind ?_
    rintro _ scope ⟨rfl, -⟩
    exact inferName_replays hpins scope id
  | .list mark items, _, _, _, ⟨_, hitems⟩, hn => by
    rw [Expr.infer, Expr.infer]
    refine (requireScope_replays mark).bind fun _ _ _ => ?_
    refine newVar_replays.bind ?_
    rintro element _ rfl
    refine (inferElements_replays hpins element items hitems hn).bind fun _ _ _ => ?_
    exact operator_replays .list [element]
  | .map mark entries, _, _, _, ⟨_, hentries⟩, hn => by
    rw [Expr.infer, Expr.infer]
    refine (requireScope_replays mark).bind fun _ _ _ => ?_
    refine newVar_replays.bind ?_
    rintro key _ rfl
    refine newVar_replays.bind ?_
    rintro value _ rfl
    refine (inferEntries_replays hpins key value entries hentries hn).bind fun _ _ _ => ?_
    exact operator_replays .map [key, value]
  | .tuple mark items, _, _, _, ⟨_, hitems⟩, hn => by
    rw [Expr.infer, Expr.infer]
    refine (requireScope_replays mark).bind fun _ _ _ => ?_
    refine (inferExprs_replays hpins items hitems hn).bind ?_
    rintro types _ rfl
    have h := operator_replays (E := E) (.tuple types.length) types
    unfold Store.tuple
    rwa [List.length_map]
  | .access mark left index, _, _, _, ⟨_, _, hleft, hindex⟩, hn => by
    rw [Expr.infer, Expr.infer]
    refine (requireScope_replays mark).bind fun _ _ _ => ?_
    refine (left.infer_replays hpins hleft hn).bind ?_
    rintro leftType _ rfl
    refine (index.infer_replays hpins hindex (hn.trans_le hleft.le)).bind ?_
    rintro indexType _ rfl
    exact access_replays leftType indexType mark.span index.span
  | .unary mark op operand, _, _, _, ⟨_, hoperand⟩, hn => by
    rw [Expr.infer, Expr.infer]
    refine (requireScope_replays mark).bind fun _ _ _ => ?_
    refine (operand.infer_replays hpins hoperand hn).bind ?_
    rintro operandType _ rfl
    exact inferUnary_replays op operandType mark.span
  | .binary mark op left right, _, _, _, ⟨_, _, hleft, hright⟩, hn => by
    rw [Expr.infer, Expr.infer]
    refine (requireScope_replays mark).bind fun _ _ _ => ?_
    refine (left.infer_replays hpins hleft hn).bind ?_
    rintro leftType _ rfl
    refine (right.infer_replays hpins hright (hn.trans_le hleft.le)).bind ?_
    rintro rightType _ rfl
    exact inferBinary_replays op leftType rightType mark.span
  | .call mark callee args, _, _, _, ⟨_, _, hcallee, hargs⟩, hn => by
    rw [Expr.infer, Expr.infer]
    refine (requireScope_replays mark).bind fun _ _ _ => ?_
    refine (callee.infer_replays hpins hcallee hn).bind ?_
    rintro calleeType _ rfl
    refine (inferExprs_replays hpins args hargs (hn.trans_le hcallee.le)).bind ?_
    rintro argTypes _ rfl
    refine newVar_replays.bind ?_
    rintro result _ rfl
    refine (function_replays argTypes result).bind ?_
    rintro expected _ rfl
    exact (unify_replays mark.span calleeType expected).bind fun _ _ _ => .pure rfl
  | .lambda mark own params body, _, _, _, ⟨_, hown, _, hbody⟩, hn => by
    rw [Expr.infer, Expr.infer]
    refine (requireScope_replays mark).bind fun _ _ _ => ?_
    refine (requireScope_replays { mark with scope := own }).bind ?_
    rintro inner _ ⟨rfl, hinner⟩
    -- The scope of the parameters is one that the tree has opened.
    obtain rfl := Option.some.inj (hown.symm.trans hinner)
    have hne : _ ≠ E.global := fun he => absurd (congrArg ScopeId.index he) hn.ne'
    refine ((E.parallel _).typeParams params (records hne _)).bind ?_
    rintro types _ ⟨rfl, -⟩
    -- In the body the types of the parameters are pinned, on both sides.
    refine (body.infer_replays (hpins.append (.map _ types)) hbody (hn.trans (Nat.lt_succ_self _))).bind ?_
    rintro result _ rfl
    exact function_replays types result
  | .when mark cond yes no, _, _, _, ⟨_, _, _, hcond, hyes, hno⟩, hn => by
    rw [Expr.infer, Expr.infer]
    refine (requireScope_replays mark).bind fun _ _ _ => ?_
    refine (cond.infer_replays hpins hcond hn).bind ?_
    rintro condType _ rfl
    refine (unifyOr_primitive_replays _ _ condType (by decide)).bind fun _ _ _ => ?_
    refine (yes.infer_replays hpins hyes (hn.trans_le hcond.le)).bind ?_
    rintro yesType _ rfl
    refine (no.infer_replays hpins hno (hn.trans_le (hcond.le.trans hyes.le))).bind ?_
    rintro noType _ rfl
    exact (unify_replays mark.span yesType noType).bind fun _ _ _ => .pure rfl
  | .assign mark target value, _, _, _, ⟨_, hvalue⟩, hn => by
    rw [Expr.infer, Expr.infer]
    refine (requireScope_replays mark).bind ?_
    rintro _ scope ⟨rfl, -⟩
    refine (assignable_replays scope target).bind ?_
    -- What is assigned is no added name, so its symbol may be changed.
    rintro ⟨owner, declared⟩ _ ⟨rfl, hname, hlacks⟩
    refine (value.infer_replays hpins hvalue hn).bind ?_
    rintro actual _ rfl
    refine (typeOf_replays hname hlacks).bind ?_
    rintro declared _ rfl
    refine (unify_replays value.span declared actual).bind fun _ _ _ => ?_
    exact (initialize_replays hname).bind fun _ _ _ => .pure rfl

theorem inferExprs_replays {pinned pinned' : List TypeId} (hpins : E.Pins pinned pinned') :
    ∀ (items : List Expr) {scope : ScopeId} {n n' : Nat}, PlacedExprs g scope items n n' → E.global.index < n →
      E.Replays (inferExprs pinned items) (inferExprs pinned' items) fun tys tys' => tys' = tys.map E.apply
  | [], _, _, _, _, _ => .pure rfl
  | e :: rest, _, _, _, ⟨_, he, hrest⟩, hn => by
    rw [inferExprs, inferExprs]
    refine (e.infer_replays hpins he hn).bind ?_
    rintro ty _ rfl
    refine (inferExprs_replays hpins rest hrest (hn.trans_le he.le)).bind ?_
    rintro tys _ rfl
    exact .pure rfl

/-- The items of a list, whose common type is given by a new variable on both sides. -/
theorem inferElements_replays {pinned pinned' : List TypeId} (hpins : E.Pins pinned pinned') (element : TypeId) :
    ∀ (items : List Expr) {scope : ScopeId} {n n' : Nat}, PlacedExprs g scope items n n' → E.global.index < n →
      E.Replays (inferElements pinned element items) (inferElements pinned' (E.apply element) items)
        fun _ _ => True
  | [], _, _, _, _, _ => .pure trivial
  | e :: rest, _, _, _, ⟨_, he, hrest⟩, hn => by
    rw [inferElements, inferElements]
    refine (e.infer_replays hpins he hn).bind ?_
    rintro ty _ rfl
    refine (unify_replays e.span element ty).bind fun _ _ _ => ?_
    exact inferElements_replays hpins element rest hrest (hn.trans_le he.le)

theorem inferEntries_replays {pinned pinned' : List TypeId} (hpins : E.Pins pinned pinned')
    (key value : TypeId) :
    ∀ (entries : List (Expr × Expr)) {scope : ScopeId} {n n' : Nat}, PlacedEntries g scope entries n n' →
      E.global.index < n →
      E.Replays (inferEntries pinned key value entries)
        (inferEntries pinned' (E.apply key) (E.apply value) entries) fun _ _ => True
  | [], _, _, _, _, _ => .pure trivial
  | (k, v) :: rest, _, _, _, ⟨_, _, hk, hv, hrest⟩, hn => by
    rw [inferEntries, inferEntries]
    refine (k.infer_replays hpins hk hn).bind ?_
    rintro keyType _ rfl
    refine (unify_replays k.span key keyType).bind fun _ _ _ => ?_
    refine (v.infer_replays hpins hv (hn.trans_le hk.le)).bind ?_
    rintro valueType _ rfl
    refine (unify_replays v.span value valueType).bind fun _ _ _ => ?_
    exact inferEntries_replays hpins key value rest hrest (hn.trans_le (hk.le.trans hv.le))

end

/-! ## Parts of statements -/

/-- The first values of variables. The variables may be global names, as long as they are not added ones. -/
theorem inferDefs_replays {pinned pinned' : List TypeId} (hpins : E.Pins pinned pinned') :
    ∀ (defs : List VarDef) {scope : ScopeId} {n n' : Nat}, PlacedDefs g scope defs n n' → E.global.index < n →
      (∀ d ∈ defs, E.Owns scope d.name.name) →
      E.Replays (inferDefs scope pinned defs) (inferDefs scope pinned' defs) fun _ _ => True
  | [], _, _, _, _, _, _ => .pure trivial
  | d :: rest, scope, _, _, ⟨_, hd, hrest⟩, hn, hnames => by
    rw [inferDefs, inferDefs]
    refine (declaredType_replays (hnames d List.mem_cons_self)).bind ?_
    rintro declared _ rfl
    have hafter := inferDefs_replays hpins rest hrest (hn.trans_le (PlacedOption.le hd)) fun d' hd' =>
      hnames d' (List.mem_cons_of_mem _ hd')
    cases hvalue : d.value with
    | none => exact hafter
    | some value =>
      rw [hvalue] at hd
      refine (value.infer_replays hpins hd hn).bind ?_
      rintro actual _ rfl
      exact (unify_replays d.span declared actual).bind fun _ _ _ => hafter

/-- The fields of a struct; only their signatures and names are looked at. -/
theorem inferFields_replays (scope : ScopeId) : ∀ (fields : List Field) (seen : List String),
    E.Replays (inferFields scope seen fields) (inferFields scope seen fields) fun _ _ => True
  | [], _ => .pure trivial
  | f :: rest, seen => by
    rw [inferFields]
    split
    · exact .throw
    · exact ((E.parallel scope).denote f.signature).bind fun _ _ _ => inferFields_replays scope rest _

theorem checkVariants_replays : ∀ (variants : List Ident) (seen : List String),
    E.Replays (checkVariants seen variants) (checkVariants seen variants) fun _ _ => True
  | [], _ => .pure trivial
  | v :: rest, seen => by
    rw [checkVariants]
    split
    · exact .throw
    · exact checkVariants_replays rest _

/-- A jump that finds its label finds it in the larger arena as well. -/
theorem checkJump_replays (scope : ScopeId) (label : Option Ident) :
    E.Replays (checkJump scope label) (checkJump scope label) fun _ _ => True := by
  cases label with
  | none => exact .pure trivial
  | some label =>
    refine (resolve_replays scope label).bind ?_
    rintro ⟨owner, symbol⟩ _ ⟨rfl, -, -⟩
    dsimp only
    split
    · exact .throw
    · next hlabel =>
      rw [if_neg (show ¬ (symbol.rename E.apply).kind ≠ .label from hlabel)]
      exact .pure trivial

theorem inferCondition_replays {pinned pinned' : List TypeId} (hpins : E.Pins pinned pinned') (cond : Expr)
    {scope : ScopeId} {n n' : Nat} (hcond : cond.Placed g scope n n') (hn : E.global.index < n) :
    E.Replays (inferCondition pinned cond) (inferCondition pinned' cond) fun _ _ => True := by
  refine (cond.infer_replays hpins hcond hn).bind ?_
  rintro ty _ rfl
  exact unifyOr_primitive_replays _ _ ty (by decide)

/-- As many new variables on both sides, which correspond one by one. -/
theorem newVars_replays : ∀ count : Nat,
    E.Replays (newVars count) (newVars count) fun tys tys' => tys' = tys.map E.apply
  | 0 => .pure rfl
  | count + 1 => by
    rw [newVars]
    refine newVar_replays.bind ?_
    rintro ty _ rfl
    refine (newVars_replays count).bind ?_
    rintro tys _ rfl
    exact .pure rfl

/-! ### Functions -/

/-- The parts of a function's type that are known ahead: they correspond if the type is a function already, and are
    new on both sides if it is not. -/
theorem functionParts_replays (span : Span) (ty : TypeId) (arity : Nat) :
    E.Replays (functionParts span ty arity) (functionParts span (E.apply ty) arity) fun parts parts' =>
      parts' = (parts.1.map E.apply, E.apply parts.2) := by
  have hoperator : E.Replays (query (·.operator? ty)) (query (·.operator? (E.apply ty))) fun found found' =>
      found' = found.map fun parts => (parts.1, parts.2.map E.apply) :=
    query_replays fun _ _ hst _ hfound => ⟨_, hst.operator? hfound, rfl⟩
  -- Where the type is no function of so many parameters, new parts are made.
  have hnew : E.Replays
      (do
        let params ← newVars arity
        let result ← create Store.newVar
        let expected ← create (Store.function params result)
        unify span ty expected
        pure (params, result))
      (do
        let params ← newVars arity
        let result ← create Store.newVar
        let expected ← create (Store.function params result)
        unify span (E.apply ty) expected
        pure (params, result)) fun parts parts' => parts' = (parts.1.map E.apply, E.apply parts.2) := by
    refine (newVars_replays arity).bind ?_
    rintro params _ rfl
    refine newVar_replays.bind ?_
    rintro result _ rfl
    refine (function_replays params result).bind ?_
    rintro expected _ rfl
    exact (unify_replays span ty expected).bind fun _ _ _ => .pure rfl
  unfold functionParts
  refine hoperator.bind ?_
  rintro found _ rfl
  match found with
  | some (.function, args) =>
    dsimp only [Option.map_some]
    rw [List.length_map]
    by_cases hlength : args.length = arity + 1
    · rw [if_pos hlength, if_pos hlength, List.getLast?_map]
      cases hlast : args.getLast? with
      | none => exact hnew
      | some last => exact .pure (by rw [List.map_dropLast])
    · rw [if_neg hlength, if_neg hlength]
      exact hnew
  | none | some (.number, _) | some (.bool, _) | some (.string, _) | some (.unit, _) | some (.list, _)
  | some (.map, _) | some (.tuple _, _) | some (.named _, _) => exact hnew

/-- The types of parameters are recorded in the scope of a function, which is not the global one. -/
theorem setParamTypes_replays {own : ScopeId} (hown : own ≠ E.global) : ∀ (params : List Param) (tys : List TypeId),
    E.Replays (setParamTypes own params tys) (setParamTypes own params (tys.map E.apply)) fun _ _ => True
  | p :: params, ty :: tys => by
    rw [List.map_cons, setParamTypes, setParamTypes]
    refine (setType_replays (fun he => absurd he hown) (fun he => absurd he hown) ty).bind fun _ _ _ => ?_
    exact setParamTypes_replays hown params tys
  | [], tys => by
    cases tys <;> exact .pure trivial
  | _ :: _, [] => .pure trivial

/-! ## Statements -/

/-! ### Lists of statements

Programs are looked at one after another here and as one list elsewhere, so a list has to be taken apart at a place
in the middle. What goes over from the first part to the second, besides the state, is which types are still pinned. -/

/-- A list of statements of which further ones may follow: the types of the statements, and the pins that are
    left. -/
def inferSegment (scope : ScopeId) (pinned : List TypeId) : Pins → List Stmt → InferM (List TypeId × Pins)
  | pins, [] => pure ([], pins)
  | pins, stmt :: rest => do
    let ty ← stmt.infer scope (pinned ++ pins.all)
    let pins ← stmt.settle scope pins
    let (tys, pins) ← inferSegment scope pinned pins rest
    pure (ty :: tys, pins)

/-- **Statements are looked at one list after another.** What the first list passes on is its pins, for the states
    are passed on anyway. -/
theorem inferStmts_append (scope : ScopeId) (pinned : List TypeId) (more : List Stmt) :
    ∀ (stmts : List Stmt) (pins : Pins), inferStmts scope pinned pins (stmts ++ more) = (do
      let (tys, pins) ← inferSegment scope pinned pins stmts
      let rest ← inferStmts scope pinned pins more
      pure (tys ++ rest))
  | [], pins => by simp [inferSegment]
  | stmt :: rest, pins => by
    simp [inferSegment, inferStmts, inferStmts_append scope pinned more rest]

/-- When nothing follows, the pins that are left are of no account. -/
theorem inferStmts_eq (scope : ScopeId) (pinned : List TypeId) (pins : Pins) (stmts : List Stmt) :
    inferStmts scope pinned pins stmts = Prod.fst <$> inferSegment scope pinned pins stmts := by
  have h := inferStmts_append scope pinned [] stmts pins
  rw [List.append_nil] at h
  rw [h, map_eq_pure_bind]
  simp only [inferStmts, pure_bind, List.append_nil]

namespace Embedding

/-! ### Pins that are left -/

/-- The type that a global name has, told by the facts that are held. -/
def typeOf? (E : Embedding) (name : String) : Option TypeId := (E.held.lookup name).bind Prod.snd

/-- The pins that are left of those of the global scope after a statement. It is a function of the facts, so that
    the pins at the end of a list are known before the list is run. -/
def settle (E : Embedding) (pins : Pins) : Stmt → Pins
  | .function _ name _ _ _ =>
    match E.typeOf? name.name with
    | some ty => pins.release ty
    | none => pins
  | _ => pins

/-- Foreign types that are pinned besides; no function among them is the new name of anything, so that no statement
    takes the pin of one away. -/
structure Foreign (E : Embedding) (extra : Pins) : Prop where
  foreign : ∀ q ∈ extra.all, ∃ node, E.foreign q = some node
  function : ∀ q ∈ extra.functions, ∀ v, E.apply v ≠ q

theorem Foreign.none (E : Embedding) : E.Foreign .none := ⟨by simp [Pins.none, Pins.all], by simp [Pins.none]⟩

variable {extra : Pins}

/-- The pins of a list of statements, and those besides. -/
theorem Foreign.pins (h : E.Foreign extra) {pinned pinned' : List TypeId} (hpins : E.Pins pinned pinned')
    (pins : Pins) : E.Pins (pinned ++ pins.all) (pinned' ++ ((pins.rename E.apply).append extra).all) := by
  refine hpins.append ?_
  have hvars := (Renaming.Pins.map E.toRenaming pins.vars).append
    (.ofForeign fun q hq => h.foreign q (List.mem_append_left _ hq))
  have hfunctions := (Renaming.Pins.map E.toRenaming pins.functions).append
    (.ofForeign fun q hq => h.foreign q (List.mem_append_right _ hq))
  simpa [Pins.all, Pins.append, Pins.rename] using hvars.append hfunctions

/-- The pin of a function is taken away on both sides, and none besides. -/
theorem Foreign.release (h : E.Foreign extra) (pins : Pins) (ty : TypeId) :
    ((pins.rename E.apply).append extra).release (E.apply ty) = ((pins.release ty).rename E.apply).append extra := by
  have hextra : extra.functions.filter (· ≠ E.apply ty) = extra.functions :=
    List.filter_eq_self.mpr fun q hq => by simpa using (h.function q hq ty).symm
  simp only [Pins.release, Pins.append, Pins.rename, List.filter_append, hextra, Pins.mk.injEq, true_and,
    List.append_cancel_right_eq]
  rw [List.filter_map]
  congr 1
  refine List.filter_congr fun q _ => ?_
  simp [E.injective.eq_iff]

/-- After a statement the pins that are left correspond, with the foreign ones besides; in the global scope they are
    those that the facts tell. -/
theorem settle_replays (h : E.Foreign extra) {scope : ScopeId} (pins : Pins) (stmt : Stmt)
    (hnames : ∀ name ∈ namesOf stmt.symbols, E.Owns scope name) :
    E.Replays (stmt.settle scope pins) (stmt.settle scope ((pins.rename E.apply).append extra))
      fun left left' => left' = (left.rename E.apply).append extra ∧
        (scope = E.global → left = E.settle pins stmt) := by
  cases stmt with
  | function mark name params result body =>
    refine (getLocal_replays (hnames name.name List.mem_cons_self)).bind ?_
    rintro found _ ⟨rfl, -, hheld⟩
    have htype : scope = E.global → E.typeOf? name.name = found.bind Symbol.ty := fun he => by
      rw [typeOf?, ← hheld he]
      cases found <;> rfl
    cases found with
    | none => exact .pure ⟨rfl, fun he => by rw [settle, htype he]; rfl⟩
    | some symbol =>
      simp only [Option.bind_some] at htype
      cases hty : symbol.ty with
      | none =>
        simp only [Option.map_some, Option.bind_some, Symbol.rename, hty, Option.map_none]
        exact .pure ⟨rfl, fun he => by rw [settle, htype he, hty]⟩
      | some ty =>
        simp only [Option.map_some, Option.bind_some, Symbol.rename, hty]
        exact .pure ⟨h.release pins ty, fun he => by rw [settle, htype he, hty]⟩
  | _ => exact .pure ⟨rfl, fun _ => rfl⟩

end Embedding

/-- A scope that a tree has opened is not the global one. -/
theorem ne_of_lt_index {global : ScopeId} {n : Nat} (hn : global.index < n) : (⟨n⟩ : ScopeId) ≠ global :=
  fun he => hn.ne' (congrArg ScopeId.index he)

/-! ### Statements and blocks -/

mutual

/-- **Statements are looked at alike**, if they declare no added names. By recursion on the statement; the names of
    inner scopes are of no concern, as those scopes are not the global one. -/
theorem Stmt.infer_replays {pinned pinned' : List TypeId} (hpins : E.Pins pinned pinned') :
    ∀ (stmt : Stmt) {scope : ScopeId} {n n' : Nat}, stmt.Placed g scope n n' → E.global.index < n →
      (∀ name ∈ namesOf stmt.symbols, E.Owns scope name) →
      E.Replays (stmt.infer scope pinned) (stmt.infer scope pinned') fun ty ty' => ty' = E.apply ty
  | .vars span kind defs, scope, _, _, hdefs, hn, hnames => by
    rw [Stmt.infer, Stmt.infer]
    have hdefNames : ∀ d ∈ defs, E.Owns scope d.name.name := fun d hd =>
      hnames _ (List.mem_map.mpr ⟨(d.name, d.symbol kind), List.mem_map_of_mem hd, rfl⟩)
    exact (inferDefs_replays hpins defs hdefs hn hdefNames).bind fun _ _ _ => .pure (E.primitive (by decide)).symm
  | .function mark name params result body, scope, _, _, ⟨hmark, _, hbody⟩, hn, hnames => by
    rw [Stmt.infer, Stmt.infer]
    refine (requireScope_replays mark).bind ?_
    rintro _ own ⟨rfl, hown⟩
    obtain rfl := Option.some.inj (hmark.symm.trans hown)
    refine (declaredType_replays (hnames name.name List.mem_cons_self)).bind ?_
    rintro ty _ rfl
    refine (functionParts_replays mark.span ty params.length).bind ?_
    rintro ⟨types, result⟩ _ rfl
    refine (setParamTypes_replays (ne_of_lt_index hn) params types).bind fun _ _ _ => ?_
    -- The function itself is pinned in its body.
    have hinner := body.infer_replays (hpins.append (.map _ [ty])) hbody (hn.trans (Nat.lt_succ_self _))
    refine (withFrame_replays hinner).bind ?_
    rintro _ returned rfl
    cases returned with
    | true => exact .pure rfl
    -- Whether the body has returned is the same on both sides.
    | false => exact (unifyOr_primitive_replays _ _ result (by decide)).bind fun _ _ _ => .pure rfl
  | .blueprint _ name body, scope, _, _, hbody, hn, hnames | .trait _ name body, scope, _, _, hbody, hn, hnames => by
    rw [Stmt.infer, Stmt.infer]
    refine (body.infer_replays hpins hbody hn).bind fun _ _ _ => ?_
    exact declaredType_replays (hnames name.name List.mem_cons_self)
  | .struct _ name fields, scope, _, _, _, _, hnames => by
    rw [Stmt.infer]
    refine (inferFields_replays scope fields []).bind fun _ _ _ => ?_
    exact declaredType_replays (hnames name.name List.mem_cons_self)
  | .enum _ name variants, scope, _, _, _, _, hnames => by
    rw [Stmt.infer]
    refine (checkVariants_replays variants []).bind fun _ _ _ => ?_
    exact declaredType_replays (hnames name.name List.mem_cons_self)
  | .label mark _ stmt, scope, _, _, ⟨hmark, _, hstmt⟩, hn, _ => by
    rw [Stmt.infer, Stmt.infer]
    refine (requireScope_replays mark).bind ?_
    rintro _ own ⟨rfl, hown⟩
    obtain rfl := Option.some.inj (hmark.symm.trans hown)
    -- The scope of the label is not the global one, so what it declares is no concern of the added names.
    have hne := ne_of_lt_index hn
    refine ((E.parallel _).predeclareStmt stmt (records hne _)).bind ?_
    rintro pins _ ⟨rfl, -⟩
    have hall : (pins.rename E.apply).all = pins.all.map E.apply := by simp [Pins.all, Pins.rename]
    rw [hall]
    exact stmt.infer_replays (hpins.append (.map _ pins.all)) hstmt (hn.trans (Nat.lt_succ_self _))
      fun _ _ he => absurd he hne
  | .block body, _, _, _, hbody, hn, _ => by
    rw [Stmt.infer, Stmt.infer]
    exact body.infer_replays hpins hbody hn
  | .branch _ cond body elifs none, _, _, _, ⟨_, _, hcond, hbody, helifs⟩, hn, _ => by
    rw [Stmt.infer, Stmt.infer]
    refine (inferCondition_replays hpins cond hcond hn).bind fun _ _ _ => ?_
    have hn₁ := hn.trans_le hcond.le
    refine (body.infer_replays hpins hbody hn₁).bind fun _ _ _ => ?_
    refine (inferElifs_replays hpins elifs helifs (hn₁.trans_le hbody.le)).bind fun _ _ _ => ?_
    exact .pure (E.primitive (by decide)).symm
  | .branch _ cond body elifs (some last), _, _, _, ⟨_, _, _, hcond, hbody, helifs, hlast⟩, hn, _ => by
    rw [Stmt.infer, Stmt.infer]
    refine (inferCondition_replays hpins cond hcond hn).bind fun _ _ _ => ?_
    have hn₁ := hn.trans_le hcond.le
    refine (body.infer_replays hpins hbody hn₁).bind fun _ _ _ => ?_
    have hn₂ := hn₁.trans_le hbody.le
    refine (inferElifs_replays hpins elifs helifs hn₂).bind fun _ _ _ => ?_
    exact last.infer_replays hpins hlast (hn₂.trans_le (PlacedElifs.le helifs))
  | .loop _ cond body, _, _, _, ⟨_, hcond, hbody⟩, hn, _ => by
    rw [Stmt.infer, Stmt.infer]
    refine (inferCondition_replays hpins cond hcond hn).bind fun _ _ _ => ?_
    exact body.infer_replays hpins hbody (hn.trans_le hcond.le)
  | .ret span value, _, _, _, hvalue, hn, _ => by
    rw [Stmt.infer, Stmt.infer]
    refine expectedResult?_replays.bind ?_
    rintro expected _ rfl
    cases expected with
    | none => exact .throw
    | some expected =>
      -- With and without a value, a return goes on in the same way.
      have hreturn : ∀ actual, E.Replays (do unify span expected actual; markReturned; pure TypeId.unit)
          (do unify span (E.apply expected) (E.apply actual); markReturned; pure TypeId.unit)
          fun ty ty' => ty' = E.apply ty := fun actual =>
        (unify_replays span expected actual).bind fun _ _ _ =>
          markReturned_replays.bind fun _ _ _ => .pure (E.primitive (by decide)).symm
      cases value with
      | some value =>
        refine (value.infer_replays hpins hvalue hn).bind ?_
        rintro actual _ rfl
        exact hreturn actual
      | none =>
        have hunit : E.apply .unit = .unit := E.primitive (by decide)
        have h := hreturn .unit
        rw [hunit] at h
        exact h
  | .jump _ _ label, scope, _, _, _, _, _ => by
    rw [Stmt.infer]
    exact (checkJump_replays scope label).bind fun _ _ _ => .pure (E.primitive (by decide)).symm
  | .expr e, _, _, _, he, hn, _ => by
    rw [Stmt.infer, Stmt.infer]
    exact e.infer_replays hpins he hn

/-- A block declares its names in a scope of its own, so nothing has to be asked of them. -/
theorem Block.infer_replays {pinned pinned' : List TypeId} (hpins : E.Pins pinned pinned') :
    ∀ (block : Block) {scope : ScopeId} {n n' : Nat}, block.Placed g scope n n' → E.global.index < n →
      E.Replays (block.infer pinned) (block.infer pinned') fun ty ty' => ty' = E.apply ty
  | .mk mark stmts, _, _, _, ⟨hmark, _, hstmts⟩, hn => by
    rw [Block.infer, Block.infer]
    refine (requireScope_replays mark).bind ?_
    rintro _ own ⟨rfl, hown⟩
    obtain rfl := Option.some.inj (hmark.symm.trans hown)
    have hne := ne_of_lt_index hn
    refine ((E.parallel _).predeclareAll stmts (records hne _)).bind ?_
    rintro pins _ ⟨rfl, -⟩
    have h := inferSegment_replays hpins (.none E) stmts hstmts (hn.trans (Nat.lt_succ_self _))
      (fun _ _ he => absurd he hne) pins
    rw [show (pins.rename E.apply).append .none = pins.rename E.apply by simp [Pins.append, Pins.none]] at h
    rw [inferStmts_eq, inferStmts_eq, bind_map_left, bind_map_left]
    exact h.bind fun _ _ _ => .pure (E.primitive (by decide)).symm

/-- **Statements are looked at one after another**, with the same pins left and others besides. -/
theorem inferSegment_replays {pinned pinned' : List TypeId} (hpins : E.Pins pinned pinned') {extra : Pins}
    (hextra : E.Foreign extra) : ∀ (stmts : List Stmt) {scope : ScopeId} {n n' : Nat},
      PlacedStmts g scope stmts n n' → E.global.index < n →
      (∀ name ∈ namesOf (stmts.flatMap Stmt.symbols), E.Owns scope name) → ∀ pins : Pins,
      E.Replays (inferSegment scope pinned pins stmts)
        (inferSegment scope pinned' ((pins.rename E.apply).append extra) stmts) fun left left' =>
          left' = (left.1.map E.apply, (left.2.rename E.apply).append extra) ∧
            (scope = E.global → left.2 = stmts.foldl E.settle pins)
  | [], _, _, _, _, _, _, _ => .pure ⟨rfl, fun _ => rfl⟩
  | stmt :: rest, _, _, _, ⟨_, hstmt, hrest⟩, hn, hnames, pins => by
    rw [List.flatMap_cons, namesOf_append] at hnames
    have hfirst := fun name hname => hnames name (List.mem_append_left _ hname)
    rw [inferSegment, inferSegment]
    refine (stmt.infer_replays (hextra.pins hpins pins) hstmt hn hfirst).bind ?_
    rintro ty _ rfl
    refine (settle_replays hextra pins stmt hfirst).bind ?_
    rintro left _ ⟨rfl, hleft⟩
    refine (inferSegment_replays hpins hextra rest hrest (hn.trans_le hstmt.le)
      (fun name hname => hnames name (List.mem_append_right _ hname)) left).bind ?_
    rintro ⟨tys, last⟩ _ ⟨rfl, hlast⟩
    exact .pure ⟨rfl, fun he => by rw [hlast he, hleft he]; rfl⟩

theorem inferElifs_replays {pinned pinned' : List TypeId} (hpins : E.Pins pinned pinned') :
    ∀ (elifs : List Elif) {scope : ScopeId} {n n' : Nat}, PlacedElifs g scope elifs n n' → E.global.index < n →
      E.Replays (inferElifs pinned elifs) (inferElifs pinned' elifs) fun _ _ => True
  | [], _, _, _, _, _ => .pure trivial
  | .mk _ cond body :: rest, _, _, _, ⟨_, _, hcond, hbody, hrest⟩, hn => by
    rw [inferElifs, inferElifs]
    refine (inferCondition_replays hpins cond hcond hn).bind fun _ _ _ => ?_
    have hn₁ := hn.trans_le hcond.le
    refine (body.infer_replays hpins hbody hn₁).bind fun _ _ _ => ?_
    exact inferElifs_replays hpins rest hrest (hn₁.trans_le hbody.le)

end

end TypeInference
