import TypeInference.Proofs.Inference.Track
import TypeInference.Proofs.Scoping.Placement

/-!
# `Proofs.Inference.Trace` — inference comes by every expression

Inference of a placed tree moves along and visits every expression of the tree once, in order. The only names that
can get types on the way are those of the scopes that the tree itself has opened, and names that have no type yet.

## Contents
* `denoteOrNew_keeps`, `inferName_keeps`, `functionParts_keeps`, … — the parts of trees;
* `predeclareAll_keeps` — declarations;
* `Expr.infer_tracks`, `Stmt.infer_tracks`, `inferStmts_tracks` — trees.
-/

namespace TypeInference

open Store Scopes InferM

variable {A : Anchors} {g : Scopes}

/-! ## Signatures and operations -/

/-- A written name is looked up, and a type is made for it or is there already. -/
theorem Ident.denote_keeps (scope : ScopeId) (id : Ident) : Keeps A (id.denote scope) fun _ => True := by
  unfold Ident.denote
  split
  · exact .pure trivial
  · refine (keeps_resolve scope id).bind fun found _ => ?_
    dsimp only
    split
    · exact keeps_create fun _ => ⟨_, rfl⟩
    · exact .refuse _ _

mutual

/-- A signature makes types for its parts, and gives none to any name. -/
theorem Signature.denote_keeps (scope : ScopeId) : ∀ signature : Signature,
    Keeps A (signature.denote scope) fun _ => True
  | .name id => by
    rw [Signature.denote]
    exact id.denote_keeps scope
  | .list _ element => by
    rw [Signature.denote]
    exact (element.denote_keeps scope).bind fun _ _ => keeps_create fun _ => ⟨_, rfl⟩
  | .map _ key value => by
    rw [Signature.denote]
    exact (key.denote_keeps scope).bind fun _ _ => (value.denote_keeps scope).bind fun _ _ =>
      keeps_create fun _ => ⟨_, rfl⟩
  | .tuple _ elements => by
    rw [Signature.denote]
    exact (denoteAll_keeps scope elements).bind fun _ _ => keeps_create fun _ => ⟨_, rfl⟩
  | .function _ params result => by
    rw [Signature.denote]
    exact (denoteAll_keeps scope params).bind fun _ _ => (result.denote_keeps scope).bind fun _ _ =>
      keeps_create fun _ => ⟨_, rfl⟩

theorem denoteAll_keeps (scope : ScopeId) : ∀ signatures : List Signature,
    Keeps A (denoteAll scope signatures) fun _ => True
  | [] => .pure trivial
  | signature :: rest => by
    rw [denoteAll]
    exact (signature.denote_keeps scope).bind fun _ _ => (denoteAll_keeps scope rest).bind fun _ _ => .pure trivial

end

theorem denoteOrNew_keeps (scope : ScopeId) : ∀ signature : Option Signature,
    Keeps A (denoteOrNew scope signature) fun _ => True
  | some signature => signature.denote_keeps scope
  | none => keeps_newVar

/-! ### Operators -/

theorem inferUnary_keeps (op : UnaryOp) (operand : TypeId) (span : Span) :
    Keeps A (inferUnary op operand span) fun _ => True :=
  (keeps_query _).bind fun _ _ => (keeps_unifyOr _ _ _).bind fun _ _ => .pure trivial

/-- An operator unifies types, and gives none to any name. -/
theorem inferBinary_keeps (op : BinaryOp) (left right : TypeId) (span : Span) :
    Keeps A (inferBinary op left right span) fun _ => True := by
  refine (keeps_query _).bind fun _ _ => (keeps_query _).bind fun _ _ => ?_
  dsimp only
  split
  · exact (keeps_unifyOr _ _ _).bind fun _ _ => (keeps_unifyOr _ _ _).bind fun _ _ => .pure trivial
  · exact (keeps_unifyOr _ _ _).bind fun _ _ => .pure trivial

/-! ## Names -/

/-- A name that is used may get a new type only if it has none, and then it is no anchor. -/
theorem inferName_keeps (scope : ScopeId) (name : Ident) (pinned : List TypeId) :
    Keeps A (inferName scope name pinned) fun _ => True := by
  refine (keeps_resolve scope name).bind fun found hagrees => ?_
  dsimp only
  split
  · exact .refuse _ _
  · exact (keeps_typeOf hagrees).bind fun ty _ => keeps_instantiate pinned ty

/-- A name that may be assigned has the type that an anchor says. -/
theorem assignable_keeps (scope : ScopeId) (target : Ident) :
    Keeps A (assignable scope target) fun found => A.Agrees found.1 target.name found.2 := by
  refine (keeps_resolve scope target).bind fun found hagrees => ?_
  dsimp only
  split
  · exact .refuse _ _
  · split
    · exact .refuse _ _
    · exact .pure hagrees

section Declarations

variable {own : ScopeId}

/-- Parameters of lambdas get types in the scope of the lambda, where there are no anchors. -/
theorem typeParams_keeps (hlacks : ∀ name, A.Lacks own name) : ∀ params : List Param,
    Keeps A (typeParams own params) fun _ => True
  | [] => .pure trivial
  | p :: rest => by
    rw [typeParams]
    exact (denoteOrNew_keeps own p.signature).bind fun ty _ => (keeps_setType (hlacks _) ty).bind fun _ _ =>
      (typeParams_keeps hlacks rest).bind fun _ _ => .pure trivial

theorem setParamTypes_keeps (hlacks : ∀ name, A.Lacks own name) : ∀ (params : List Param) (types : List TypeId),
    Keeps A (setParamTypes own params types) fun _ => True
  | p :: params, ty :: types => by
    rw [setParamTypes]
    exact (keeps_setType (hlacks _) ty).bind fun _ _ => setParamTypes_keeps hlacks params types
  | [], _ | _ :: _, [] => .pure trivial

/-! ### Declarations -/

/-- Variables get types; none of them is an anchor, since anchors have theirs already. -/
theorem predeclareVars_keeps : ∀ defs : List VarDef, (∀ d ∈ defs, A.Lacks own d.name.name) →
    Keeps A (predeclareVars own defs) fun _ => True
  | [], _ => .pure trivial
  | d :: rest, hlacks => by
    obtain ⟨hfirst, hrest⟩ := List.forall_mem_cons.mp hlacks
    rw [predeclareVars]
    exact (denoteOrNew_keeps own d.signature).bind fun ty _ => (keeps_setType hfirst ty).bind fun _ _ =>
      (predeclareVars_keeps rest hrest).bind fun _ _ => .pure trivial

theorem paramTypes_keeps (own : ScopeId) : ∀ params : List Param, Keeps A (paramTypes own params) fun _ => True
  | [] => .pure trivial
  | p :: rest => by
    rw [paramTypes]
    exact (denoteOrNew_keeps own p.signature).bind fun _ _ => (paramTypes_keeps own rest).bind fun _ _ =>
      .pure trivial

/-- Whatever is declared gets a type, in the scope in which it is declared. -/
theorem Declaration.predeclare_keeps : ∀ declaration : Declaration,
    (∀ entry ∈ declaration.symbols, A.Lacks own entry.1.name) →
    Keeps A (declaration.predeclare own) fun _ => True
  | .vars kind defs, hlacks =>
    (predeclareVars_keeps defs fun d hd => hlacks (d.name, d.symbol kind) (List.mem_map_of_mem hd)).bind
      fun _ _ => .pure trivial
  | .function _ params result, hlacks =>
    (paramTypes_keeps own params).bind fun _ _ => (denoteOrNew_keeps own result).bind fun _ _ =>
      (keeps_create fun _ => ⟨_, rfl⟩).bind fun ty _ =>
        (keeps_setType (hlacks _ List.mem_cons_self) ty).bind fun _ _ => .pure trivial
  | .type _ _, hlacks =>
    (keeps_create fun _ => ⟨_, rfl⟩).bind fun ty _ =>
      (keeps_setType (hlacks _ List.mem_cons_self) ty).bind fun _ _ => .pure trivial

theorem Stmt.predeclare_keeps (stmt : Stmt) (hlacks : ∀ entry ∈ stmt.symbols, A.Lacks own entry.1.name) :
    Keeps A (stmt.predeclare own) fun _ => True := by
  unfold Stmt.predeclare
  unfold Stmt.symbols at hlacks
  split
  · next declaration hdeclaration =>
    rw [hdeclaration] at hlacks
    exact declaration.predeclare_keeps hlacks
  · exact .pure trivial

/-- **Declarations** give types to the names that they declare, and to no others. -/
theorem predeclareAll_keeps : ∀ stmts : List Stmt,
    (∀ entry ∈ stmts.flatMap Stmt.symbols, A.Lacks own entry.1.name) →
    Keeps A (predeclareAll own stmts) fun _ => True
  | [], _ => .pure trivial
  | stmt :: rest, hlacks => by
    rw [List.flatMap_cons, List.forall_mem_append] at hlacks
    rw [predeclareAll]
    exact (stmt.predeclare_keeps hlacks.1).bind fun _ _ => (predeclareAll_keeps rest hlacks.2).bind fun _ _ =>
      .pure trivial

/-- What has been looked at leaves the pinned variables pinned; only the pins of functions are taken away. -/
theorem Stmt.settle_keeps (scope : ScopeId) (pins : Pins) (stmt : Stmt) :
    Keeps A (stmt.settle scope pins) fun pins' => pins'.vars = pins.vars := by
  unfold Stmt.settle
  split
  · refine (keeps_getLocal scope _).bind fun symbol _ => ?_
    split
    · exact .pure rfl
    · exact .pure rfl
  · exact .pure rfl

end Declarations

/-! ## Parts of statements -/

theorem inferFields_keeps (scope : ScopeId) : ∀ (seen : List String) (fields : List Field),
    Keeps A (inferFields scope seen fields) fun _ => True
  | _, [] => .pure trivial
  | seen, f :: rest => by
    rw [inferFields]
    split
    · exact .refuse _ _
    · exact (f.signature.denote_keeps scope).bind fun _ _ => inferFields_keeps scope _ rest

theorem checkVariants_keeps : ∀ (seen : List String) (variants : List Ident),
    Keeps A (checkVariants seen variants) fun _ => True
  | _, [] => .pure trivial
  | seen, v :: rest => by
    rw [checkVariants]
    split
    · exact .refuse _ _
    · exact checkVariants_keeps _ rest

theorem checkJump_keeps (scope : ScopeId) : ∀ label : Option Ident,
    Keeps A (checkJump scope label) fun _ => True
  | none => .pure trivial
  | some label => by
    refine (keeps_resolve scope label).bind fun found _ => ?_
    dsimp only
    split
    · exact .refuse _ _
    · exact .pure trivial

theorem newVars_keeps : ∀ count : Nat, Keeps A (newVars count) fun _ => True
  | 0 => .pure trivial
  | count + 1 => keeps_newVar.bind fun _ _ => (newVars_keeps count).bind fun _ _ => .pure trivial

/-- The parts of a function's type are found, or made and unified with it. -/
theorem functionParts_keeps (span : Span) (ty : TypeId) (arity : Nat) :
    Keeps A (functionParts span ty arity) fun _ => True := by
  refine (keeps_query _).bind fun found _ => ?_
  dsimp only
  split
  · exact .pure trivial
  · exact (newVars_keeps arity).bind fun _ _ => keeps_newVar.bind fun _ _ =>
      (keeps_create fun _ => ⟨_, rfl⟩).bind fun _ _ => (keeps_unify _ _ _).bind fun _ _ => .pure trivial

/-! ## Expressions -/

/-- A scope that a tree opens has no anchors, as it was not there when the anchors were. -/
theorem Anchors.Below.lacks {n : Nat} (h : A.Below n) (name : String) : A.Lacks ⟨n⟩ name :=
  fun _ hA => Nat.lt_irrefl _ (h hA)

theorem Anchors.Below.mono {n n' : Nat} (h : A.Below n) (hle : n ≤ n') : A.Below n' :=
  fun _ _ _ hA => (h hA).trans_le hle

/-- A scope that has been recorded is the one that is worked in. -/
theorem keeps_recorded {mark : Mark} {scope : ScopeId} (hmark : mark.scope = some scope) :
    Keeps A (requireScope mark) (· = scope) :=
  (keeps_requireScope mark).mono fun _ hscope => Option.some.inj (hscope.symm.trans hmark)

/-- An expression that is looked at in its scope: the visit to it comes after those of its parts, whatever the
    expression is. -/
theorem Tracks.expr {e : Expr} {pinned : List TypeId} (inner : List Expr)
    {rest : ScopeId → Inference → List Visit} {body : ScopeId → InferM TypeId}
    (hinfer : e.infer pinned = requireScope e.mark >>= body)
    (hvisits : ∀ s, e.visits pinned s = InferM.after (requireScope e.mark) rest s ++ e.visit pinned s)
    (hnodes : e.nodes = inner ++ [e]) (h : ∀ scope, Tracks A pinned (body scope) (rest scope) inner) :
    Tracks A pinned (e.infer pinned) (e.visits pinned) e.nodes := by
  rw [funext hvisits]
  refine .node hnodes ?_
  rw [hinfer]
  exact .after (keeps_requireScope _) fun scope _ => h scope

mutual

/-- **Inference of an expression** comes by every expression in it. By recursion on the expression; the visits are
    defined by the same cases, so each case follows the steps of inference and of the visits together. -/
theorem Expr.infer_tracks : ∀ (e : Expr) {pinned : List TypeId} {scope : ScopeId} {n n' : Nat},
    e.Placed g scope n n' → A.Below n → Tracks A pinned (e.infer pinned) (e.visits pinned) e.nodes
  | .number _, _, _, _, _, _, _ | .string _ _, _, _, _, _, _, _ | .bool _ _, _, _, _, _, _, _ => by
    refine .expr [] (by rw [Expr.infer]) (fun _ => by rw [Expr.visits]) rfl fun scope => ?_
    exact .pure
  | .name _ id, pinned, _, _, _, _, _ => by
    refine .expr [] (by rw [Expr.infer]) (fun _ => by rw [Expr.visits]) rfl fun scope => ?_
    exact (inferName_keeps scope id pinned).tracks
  | .list _ items, _, _, _, _, ⟨_, hitems⟩, hA => by
    refine .expr _ (by rw [Expr.infer]) (fun _ => by rw [Expr.visits]) (by rw [Expr.nodes]) fun scope => ?_
    exact .after keeps_newVar fun element _ => (inferElements_tracks items hitems hA element).before fun _ =>
      keeps_create fun _ => ⟨_, rfl⟩
  | .map _ entries, _, _, _, _, ⟨_, hentries⟩, hA => by
    refine .expr _ (by rw [Expr.infer]) (fun _ => by rw [Expr.visits]) (by rw [Expr.nodes]) fun scope => ?_
    exact .after keeps_newVar fun key _ => .after keeps_newVar fun value _ =>
      (inferEntries_tracks entries hentries hA key value).before fun _ => keeps_create fun _ => ⟨_, rfl⟩
  | .tuple _ items, _, _, _, _, ⟨_, hitems⟩, hA => by
    refine .expr _ (by rw [Expr.infer]) (fun _ => by rw [Expr.visits]) (by rw [Expr.nodes]) fun scope => ?_
    exact (inferExprs_tracks items hitems hA).before fun _ => keeps_create fun _ => ⟨_, rfl⟩
  | .access _ left index, _, _, _, _, ⟨_, _, hleft, hindex⟩, hA => by
    refine .expr _ (by rw [Expr.infer]) (fun _ => by rw [Expr.visits]) (by rw [Expr.nodes]) fun scope => ?_
    exact .visiting (left.infer_tracks hleft hA) fun _ =>
      (index.infer_tracks hindex (hA.mono hleft.le)).before fun _ => keeps_consult _
  | .unary _ op operand, _, _, _, _, ⟨_, hoperand⟩, hA => by
    refine .expr _ (by rw [Expr.infer]) (fun _ => by rw [Expr.visits]) (by rw [Expr.nodes]) fun scope => ?_
    exact (operand.infer_tracks hoperand hA).before fun ty => inferUnary_keeps op ty _
  | .binary _ op left right, _, _, _, _, ⟨_, _, hleft, hright⟩, hA => by
    refine .expr _ (by rw [Expr.infer]) (fun _ => by rw [Expr.visits]) (by rw [Expr.nodes]) fun scope => ?_
    exact .visiting (left.infer_tracks hleft hA) fun leftType =>
      (right.infer_tracks hright (hA.mono hleft.le)).before fun rightType => inferBinary_keeps op leftType rightType _
  | .call _ callee args, _, _, _, _, ⟨_, _, hcallee, hargs⟩, hA => by
    refine .expr _ (by rw [Expr.infer]) (fun _ => by rw [Expr.visits]) (by rw [Expr.nodes]) fun scope => ?_
    refine .visiting (callee.infer_tracks hcallee hA) fun _ => ?_
    refine (inferExprs_tracks args hargs (hA.mono hcallee.le)).before fun _ => ?_
    exact keeps_newVar.bind fun _ _ => (keeps_create fun _ => ⟨_, rfl⟩).bind fun _ _ =>
      (keeps_unify _ _ _).bind fun _ _ => .pure trivial
  | .lambda mark own params body, pinned, _, _, _, ⟨_, hown, _, hbody⟩, hA => by
    refine .expr _ (by rw [Expr.infer]) (fun _ => by rw [Expr.visits]) (by rw [Expr.nodes]) fun scope => ?_
    refine .after (keeps_recorded hown) ?_
    rintro _ rfl
    refine .after (typeParams_keeps hA.lacks params) fun types _ => ?_
    have hbody : Tracks A (pinned ++ types) _ _ _ := body.infer_tracks hbody (hA.mono (Nat.le_succ _))
    exact (hbody.pins (List.subset_append_left _ _)).before fun _ => keeps_create fun _ => ⟨_, rfl⟩
  | .when _ cond yes no, _, _, _, _, ⟨_, _, _, hcond, hyes, hno⟩, hA => by
    refine .expr _ (by rw [Expr.infer]) (fun _ => by rw [Expr.visits]) (by rw [Expr.nodes]) fun scope => ?_
    have hA₁ := hA.mono hcond.le
    exact .visiting (cond.infer_tracks hcond hA) fun ty => .after (keeps_unify _ _ _) fun _ _ =>
      .visiting (yes.infer_tracks hyes hA₁) fun yesType =>
        (no.infer_tracks hno (hA₁.mono hyes.le)).before fun noType =>
          (keeps_unify _ _ _).bind fun _ _ => .pure trivial
  -- The value is visited first, and the assignment is made in the state that it leaves.
  | .assign _ target value, _, _, _, _, ⟨_, hvalue⟩, hA => by
    refine .expr _ (by rw [Expr.infer]) (fun _ => by rw [Expr.visits]) (by rw [Expr.nodes]) fun scope => ?_
    refine .after (assignable_keeps scope target) fun found hagrees => ?_
    refine (value.infer_tracks hvalue hA).before fun _ => ?_
    exact (keeps_typeOf hagrees).bind fun _ _ => (keeps_unify _ _ _).bind fun _ _ =>
      (keeps_markInitialized _ _).bind fun _ _ => .pure trivial

theorem inferExprs_tracks : ∀ (items : List Expr) {pinned : List TypeId} {scope : ScopeId} {n n' : Nat},
    PlacedExprs g scope items n n' → A.Below n →
    Tracks A pinned (inferExprs pinned items) (exprsVisits pinned items) (exprsNodes items)
  | [], _, _, _, _, _, _ => by
    rw [inferExprs]
    exact .pure
  | e :: rest, _, _, _, _, ⟨_, he, hrest⟩, hA => by
    rw [inferExprs, exprsVisits, exprsNodes]
    exact .visiting (e.infer_tracks he hA) fun ty =>
      (inferExprs_tracks rest hrest (hA.mono he.le)).before fun _ => .pure trivial

theorem inferElements_tracks : ∀ (items : List Expr) {pinned : List TypeId} {scope : ScopeId} {n n' : Nat},
    PlacedExprs g scope items n n' → A.Below n → ∀ element : TypeId,
    Tracks A pinned (inferElements pinned element items) (elementsVisits pinned element items) (exprsNodes items)
  | [], _, _, _, _, _, _, _ => by
    rw [inferElements]
    exact .pure
  | e :: rest, _, _, _, _, ⟨_, he, hrest⟩, hA, element => by
    rw [inferElements, elementsVisits, exprsNodes]
    exact .visiting (e.infer_tracks he hA) fun ty => .after (keeps_unify _ _ _) fun _ _ =>
      inferElements_tracks rest hrest (hA.mono he.le) element

theorem inferEntries_tracks : ∀ (entries : List (Expr × Expr)) {pinned : List TypeId} {scope : ScopeId} {n n' : Nat},
    PlacedEntries g scope entries n n' → A.Below n → ∀ keyType valueType : TypeId,
    Tracks A pinned (inferEntries pinned keyType valueType entries) (entriesVisits pinned keyType valueType entries)
      (entriesNodes entries)
  | [], _, _, _, _, _, _, _, _ => by
    rw [inferEntries]
    exact .pure
  | (key, value) :: rest, _, _, _, _, ⟨_, _, hkey, hvalue, hrest⟩, hA, keyType, valueType => by
    rw [inferEntries, entriesVisits, entriesNodes]
    have hA₁ := hA.mono hkey.le
    exact .visiting (key.infer_tracks hkey hA) fun ty => .after (keeps_unify _ _ _) fun _ _ =>
      .visiting (value.infer_tracks hvalue hA₁) fun ty => .after (keeps_unify _ _ _) fun _ _ =>
        inferEntries_tracks rest hrest (hA₁.mono hvalue.le) keyType valueType

end

/-! ## Statements -/

theorem inferCondition_tracks {cond : Expr} {pinned : List TypeId} {scope : ScopeId} {n n' : Nat}
    (hcond : cond.Placed g scope n n') (hA : A.Below n) :
    Tracks A pinned (inferCondition pinned cond) (cond.visits pinned) cond.nodes :=
  (cond.infer_tracks hcond hA).before fun _ => keeps_unify _ _ _

/-- The first values of variables, one definition after another. -/
theorem inferDefs_tracks : ∀ (defs : List VarDef) {pinned : List TypeId} {scope : ScopeId} {n n' : Nat},
    PlacedDefs g scope defs n n' → A.Below n →
    Tracks A pinned (inferDefs scope pinned defs) (defsVisits scope pinned defs) (defsNodes defs)
  | [], _, _, _, _, _, _ => by
    rw [inferDefs, defsVisits]
    exact .pure
  | d :: rest, _, scope, _, _, ⟨_, hvalue, hrest⟩, hA => by
    rw [inferDefs, defsVisits, defsNodes]
    refine .after (keeps_declaredType scope d.name.name) fun declared _ => ?_
    cases hd : d.value with
    | none =>
      rw [hd] at hvalue
      cases hvalue
      exact inferDefs_tracks rest hrest hA
    | some value =>
      rw [hd] at hvalue
      replace hvalue : value.Placed g scope _ _ := hvalue
      exact .visiting (value.infer_tracks hvalue hA) fun actual => .after (keeps_unify _ _ _) fun _ _ =>
        inferDefs_tracks rest hrest (hA.mono hvalue.le)

/-! ### Every form of statement -/

mutual

/-- **Inference of a statement** comes by every expression in it, by recursion on the statement. -/
theorem Stmt.infer_tracks : ∀ (stmt : Stmt) {pinned : List TypeId} {scope : ScopeId} {n n' : Nat},
    stmt.Placed g scope n n' → A.Below n →
    Tracks A pinned (stmt.infer scope pinned) (stmt.visits scope pinned) stmt.nodes
  | .vars _ _ defs, _, _, _, _, hdefs, hA => by
    rw [Stmt.infer, Stmt.visits, Stmt.nodes]
    exact (inferDefs_tracks defs hdefs hA).before fun _ => .pure trivial
  -- The body is traced with the function pinned, and in a frame of its own.
  | .function mark name params _ body, pinned, scope, _, _, ⟨hmark, _, hbody⟩, hA => by
    rw [Stmt.infer, Stmt.visits, Stmt.nodes]
    refine .after (keeps_recorded hmark) ?_
    rintro _ rfl
    refine .after (keeps_declaredType scope name.name) fun ty _ => ?_
    refine .after (functionParts_keeps _ ty params.length) fun parts _ => ?_
    refine .after (setParamTypes_keeps hA.lacks params parts.1) fun _ _ => ?_
    have hbody : Tracks A (pinned ++ [ty]) _ _ _ := body.infer_tracks hbody (hA.mono (Nat.le_succ _))
    refine ((hbody.pins (List.subset_append_left _ _)).inFrame parts.2).before fun returned => ?_
    cases returned with
    | true => exact .pure trivial
    | false => exact (keeps_unify _ _ _).bind fun _ _ => .pure trivial
  | .blueprint _ name body, _, scope, _, _, hbody, hA | .trait _ name body, _, scope, _, _, hbody, hA => by
    rw [Stmt.infer, Stmt.visits, Stmt.nodes]
    exact (body.infer_tracks hbody hA).before fun _ => keeps_declaredType scope name.name
  | .struct _ name fields, _, scope, _, _, _, _ => by
    rw [Stmt.infer, Stmt.visits, Stmt.nodes]
    exact ((inferFields_keeps scope [] fields).bind fun _ _ => keeps_declaredType scope name.name).tracks
  | .enum _ name variants, _, scope, _, _, _, _ => by
    rw [Stmt.infer, Stmt.visits, Stmt.nodes]
    exact ((checkVariants_keeps [] variants).bind fun _ _ => keeps_declaredType scope name.name).tracks
  | .label mark _ stmt, pinned, _, _, _, ⟨hmark, _, hstmt⟩, hA => by
    rw [Stmt.infer, Stmt.visits, Stmt.nodes]
    refine .after (keeps_recorded hmark) ?_
    rintro _ rfl
    refine .after (stmt.predeclare_keeps fun _ _ => hA.lacks _) fun pins _ => ?_
    have hstmt : Tracks A (pinned ++ pins.all) _ _ _ := stmt.infer_tracks hstmt (hA.mono (Nat.le_succ _))
    exact hstmt.pins (List.subset_append_left _ _)
  | .block body, _, _, _, _, hbody, hA => by
    rw [Stmt.infer, Stmt.visits, Stmt.nodes]
    exact body.infer_tracks hbody hA
  | .branch _ cond body elifs none, _, _, _, _, ⟨_, _, hcond, hbody, helifs⟩, hA => by
    rw [Stmt.infer, Stmt.visits, Stmt.nodes]
    have hA₁ := hA.mono hcond.le
    exact .visiting (inferCondition_tracks hcond hA) fun _ => .visiting (body.infer_tracks hbody hA₁) fun _ =>
      (inferElifs_tracks elifs helifs (hA₁.mono hbody.le)).before fun _ => .pure trivial
  | .branch _ cond body elifs (some last), _, _, _, _, ⟨_, _, _, hcond, hbody, helifs, hlast⟩, hA => by
    rw [Stmt.infer, Stmt.visits, Stmt.nodes]
    have hA₁ := hA.mono hcond.le
    have hA₂ := hA₁.mono hbody.le
    exact .visiting (inferCondition_tracks hcond hA) fun _ => .visiting (body.infer_tracks hbody hA₁) fun _ =>
      .visiting (inferElifs_tracks elifs helifs hA₂) fun _ => last.infer_tracks hlast (hA₂.mono (PlacedElifs.le helifs))
  | .loop _ cond body, _, _, _, _, ⟨_, hcond, hbody⟩, hA => by
    rw [Stmt.infer, Stmt.visits, Stmt.nodes]
    exact .visiting (inferCondition_tracks hcond hA) fun _ => body.infer_tracks hbody (hA.mono hcond.le)
  | .ret span value, _, _, _, _, hvalue, hA => by
    rw [Stmt.infer, Stmt.visits, Stmt.nodes]
    refine .after keeps_expectedResult? fun expected _ => ?_
    cases expected with
    | none => exact .refuse _ _
    | some expected =>
      have hreturn : ∀ actual, Keeps A (do unify span expected actual; markReturned; pure TypeId.unit)
          fun _ => True := fun actual =>
        (keeps_unify span expected actual).bind fun _ _ => keeps_markReturned.bind fun _ _ => .pure trivial
      cases value with
      | none => exact (hreturn .unit).tracks
      | some value => exact (value.infer_tracks hvalue hA).before hreturn
  | .jump _ _ label, _, scope, _, _, _, _ => by
    rw [Stmt.infer, Stmt.visits, Stmt.nodes]
    exact (checkJump_keeps scope label).tracks.before fun _ => .pure trivial
  | .expr e, _, _, _, _, he, hA => by
    rw [Stmt.infer, Stmt.visits, Stmt.nodes]
    exact e.infer_tracks he hA

theorem Block.infer_tracks : ∀ (block : Block) {pinned : List TypeId} {scope : ScopeId} {n n' : Nat},
    block.Placed g scope n n' → A.Below n →
    Tracks A pinned (block.infer pinned) (block.visits pinned) block.nodes
  | .mk mark stmts, pinned, _, _, _, ⟨hmark, _, hstmts⟩, hA => by
    rw [Block.infer, Block.visits, Block.nodes]
    refine .after (keeps_recorded hmark) ?_
    rintro _ rfl
    refine .after (predeclareAll_keeps stmts fun _ _ => hA.lacks _) fun pins _ => ?_
    have hstmts : Tracks A (pinned ++ pins.vars) _ _ _ := inferStmts_tracks stmts hstmts (hA.mono (Nat.le_succ _)) pins
    exact (hstmts.pins (List.subset_append_left _ _)).before fun _ => .pure trivial

/-- **Statements one after another**, with the variables among them pinned throughout. -/
theorem inferStmts_tracks : ∀ (stmts : List Stmt) {pinned : List TypeId} {scope : ScopeId} {n n' : Nat},
    PlacedStmts g scope stmts n n' → A.Below n → ∀ pins : Pins,
    Tracks A (pinned ++ pins.vars) (inferStmts scope pinned pins stmts) (stmtsVisits scope pinned pins stmts)
      (stmtsNodes stmts)
  | [], _, _, _, _, _, _, _ => by
    rw [inferStmts, stmtsVisits, stmtsNodes]
    exact .pure
  | stmt :: rest, pinned, scope, _, _, ⟨_, hstmt, hrest⟩, hA, pins => by
    rw [inferStmts, stmtsVisits, stmtsNodes]
    have hsub : pinned ++ pins.vars ⊆ pinned ++ pins.all :=
      List.append_subset.mpr ⟨List.subset_append_left _ _,
        List.subset_append_of_subset_right _ (List.subset_append_left _ _)⟩
    refine .visiting ((stmt.infer_tracks hstmt hA).pins hsub) fun ty => ?_
    refine .after (stmt.settle_keeps scope pins) fun pins' hvars => ?_
    rw [← hvars]
    exact (inferStmts_tracks rest hrest (hA.mono hstmt.le) pins').before fun _ => .pure trivial

theorem inferElifs_tracks : ∀ (elifs : List Elif) {pinned : List TypeId} {scope : ScopeId} {n n' : Nat},
    PlacedElifs g scope elifs n n' → A.Below n →
    Tracks A pinned (inferElifs pinned elifs) (elifsVisits pinned elifs) (elifsNodes elifs)
  | [], _, _, _, _, _, _ => by
    rw [inferElifs, elifsVisits, elifsNodes]
    exact .pure
  | .mk _ cond body :: rest, _, _, _, _, ⟨_, _, hcond, hbody, hrest⟩, hA => by
    rw [inferElifs, elifsVisits, elifsNodes]
    have hA₁ := hA.mono hcond.le
    exact .visiting (inferCondition_tracks hcond hA) fun _ => .visiting (body.infer_tracks hbody hA₁) fun _ =>
      inferElifs_tracks rest hrest (hA₁.mono hbody.le)

end

end TypeInference
