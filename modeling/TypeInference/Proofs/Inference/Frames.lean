import TypeInference.Proofs.Inference.Quiet
import TypeInference.Proofs.Typing.Rules

/-!
# `Proofs.Inference.Frames` — open functions are balanced

Every function that inference opens it closes again, also when it stops inside the body, and a `return` is noted
for the function in which it stands and for no other. So whatever is looked at, and however many functions are open
by then, the same functions are open afterwards, and only the innermost can have changed: it has returned if it had
before, or if what was looked at returns from it.

The proof needs nothing about the state or the program: `Balanced` says it of a computation, quiet computations are
balanced, every other step is, too, and the trees follow by induction.

## Contents
* `SameStack`, `innermostReturned?`, `Balanced` — what a run does to the open functions;
* `Balanced.bind`, `Balanced.inFrame` — computations one after another, and inside a function;
* `balanced_update`, `balanced_markReturned`, … — one lemma for each step that is not quiet;
* `Expr.infer_balanced`, `Stmt.infer_balanced` — trees;
* `frames_balanced` — the main result.
-/

namespace TypeInference

open InferM

/-! ## What a run does to the open functions -/

/-- The same functions are open, and those around the innermost are as they were. -/
structure SameStack (before after : List Frame) : Prop where
  results : after.map Frame.result = before.map Frame.result
  around : after.tail = before.tail

/-- Whether the innermost open function has returned, if a function is open. -/
def innermostReturned? (frames : List Frame) : Option Bool := frames.head?.map Frame.returned

namespace SameStack

theorem refl (frames : List Frame) : SameStack frames frames := ⟨rfl, rfl⟩

theorem trans {frames frames' frames'' : List Frame} (h : SameStack frames frames')
    (h' : SameStack frames' frames'') : SameStack frames frames'' :=
  ⟨h'.results.trans h.results, h'.around.trans h.around⟩

end SameStack

section Combinators

variable {α β : Type} {m : InferM α} {next : α → InferM β} {r r' : Bool}

/-- Every run leaves the same functions open and, if it ends, the innermost of them has returned exactly if it had
    before or `returns` says so. Whether a function is open at all is left to the state. -/
def Balanced (returns : Bool) (m : InferM α) : Prop :=
  ∀ s : Inference, Within (fun s s' => SameStack s.frames s'.frames) (fun _ => True) m s fun _ s' =>
    innermostReturned? s'.frames = (innermostReturned? s.frames).map (· || returns)

theorem map_or_false (flag : Option Bool) : flag = flag.map (· || false) := by
  rcases flag with _ | flag
  · rfl
  · rw [Option.map_some, Bool.or_false]

/-- A computation that never touches the open functions is balanced. -/
theorem Balanced.of_frames (h : ∀ s, Within (fun s s' => s'.frames = s.frames) (fun _ => True) m s fun _ _ => True) :
    Balanced false m := by
  intro s
  refine ((h s).mono fun _ s' hframes _ => ?_).relax fun s' hframes => hframes ▸ .refl _
  rw [hframes]
  exact map_or_false _

theorem Balanced.pure {a : α} : Balanced false (pure a : InferM α) := .of_frames fun _ => .pure rfl trivial

theorem Balanced.refuse (cause : Cause) (span : Span) : Balanced r (refuse cause span : InferM α) := fun _ =>
  .of_error rfl (.refl _) trivial

/-- **One computation, then another**, returns if either of them does. -/
theorem Balanced.bind (h : Balanced r m) (hnext : ∀ a, Balanced r' (next a)) : Balanced (r || r') (m >>= next) := by
  intro s
  refine (h s).bind .trans fun a s' _ hflag => (hnext a s').mono fun b s'' _ hflag' => ?_
  rw [hflag', hflag, Option.map_map]
  exact congrArg (Option.map · _) (funext fun flag => Bool.or_assoc flag r r')

/-- A quiet computation does not return. -/
theorem Quiet.balanced {Q : α → Prop} (h : Quiet m Q) : Balanced false m :=
  .of_frames fun s => ((h s).mono fun _ _ _ _ => trivial).relax fun _ hquiet => hquiet.2

theorem Balanced.andThen (h : Balanced false m) (hnext : ∀ a, Balanced r (next a)) : Balanced r (m >>= next) :=
  (Bool.false_or r) ▸ h.bind hnext

theorem Balanced.after {Q : α → Prop} (h : Quiet m Q) (hnext : ∀ a, Balanced r (next a)) : Balanced r (m >>= next) :=
  h.balanced.andThen hnext

theorem Balanced.before (h : Balanced r m) (hnext : ∀ a, Balanced false (next a)) : Balanced r (m >>= next) :=
  (Bool.or_false r) ▸ h.bind hnext

/-! ### Inside a function -/

/-- **Inside a function.** The functions around it are as they were, also when the run stops in the body, and it is
    known whether the body returned. -/
theorem Balanced.withFrame_within (h : Balanced r m) (result : TypeId) (s : Inference) :
    Within (fun s s' => s'.frames = s.frames) (fun _ => True) (withFrame result m) s
      fun returned _ => returned = r := by
  have hbody := h { s with frames := ⟨result, false⟩ :: s.frames }
  cases hrun : m { s with frames := ⟨result, false⟩ :: s.frames } with
  | error reason s' => exact .of_error (withFrame_of_error hrun) (hbody.error hrun).1.around trivial
  | ok a s' =>
    obtain ⟨hstack, hflag⟩ := hbody.ok hrun
    refine .of_ok (withFrame_of_ok hrun) hstack.around ?_
    -- The frame that was opened is still there, and is the innermost.
    cases hframes : s'.frames with
    | nil => rw [hframes] at hflag; cases hflag
    | cons frame frames =>
      rw [hframes] at hflag
      exact Option.some.inj hflag

/-- What is returned inside a function is not returned from the one around it. -/
theorem Balanced.inFrame (h : Balanced r m) (result : TypeId) : Balanced false (withFrame result m) :=
  .of_frames fun s => (h.withFrame_within result s).mono fun _ _ _ _ => trivial

end Combinators

/-! ## Steps -/

section Steps

variable {α : Type}

/-- A change of a symbol is no matter of open functions. -/
theorem balanced_update (scope : ScopeId) (name : String) (change : Symbol → Symbol) :
    Balanced false (update scope name change) := by
  refine .of_frames fun s => ?_
  have hrun := update_run scope name change s
  cases hchanged : s.scopes.update scope name change with
  | ok scopes =>
    rw [hchanged] at hrun
    exact .of_ok hrun rfl trivial
  | error fault =>
    rw [hchanged] at hrun
    exact .of_error hrun rfl trivial

theorem balanced_setType (scope : ScopeId) (name : String) (ty : TypeId) : Balanced false (setType scope name ty) :=
  balanced_update _ _ _

theorem balanced_typeOf (scope : ScopeId) (name : String) :
    ∀ declared : Option TypeId, Balanced false (typeOf scope name declared)
  | some _ => .pure
  | none => .after (quiet_create _) fun ty => (balanced_setType scope name ty).andThen fun _ => .pure

theorem balanced_declaredType (scope : ScopeId) (name : String) : Balanced false (declaredType scope name) :=
  .after (quiet_getLocal scope name) fun _ => balanced_typeOf scope name _

/-- Only the innermost function returns. -/
theorem balanced_markReturned : Balanced true markReturned := by
  rintro ⟨types, scopes, frames⟩
  cases frames with
  | nil => exact .of_ok rfl (.refl _) rfl
  | cons frame frames => exact .of_ok rfl ⟨rfl, rfl⟩ (congrArg some (Bool.or_true frame.returned).symm)

end Steps

/-! ## Names -/

/-- A name that is used may be given a type, if it has been left over without one. -/
theorem inferName_balanced (scope : ScopeId) (name : Ident) (pinned : List TypeId) :
    Balanced false (inferName scope name pinned) := by
  refine .after (quiet_resolve scope name) fun found => ?_
  dsimp only
  split
  · exact .refuse _ _
  · exact (balanced_typeOf _ _ _).andThen fun ty => (quiet_instantiate pinned ty).balanced

theorem typeParams_balanced (own : ScopeId) : ∀ params : List Param, Balanced false (typeParams own params)
  | [] => .pure
  | p :: rest => by
    rw [typeParams]
    exact .after (denoteOrNew_quiet own p.signature) fun ty => (balanced_setType own _ ty).andThen fun _ =>
      (typeParams_balanced own rest).andThen fun _ => .pure

theorem setParamTypes_balanced (own : ScopeId) : ∀ (params : List Param) (types : List TypeId),
    Balanced false (setParamTypes own params types)
  | p :: params, ty :: types => by
    rw [setParamTypes]
    exact (balanced_setType own _ ty).andThen fun _ => setParamTypes_balanced own params types
  | [], _ | _ :: _, [] => .pure

/-! ## Declarations -/

theorem predeclareVars_balanced (scope : ScopeId) : ∀ defs : List VarDef, Balanced false (predeclareVars scope defs)
  | [] => .pure
  | d :: rest => by
    rw [predeclareVars]
    exact .after (denoteOrNew_quiet scope d.signature) fun ty => (balanced_setType scope _ ty).andThen fun _ =>
      (predeclareVars_balanced scope rest).andThen fun _ => .pure

theorem Declaration.predeclare_balanced (scope : ScopeId) : ∀ declaration : Declaration,
    Balanced false (declaration.predeclare scope)
  | .vars _ defs => (predeclareVars_balanced scope defs).andThen fun _ => .pure
  | .function _ params result =>
    .after (paramTypes_quiet scope params) fun _ => .after (denoteOrNew_quiet scope result) fun _ =>
      .after (quiet_create _) fun ty => (balanced_setType scope _ ty).andThen fun _ => .pure
  | .type _ _ => .after (quiet_create _) fun ty => (balanced_setType scope _ ty).andThen fun _ => .pure

theorem Stmt.predeclare_balanced (scope : ScopeId) (stmt : Stmt) : Balanced false (stmt.predeclare scope) := by
  unfold Stmt.predeclare
  split
  · exact Declaration.predeclare_balanced scope _
  · exact .pure

theorem predeclareAll_balanced (scope : ScopeId) : ∀ stmts : List Stmt, Balanced false (predeclareAll scope stmts)
  | [] => .pure
  | stmt :: rest => by
    rw [predeclareAll]
    exact (stmt.predeclare_balanced scope).andThen fun _ => (predeclareAll_balanced scope rest).andThen fun _ => .pure

/-! ## Expressions -/

mutual

/-- **No expression returns** from the function it stands in. -/
theorem Expr.infer_balanced (pinned : List TypeId) : ∀ e : Expr, Balanced false (e.infer pinned)
  | .number _ | .string _ _ | .bool _ _ => by
    rw [Expr.infer]
    exact .after (quiet_requireScope _) fun _ => .pure
  | .name _ id => by
    rw [Expr.infer]
    exact .after (quiet_requireScope _) fun scope => inferName_balanced scope id pinned
  | .list _ items => by
    rw [Expr.infer]
    exact .after (quiet_requireScope _) fun _ => .after (quiet_create _) fun element =>
      (inferElements_balanced pinned element items).andThen fun _ => (quiet_create _).balanced
  | .map _ entries => by
    rw [Expr.infer]
    exact .after (quiet_requireScope _) fun _ => .after (quiet_create _) fun key =>
      .after (quiet_create _) fun value =>
        (inferEntries_balanced pinned key value entries).andThen fun _ => (quiet_create _).balanced
  | .tuple _ items => by
    rw [Expr.infer]
    exact .after (quiet_requireScope _) fun _ => (inferExprs_balanced pinned items).andThen fun _ =>
      (quiet_create _).balanced
  | .access _ left index => by
    rw [Expr.infer]
    exact .after (quiet_requireScope _) fun _ => (left.infer_balanced pinned).andThen fun _ =>
      (index.infer_balanced pinned).andThen fun _ => (quiet_consult _).balanced
  | .unary _ op operand => by
    rw [Expr.infer]
    exact .after (quiet_requireScope _) fun _ => (operand.infer_balanced pinned).andThen fun ty =>
      (inferUnary_quiet op ty _).balanced
  | .binary _ op left right => by
    rw [Expr.infer]
    exact .after (quiet_requireScope _) fun _ => (left.infer_balanced pinned).andThen fun leftType =>
      (right.infer_balanced pinned).andThen fun rightType => (inferBinary_quiet op leftType rightType _).balanced
  | .call _ callee args => by
    rw [Expr.infer]
    exact .after (quiet_requireScope _) fun _ => (callee.infer_balanced pinned).andThen fun _ =>
      (inferExprs_balanced pinned args).andThen fun _ => .after (quiet_create _) fun _ =>
        .after (quiet_create _) fun _ => .after (quiet_unify _ _ _) fun _ => .pure
  | .lambda _ _ params body => by
    rw [Expr.infer]
    exact .after (quiet_requireScope _) fun _ => .after (quiet_requireScope _) fun own =>
      (typeParams_balanced own params).andThen fun types => (body.infer_balanced (pinned ++ types)).andThen fun _ =>
        (quiet_create _).balanced
  | .when _ cond yes no => by
    rw [Expr.infer]
    exact .after (quiet_requireScope _) fun _ => (cond.infer_balanced pinned).andThen fun _ =>
      .after (quiet_unify _ _ _) fun _ => (yes.infer_balanced pinned).andThen fun _ =>
        (no.infer_balanced pinned).andThen fun _ => .after (quiet_unify _ _ _) fun _ => .pure
  | .assign _ target value => by
    rw [Expr.infer]
    exact .after (quiet_requireScope _) fun scope => .after (assignable_quiet scope target) fun _ =>
      (value.infer_balanced pinned).andThen fun _ => (balanced_typeOf _ _ _).andThen fun _ =>
        .after (quiet_unify _ _ _) fun _ => (balanced_update _ _ _).andThen fun _ => .pure

theorem inferExprs_balanced (pinned : List TypeId) : ∀ items : List Expr, Balanced false (inferExprs pinned items)
  | [] => by
    rw [inferExprs]
    exact .pure
  | e :: rest => by
    rw [inferExprs]
    exact (e.infer_balanced pinned).andThen fun _ => (inferExprs_balanced pinned rest).andThen fun _ => .pure

theorem inferElements_balanced (pinned : List TypeId) (element : TypeId) : ∀ items : List Expr,
    Balanced false (inferElements pinned element items)
  | [] => by
    rw [inferElements]
    exact .pure
  | e :: rest => by
    rw [inferElements]
    exact (e.infer_balanced pinned).andThen fun _ => .after (quiet_unify _ _ _) fun _ =>
      inferElements_balanced pinned element rest

theorem inferEntries_balanced (pinned : List TypeId) (keyType valueType : TypeId) : ∀ entries : List (Expr × Expr),
    Balanced false (inferEntries pinned keyType valueType entries)
  | [] => by
    rw [inferEntries]
    exact .pure
  | (key, value) :: rest => by
    rw [inferEntries]
    exact (key.infer_balanced pinned).andThen fun _ => .after (quiet_unify _ _ _) fun _ =>
      (value.infer_balanced pinned).andThen fun _ => .after (quiet_unify _ _ _) fun _ =>
        inferEntries_balanced pinned keyType valueType rest

end

/-! ## Statements -/

theorem inferCondition_balanced (pinned : List TypeId) (cond : Expr) :
    Balanced false (inferCondition pinned cond) :=
  (cond.infer_balanced pinned).andThen fun _ => (quiet_unify _ _ _).balanced

/-- The first values of variables are expressions, and do not return. -/
theorem inferDefs_balanced (scope : ScopeId) (pinned : List TypeId) : ∀ defs : List VarDef,
    Balanced false (inferDefs scope pinned defs)
  | [] => .pure
  | d :: rest => by
    rw [inferDefs]
    refine (balanced_declaredType scope d.name.name).andThen fun declared => ?_
    cases d.value with
    | none => exact inferDefs_balanced scope pinned rest
    | some value =>
      exact (value.infer_balanced pinned).andThen fun actual => .after (quiet_unify _ _ _) fun _ =>
        inferDefs_balanced scope pinned rest

mutual

/-- **A statement returns** from the function it stands in exactly if it contains a return that stands in no
    function inside it. By recursion on the statement. -/
theorem Stmt.infer_balanced (scope : ScopeId) (pinned : List TypeId) : ∀ stmt : Stmt,
    Balanced stmt.returns (stmt.infer scope pinned)
  | .vars _ _ defs => by
    rw [Stmt.infer, Stmt.returns]
    exact (inferDefs_balanced scope pinned defs).andThen fun _ => .pure
  -- Returning from the function inside is no return of the function around it.
  | .function _ name params _ body => by
    rw [Stmt.infer, Stmt.returns]
    refine .after (quiet_requireScope _) fun own => (balanced_declaredType scope name.name).andThen fun ty => ?_
    refine .after (functionParts_quiet _ ty params.length) fun parts => ?_
    refine (setParamTypes_balanced own params parts.1).andThen fun _ => ?_
    refine ((body.infer_balanced (pinned ++ [ty])).inFrame parts.2).andThen fun returned => ?_
    cases returned with
    | true => exact .pure
    | false => exact .after (quiet_unify _ _ _) fun _ => .pure
  | .blueprint _ name body | .trait _ name body => by
    rw [Stmt.infer, Stmt.returns]
    exact (body.infer_balanced pinned).before fun _ => balanced_declaredType scope name.name
  | .struct _ name fields => by
    rw [Stmt.infer, Stmt.returns]
    exact .after (inferFields_quiet scope [] fields) fun _ => balanced_declaredType scope name.name
  | .enum _ name variants => by
    rw [Stmt.infer, Stmt.returns]
    exact .after (checkVariants_quiet [] variants) fun _ => balanced_declaredType scope name.name
  | .label _ _ stmt => by
    rw [Stmt.infer, Stmt.returns]
    exact .after (quiet_requireScope _) fun own => (stmt.predeclare_balanced own).andThen fun pins =>
      stmt.infer_balanced own (pinned ++ pins.all)
  | .block body => by
    rw [Stmt.infer, Stmt.returns]
    exact body.infer_balanced pinned
  | .branch _ cond body elifs none => by
    rw [Stmt.infer, Stmt.returns]
    exact (inferCondition_balanced pinned cond).andThen fun _ => (body.infer_balanced pinned).bind fun _ =>
      (inferElifs_balanced pinned elifs).before fun _ => .pure
  | .branch _ cond body elifs (some last) => by
    rw [Stmt.infer, Stmt.returns, Bool.or_assoc]
    exact (inferCondition_balanced pinned cond).andThen fun _ => (body.infer_balanced pinned).bind fun _ =>
      (inferElifs_balanced pinned elifs).bind fun _ => last.infer_balanced pinned
  | .loop _ cond body => by
    rw [Stmt.infer, Stmt.returns]
    exact (inferCondition_balanced pinned cond).andThen fun _ => body.infer_balanced pinned
  -- A return is where the flag of the innermost function is set.
  | .ret span value => by
    rw [Stmt.infer, Stmt.returns]
    refine .after quiet_expectedResult? fun expected => ?_
    cases expected with
    | none => exact .refuse _ _
    | some expected =>
      have hreturn : ∀ actual, Balanced true (do unify span expected actual; markReturned; pure TypeId.unit) :=
        fun actual => .after (quiet_unify span expected actual) fun _ => balanced_markReturned.before fun _ => .pure
      cases value with
      | none => exact hreturn .unit
      | some value => exact (value.infer_balanced pinned).andThen hreturn
  | .jump _ _ label => by
    rw [Stmt.infer, Stmt.returns]
    exact .after (checkJump_quiet scope label) fun _ => .pure
  | .expr e => by
    rw [Stmt.infer, Stmt.returns]
    exact e.infer_balanced pinned

theorem Block.infer_balanced (pinned : List TypeId) : ∀ block : Block,
    Balanced block.returns (block.infer pinned)
  | .mk mark stmts => by
    rw [Block.infer, Block.returns]
    exact .after (quiet_requireScope mark) fun scope => (predeclareAll_balanced scope stmts).andThen fun pins =>
      (inferStmts_balanced pinned scope pins stmts).before fun _ => .pure

theorem inferStmts_balanced (pinned : List TypeId) : ∀ (scope : ScopeId) (pins : Pins) (stmts : List Stmt),
    Balanced (stmtsReturn stmts) (inferStmts scope pinned pins stmts)
  | _, _, [] => by
    rw [inferStmts, stmtsReturn]
    exact .pure
  | scope, pins, stmt :: rest => by
    rw [inferStmts, stmtsReturn]
    exact (stmt.infer_balanced scope (pinned ++ pins.all)).bind fun _ =>
      .after (stmt.settle_quiet scope pins) fun pins' =>
        (inferStmts_balanced pinned scope pins' rest).before fun _ => .pure

theorem inferElifs_balanced (pinned : List TypeId) : ∀ elifs : List Elif,
    Balanced (elifsReturn elifs) (inferElifs pinned elifs)
  | [] => by
    rw [inferElifs, elifsReturn]
    exact .pure
  | .mk _ cond body :: rest => by
    rw [inferElifs, elifsReturn]
    exact (inferCondition_balanced pinned cond).andThen fun _ => (body.infer_balanced pinned).bind fun _ =>
      inferElifs_balanced pinned rest

end

/-! ## The main result -/

/-- A program returns as its statements do, though nothing is open for it to return from. -/
theorem Program.infer_balanced (pinned : List TypeId) (program : Program) :
    Balanced (stmtsReturn program.stmts) (program.infer pinned) := by
  refine .after (quiet_requireScope _) fun scope => Balanced.before ?_ fun _ => .pure
  exact (predeclareAll_balanced scope program.stmts).andThen fun pins =>
    inferStmts_balanced pinned scope pins program.stmts

/-- **Open functions are balanced.** Whatever is looked at, in whatever state, and whether it is refused or not: the
    same functions are open afterwards as before, and those around the innermost are unchanged. If the run ends, the
    innermost function has returned exactly if it had before or the node returns from it, which no expression does, and
    a statement, block or program does if it contains a return that stands in no function inside it. -/
theorem frames_balanced (pinned : List TypeId) :
    (∀ e : Expr, Balanced false (e.infer pinned)) ∧
    (∀ (scope : ScopeId) (stmt : Stmt), Balanced stmt.returns (stmt.infer scope pinned)) ∧
    (∀ block : Block, Balanced block.returns (block.infer pinned)) ∧
    ∀ program : Program, Balanced (stmtsReturn program.stmts) (program.infer pinned) :=
  ⟨fun e => e.infer_balanced pinned, fun scope stmt => stmt.infer_balanced scope pinned,
    fun block => block.infer_balanced pinned, fun program => program.infer_balanced pinned⟩

end TypeInference
